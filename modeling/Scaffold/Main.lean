import Scaffold.CommandLine.Run

/-!
The program. Whatever a command line can touch on the disk is read into a file tree, the
command runs on the tree, and what it changed there is written back.
-/
namespace Scaffold.Main

def absolute (place : Names) : String := "/" ++ "/".intercalate place

/-- Adds a directory and all above it. -/
def addDirectory (t : FileTree) (place : Names) : FileTree :=
  (List.range place.length).foldl (fun t n => t.put (place.take (n + 1)) .directory) t

/-- What was read of the disk: a tree, and the directories of which everything was read. -/
structure Reading where
  tree : FileTree
  whole : List Names

/-- Reads what is at a place whose directory has no links on its way. Below a directory
everything is read if `isDeep` says so. -/
partial def readPlace (isDeep : Bool) (r : Reading) (place : Names) : IO Reading := do
  let real ← try IO.FS.realPath (absolute place) catch _ => return r
  if !(← real.pathExists) then return r
  let target := PathName.parts real.toString
  let mut r := r
  if target ≠ place then r := { r with tree := r.tree.put place (.link real.toString) }
  if ← real.isDir then
    r := { r with tree := addDirectory r.tree target }
    if isDeep && !r.whole.contains target then
      r := { r with whole := target :: r.whole }
      for e in ← real.readDir do
        r ← readPlace true r (target ++ [e.fileName])
    return r
  else
    let tree := (addDirectory r.tree target.dropLast).put target (.file (← IO.FS.readBinFile real))
    return { r with tree := tree }

/-- Reads what a path leads through, and where it leads to. -/
def readPath (isDeep : Bool) (r : Reading) (path : String) : IO Reading := do
  let parts := PathName.parts path
  let lead := if PathName.isAbsolute path then "/" else ""
  let mut r := r
  for n in List.range parts.length do
    let isDeep := isDeep && n + 1 = parts.length
    match r.tree.find (lead ++ "/".intercalate (parts.take (n + 1))) with
    | .free place => r ← readPlace isDeep r place
    | .directory place => if isDeep then r ← readPlace true r place
    | _ => pure ()
  return r

/-- Reads all that a request can touch. -/
def readRequest (request : CommandLine.Request) (r : Reading) : IO Reading := do
  let r ← readPath false r request.config
  let r ← readPath true r request.metadata
  match request.task with
  | .check | .types none => return r
  | .types (some output) => readPath false r output
  | .generate output =>
    let r ← readPath true r output
    match r.tree.settings request.config with
    | .ok settings => readPath false r (PathName.push output settings.typescript.output)
    | .error _ => return r

/-- Writes what is new in a tree. -/
def writeChanges (before after : FileTree) : IO Unit := do
  for (place, e) in after.entries.reverse do
    match e, before.entry? place with
    | .directory, none => IO.FS.createDirAll (absolute place)
    | .file content, some (.file old) =>
      if content.toList ≠ old.toList then IO.FS.writeBinFile (absolute place) content
    | .file content, _ => IO.FS.writeBinFile (absolute place) content
    | _, _ => pure ()

def complaint (f : Fault) : String :=
  "Error: " ++ f.code ++ "\n\n  " ++ (f.message.getD (f.path?.getD "")) ++ "\n" ++
    (f.help.map fun h => "  help: " ++ h ++ "\n").getD ""

def run (arguments : List String) : IO UInt32 := do
  let start ← IO.monoMsNow
  let here ← IO.currentDir
  let place := PathName.parts here.toString
  let before ←
    match CommandLine.parse arguments with
    | .ok request =>
      let r ← readRequest request ⟨addDirectory ⟨[], place⟩ place, []⟩
      pure r.tree
    | .error _ => pure ⟨[], place⟩
  let (o, after) := (CommandLine.run arguments).run before
  writeChanges before after
  let stop ← IO.monoMsNow
  IO.print (o.print (toString (stop - start)))
  match o.fault with
  | some f => IO.eprint (complaint f)
  | none => if o.exit = 2 then IO.eprint CommandLine.usage
  return o.exit.toUInt32

end Scaffold.Main

def main (arguments : List String) : IO UInt32 := Scaffold.Main.run arguments
