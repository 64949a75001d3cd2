import Scaffold.Text.PathName

/-!
A file system with directories, files and symbolic links, and the directory that relative
paths start from. Every entry is kept under the names that lead to it from the root.
-/
namespace Scaffold

/-- The names on the way from the root to an entry. -/
abbrev Names := List String

inductive FileTree.Entry where
  | directory
  | file (content : ByteArray)
  /-- A symbolic link; a relative target starts in the directory of the link. -/
  | link (target : String)

structure FileTree where
  /-- All entries but the root. -/
  entries : List (Names × FileTree.Entry)
  working : Names

namespace FileTree

def entry? (t : FileTree) (at_ : Names) : Option Entry :=
  if at_ = [] then some .directory else t.entries.lookup at_

def put (t : FileTree) (at_ : Names) (e : Entry) : FileTree :=
  { t with entries := (at_, e) :: t.entries.filter fun x => x.1 ≠ at_ }

/-- The names in a directory, in increasing order. -/
def names (t : FileTree) (directory : Names) : List String :=
  (t.entries.filterMap fun x =>
    if x.1.dropLast = directory then x.1.getLast? else none).mergeSort

/-- A slash at the end of a path asks for a directory, as a dot would. -/
def components (path : String) : List String :=
  if path.toList.getLast? = some '/' then PathName.parts path ++ ["."] else PathName.parts path

/-- Where the walk along a path ends. -/
inductive Stop where
  | directory (at_ : Names)
  | file (at_ : Names) (content : ByteArray)
  /-- Nothing has the last name, but its directory is there. -/
  | free (at_ : Names)
  /-- A link was met before the end: where it is, what it says and what follows it. -/
  | link (directory : Names) (target : String) (rest : List String)
  /-- A directory on the way is missing. -/
  | missing
  /-- Something on the way is no directory, or links lead to links without end. -/
  | blocked

/-- The most bytes a name can have, and the most a path can have. -/
def maxNameBytes : Nat := 255

def maxPathBytes : Nat := 4095

/-- Whether a path can be asked for at all. -/
def isPath (path : String) : Bool :=
  path.utf8ByteSize ≤ maxPathBytes && !path.toList.contains '\x00'

/-- Walks from a directory until the path ends or a link is met. -/
def walk (t : FileTree) (directory : Names) : List String → Stop
  | [] => .directory directory
  | name :: rest =>
    if maxNameBytes < name.utf8ByteSize then .blocked
    else if name = "." then walk t directory rest
    else if name = ".." then walk t directory.dropLast rest
    else
      match t.entry? (directory ++ [name]) with
      | some .directory => walk t (directory ++ [name]) rest
      | some (.link target) => .link directory target rest
      | some (.file content) =>
        if rest = [] then .file (directory ++ [name]) content else .blocked
      | none => if rest = [] then .free (directory ++ [name]) else .missing

def base (directory : Names) (path : String) : Names :=
  if PathName.isAbsolute path then [] else directory

/-- Walks along a path and follows at most as many links as `links` says. -/
def follow (t : FileTree) : Nat → Names → List String → Stop
  | 0, _, _ => .blocked
  | links + 1, directory, parts =>
    match t.walk directory parts with
    | .link directory target rest =>
      if links = 0 then .blocked
      else follow t links (base directory target) (components target ++ rest)
    | stop => stop

/-- The most links that a path may lead through. -/
def maxLinks : Nat := 40

/-- Where a path leads. The empty path leads nowhere. -/
def find (t : FileTree) (path : String) : Stop :=
  if path = "" then .missing
  else if !isPath path then .blocked
  else t.follow (maxLinks + 1) (base t.working path) (components path)

def directory? (t : FileTree) (path : String) : Option Names :=
  match t.find path with
  | .directory at_ => some at_
  | _ => none

def isDirectory (t : FileTree) (path : String) : Bool := (t.directory? path).isSome

def read? (t : FileTree) (path : String) : Option ByteArray :=
  match t.find path with
  | .file _ content => some content
  | _ => none

def isFile (t : FileTree) (path : String) : Bool := (t.read? path).isSome

def contains (t : FileTree) (path : String) : Bool := t.isDirectory path || t.isFile path

/-- Writes a file where a path leads. The directory has to be there. -/
def write? (t : FileTree) (path : String) (content : ByteArray) : Option FileTree :=
  match t.find path with
  | .file at_ _ | .free at_ => some (t.put at_ (.file content))
  | _ => none

/-- What came of making a directory. -/
inductive Made where
  | done (t : FileTree)
  | exists
  | missing
  | blocked

/-- Makes one directory. A link in its place is not followed, but counts as something that is
there. -/
def makeDirectory (t : FileTree) (path : String) : Made :=
  let parts := PathName.parts path
  match parts.getLast? with
  | none => if path = "" then .missing else .exists
  | some name =>
    match t.follow (maxLinks + 1) (base t.working path) parts.dropLast with
    | .directory at_ =>
      if name = "." ∨ name = ".." ∨ (t.entry? (at_ ++ [name])).isSome then .exists
      else if isPath path ∧ name.utf8ByteSize ≤ maxNameBytes then
        .done (t.put (at_ ++ [name]) .directory)
      else .blocked
    | .missing | .free _ => .missing
    | _ => .blocked

/-- Makes a directory and the ones above it that are missing, at most `levels` of them.
Whatever was made stays if the rest fails. -/
def makeDirectories (t : FileTree) : Nat → String → Bool × FileTree
  | 0, _ => (false, t)
  | levels + 1, path =>
    if path = "" then (true, t)
    else
      match t.makeDirectory path with
      | .done t => (true, t)
      | .exists => (t.isDirectory path, t)
      | .blocked => (t.isDirectory path, t)
      | .missing =>
        match PathName.parent? path with
        | none => (false, t)
        | some parent =>
          let (isMade, t) := makeDirectories t levels parent
          if isMade then
            match t.makeDirectory path with
            | .done t => (true, t)
            | _ => (t.isDirectory path, t)
          else (false, t)

/-- Collects the files below a directory; `above` are the directories around it that are being
walked, to which no link may lead back. -/
def filesBelow (t : FileTree) : Nat → List Names → Names → String → List String
  | 0, _, _, _ => []
  | levels + 1, above, directory, path =>
    (t.names directory).flatMap fun name =>
      let inner := PathName.push path name
      let above := directory :: above
      match t.entry? (directory ++ [name]) with
      | some .directory => filesBelow t levels above (directory ++ [name]) inner
      | some (.file _) => [inner]
      | some (.link _) =>
        match t.find inner with
        | .directory target =>
          if target ∈ above then [] else filesBelow t levels above target inner
        | .file _ _ => [inner]
        | _ => []
      | none => []

/-- Deeper than this no walk without a loop can go: it enters no directory twice by links, and
between two links it goes only down. -/
def maxLevels (t : FileTree) : Nat := (t.entries.length + 1) * (t.entries.length + 1)

/-- The files below a directory, through links as well, depth first and in increasing order of
the names. Links back to a directory that is being walked, and links to nothing, are skipped. -/
def files (t : FileTree) (path : String) : List String :=
  match t.directory? path with
  | some directory => t.filesBelow t.maxLevels [] directory path
  | none => []

end FileTree

end Scaffold
