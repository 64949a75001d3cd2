import Scaffold.Code.Written
import Scaffold.FileTree
import Scaffold.Generation
import Scaffold.Metadata.Document
import Scaffold.Settings.Text

/-!
A pass over a directory: read the metadata documents in it, generate, write one JSON document
for every class and one file of TypeScript definitions.
-/
namespace Scaffold

/-- An action on the file system. What it wrote stays written if it fails. -/
abbrev Disk := ExceptT Fault (StateM FileTree)

structure Job where
  /-- The directory with the metadata. -/
  metadata : String
  /-- The directory to write to. -/
  output : String
  /-- The format of the metadata. -/
  language : String
  settings : Settings
deriving DecidableEq, Repr, Inhabited

/-- How much a pass generated. -/
structure Tally where
  models : Nat
  classes : Nat
  definitions : Nat
deriving DecidableEq, Repr

def Output.tally (o : Output) : Tally := ⟨o.models, o.classes.length, o.definitionCount⟩

/-- The text of a file; a file that is no text counts as one that cannot be read. -/
def FileTree.text? (t : FileTree) (path : String) : Option String :=
  (t.read? path).bind String.fromUTF8?

namespace Job

def standard : Job where
  metadata := "build/modelgen/metadata"
  output := "build/modelgen/generated"
  language := "json"
  settings := .standard

/-- The extensions of metadata files by format. -/
def extensions? (language : String) : Option (List String) :=
  if language = "json" then some ["json"] else none

/-- Where the document of a class is written: below a directory for each part of its package. -/
def classPath (output package name : String) : String :=
  PathName.push ((Dotted.segments package).foldl PathName.push output) (name ++ ".json")

/-- Reads metadata documents one after the other; the first fault ends it. -/
def readDocuments (t : FileTree) : List String → Catalog → Except Fault Catalog
  | [], c => .ok c
  | path :: rest, c =>
    match t.text? path with
    | none => .error (.access path .refused)
    | some source =>
      match Document.parse source with
      | .error why => .error (.parse path why)
      | .ok d => do
        let c ← c.insertAll d.types
        readDocuments t rest c

/-- The metadata files of a job. -/
def documents (job : Job) (extensions : List String) (t : FileTree) : List String :=
  (t.files job.metadata).filter fun path =>
    extensions.any fun e => PathName.hasExtension e (PathName.fileName path)

/-- The catalog of all documents, not yet checked. -/
def load (job : Job) (t : FileTree) : Except Fault Catalog :=
  match extensions? job.language with
  | none => .error (.unsupportedLanguage job.language)
  | some extensions =>
    if t.isDirectory job.metadata then
      match job.documents extensions t with
      | [] => .error (.noMetadata job.metadata)
      | paths => readDocuments t paths .empty
    else .error (.access job.metadata .noMetadataDirectory)

/-- Runs the pass without writing anything. -/
def generate (job : Job) (t : FileTree) : Except Fault Output := do
  let c ← job.load t
  Output.ofCatalog c job.settings

/-- Projects the types only. -/
def projectTypes (job : Job) (t : FileTree) : Except Fault (List Projection.Definition) := do
  let c ← job.load t
  projectCatalog c job.settings.typescript

/-- Writes a file and makes the directories it needs. -/
def writeFile (path content : String) : Disk Unit := do
  match PathName.parent? path with
  | none => pure ()
  | some parent =>
    let (isMade, t) := (← get).makeDirectories (parent.length + 1) parent
    set t
    if isMade then pure () else throw (.access parent .refused)
  match (← get).write? path content.toUTF8 with
  | some t => set t
  | none => throw (.access path .refused)

/-- What a pass writes: paths with their contents, in order. -/
def files (job : Job) (o : Output) : List (String × String) :=
  let classes := o.classes.map fun d =>
    (classPath job.output d.package d.name, Json.pretty d.toTree)
  match o.typescript with
  | some definitions =>
    classes ++ [(PathName.push job.output job.settings.typescript.output,
      Projection.render definitions)]
  | none => classes

def write (job : Job) (o : Output) : Disk Unit :=
  (job.files o).forM fun f => writeFile f.1 f.2

/-- Runs the pass and writes its output. -/
def run (job : Job) : Disk Output := do
  let o ← (job.generate (← get) : Except Fault Output)
  job.write o
  pure o

end Job

/-- Reads settings from a file. Without a file the standard settings hold. -/
def FileTree.settings (t : FileTree) (path : String) : Except Fault Settings :=
  if t.contains path then
    match t.text? path with
    | none => .error (.access path .refused)
    | some source =>
      match Settings.parse? source with
      | some s => .ok s
      | none => .error (.invalidConfig path)
  else .ok .standard

end Scaffold
