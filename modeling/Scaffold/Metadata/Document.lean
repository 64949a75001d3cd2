import Scaffold.Metadata.Decl
import Scaffold.Json.Reader
import Scaffold.Json.Writer

/-!
Metadata documents: JSON texts that hold declarations under the key `types`.
-/
namespace Scaffold

structure Document where
  types : List Decl
deriving DecidableEq, Repr, Inhabited

namespace Document

def toTree (d : Document) : Tree := .table [("types", Tree.ofList Decl.toTree d.types)]

def render (d : Document) : String := Json.compact d.toTree

def fields : List (Field Document) :=
  [.of "types" (Reader.list Decl.reader) fun x _ => ⟨x⟩]

def reader : Reader Document := Record.read "MetadataDocument" fields ⟨[]⟩

end Document

/-- Reads a value from JSON text. A fault of its shape is reported only if the text as a whole
is well formed. -/
def Json.read (reader : Reader α) (source : String) : Except Mismatch α :=
  match Json.parse? source with
  | none => .error .malformed
  | some t =>
    match reader Reader.maxLevels t with
    | .ok a => .ok a
    | .error e => .error (if t.readable Reader.maxLevels then e else .malformed)

def Document.parse (source : String) : Except Mismatch Document := Json.read reader source

end Scaffold
