import Scaffold.Settings
import Scaffold.Tree.Record

/-!
The written shape of settings. Every field may be left out and is then as in the standard
settings.
-/
namespace Scaffold

namespace NameMap

def toTree (m : NameMap) : Tree := .table (m.entries.map fun e => (e.1, .text e.2))

/-- Adds the entries of a table; the last of several with one name counts. -/
def addEntries (levels : Nat) : List (String × Tree) → NameMap → Except Mismatch NameMap
  | [], m => .ok m
  | (key, t) :: rest, m => do
    let value ← Reader.text levels t
    addEntries levels rest (m.insert key value)

def reader : Reader NameMap
  | 0, .table _ => .error .malformed
  | levels + 1, .table entries => addEntries levels entries .empty
  | _, t => .error (.unexpected t "a map")

end NameMap

namespace Settings

namespace TypeScript

def toTree (s : TypeScript) : Tree :=
  .table [("enabled", .flag s.enabled),
    ("output", .text s.output),
    ("roots", Tree.ofList .text s.roots),
    ("mappings", s.mappings.toTree),
    ("ignored_supertypes", Tree.ofList .text s.ignoredSupertypes),
    ("void_marker", .text s.voidMarker),
    ("top_type", .text s.topType),
    ("export_prefix", .text s.lead),
    ("wide_integers", .flag s.wideIntegers)]

def fields : List (Field TypeScript) :=
  [.of "enabled" Reader.flag fun x s => { s with enabled := x },
    .of "output" Reader.text fun x s => { s with output := x },
    .of "roots" (Reader.list Reader.text) fun x s => { s with roots := x },
    .of "mappings" NameMap.reader fun x s => { s with mappings := x },
    .of "ignored_supertypes" (Reader.list Reader.text) fun x s => { s with ignoredSupertypes := x },
    .of "void_marker" Reader.text fun x s => { s with voidMarker := x },
    .of "top_type" Reader.text fun x s => { s with topType := x },
    .of "export_prefix" Reader.text fun x s => { s with lead := x },
    .of "wide_integers" Reader.flag fun x s => { s with wideIntegers := x }]

/-- Of a list no more items are looked at than there are fields. -/
def reader : Reader TypeScript := fun levels t =>
  Record.read "TypeScript" fields .standard levels <|
    match t with
    | .list items => .list (items.take fields.length)
    | t => t

end TypeScript

def toTree (s : Settings) : Tree :=
  .table [("template_suffix", .text s.templateSuffix),
    ("defaults", s.defaults.toTree),
    ("typescript", s.typescript.toTree)]

def fields : List (Field Settings) :=
  [.of "template_suffix" Reader.text fun x s => { s with templateSuffix := x },
    .of "defaults" NameMap.reader fun x s => { s with defaults := x },
    .of "typescript" TypeScript.reader fun x s => { s with typescript := x }]

def reader : Reader Settings := Record.read "Settings" fields .standard

end Settings

end Scaffold
