import Scaffold.Tree.Mismatch

/-!
Reading values out of trees. A reader is told how many levels of nesting are left. Records
are read from a table, whose unknown keys are skipped, or from a list of field values in the
order of the fields; tagged values carry the name of their variant in one entry of the table,
or in front of the list. Of several faults the one that comes first in the document counts,
and missing fields come last.
-/
namespace Scaffold

abbrev Reader (α : Type) := Nat → Tree → Except Mismatch α

namespace Reader

/-- The deepest nesting that is read. -/
def maxLevels : Nat := 127

def text : Reader String
  | _, .text s => .ok s
  | _, t => .error (.unexpected t "a string")

def flag : Reader Bool
  | _, .flag b => .ok b
  | _, t => .error (.unexpected t "a boolean")

/-- A size: an integer that is not negative. -/
def size : Reader Nat
  | _, .int (.ofNat n) => .ok n
  | _, .int z => .error (.value (.int z) "usize")
  | _, t => .error (.unexpected t "usize")

/-- Null reads as nothing. -/
def optional (read : Reader α) : Reader (Option α)
  | _, .null => .ok none
  | levels, t => (read levels t).map some

def list (read : Reader α) : Reader (List α)
  | 0, .list _ => .error .malformed
  | levels + 1, .list items => items.mapM (read levels)
  | _, t => .error (.unexpected t "a sequence")

/-- Finds a variant by its written name. -/
def variant (known : List (String × α)) (name : String) : Except Mismatch α :=
  match known.lookup name with
  | some a => .ok a
  | none => .error (.variant name (known.map (·.1)))

/-- A bare variant: its name, or a table with the name as only key and null as its value. -/
def choice (known : List (String × α)) : Reader α
  | _, .text s => variant known s
  | levels, .table ((name, t) :: rest) => do
    if levels = 0 then throw .malformed
    let a ← variant known name
    match t with
    | .null => if rest.isEmpty then pure a else throw .malformed
    | t => throw (.unexpected t "unit")
  | _, _ => .error .malformed

/-- A bare variant inside a tagged value, where the whole part is at hand before it is read. -/
def heldChoice (known : List (String × α)) : Reader α
  | _, .text s => variant known s
  | _, .table [(name, t)] => do
    let a ← variant known name
    match t with
    | .null => pure a
    | .table [] => pure a
    | t => throw (.unexpected t "unit")
  | _, .table _ => .error (.value .table "map with a single key")
  | _, t => .error (.unexpected t "string or map")

end Reader

/-- A field of a record: how its tree changes the record that is being filled. -/
structure Field (σ : Type) where
  name : String
  required : Bool
  set : Nat → Tree → σ → Except Mismatch σ

namespace Field

def of (name : String) (read : Reader α) (put : α → σ → σ) : Field σ :=
  ⟨name, false, fun levels t s => (read levels t).map fun a => put a s⟩

def must (name : String) (read : Reader α) (put : α → σ → σ) : Field σ :=
  ⟨name, true, fun levels t s => (read levels t).map fun a => put a s⟩

end Field

namespace Record

/-- Fills a record from the entries of a table; `seen` are the fields that were set. -/
def fill (fields : List (Field σ)) (levels : Nat) :
    List (String × Tree) → List String → σ → Except Mismatch (List String × σ)
  | [], seen, s => .ok (seen, s)
  | (key, t) :: rest, seen, s =>
    match fields.find? (·.name = key) with
    | none => fill fields levels rest seen s
    | some field =>
      if key ∈ seen then .error (.duplicate key)
      else do
        let s ← field.set levels t s
        fill fields levels rest (key :: seen) s

def ofEntries (fields : List (Field σ)) (levels : Nat) (entries : List (String × Tree)) (s : σ) :
    Except Mismatch σ := do
  let (seen, s) ← fill fields levels entries [] s
  match fields.find? fun f => f.required ∧ f.name ∉ seen with
  | some f => throw (.missing f.name)
  | none => pure s

/-- Fills a record from field values in order; gives back the values that are too many. -/
def ofItems (levels : Nat) (short : Mismatch) :
    List (Field σ) → List Tree → σ → Except Mismatch (List Tree × σ)
  | [], rest, s => .ok (rest, s)
  | f :: fields, [], s => if f.required then .error short else ofItems levels short fields [] s
  | f :: fields, t :: rest, s => do
    let s ← f.set levels t s
    ofItems levels short fields rest s

def countOf (n : Nat) : String := if n = 1 then "1 element" else toString n ++ " elements"

/-- Reads a record with the given title, starting from the values that fields have if they do
not occur. -/
def read (title : String) (fields : List (Field σ)) (initial : σ) : Reader σ
  | 0, .list _ | 0, .table _ => .error .malformed
  | levels + 1, .table entries => ofEntries fields levels entries initial
  | levels + 1, .list items => do
    let expected := "struct " ++ title ++ " with " ++ countOf fields.length
    let (rest, s) ← ofItems levels (.length items.length expected) fields items initial
    if rest.isEmpty then pure s else throw .malformed
  | _, t => .error (.unexpected t ("struct " ++ title))

end Record

/-- What a tagged value holds beside its tag. -/
inductive Body where
  | entries (es : List (String × Tree))
  | items (ts : List Tree)

/-- A kind of tagged values: its title, the key of the tag, and the names of its variants. -/
structure Tagging where
  title : String
  tag : String
  variants : List String

namespace Tagging

/-- The name of the variant. Inside another tagged value its position may stand for it. -/
def ident (g : Tagging) (held : Bool) : Tree → Except Mismatch String
  | .text s => if s ∈ g.variants then .ok s else .error (.variant s g.variants)
  | .int (.ofNat n) =>
    if held then
      match g.variants[n]? with
      | some s => .ok s
      | none => .error (.value (.int n) ("variant index 0 <= i < " ++ toString g.variants.length))
    else .error (.sort (.int n) "variant identifier")
  | t => .error (.unexpected t "variant identifier")

/-- Takes the tag out of the entries of a table. -/
def extract (g : Tagging) (held : Bool) :
    List (String × Tree) → Option String → Except Mismatch (Option String × List (String × Tree))
  | [], found => .ok (found, [])
  | (key, t) :: rest, found =>
    if key = g.tag then
      match found with
      | some _ => .error (.duplicate g.tag)
      | none => do
        let name ← g.ident held t
        g.extract held rest (some name)
    else do
      let (found, others) ← g.extract held rest found
      pure (found, (key, t) :: others)

/-- Splits a tagged value into the name of its variant and the rest. -/
def split (g : Tagging) (held : Bool) : Tree → Except Mismatch (String × Body)
  | .table entries => do
    match ← g.extract held entries none with
    | (some name, others) => pure (name, .entries others)
    | (none, _) => throw (.missing g.tag)
  | .list [] => .error (.missing g.tag)
  | .list (t :: rest) => do
    let name ← g.ident held t
    pure (name, .items rest)
  | t => .error (.unexpected t ("internally tagged enum " ++ g.title))

/-- Reads the fields of a variant from what stands beside the tag. -/
def fields (g : Tagging) (label : String) (fields : List (Field σ)) (initial : σ) (levels : Nat) :
    Body → Except Mismatch σ
  | .entries es => Record.ofEntries fields levels es initial
  | .items ts => do
    let expected :=
      "struct variant " ++ g.title ++ "::" ++ label ++ " with " ++ Record.countOf fields.length
    let (rest, s) ← Record.ofItems levels (.length ts.length expected) fields ts initial
    if rest.isEmpty then pure s
    else throw (.length ts.length (Record.countOf fields.length ++ " in sequence"))

/-- A variant without fields; any entries beside its tag are skipped. -/
def bare : Body → Except Mismatch Unit
  | .entries _ => .ok ()
  | .items [] => .ok ()
  | .items ts => .error (.length ts.length (Record.countOf 0 ++ " in sequence"))

/-- A tagged value is taken whole before it is read, so all its parts need a value. -/
def whole (read : Reader α) : Reader α := fun levels t =>
  if t.readable levels then read levels t
  else
    match t with
    | .list _ | .table _ => .error .malformed
    | t => read levels t

end Tagging

end Scaffold
