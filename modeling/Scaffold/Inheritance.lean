import Scaffold.Catalog

/-!
The properties of a type over all its supertypes. The walk goes depth first and takes a
declaration after its supertypes, so base properties come first, and a later declaration of a
name takes the place the name already has. Every declaration is taken once, however many ways
lead to it.
-/
namespace Scaffold

/-- What a property name stands for on a type. -/
structure Effective where
  name : String
  /-- The type and mutability of the most derived declaration. -/
  type : Ty
  isMutable : Bool
  /-- The type that declared the property first. -/
  declaredIn : String
  /-- The most derived type that declared it. -/
  origin : String
  /-- The directives of all declarations, layered. -/
  directives : Layers
deriving DecidableEq, Repr, Inhabited

namespace Effective

def ofProperty (owner : String) (p : Property) : Effective where
  name := p.name
  type := p.type
  isMutable := p.isMutable
  declaredIn := owner
  origin := owner
  directives := Layers.empty.layer p.directives

/-- A further declaration of the property. -/
def redeclare (e : Effective) (owner : String) (p : Property) : Effective :=
  { e with
    type := p.type
    isMutable := p.isMutable
    origin := owner
    directives := e.directives.layer p.directives }

end Effective

structure PropertyTable where
  model : String
  entries : List Effective
deriving DecidableEq, Repr, Inhabited

namespace PropertyTable

def mergeInto (owner : String) (p : Property) : List Effective → List Effective
  | [] => [.ofProperty owner p]
  | e :: rest => if e.name = p.name then e.redeclare owner p :: rest else e :: mergeInto owner p rest

/-- Takes up the properties a declaration declares itself. -/
def declare (d : Decl) (entries : List Effective) : List Effective :=
  d.properties.foldl (fun es p => mergeInto d.name p es) entries

def names (t : PropertyTable) : List String := t.entries.map Effective.name

def get? (t : PropertyTable) (name : String) : Option Effective :=
  t.entries.find? (·.name = name)

def require (t : PropertyTable) (name context : String) : Except Fault Effective :=
  match t.get? name with
  | some e => .ok e
  | none => .error (.missingProperty t.model name context)

/-- The state of the walk: the names of the declarations that were met, and what they
declare. -/
structure Walk where
  met : List String
  entries : List Effective

def walk (c : Catalog) : Nat → Walk → Decl → Walk
  | 0, w, _ => w
  | n + 1, w, d =>
    if d.name ∈ w.met then w
    else
      let w := (c.parents d).foldl (walk c n) ⟨d.name :: w.met, w.entries⟩
      ⟨w.met, declare d w.entries⟩

/-- The properties of a declared type. -/
def ofCatalog (c : Catalog) (model : String) : Except Fault PropertyTable :=
  match c.get? model with
  | none => .error (.unknownModel model)
  | some d => .ok ⟨model, (walk c (c.size + 1) ⟨[], []⟩ d).entries⟩

end PropertyTable

end Scaffold
