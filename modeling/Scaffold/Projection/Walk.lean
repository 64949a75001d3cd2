import Scaffold.Projection.Script

/-!
The walk that collects definitions. A declaration takes its slot when it is met and before what
it refers to is walked, so every declaration is defined once and cycles come to an end. A fault
ends a visit and leaves the slots that are still open empty.
-/
namespace Scaffold.Projection

structure Definition where
  /-- The qualified name of the declaration. -/
  name : String
  source : String
deriving DecidableEq, Repr, Inhabited

/-- The slots in the order they were taken; an open one has no text. -/
structure Walk where
  slots : List (String × Option String)
deriving DecidableEq, Repr, Inhabited

namespace Walk

def empty : Walk := ⟨[]⟩

def met (w : Walk) (name : String) : Bool := w.slots.any (·.1 = name)

def reserve (w : Walk) (name : String) : Walk := ⟨w.slots ++ [(name, none)]⟩

def fill (w : Walk) (name source : String) : Walk :=
  ⟨w.slots.map fun s => if s.1 = name then (name, some source) else s⟩

def definitions (w : Walk) : List Definition :=
  w.slots.filterMap fun s => s.2.map fun source => ⟨s.1, source⟩

end Walk

/-- A walk, and the fault that ended it early. -/
abbrev Outcome := Walk × Option Fault

/-- Makes visits one after the other; a fault ends the row. -/
def visitAll (visit : String → Walk → Outcome) : List String → Walk → Outcome
  | [], w => (w, none)
  | name :: rest, w =>
    match visit name w with
    | (w, none) => visitAll visit rest w
    | failed => failed

def visitWithin (x : Context) : Nat → String → Walk → Outcome
  | 0, _, w => (w, none)
  | n + 1, name, w =>
    if w.met name then (w, none)
    else
      match x.catalog.get? name with
      | none => (w, some (.unresolvableType name "TypeScript root"))
      | some d =>
        let s := script x d
        match visitAll (visitWithin x n) s.refs (w.reserve name), s.result with
        | (w, none), .ok source => (w.fill name source, none)
        | (w, none), .error f => (w, some f)
        | failed, _ => failed

/-- Visits a declaration and all it refers to. Every visit inside another has met one more
declaration, so the levels do not run out. -/
def visit (x : Context) (name : String) (w : Walk) : Outcome :=
  visitWithin x (x.catalog.size + 1) name w

/-- The names a projection starts from. -/
def startNames (x : Context) : List String :=
  if x.settings.roots.isEmpty then x.catalog.models.map Decl.name else x.settings.roots

def projectTypes (x : Context) : Except Fault (List Definition) :=
  match visitAll (visit x) (startNames x) .empty with
  | (w, none) => .ok w.definitions
  | (_, some f) => .error f

/-- The whole file. -/
def render (definitions : List Definition) : String :=
  String.join (definitions.map fun d => d.source ++ "\n\n")

end Scaffold.Projection
