import Scaffold.Ty

/-!
Directives steer what becomes of a property in the classes that are generated. A directive
names a target by its label, or stands for all targets. Each occupies a slot, and in `Layers`
a directive of a more derived declaration takes the place of the one that held its slot.
-/
namespace Scaffold

inductive Directive where
  /-- Leaves the property out. -/
  | omit (target : Option String)
  /-- Keeps the property in a target that leaves properties out by default. -/
  | include (target : Option String)
  /-- Gives the source of a default value. -/
  | init (expr : String) (target : Option String)
  /-- Makes the property a required parameter. -/
  | noInit (target : Option String)
  /-- The property is final and is not declared again. -/
  | preventOverride (target : Option String)
  /-- Puts an annotation of this name on the property. -/
  | annotate (target name : String) (args : List String)
  /-- Replaces the declared type. -/
  | narrow (target : String) (type : Ty)
deriving DecidableEq, Repr, Inhabited

inductive Slot where
  | visibility (target : Option String)
  | initializer (target : Option String)
  | preventOverride (target : Option String)
  | annotated (target name : String)
  | narrow (target : String)
deriving DecidableEq, Repr

structure Annotation where
  name : String
  args : List String
deriving DecidableEq, Repr, Inhabited

/-- How a property gets its first value in a target. -/
inductive Initializer where
  | expr (source : String)
  | required
deriving DecidableEq, Repr

namespace Directive

def slot : Directive → Slot
  | .omit target | .include target => .visibility target
  | .init _ target | .noInit target => .initializer target
  | .preventOverride target => .preventOverride target
  | .annotate target name _ => .annotated target name
  | .narrow target _ => .narrow target

/-- Whom a directive about visibility addresses, and whether it leaves the property out. -/
def visibility? : Directive → Option (Option String × Bool)
  | .omit target => some (target, true)
  | .include target => some (target, false)
  | _ => none

def initializer? : Directive → Option (Option String × Initializer)
  | .init expr target => some (target, .expr expr)
  | .noInit target => some (target, .required)
  | _ => none

def final? : Directive → Option (Option String × Unit)
  | .preventOverride target => some (target, ())
  | _ => none

def narrowed? (label : String) : Directive → Option Ty
  | .narrow target type => if target = label then some type else none
  | _ => none

def annotationFor? (label : String) : Directive → Option Annotation
  | .annotate target name args => if target = label then some ⟨name, args⟩ else none
  | _ => none

end Directive

/-- Merged directives, one for each slot, in the order their slots were first taken. -/
structure Layers where
  entries : List Directive
deriving DecidableEq, Repr, Inhabited

namespace Layers

def empty : Layers := ⟨[]⟩

/-- Puts a directive into its slot. -/
def place (d : Directive) : List Directive → List Directive
  | [] => [d]
  | e :: rest => if e.slot = d.slot then d :: rest else e :: place d rest

def layer (l : Layers) (directives : List Directive) : Layers :=
  ⟨directives.foldl (fun es d => place d es) l.entries⟩

/-- The choice for a label: of an entry that names it, else of the first entry for all
targets. -/
def lookup (label : String) (pick : Directive → Option (Option String × α)) (l : Layers) :
    Option α :=
  let picked := l.entries.filterMap pick
  match picked.find? fun p => p.1 = some label with
  | some p => some p.2
  | none => (picked.find? fun p => p.1 = none).map (·.2)

def isOmitted (l : Layers) (label : String) (byDefault : Bool) : Bool :=
  (l.lookup label Directive.visibility?).getD byDefault

def initializer (l : Layers) (label : String) : Option Initializer :=
  l.lookup label Directive.initializer?

def isFinal (l : Layers) (label : String) : Bool :=
  (l.lookup label Directive.final?).isSome

def narrowed (l : Layers) (label : String) : Option Ty :=
  l.entries.findSome? (Directive.narrowed? label)

def annotations (l : Layers) (label : String) : List Annotation :=
  l.entries.filterMap (Directive.annotationFor? label)

end Layers

end Scaffold
