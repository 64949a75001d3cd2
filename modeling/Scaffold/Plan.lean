import Scaffold.Text.Blank
import Scaffold.Settings
import Scaffold.Capability
import Scaffold.Code

/-!
Plans: one model and one of its targets with every option decided. What a model can do is
derived; the target can only switch it off.
-/
namespace Scaffold

/-- One entry of an explicit order for compareTo. -/
structure SortKey where
  property : String
  descending : Bool
deriving DecidableEq, Repr, Inhabited

namespace SortKey

/-- A property name, with a minus sign in front of it for the descending direction. -/
def parse (entry : String) : SortKey :=
  match entry.toList with
  | '-' :: rest => ⟨Blank.trim (String.ofList rest), true⟩
  | _ => ⟨Blank.trim entry, false⟩

end SortKey

structure Plan where
  /-- The qualified name of the model. -/
  model : String
  kind : Target.Kind
  label : String
  package : String
  className : String
  typeParams : List String
  superclass : Option String
  equals : Bool
  hashCode : Bool
  toText : Bool
  comparable : Bool
  cloneable : Bool
  copy : Bool
  isMutable : Bool
  forceNullable : Bool
  defaultOmit : Bool
  equalsArrays : ArrayMode
  hashArrays : ArrayMode
  compareOrder : List SortKey
  compareAll : Bool
  guardAt : Option Nat
  annotations : List Annotation
deriving DecidableEq, Repr, Inhabited

namespace Plan

def qualifiedName (p : Plan) : String := Dotted.qualify p.package p.className

/-- The type variables of the model as arguments. -/
def typeArgs (p : Plan) : List Ty := p.typeParams.map .param

/-- The generated class as a type. -/
def type (p : Plan) : Ty := .named p.qualifiedName p.typeArgs

/-- The model as a type. -/
def modelType (p : Plan) : Ty := .named p.model p.typeArgs

def implementsModel (p : Plan) : Bool := p.kind.implementsModel

/-- How the plan is referred to in faults. -/
def title (p : Plan) : String := p.model ++ ":" ++ p.label

end Plan

namespace Catalog

/-- The simple names of the types that enclose a declaration, outermost first, in one word.
`passed` are the names of the inner ones. After more steps than there are declarations the
chain must be a circle. -/
def enclosingNames (c : Catalog) (model : String) : Nat → String → Decl → Except Fault String
  | n, passed, d =>
    match d.nesting with
    | .topLevel => .ok passed
    | .member enclosing =>
      match c.get? enclosing with
      | none => .error (.unknownEnclosing d.name enclosing)
      | some outer =>
        match n with
        | 0 => .error (.unsupportedNesting model "circular member nesting")
        | n + 1 => c.enclosingNames model n (outer.simpleName ++ passed) outer
    | nesting => .error (.unsupportedNesting model nesting.describe)

end Catalog

namespace Plan

/-- The name of the class for a model, given the names of the types around it. -/
def classNameOf (settings : Settings) (model : Decl) (target : Target) (enclosing : String) :
    String :=
  target.lead.getD target.kind.lead ++ enclosing ++
    Dotted.withoutSuffix settings.templateSuffix model.simpleName ++
    target.ending.getD (if target.kind = .dto then target.name.getD "" else "") ++
    target.kind.ending

/-- Decides every option of a target. Hashing has to look as deep into arrays as equality does,
for arrays that compare equal must hash alike. -/
def ofTarget (c : Catalog) (capabilities : Capabilities) (settings : Settings) (model : Decl)
    (target : Target) : Except Fault Plan := do
  let enclosing ← c.enclosingNames model.name (c.size + 1) "" model
  if target.equals ∧ target.hashCode ∧ target.hashArrays.rank < target.equalsArrays.rank then
    throw (.inconsistentArrays model.name target.label target.equalsArrays target.hashArrays)
  pure {
    model := model.name
    kind := target.kind
    label := target.label
    package := target.package.getD ((c.packageOf? model).getD "")
    className := classNameOf settings model target enclosing
    typeParams := model.typeParams
    superclass := target.superclass
    equals := target.equals
    hashCode := target.hashCode
    toText := target.toText
    comparable := target.comparable && capabilities.has model.name .ordering
    cloneable := target.cloneable && capabilities.has model.name .cloning
    copy := target.copy
    isMutable := target.kind ≠ .immutable && target.isMutable.getD target.kind.isMutable
    forceNullable := target.forceNullable
    defaultOmit := target.defaultOmit
    equalsArrays := target.equalsArrays
    hashArrays := target.hashArrays
    compareOrder := target.compareOrder.map SortKey.parse
    compareAll := target.compareAll
    guardAt := target.guardAt
    annotations :=
      target.kind.annotationNames.map (fun name => ⟨name, []⟩) ++
        model.annotations.filterMap (Directive.annotationFor? target.label) }

end Plan

end Scaffold
