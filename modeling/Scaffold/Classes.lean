import Scaffold.Survey
import Scaffold.Initial
import Scaffold.Body.Order
import Scaffold.Body.Copying
import Scaffold.Body.Update

/-!
From a plan to the description of its class: constructor, properties, superinterfaces and
methods.
-/
namespace Scaffold

namespace ClassDesc

/-- The guard of named arguments; no value of its type exists. -/
def guardParam : ConstructorParam where
  name := "namedArgumentsOnly"
  type := .named "kotlin.Nothing" []
  default := none
  isGuard := true

/-- The default of a member's parameter. A directive for the target comes before one for all
targets and that before the initial value of the type; a required member has none. -/
def defaultOf (c : Catalog) (settings : Settings) (p : Plan) (m : Member) :
    Except Fault (Option Expr) :=
  match m.property.directives.initializer p.label with
  | some .required => .ok none
  | some (.expr source) => .ok (some (.literal source))
  | none =>
    match Initial.ofType? settings.defaults c m.type with
    | some e => .ok (some e)
    | none => .error (.noDefaultValue p.model p.label m.name m.type.display)

def parameter (c : Catalog) (settings : Settings) (p : Plan) (m : Member) :
    Except Fault ConstructorParam :=
  (defaultOf c settings p m).map fun default => ⟨m.name, m.type, default, false⟩

/-- Puts the guard at its place, or at the end if there are fewer parameters. -/
def withGuard (p : Plan) (params : List ConstructorParam) : List ConstructorParam :=
  match p.guardAt with
  | none => params
  | some n => params.take n ++ guardParam :: params.drop n

def property (p : Plan) (m : Member) : PropertyDesc where
  name := m.name
  type := m.type
  isMutable := p.isMutable
  overrides := p.implementsModel
  annotations := m.property.directives.annotations p.label

def superinterfacesOf (p : Plan) : List Ty :=
  if p.implementsModel then [p.modelType]
  else
    (if p.comparable then [.named "kotlin.Comparable" [p.type]] else []) ++
      (if p.cloneable then [.named "kotlin.Cloneable" []] else [])

/-- One updateBy for every other transfer object of the model. -/
def updates (roster : Roster) (p : Plan) (t : PropertyTable) (members : List Member) :
    List Method :=
  if p.isMutable then
    ((roster.dtosOf p.model).filter (·.qualifiedName ≠ p.qualifiedName)).map fun dto =>
      Body.updateBy p members dto (Member.collect dto t)
  else []

def ofPlan (c : Catalog) (survey : Survey) (settings : Settings) (p : Plan) :
    Except Fault ClassDesc := do
  let table ← survey.propertiesOf p.model
  let members := Member.collect p table
  let declared := members.filter (·.declared)
  let params ← declared.mapM (parameter c settings p)
  let order ← if p.comparable then Body.sequence p table members else pure []
  pure {
    package := p.package
    name := p.className
    model := p.model
    target := p.label
    kind := p.kind
    typeParams := p.typeParams
    superclass := p.superclass
    superinterfaces := superinterfacesOf p
    annotations := p.annotations
    constructor := withGuard p params
    properties := declared.map (property p)
    methods :=
      (if p.equals then [Body.equals p members] else []) ++
        (if p.hashCode then [Body.hashCode p members] else []) ++
        (if p.toText then [Body.toText p members] else []) ++
        (if p.comparable then [Body.compareTo p survey.capabilities order] else []) ++
        (if p.cloneable then [Body.clone p members] else []) ++
        (if p.copy then [Body.copy p members] else []) ++
        updates survey.roster p table members
    notes := if p.comparable then Body.compareNotes survey.capabilities order else [] }

end ClassDesc

end Scaffold
