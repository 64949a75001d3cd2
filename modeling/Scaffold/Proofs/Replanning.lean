import Scaffold.Classes
import Scaffold.Proofs.Reordering

/-!
Plans, properties and descriptions over a catalog in another order. Each stage looks
declarations up and asks for capabilities, so each gives the same where lookups and capabilities
agree. The description of a class takes nothing else from the rest of the pass than the methods
that update from transfer objects of its model; without them it is an outline.
-/
namespace Scaffold

namespace Catalog.Agrees

variable {c c' : Catalog} {targets : String → List Target} {k k' : Capabilities}
  (h : c.Agrees c' targets)

include h

theorem ofTarget_eq (hhas : ∀ name q, k'.has name q = k.has name q) (settings : Settings)
    (model : Decl) (target : Target) :
    Plan.ofTarget c' k' settings (model.retarget targets) target =
      Plan.ofTarget c k settings model target := by
  unfold Plan.ofTarget
  rw [h.enclosingNames_eq, h.size, h.packageOf?_eq]
  simp only [Decl.retarget, hhas, Plan.classNameOf, Decl.simpleName]

theorem walk_eq (n : Nat) (w : PropertyTable.Walk) (d : Decl) :
    PropertyTable.walk c' n w (d.retarget targets) = PropertyTable.walk c n w d := by
  induction n generalizing w d with
  | zero => rfl
  | succ n ih =>
    have hname : (d.retarget targets).name = d.name := rfl
    unfold PropertyTable.walk
    rw [h.parents_eq, List.foldl_map, hname]
    simp only [ih]
    rfl

theorem table_eq (model : String) :
    PropertyTable.ofCatalog c' model = PropertyTable.ofCatalog c model := by
  unfold PropertyTable.ofCatalog
  rw [h.get, h.size]
  cases c.get? model with
  | none => rfl
  | some d => simp only [Option.map_some, h.walk_eq]

theorem initial_eq (defaults : NameMap) (type : Ty) :
    Initial.ofType? defaults c' type = Initial.ofType? defaults c type := by
  have hbuiltIn : Initial.builtIn? c' type = Initial.builtIn? c type := by
    cases type with
    | scalar | array | param | nullable => rfl
    | named name args =>
      simp only [Initial.builtIn?, h.get]
      cases c.get? name <;> rfl
  unfold Initial.ofType?
  rw [hbuiltIn]

theorem parameter_eq (settings : Settings) (p : Plan) (m : Member) :
    ClassDesc.parameter c' settings p m = ClassDesc.parameter c settings p m := by
  unfold ClassDesc.parameter ClassDesc.defaultOf
  rw [h.initial_eq]

end Catalog.Agrees

namespace Body

variable {k k' : Capabilities} (hhas : ∀ name q, k'.has name q = k.has name q)

include hhas

theorem hasOrder_eq : hasOrder k' = hasOrder k := by
  funext m
  unfold hasOrder Capabilities.typeHas
  cases m.type.nonNull with
  | scalar | array | param | nullable => rfl
  | named name args => exact hhas name .ordering

theorem compareTo_eq (p : Plan) (order : Sequence) : compareTo p k' order = compareTo p k order := by
  have hstep : compareStep k' = compareStep k := by
    funext entry
    simp only [compareStep, hasOrder_eq hhas]
  simp only [compareTo, compareBody, hstep, hasOrder_eq hhas]

theorem compareNotes_eq (order : Sequence) : compareNotes k' order = compareNotes k order := by
  simp only [compareNotes, hasOrder_eq hhas]

end Body

namespace ClassDesc

variable {c : Catalog} {settings : Settings} {p : Plan}

/-- The description of a class in a pass that has no other. -/
def outline (c : Catalog) (survey : Survey) (settings : Settings) (p : Plan) :
    Except Fault ClassDesc :=
  ofPlan c { survey with roster := .empty } settings p

theorem updates_empty (p : Plan) (t : PropertyTable) (members : List Member) :
    updates .empty p t members = [] := by
  unfold updates
  split <;> rfl

/-- Of the other classes a description has the methods that update from transfer objects. -/
theorem ofPlan_eq_outline {survey : Survey} {table : PropertyTable}
    (htable : survey.propertiesOf p.model = .ok table) :
    ofPlan c survey settings p = (outline c survey settings p).map fun d =>
      { d with methods := d.methods ++ updates survey.roster p table (Member.collect p table) } := by
  have htable' : Survey.propertiesOf { survey with roster := .empty } p.model = .ok table := htable
  unfold outline ofPlan
  rw [htable, htable']
  simp only [updates_empty, List.append_nil, bind, Except.bind]
  cases ((Member.collect p table).filter (·.declared)).mapM (parameter c settings p) with
  | error f => rfl
  | ok params =>
    by_cases hcomparable : p.comparable = true
    · simp only [hcomparable, if_true]
      cases Body.sequence p table (Member.collect p table) <;> rfl
    · simp only [hcomparable]
      rfl

theorem outline_eq {c' : Catalog} {targets : String → List Target} {survey survey' : Survey}
    (h : c.Agrees c' targets)
    (hhas : ∀ name q, survey'.capabilities.has name q = survey.capabilities.has name q)
    (htables : survey'.propertiesOf p.model = survey.propertiesOf p.model) :
    outline c' survey' settings p = outline c survey settings p := by
  have htables' : Survey.propertiesOf { survey' with roster := .empty } p.model =
      Survey.propertiesOf { survey with roster := .empty } p.model := htables
  have hparameter : parameter c' settings p = parameter c settings p :=
    funext fun m => h.parameter_eq settings p m
  unfold outline ofPlan
  rw [htables', hparameter]
  simp only [Body.compareTo_eq hhas, Body.compareNotes_eq hhas]

end ClassDesc

end Scaffold
