import Scaffold.Registry

/-!
The roster of a pass: a registry that was built up plan by plan, so its indexes are right. A plan
whose class is already there is refused, and the plans of a model are those that the finished
registry has for it.
-/
namespace Scaffold

structure Roster where
  builder : Registry.Builder
  sound : builder.Sound

namespace Roster

def empty : Roster := ⟨.empty, Registry.Builder.sound_empty⟩

instance : Inhabited Roster := ⟨empty⟩

/-- All plans, in the order they were entered. -/
def plans (r : Roster) : List Plan := r.builder.plans

theorem nodup (r : Roster) : (r.plans.map Plan.qualifiedName).Nodup := r.sound.nodup

def enter (r : Roster) (p : Plan) : Except Fault Roster :=
  match h : r.builder.register p with
  | some (builder, none) => .ok ⟨builder, r.sound.register h⟩
  | some (_, some f) => .error f
  | none => absurd h (r.sound.register_ne_none p)

theorem enter_of_register {r : Roster} {p : Plan} {builder : Registry.Builder}
    {answer : Option Fault} (h : r.builder.register p = some (builder, answer)) :
    r.enter p = match answer with
      | none => .ok ⟨builder, r.sound.register h⟩
      | some f => .error f := by
  unfold enter
  split
  · rename_i hnext
    obtain ⟨rfl, rfl⟩ := Prod.mk.inj (Option.some.inj (h.symm.trans hnext))
    rfl
  · rename_i hnext
    obtain ⟨rfl, rfl⟩ := Prod.mk.inj (Option.some.inj (h.symm.trans hnext))
    rfl
  · rename_i hnone
    exact absurd hnone (r.sound.register_ne_none p)

/-- A plan is entered behind the others if its class is new, and refused otherwise. -/
theorem enter_cases (r : Roster) (p : Plan) :
    (p.qualifiedName ∉ r.plans.map Plan.qualifiedName ∧
      ∃ r', r.enter p = .ok r' ∧ r'.plans = r.plans ++ [p]) ∨
    ∃ q ∈ r.plans, q.qualifiedName = p.qualifiedName ∧
      r.enter p = .error (.duplicateClass p.qualifiedName q.title p.title) := by
  rcases r.sound.register_cases p with ⟨hnew, hregister⟩ | ⟨q, hq, hname, hregister⟩
  · exact Or.inl ⟨hnew, ⟨_, r.sound.append hnew⟩, enter_of_register hregister, rfl⟩
  · exact Or.inr ⟨q, hq, hname, enter_of_register hregister⟩

/-- The plans for a model. -/
def ofModel (r : Roster) (model : String) : List Plan :=
  (r.builder.finish.ofModel? model).get (by simp [Registry.ofModel?_finish])

/-- The plans for transfer objects of a model. -/
def dtosOf (r : Roster) (model : String) : List Plan :=
  (r.builder.finish.dtosOf? model).get (by simp [Registry.dtosOf?_finish])

theorem ofModel_eq (r : Roster) (model : String) :
    r.ofModel model = r.plans.filter (·.model = model) := by
  simp only [ofModel, Registry.ofModel?_finish, Option.get_some, plans]

theorem dtosOf_eq (r : Roster) (model : String) :
    r.dtosOf model = (r.ofModel model).filter (·.kind = .dto) := by
  simp only [dtosOf, ofModel, Registry.dtosOf?_finish, Registry.ofModel?_finish, Option.get_some]

end Roster

end Scaffold
