import Scaffold.Plan

/-!
The registry of a pass, in its two phases. While plans are collected a builder keeps them in a
row and notes under the name of each class where its plan stands; a second plan for a class is
refused. The finished registry has the places of the plans for each model. Both read a plan by
its place in the row.
-/
namespace Scaffold

namespace Registry

/-- The registry while plans are collected. -/
structure Builder where
  plans : List Plan
  /-- The place of the plan for each class. -/
  byClass : List (String × Nat)
deriving DecidableEq, Repr, Inhabited

namespace Builder

def empty : Builder := ⟨[], []⟩

/-- Puts a plan behind the others, where it is found by its class. -/
def append (b : Builder) (p : Plan) : Builder :=
  ⟨b.plans ++ [p], b.byClass ++ [(p.qualifiedName, b.plans.length)]⟩

/-- The builder after a plan was brought to it, and the fault if the plan was refused. There is
no answer if the plan for the class is not where it should be. -/
def register (b : Builder) (p : Plan) : Option (Builder × Option Fault) :=
  match b.byClass.lookup p.qualifiedName with
  | some place =>
    b.plans[place]?.map fun first =>
      (b, some (.duplicateClass p.qualifiedName first.title p.title))
  | none => some (b.append p, none)

/-- Brings plans to a builder one after the other, whether or not one is refused: the builder
after them, and each plan with its answer. -/
def registerAll (b : Builder) : List Plan → Option (Builder × List (Plan × Option Fault))
  | [] => some (b, [])
  | p :: rest => do
    let (next, answer) ← b.register p
    let (last, answers) ← next.registerAll rest
    pure (last, (p, answer) :: answers)

end Builder

end Registry

/-- The finished registry. -/
structure Registry where
  plans : List Plan
  /-- The places of the plans for each model, in order. -/
  byModel : List (String × List Nat)
deriving DecidableEq, Repr, Inhabited

namespace Registry

/-- Adds a place to those of a model. -/
def note (model : String) (place : Nat) : List (String × List Nat) → List (String × List Nat)
  | [] => [(model, [place])]
  | (m, places) :: rest =>
    if m = model then (m, places ++ [place]) :: rest else (m, places) :: note model place rest

def Builder.finish (b : Builder) : Registry where
  plans := b.plans
  byModel := b.plans.zipIdx.foldl (fun index entry => note entry.1.model entry.2 index) []

/-- The plans for a model. There is no answer if one is not where it should be. -/
def ofModel? (r : Registry) (model : String) : Option (List Plan) :=
  ((r.byModel.lookup model).getD []).mapM fun place => r.plans[place]?

/-- The plans for transfer objects of a model. -/
def dtosOf? (r : Registry) (model : String) : Option (List Plan) :=
  (r.ofModel? model).map fun plans => plans.filter (·.kind = .dto)

section Classes

/-- No two plans are for one class, and each is found under its class. -/
structure Builder.Sound (b : Builder) : Prop where
  nodup : (b.plans.map Plan.qualifiedName).Nodup
  byClass : b.byClass = (b.plans.map Plan.qualifiedName).zipIdx

theorem lookup_zipIdx (names : List String) (name : String) (n : Nat) :
    (names.zipIdx n).lookup name = (names.findIdx? (· = name)).map (· + n) := by
  induction names generalizing n with
  | nil => rfl
  | cons first names ih =>
    rw [List.zipIdx_cons, List.lookup_cons, List.findIdx?_cons]
    by_cases hname : first = name
    · simp [hname]
    · have hother : (name == first) = false := by simpa using Ne.symm hname
      simp only [hother, decide_eq_false hname, ih]
      cases names.findIdx? (· = name) <;> simp [Nat.add_assoc, Nat.add_comm 1]

namespace Builder

variable {b b' : Builder} {p : Plan}

theorem sound_empty : empty.Sound := ⟨List.nodup_nil, rfl⟩

/-- The place under a class is that of the first plan for it. -/
theorem Sound.lookup_byClass (h : b.Sound) (name : String) :
    b.byClass.lookup name = b.plans.findIdx? (·.qualifiedName = name) := by
  rw [h.byClass, lookup_zipIdx, List.findIdx?_map]
  simp [Function.comp_def]

theorem Sound.append (h : b.Sound) (hnew : p.qualifiedName ∉ b.plans.map Plan.qualifiedName) :
    (b.append p).Sound where
  nodup := by
    simp only [Builder.append, List.map_append, List.map_cons, List.map_nil]
    refine List.nodup_append.mpr ⟨h.nodup, by simp, ?_⟩
    intro x hx y hy hxy
    rw [List.mem_singleton.mp hy] at hxy
    exact hnew (hxy ▸ hx)
  byClass := by
    simp [Builder.append, h.byClass, List.zipIdx_append]

/-- Every plan is answered: it is appended if its class is new, and refused otherwise. -/
theorem Sound.register_cases (h : b.Sound) (p : Plan) :
    (p.qualifiedName ∉ b.plans.map Plan.qualifiedName ∧
      b.register p = some (b.append p, none)) ∨
    ∃ q ∈ b.plans, q.qualifiedName = p.qualifiedName ∧
      b.register p = some (b, some (.duplicateClass p.qualifiedName q.title p.title)) := by
  cases hlookup : b.byClass.lookup p.qualifiedName with
  | none =>
    refine Or.inl ⟨?_, by simp only [register, hlookup]⟩
    rw [h.lookup_byClass, List.findIdx?_eq_none_iff] at hlookup
    intro hmem
    obtain ⟨q, hq, hname⟩ := List.mem_map.mp hmem
    exact absurd hname (of_decide_eq_false (hlookup q hq))
  | some place =>
    obtain ⟨hplace, hfound, -⟩ :=
      List.findIdx?_eq_some_iff_getElem.mp ((h.lookup_byClass _).symm.trans hlookup)
    refine Or.inr ⟨b.plans[place], List.getElem_mem hplace, of_decide_eq_true hfound, ?_⟩
    simp only [register, hlookup, List.getElem?_eq_getElem hplace, Option.map_some]

theorem Sound.register_ne_none (h : b.Sound) (p : Plan) : b.register p ≠ none := by
  rcases h.register_cases p with ⟨-, hregister⟩ | ⟨q, -, -, hregister⟩ <;> simp [hregister]

theorem Sound.register {answer : Option Fault} (h : b.Sound)
    (hregister : b.register p = some (b', answer)) : b'.Sound := by
  rcases h.register_cases p with ⟨hnew, happended⟩ | ⟨q, -, -, hrefused⟩
  · obtain ⟨rfl, -⟩ := Prod.mk.inj (Option.some.inj (happended.symm.trans hregister))
    exact h.append hnew
  · obtain ⟨rfl, -⟩ := Prod.mk.inj (Option.some.inj (hrefused.symm.trans hregister))
    exact h

end Builder

end Classes

section Models

variable {model : String}

theorem lookup_note (m : String) (place : Nat) (index : List (String × List Nat)) :
    ((note m place index).lookup model).getD [] =
      (index.lookup model).getD [] ++ if m = model then [place] else [] := by
  induction index with
  | nil =>
    by_cases hm : m = model
    · simp [note, hm]
    · have hother : (model == m) = false := by simpa using Ne.symm hm
      simp [note, List.lookup_cons, hm, hother]
  | cons entry rest ih =>
    obtain ⟨first, places⟩ := entry
    unfold note
    by_cases hfirst : first = m
    · rw [if_pos hfirst, hfirst, List.lookup_cons, List.lookup_cons]
      by_cases hm : m = model
      · simp [hm]
      · have hother : (model == m) = false := by simpa using Ne.symm hm
        simp [hm, hother]
    · rw [if_neg hfirst, List.lookup_cons, List.lookup_cons]
      cases hmodel : model == first with
      | false => exact ih
      | true =>
        obtain rfl := eq_of_beq hmodel
        simp [Ne.symm hfirst]

/-- Where the plans for a model stand. -/
def placesOf (plans : List Plan) (model : String) : List Nat :=
  (plans.zipIdx.filter (·.1.model = model)).map Prod.snd

/-- The index by models has all places. -/
theorem byModel_finish (b : Builder) (model : String) :
    (b.finish.byModel.lookup model).getD [] = placesOf b.plans model := by
  have hnoted : ∀ (entries : List (Plan × Nat)) (index : List (String × List Nat)),
      ((entries.foldl (fun index entry => note entry.1.model entry.2 index) index).lookup
        model).getD [] = (index.lookup model).getD [] ++
          (entries.filter (·.1.model = model)).map Prod.snd := by
    intro entries
    induction entries with
    | nil => simp
    | cons entry entries ih =>
      intro index
      rw [List.foldl_cons, ih, lookup_note, List.append_assoc]
      by_cases hmodel : entry.1.model = model <;> simp [hmodel]
  exact hnoted b.plans.zipIdx []

theorem mapM_places {plans : List Plan} {entries : List (Plan × Nat)}
    (h : ∀ entry ∈ entries, plans[entry.2]? = some entry.1) :
    (entries.map Prod.snd).mapM (fun place => plans[place]?) = some (entries.map Prod.fst) := by
  induction entries with
  | nil => rfl
  | cons entry entries ih =>
    rw [List.forall_mem_cons] at h
    rw [List.map_cons, List.mapM_cons, h.1, ih h.2]
    rfl

/-- The finished registry answers every model with its plans, in the order of the row. -/
theorem ofModel?_finish (b : Builder) (model : String) :
    b.finish.ofModel? model = some (b.plans.filter (·.model = model)) := by
  have hplaced : ∀ entry ∈ b.plans.zipIdx.filter (·.1.model = model),
      b.plans[entry.2]? = some entry.1 := by
    intro entry hentry
    exact List.mem_zipIdx_iff_getElem?.mp (List.mem_filter.mp hentry).1
  have hplans : (b.plans.zipIdx.filter (·.1.model = model)).map Prod.fst =
      b.plans.filter (·.model = model) := by
    rw [← List.zipIdx_map_fst 0 b.plans, List.filter_map, List.zipIdx_map_fst]
    rfl
  unfold ofModel?
  rw [byModel_finish, placesOf, ← hplans]
  exact mapM_places hplaced

theorem dtosOf?_finish (b : Builder) (model : String) :
    b.finish.dtosOf? model = some ((b.plans.filter (·.model = model)).filter (·.kind = .dto)) := by
  rw [dtosOf?, ofModel?_finish, Option.map_some]

end Models

end Registry

end Scaffold
