import Scaffold.Body.Order
import Scaffold.Proofs.Distinct

/-!
The order in which compareTo goes over the members. Of the keys of one property the first
counts, and a member that no key names comes behind all keys, if at all. The cascade is built
in one pass that remembers what it has placed; here it is told without that memory.
-/
namespace Scaffold.Body

open Distinct

/-- The names that have their place. -/
def placed (done : Sequence) : List String := done.map fun e => e.1.name

theorem any_name_iff {done : Sequence} {name : String} :
    done.any (·.1.name = name) = true ↔ name ∈ placed done := by
  simp only [placed, List.any_eq_true, decide_eq_true_eq, List.mem_map]

theorem placed_concat (done : Sequence) (e : Member × Bool) :
    placed (done ++ [e]) = placed done ++ [e.1.name] := by
  simp only [placed, List.map_append, List.map_cons, List.map_nil]

/-- The member a key names, with the direction of the key. -/
def pick? (members : List Member) (key : SortKey) : Option (Member × Bool) :=
  (members.find? (·.name = key.property)).map fun m => (m, key.descending)

/-- The members that the first key of each property names and, if the plan takes all, the
remaining ones in ascending direction. -/
def comparisonOrder (p : Plan) (members : List Member) : Sequence :=
  (firsts SortKey.property p.compareOrder).filterMap (pick? members) ++
    if p.compareAll then
      (firsts Member.name
        (members.filter (·.name ∉ p.compareOrder.map SortKey.property))).map fun m => (m, false)
    else []

/-- The entries whose members have a natural order. -/
def ordered (capabilities : Capabilities) (order : Sequence) : Sequence :=
  order.filter fun e => hasOrder capabilities e.1

/-- The members that compareTo compares. -/
def compared (p : Plan) (capabilities : Capabilities) (members : List Member) : Sequence :=
  ordered capabilities (comparisonOrder p members)

section Keyed

variable {p : Plan} {t : PropertyTable} {members : List Member}

/-- What a key does if the run goes on behind it. -/
theorem keyed_cons {key : SortKey} {keys : List SortKey} {done order : Sequence}
    (h : keyed p t members (key :: keys) done = .ok order) :
    ∃ m, members.find? (·.name = key.property) = some m ∧ m.name = key.property ∧
      keyed p t members keys
        (if key.property ∈ placed done then done else done ++ [(m, key.descending)]) =
        .ok order := by
  simp only [keyed, bind, Except.bind] at h
  cases hrequire : t.require key.property ("compare order of " ++ p.label) with
  | error e => simp [hrequire] at h
  | ok e =>
    cases hfind : members.find? (·.name = key.property) with
    | none => simp [hrequire, hfind, throw, throwThe, MonadExceptOf.throw] at h
    | some m =>
      have hname : m.name = key.property := by simpa using List.find?_some hfind
      refine ⟨m, rfl, hname, ?_⟩
      simp only [hrequire, hfind, hname] at h
      by_cases hplaced : key.property ∈ placed done
      · rw [if_pos hplaced]
        rwa [if_pos (any_name_iff.mpr hplaced)] at h
      · rw [if_neg hplaced]
        rwa [if_neg (mt any_name_iff.mp hplaced)] at h

theorem keyed_eq {keys : List SortKey} {done order : Sequence}
    (h : keyed p t members keys done = .ok order) :
    order = done ++
      (firsts SortKey.property (keys.filter (·.property ∉ placed done))).filterMap
        (pick? members) := by
  induction keys generalizing done with
  | nil =>
    obtain rfl : done = order := Except.ok.inj h
    exact (List.append_nil done).symm
  | cons key keys ih =>
    obtain ⟨m, hfind, hname, hrest⟩ := keyed_cons h
    have hentry : pick? members key = some (m, key.descending) := by
      rw [pick?, hfind]
      rfl
    rw [firsts_unseen_cons]
    by_cases hplaced : key.property ∈ placed done
    · rw [if_pos hplaced] at hrest ⊢
      exact ih hrest
    · rw [if_neg hplaced] at hrest ⊢
      rw [List.filterMap_cons_some hentry, ih hrest, placed_concat, hname, List.append_assoc]
      rfl

theorem mem_placed_keyed {keys : List SortKey} {done order : Sequence}
    (h : keyed p t members keys done = .ok order) (name : String) :
    name ∈ placed order ↔ name ∈ placed done ∨ name ∈ keys.map SortKey.property := by
  induction keys generalizing done with
  | nil =>
    obtain rfl : done = order := Except.ok.inj h
    simp
  | cons key keys ih =>
    obtain ⟨m, -, hname, hrest⟩ := keyed_cons h
    rw [ih hrest, List.map_cons, List.mem_cons]
    by_cases hplaced : key.property ∈ placed done
    · rw [if_pos hplaced]
      constructor
      · rintro (hdone | hkeys)
        · exact Or.inl hdone
        · exact Or.inr (Or.inr hkeys)
      · rintro (hdone | rfl | hkeys)
        · exact Or.inl hdone
        · exact Or.inl hplaced
        · exact Or.inr hkeys
    · rw [if_neg hplaced, placed_concat, hname, List.mem_append, List.mem_singleton, or_assoc]

theorem completed_eq (members : List Member) (done : Sequence) :
    completed members done = done ++
      (firsts Member.name (members.filter (·.name ∉ placed done))).map fun m => (m, false) := by
  induction members generalizing done with
  | nil => exact (List.append_nil done).symm
  | cons m members ih =>
    rw [firsts_unseen_cons]
    unfold completed at ih ⊢
    rw [List.foldl_cons, ih]
    by_cases hplaced : m.name ∈ placed done
    · rw [if_pos hplaced, if_pos (any_name_iff.mpr hplaced)]
    · rw [if_neg hplaced, if_neg (mt any_name_iff.mp hplaced), placed_concat, List.append_assoc]
      rfl

theorem sequence_eq {order : Sequence} (h : sequence p t members = .ok order) :
    order = comparisonOrder p members := by
  unfold sequence at h
  cases hkeyed : keyed p t members p.compareOrder [] with
  | error e => simp [hkeyed, bind, Except.bind] at h
  | ok done =>
    have hdone : done = (firsts SortKey.property p.compareOrder).filterMap (pick? members) := by
      simpa [placed] using keyed_eq hkeyed
    have hplaced : ∀ name, name ∈ placed done ↔ name ∈ p.compareOrder.map SortKey.property := by
      intro name
      rw [mem_placed_keyed hkeyed name]
      simp [placed]
    simp only [hkeyed, bind, Except.bind, pure, Except.pure, Except.ok.injEq] at h
    unfold comparisonOrder
    rw [← h, ← hdone]
    cases p.compareAll with
    | false => simp
    | true =>
      simp only [if_true, completed_eq, hplaced]

end Keyed

theorem mem_of_mem_comparisonOrder {p : Plan} {members : List Member} {e : Member × Bool}
    (h : e ∈ comparisonOrder p members) : e.1 ∈ members := by
  rcases List.mem_append.mp h with hkeyed | hremaining
  · obtain ⟨key, -, hentry⟩ := List.mem_filterMap.mp hkeyed
    obtain ⟨m, hfind, rfl⟩ := Option.map_eq_some_iff.mp hentry
    exact List.mem_of_find?_eq_some hfind
  · cases hall : p.compareAll with
    | false => simp [hall] at hremaining
    | true =>
      rw [if_pos hall] at hremaining
      obtain ⟨m, hm, rfl⟩ := List.mem_map.mp hremaining
      exact List.mem_of_mem_filter (mem_of_mem_firsts hm)

theorem mem_of_mem_compared {p : Plan} {capabilities : Capabilities} {members : List Member}
    {e : Member × Bool} (h : e ∈ compared p capabilities members) : e.1 ∈ members :=
  mem_of_mem_comparisonOrder (List.mem_of_mem_filter h)

end Scaffold.Body
