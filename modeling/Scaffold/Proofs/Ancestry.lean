import Scaffold.Catalog.Check
import Scaffold.Proofs.Distinct
import Mathlib.Data.List.Perm.Subperm
import Mathlib.Logic.Relation
import Mathlib.Order.WellFounded

/-!
Inheritance as a relation. A declaration extends the declared types among its supertypes, and
reaches whatever lies above it in any number of steps. In a checked catalog nothing lies above
itself, so there are no endless ways up and later walks may be followed by induction.
-/
namespace Scaffold

/-- From where every way ends none leads back. -/
theorem not_circular_of_acc {α : Type} {step : α → α → Prop} {a : α}
    (h : Acc (fun b a => step a b) a) : ¬ Relation.TransGen step a a := by
  induction h with
  | intro a _ ih =>
    intro hcircle
    obtain ⟨next, hnext, hback⟩ := Relation.TransGen.head'_iff.mp hcircle
    exact ih next hnext (Relation.TransGen.tail' hback hnext)

namespace Catalog

variable {c : Catalog}

theorem get?_eq_some_iff {name : String} {d : Decl} :
    c.get? name = some d ↔ d ∈ c.decls ∧ d.name = name := by
  unfold get?
  rw [Distinct.find?_eq_some_iff (k := name) c.nodup (by simp), decide_eq_true_eq]

theorem eq_of_name_eq {d e : Decl} (hd : d ∈ c.decls) (he : e ∈ c.decls)
    (h : d.name = e.name) : d = e :=
  List.inj_on_of_nodup_map c.nodup hd he h

theorem mem_names {d : Decl} (hd : d ∈ c.decls) : d.name ∈ c.names :=
  List.mem_map_of_mem hd

theorem length_names : c.names.length = c.size := List.length_map ..

/-- Distinct names of declarations are no more than the catalog has. -/
theorem length_le_size {names : List String} (hnodup : names.Nodup)
    (hsub : ∀ n ∈ names, n ∈ c.names) : names.length ≤ c.size := by
  have h := (List.subperm_of_subset hnodup hsub).length_le
  rwa [length_names] at h

/-- The second declaration is named among the supertypes of the first. -/
def Extends (c : Catalog) (d e : Decl) : Prop := e ∈ c.parents d

/-- The second declaration is the first, or lies somewhere above it. -/
abbrev Reaches (c : Catalog) : Decl → Decl → Prop := Relation.ReflTransGen c.Extends

/-- The first declaration is a strict subtype of the second. -/
abbrev Inherits (c : Catalog) : Decl → Decl → Prop := Relation.TransGen c.Extends

theorem extends_iff {d e : Decl} :
    c.Extends d e ↔ ∃ t ∈ d.supertypes, ∃ name, t.head? = some name ∧ c.get? name = some e := by
  simp only [Extends, parents, List.mem_filterMap, Option.bind_eq_some_iff]

theorem Extends.mem {d e : Decl} (h : c.Extends d e) : e ∈ c.decls := by
  obtain ⟨t, -, name, -, hget⟩ := extends_iff.mp h
  exact (get?_eq_some_iff.mp hget).1

theorem Reaches.mem {d e : Decl} (h : c.Reaches d e) (hd : d ∈ c.decls) : e ∈ c.decls := by
  cases h with
  | refl => exact hd
  | tail _ hstep => exact hstep.mem

/-- Distinct names of declarations, so many that the levels left suffice for the others. -/
structure Room (c : Catalog) (n : Nat) (names : List String) : Prop where
  nodup : names.Nodup
  declared : ∀ x ∈ names, x ∈ c.names
  levels : c.size < names.length + n

theorem Room.initial {n : Nat} (h : c.size < n) : c.Room n [] :=
  ⟨List.nodup_nil, by simp, by simpa using h⟩

theorem Room.pos {n : Nat} {names : List String} (h : c.Room n names) : 0 < n := by
  have hle := length_le_size h.nodup h.declared
  have hlevels := h.levels
  omega

theorem Room.push {n : Nat} {names : List String} {d : Decl} (h : c.Room (n + 1) names)
    (hd : d ∈ c.decls) (hnew : d.name ∉ names) : c.Room n (d.name :: names) := by
  refine ⟨List.nodup_cons.mpr ⟨hnew, h.nodup⟩,
    List.forall_mem_cons.mpr ⟨mem_names hd, h.declared⟩, ?_⟩
  have hlevels := h.levels
  rw [List.length_cons]
  omega

/-- The names are those of declarations from which one step or more lead here. -/
def Trail (c : Catalog) (step : Decl → Decl → Prop) (names : List String) (d : Decl) : Prop :=
  ∀ x ∈ names, ∃ e ∈ c.decls, e.name = x ∧ Relation.TransGen step e d

theorem Trail.push {step : Decl → Decl → Prop} {names : List String} {d e : Decl}
    (h : c.Trail step names d) (hd : d ∈ c.decls) (hstep : step d e) :
    c.Trail step (d.name :: names) e := by
  intro x hx
  rcases List.mem_cons.mp hx with rfl | hx
  · exact ⟨d, hd, rfl, .single hstep⟩
  · obtain ⟨first, hfirst, hname, hsteps⟩ := h x hx
    exact ⟨first, hfirst, hname, hsteps.tail hstep⟩

/-- Who meets the own name on the trail has gone in a circle. -/
theorem Trail.circle {step : Decl → Decl → Prop} {names : List String} {d : Decl}
    (h : c.Trail step names d) (hd : d ∈ c.decls) (hmem : d.name ∈ names) :
    Relation.TransGen step d d := by
  obtain ⟨e, he, hname, hsteps⟩ := h d.name hmem
  rwa [eq_of_name_eq he hd hname] at hsteps

/-- Names in an order in which the parents of a declaration come behind it. -/
inductive Settled (c : Catalog) : List String → Prop
  | nil : Settled c []
  | cons {d : Decl} {rest : List String} (hd : d ∈ c.decls)
      (hparents : ∀ e, c.Extends d e → e.name ∈ rest) (hrest : Settled c rest) :
      Settled c (d.name :: rest)

/-- Above a settled declaration every way ends. -/
theorem Settled.acc {done : List String} (h : Settled c done) {d : Decl} (hd : d ∈ c.decls)
    (hdone : d.name ∈ done) : Acc (fun e d => c.Extends d e) d := by
  induction h generalizing d with
  | nil => simp at hdone
  | @cons first rest hfirst hparents _ ih =>
    rcases List.mem_cons.mp hdone with hname | hmem
    · obtain rfl := eq_of_name_eq hd hfirst hname
      exact Acc.intro d fun e he => ih he.mem (hparents e he)
    · exact ih hd hmem

/-- What a climb over declarations does to the settled names. -/
structure Climbed (c : Catalog) (done done' : List String) (ds : List Decl) : Prop where
  settled : Settled c done'
  keeps : ∀ n ∈ done, n ∈ done'
  reached : ∀ d ∈ ds, d.name ∈ done'

private theorem climbed_foldlM (climb : List String → Decl → Except Fault (List String))
    {ds : List Decl} {done done' : List String}
    (hclimb : ∀ d ∈ ds, ∀ done done', Settled c done → climb done d = .ok done' →
      Climbed c done done' [d])
    (hsettled : Settled c done) (h : ds.foldlM climb done = .ok done') :
    Climbed c done done' ds := by
  induction ds generalizing done with
  | nil =>
    obtain rfl : done = done' := by simpa [pure, Except.pure] using h
    exact ⟨hsettled, fun n hn => hn, by simp⟩
  | cons d ds ih =>
    rw [List.foldlM_cons] at h
    cases hd : climb done d with
    | error f => simp [hd, bind, Except.bind] at h
    | ok mid =>
      have hhead := hclimb d List.mem_cons_self done mid hsettled hd
      have htail := ih (fun e he => hclimb e (List.mem_cons_of_mem d he)) hhead.settled
        (by simpa [hd, bind, Except.bind] using h)
      refine ⟨htail.settled, fun n hn => htail.keeps n (hhead.keeps n hn), ?_⟩
      intro e he
      rcases List.mem_cons.mp he with rfl | he
      · exact htail.keeps _ (hhead.reached e List.mem_cons_self)
      · exact htail.reached e he

/-- A climb that meets no cycle settles its declaration. -/
theorem climb_settles (n : Nat) (path : List String) (d : Decl) (done done' : List String)
    (hd : d ∈ c.decls) (hroom : c.Room n path) (hsettled : Settled c done)
    (h : c.climb n path done d = .ok done') : Climbed c done done' [d] := by
  induction n generalizing path d done done' with
  | zero => exact absurd hroom.pos (Nat.lt_irrefl 0)
  | succ n ih =>
    unfold climb at h
    by_cases hin : d.name ∈ done
    · obtain rfl : done = done' := by simpa [hin] using h
      exact ⟨hsettled, fun n hn => hn, by simpa using hin⟩
    by_cases hopen : d.name ∈ path
    · simp [hin, hopen] at h
    simp only [hin, hopen, if_false] at h
    cases hfold : (c.parents d).foldlM (c.climb n (d.name :: path)) done with
    | error f => simp [hfold, bind, Except.bind] at h
    | ok mid =>
      obtain rfl : d.name :: mid = done' := by
        simpa [hfold, bind, Except.bind, pure, Except.pure] using h
      have hparents := climbed_foldlM (c.climb n (d.name :: path))
        (fun e he done done' hs hok => ih (d.name :: path) e done done' (Extends.mem he)
          (hroom.push hd hopen) hs hok) hsettled hfold
      refine ⟨.cons hd (fun e he => hparents.reached e he) hparents.settled, ?_, by simp⟩
      intro x hx
      exact List.mem_cons_of_mem _ (hparents.keeps x hx)

/-- Where no climb meets a cycle every way up ends. -/
theorem wellFounded_of_checkInheritance (h : c.checkInheritance = .ok ()) :
    WellFounded fun e d => c.Extends d e := by
  obtain ⟨done, hfold⟩ :
      ∃ done, c.decls.foldlM (climb c (c.size + 1) []) [] = .ok done := by
    unfold checkInheritance at h
    cases hfold : c.decls.foldlM (climb c (c.size + 1) []) [] with
    | error f => simp [hfold, Except.map] at h
    | ok done => exact ⟨done, rfl⟩
  have hclimbed : Climbed c [] done c.decls := by
    refine climbed_foldlM (climb c (c.size + 1) []) ?_ .nil hfold
    intro d hd done done' hsettled hok
    exact climb_settles (c.size + 1) [] d done done' hd (.initial (Nat.lt_succ_self _)) hsettled
      hok
  have hdeclared : ∀ d ∈ c.decls, Acc (fun e d => c.Extends d e) d :=
    fun d hd => hclimbed.settled.acc hd (hclimbed.reached d hd)
  exact ⟨fun d => Acc.intro d fun e he => hdeclared e he.mem⟩

theorem check_ok_iff_parts : c.check = .ok () ↔
    (c.decls.forM fun d => c.checkEnclosing d.name (c.size + 2) [] d) = .ok () ∧
      c.models.forM checkNesting = .ok () ∧ c.checkInheritance = .ok () := by
  unfold check
  cases henclosing : c.decls.forM fun d => c.checkEnclosing d.name (c.size + 2) [] d with
  | error f => simp [bind, Except.bind]
  | ok =>
    cases hnesting : c.models.forM checkNesting with
    | error f => simp [bind, Except.bind]
    | ok => simp [bind, Except.bind]

/-- In a checked catalog every way up ends. -/
theorem wellFounded_of_check (h : c.check = .ok ()) :
    WellFounded fun e d => c.Extends d e :=
  wellFounded_of_checkInheritance (check_ok_iff_parts.mp h).2.2

theorem not_inherits_self (h : WellFounded fun e d => c.Extends d e) (d : Decl) :
    ¬ c.Inherits d d :=
  not_circular_of_acc (h.apply d)

end Catalog

end Scaffold
