import Scaffold.Proofs.Equality
import Scaffold.Proofs.Likeness

/-!
What the generated equals means. Two objects are equal if they are one object, or objects of one
class whose values for every member are alike by the comparison of the member's type. So equals
is an equivalence on objects for every way of comparing arrays, and a plan that looks deeper
into arrays takes for equal what was equal before.
-/
namespace Scaffold.Eval

open Body

/-- Two objects are of one class and have alike values for every member. -/
structure Matches (s : Store) (mode : ArrayMode) (members : List Member) (a b : Value) :
    Prop where
  oneClass : s.className? a = s.className? b
  alike : ∀ m ∈ members,
    Alike s (Comparison.ofType m.type mode) (s.valueOf a m) (s.valueOf b m)

namespace Matches

variable {s : Store} {mode mode' : ArrayMode} {members : List Member} {a b d : Value}

theorem symm (h : Matches s mode members a b) : Matches s mode members b a where
  oneClass := h.oneClass.symm
  alike m hm := (h.alike m hm).symm

theorem trans (h : Matches s mode members a b) (h' : Matches s mode members b d) :
    Matches s mode members a d where
  oneClass := h.oneClass.trans h'.oneClass
  alike m hm := (h.alike m hm).trans (h'.alike m hm)

theorem mono (h : Matches s mode members a b) (hmode : mode.rank ≤ mode'.rank) :
    Matches s mode' members a b where
  oneClass := h.oneClass
  alike m hm := (h.alike m hm).mono (Comparison.reach_ofType_mono hmode m.type)

end Matches

section Decide

variable {s : Store} {p : Plan} {members : List Member} {a b : Value}

theorem Store.sameClass_of_none {v : Value} (a : Value) (h : s.className? v = none) :
    s.sameClass a v = false := by
  unfold sameClass
  rw [h]
  cases s.className? a <;> rfl

/-- What an object has for a member lies directly below it. -/
theorem Store.Finite.valueOf (h : s.Finite a) (m : Member) : s.Finite (s.valueOf a m) := by
  unfold Store.valueOf
  cases hfield : s.field? a m.name with
  | none => exact fun r hr => by simp at hr
  | some v =>
    cases a with
    | null | bool | int | str => simp [Store.field?] at hfield
    | ref r =>
      rcases hcell : s.cell? r with _ | (items | ⟨className, fields⟩)
      · simp [Store.field?, hcell] at hfield
      · simp [Store.field?, hcell] at hfield
      · have hlookup : fields.lookup m.name = some v := by
          simpa only [Store.field?, hcell] using hfield
        obtain ⟨before, behind, hsplit, -⟩ := List.lookup_eq_some_iff.mp hlookup
        have hmem : (m.name, v) ∈ fields := by
          rw [hsplit]
          exact List.mem_append_right before List.mem_cons_self
        exact h.of_held hcell (List.mem_map_of_mem hmem)

theorem all_agree_iff (hfinite : s.Finite a) :
    members.all (agree s p a b) = true ↔ ∀ m ∈ members,
      Alike s (Comparison.ofType m.type p.equalsArrays) (s.valueOf a m) (s.valueOf b m) := by
  rw [List.all_eq_true]
  refine forall₂_congr fun m _ => ?_
  exact equal_iff_alike (hfinite.valueOf m)

/-- The generated equals answers true on the two objects and leaves the store as it is. -/
def Equates (program : Program) (depth : Nat) (p : Plan) (members : List Member) (s : Store)
    (a b : Value) : Prop :=
  program.call depth (equals p members) a [b] s = (.ok (.bool true), s)

theorem exists_answer (program : Program) (depth : Nat) (ha : s.Holds members a)
    (hb : s.Holds members b) (hfinite : s.Finite a) :
    ∃ answer, program.call depth (equals p members) a [b] s = (.ok (.bool answer), s) ∧
      (answer = true ↔ a = b ∨ Matches s p.equalsArrays members a b) := by
  refine ⟨_, call_equals program depth ha hb, ?_⟩
  rw [Bool.or_eq_true, Bool.and_eq_true, decide_eq_true_eq, decide_eq_true_eq,
    all_agree_iff hfinite]
  refine or_congr_right ?_
  constructor
  · rintro ⟨hclass, halike⟩
    exact ⟨hclass, halike⟩
  · intro h
    exact ⟨h.oneClass, h.alike⟩

theorem equates_iff (program : Program) (depth : Nat) (ha : s.Holds members a)
    (hb : s.Holds members b) (hfinite : s.Finite a) :
    Equates program depth p members s a b ↔
      a = b ∨ Matches s p.equalsArrays members a b := by
  obtain ⟨answer, hcall, hanswer⟩ := exists_answer (p := p) program depth ha hb hfinite
  rw [← hanswer, Equates, hcall]
  simp

end Decide

/-- What the generated equals answers for objects that have a value for every member, when the
values end on every way down. -/
theorem equals_iff_same_or_matches (program : Program) (depth : Nat) (p : Plan)
    (members : List Member) (s : Store) (a b d : Value)
    (ha : s.Holds members a) (hb : s.Holds members b) (hd : s.Holds members d)
    (hafinite : s.Finite a) (hbfinite : s.Finite b) (hdfinite : s.Finite d) :
    (∃ answer, program.call depth (equals p members) a [b] s = (.ok (.bool answer), s) ∧
      (answer = true ↔ a = b ∨ Matches s p.equalsArrays members a b)) ∧
    (∀ v, s.className? v = none →
      program.call depth (equals p members) a [v] s = (.ok (.bool false), s)) ∧
    Equates program depth p members s a a ∧
    (Equates program depth p members s a b → Equates program depth p members s b a) ∧
    (Equates program depth p members s a b → Equates program depth p members s b d →
      Equates program depth p members s a d) ∧
    ∀ mode : ArrayMode, p.equalsArrays.rank ≤ mode.rank →
      Equates program depth p members s a b →
      Equates program depth { p with equalsArrays := mode } members s a b := by
  refine ⟨exists_answer program depth ha hb hafinite, ?_, ?_, ?_, ?_, ?_⟩
  · intro v hv
    obtain ⟨className, hclass⟩ := ha.isObject
    have hne : a ≠ v := by
      rintro rfl
      simp [hclass] at hv
    exact call_equals_of_otherClass program depth hne (Store.sameClass_of_none a hv)
  · exact (equates_iff program depth ha ha hafinite).mpr (Or.inl rfl)
  · rw [equates_iff program depth ha hb hafinite, equates_iff program depth hb ha hbfinite]
    rintro (rfl | h)
    · exact Or.inl rfl
    · exact Or.inr h.symm
  · rw [equates_iff program depth ha hb hafinite, equates_iff program depth hb hd hbfinite,
      equates_iff program depth ha hd hafinite]
    rintro (rfl | h) (rfl | h')
    · exact Or.inl rfl
    · exact Or.inr h'
    · exact Or.inr h
    · exact Or.inr (h.trans h')
  · intro mode hmode
    rw [equates_iff program depth ha hb hafinite, equates_iff program depth ha hb hafinite]
    rintro (rfl | h)
    · exact Or.inl rfl
    · exact Or.inr (h.mono hmode)

/-- Three objects with arrays of arrays of one content. Two of them share their array. -/
def triplets : Store :=
  ⟨[.array [.int 1], .array [.int 1], .array [.ref 0], .array [.ref 1],
    .object "a.Tag" [("text", .str "t")], .object "a.Tag" [("text", .str "t")],
    .object "a.ImmutableNode" [("grid", .ref 2), ("tag", .ref 4)],
    .object "a.ImmutableNode" [("grid", .ref 3), ("tag", .ref 5)],
    .object "a.ImmutableNode" [("grid", .ref 3), ("tag", .ref 4)]]⟩

theorem finite_triplets (v : Value) : triplets.Finite v := by
  apply Store.finite_of_older
  intro r cell hcell r' hheld
  have hr : r < 9 := (List.getElem?_eq_some_iff.mp hcell).1
  have hcells : ∀ r < 9, ∀ cell ∈ triplets.cell? r, ∀ v ∈ cell.held,
      v ∈ [.int 1, .str "t"] ++ (List.range r).map .ref := by decide
  have holder := hcells r hr cell hcell (.ref r') hheld
  simpa using holder

theorem equals_iff_same_or_matches_triplets :
    let deep : Plan := { (default : Plan) with equalsArrays := .deep }
    let program : Program := ⟨[], fun r => r.toInt64⟩
    triplets.Holds twinMembers (.ref 6) ∧ triplets.Holds twinMembers (.ref 7) ∧
      triplets.Holds twinMembers (.ref 8) ∧ triplets.Finite (.ref 6) ∧
      triplets.Finite (.ref 7) ∧ triplets.Finite (.ref 8) ∧
      Equates program 1 deep twinMembers triplets (.ref 6) (.ref 8) ∧
      Matches triplets .deep twinMembers (.ref 6) (.ref 7) ∧
      ¬ Matches triplets .shallow twinMembers (.ref 6) (.ref 7) := by
  intro deep program
  have hholds : ∀ r ∈ [6, 7, 8], triplets.Holds twinMembers (.ref r) := by
    simp only [List.forall_mem_cons, List.not_mem_nil, false_imp_iff, implies_true, and_true]
    refine ⟨⟨⟨_, rfl⟩, ?_⟩, ⟨⟨_, rfl⟩, ?_⟩, ⟨⟨_, rfl⟩, ?_⟩⟩ <;>
      simp only [Option.isSome_iff_exists.symm] <;> decide
  have h6 := hholds 6 (by decide)
  have h7 := hholds 7 (by decide)
  have h8 := hholds 8 (by decide)
  have hdeep := equals_iff_same_or_matches program 1 deep twinMembers triplets (.ref 6) (.ref 7)
    (.ref 8) h6 h7 h8 (finite_triplets _) (finite_triplets _) (finite_triplets _)
  have hshallow := equals_iff_same_or_matches program 1 { deep with equalsArrays := .shallow }
    twinMembers triplets (.ref 6) (.ref 7) (.ref 8) h6 h7 h8 (finite_triplets _)
    (finite_triplets _) (finite_triplets _)
  have h67 : Equates program 1 deep twinMembers triplets (.ref 6) (.ref 7) := rfl
  have h78 : Equates program 1 deep twinMembers triplets (.ref 7) (.ref 8) := rfl
  refine ⟨h6, h7, h8, finite_triplets _, finite_triplets _, finite_triplets _,
    hdeep.2.2.2.2.1 h67 h78, ?_, ?_⟩
  · obtain ⟨answer, hcall, hanswer⟩ := hdeep.1
    rw [Equates] at h67
    obtain rfl : true = answer := by simpa using h67.symm.trans hcall
    exact (hanswer.mp rfl).resolve_left (by decide)
  · obtain ⟨answer, hcall, hanswer⟩ := hshallow.1
    have hfalse : program.call 1 (equals { deep with equalsArrays := .shallow } twinMembers)
        (.ref 6) [.ref 7] triplets = (.ok (.bool false), triplets) := rfl
    obtain rfl : false = answer := by simpa using hfalse.symm.trans hcall
    intro h
    exact absurd (hanswer.mpr (Or.inr h)) (by decide)

end Scaffold.Eval
