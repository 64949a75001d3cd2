import Scaffold.Eval.Compare
import Mathlib.Data.List.Basic

/-!
Values that are equal hash alike. Equality and hashing may look into arrays to different
depths; it is enough that hashing looks at least as deep. Both switch back to the structural
comparison inside objects, and in the elements of an array compared one level deep, so the
induction goes over all comparisons at once.
-/
namespace Scaffold

/-- How deep a comparison looks into nested arrays: not at all, one level, or all levels. -/
def Comparison.reach : Comparison → Nat
  | .structural | .identity => 0
  | .shallowContent => 1
  | .deepContent => 2

theorem Comparison.reach_ofType_mono {equals hash : ArrayMode} (h : equals.rank ≤ hash.rank)
    (type : Ty) : (ofType type equals).reach ≤ (ofType type hash).reach := by
  unfold ofType
  split
  · cases equals <;> cases hash <;> simp_all [ArrayMode.rank, reach]
  · exact Nat.le_refl _

namespace Eval

private theorem map_eq_of_equalAll {eq : Value → Value → Bool} {f g : Value → Int64}
    (h : ∀ a b, eq a b = true → f a = g b) {as bs : List Value}
    (he : equalAll eq as bs = true) : as.map f = bs.map g := by
  induction as generalizing bs with
  | nil =>
    cases bs with
    | nil => rfl
    | cons b bs => simp [equalAll] at he
  | cons a as ih =>
    cases bs with
    | nil => simp [equalAll] at he
    | cons b bs =>
      simp only [equalAll, Bool.and_eq_true] at he
      rw [List.map_cons, List.map_cons, h a b he.1, ih he.2]

private theorem map_eq_of_equalFields {eq : Value → Value → Bool} {f g : Value → Int64}
    (h : ∀ a b, eq a b = true → f a = g b) {as bs : List (String × Value)}
    (he : equalFields eq as bs = true) :
    as.map (fun x => f x.2) = bs.map (fun x => g x.2) := by
  induction as generalizing bs with
  | nil =>
    cases bs with
    | nil => rfl
    | cons b bs => simp [equalFields] at he
  | cons a as ih =>
    obtain ⟨n, a⟩ := a
    cases bs with
    | nil => simp [equalFields] at he
    | cons b bs =>
      obtain ⟨k, b⟩ := b
      simp only [equalFields, Bool.and_eq_true] at he
      rw [List.map_cons, List.map_cons, ih he.2]
      exact congrArg (· :: _) (h a b he.1.2)

/-- Values that are equal but not the same are arrays with equal elements, if the comparison
looks into them, or objects of one class with equal fields. -/
theorem equalWithin_cases {s : Store} {n : Nat} {c : Comparison} {a b : Value}
    (he : equalWithin s (n + 1) c a b = true) :
    a = b ∨
    (∃ r r' as bs, a = .ref r ∧ b = .ref r' ∧
      s.cell? r = some (.array as) ∧ s.cell? r' = some (.array bs) ∧
      (c = .shallowContent ∧ equalAll (equalWithin s n .structural) as bs = true ∨
        c = .deepContent ∧ equalAll (equalWithin s n .deepContent) as bs = true)) ∨
    (∃ r r' d as bs, a = .ref r ∧ b = .ref r' ∧
      s.cell? r = some (.object d as) ∧ s.cell? r' = some (.object d bs) ∧
      equalFields (equalWithin s n .structural) as bs = true) := by
  cases a with
  | null | bool | int | str =>
    left
    simpa [equalWithin] using he
  | ref r =>
    cases b with
    | null | bool | int | str => simp [equalWithin] at he
    | ref r' =>
      by_cases hsame : r = r'
      · exact Or.inl (congrArg Value.ref hsame)
      right
      rcases hr : s.cell? r with _ | (as | ⟨d, as⟩) <;>
        rcases hr' : s.cell? r' with _ | (bs | ⟨d', bs⟩) <;>
        simp only [equalWithin, hr, hr', hsame, decide_false, Bool.false_eq_true,
          Bool.false_or, Bool.and_eq_true, decide_eq_true_eq] at he
      · left
        refine ⟨r, r', as, bs, rfl, rfl, hr, hr', ?_⟩
        cases c with
        | structural | identity => simp at he
        | shallowContent => exact Or.inl ⟨rfl, he⟩
        | deepContent => exact Or.inr ⟨rfl, he⟩
      · right
        obtain ⟨rfl, hfields⟩ := he
        exact ⟨r, r', d, as, bs, rfl, rfl, hr, hr', hfields⟩

/-- The induction is on the levels that both are allowed, for all pairs of comparisons. -/
theorem hashWithin_eq_of_equalWithin (s : Store) (identity : Ref → Int64) (n : Nat)
    {c c' : Comparison} (hc : c.reach ≤ c'.reach) (a b : Value)
    (he : equalWithin s n c a b = true) :
    hashWithin s identity n c' a = hashWithin s identity n c' b := by
  induction n generalizing c c' a b with
  | zero =>
    have hab : a = b := by simpa [equalWithin] using he
    rw [hab]
  | succ n ih =>
    have hstruct : ∀ c'' : Comparison, Comparison.structural.reach ≤ c''.reach :=
      fun c'' => Nat.zero_le _
    rcases equalWithin_cases he with rfl | ⟨r, r', as, bs, rfl, rfl, hr, hr', hitems⟩ |
      ⟨r, r', d, as, bs, rfl, rfl, hr, hr', hfields⟩
    · rfl
    · simp only [hashWithin, hr, hr']
      rcases hitems with ⟨rfl, hitems⟩ | ⟨rfl, hitems⟩
      · cases c' with
        | structural | identity => simp [Comparison.reach] at hc
        | shallowContent =>
          exact congrArg (·.foldl mix 1) (map_eq_of_equalAll (ih (hstruct _)) hitems)
        | deepContent =>
          exact congrArg (·.foldl mix 1) (map_eq_of_equalAll (ih (hstruct _)) hitems)
      · cases c' with
        | structural | identity | shallowContent => simp [Comparison.reach] at hc
        | deepContent =>
          exact congrArg (·.foldl mix 1) (map_eq_of_equalAll (ih (Nat.le_refl _)) hitems)
    · simp only [hashWithin, hr, hr']
      exact congrArg (·.foldl mix 1) (map_eq_of_equalFields (ih (hstruct _)) hfields)

theorem hash_eq_of_equal {s : Store} (identity : Ref → Int64) {c c' : Comparison}
    (hc : c.reach ≤ c'.reach) {a b : Value} (he : equal s c a b = true) :
    hash s identity c' a = hash s identity c' b :=
  hashWithin_eq_of_equalWithin s identity (s.size + 1) hc a b he

end Eval

end Scaffold
