import Mathlib.Data.List.Forall2

/-!
When computations that may fail succeed. A sequence succeeds if every step does, and has the
fault of the first step that fails.
-/
namespace Scaffold

variable {ε α β : Type}

theorem ok_bind (a : α) (f : α → Except ε β) : ((.ok a : Except ε α) >>= f) = f a := rfl

theorem bind_ok_iff {x : Except ε α} {f : α → Except ε β} {b : β} :
    (x >>= f) = .ok b ↔ ∃ a, x = .ok a ∧ f a = .ok b := by
  cases x with
  | error e => simp [bind, Except.bind]
  | ok a => simp [bind, Except.bind]

theorem ite_bind_ok_iff {P : Prop} [Decidable P] {x y : Except ε α} {f : α → Except ε β}
    {b : β} : (if P then x >>= f else y >>= f) = .ok b ↔
      ∃ a, (if P then x else y) = .ok a ∧ f a = .ok b := by
  rw [← bind_ok_iff]
  split <;> rfl

theorem map_ok_iff {x : Except ε α} {f : α → β} {b : β} :
    x.map f = .ok b ↔ ∃ a, x = .ok a ∧ f a = b := by
  cases x <;> simp [Except.map]

theorem mapM_ok_iff {f : α → Except ε β} {as : List α} {bs : List β} :
    as.mapM f = .ok bs ↔ List.Forall₂ (fun a b => f a = .ok b) as bs := by
  induction as generalizing bs with
  | nil => cases bs <;> simp [pure, Except.pure]
  | cons a as ih =>
    rw [List.mapM_cons, bind_ok_iff, List.forall₂_cons_left_iff]
    simp only [bind_ok_iff, ih]
    constructor
    · rintro ⟨b, hb, bs', hbs', hcons⟩
      exact ⟨b, bs', hb, hbs', (Except.ok.inj hcons).symm⟩
    · rintro ⟨b, bs', hb, hbs', rfl⟩
      exact ⟨b, hb, bs', hbs', rfl⟩

/-- A row of computations succeeds if each of them does. -/
theorem exists_mapM_iff {f : α → Except ε β} {as : List α} :
    (∃ bs, as.mapM f = .ok bs) ↔ ∀ a ∈ as, ∃ b, f a = .ok b := by
  induction as with
  | nil => simp [pure, Except.pure]
  | cons a as ih =>
    rw [List.forall_mem_cons, ← ih]
    simp only [List.mapM_cons, bind_ok_iff]
    constructor
    · rintro ⟨_, b, hb, bs, hbs, -⟩
      exact ⟨⟨b, hb⟩, bs, hbs⟩
    · rintro ⟨⟨b, hb⟩, bs, hbs⟩
      exact ⟨b :: bs, b, hb, bs, hbs, rfl⟩

/-- The first computation of a row that fails ends the row. -/
theorem mapM_error_of_find? {f : α → Except ε β} {fails : α → Bool} {as : List α} {a : α} {e : ε}
    (h : as.find? fails = some a) (hok : ∀ b ∈ as, fails b = false → ∃ r, f b = .ok r)
    (herror : f a = .error e) : as.mapM f = .error e := by
  induction as with
  | nil => simp at h
  | cons b as ih =>
    rw [List.forall_mem_cons] at hok
    rw [List.mapM_cons]
    cases hb : fails b with
    | true =>
      rw [List.find?_cons_of_pos hb] at h
      rw [Option.some.inj h, herror]
      rfl
    | false =>
      rw [List.find?_cons_of_neg (by simp [hb])] at h
      obtain ⟨r, hr⟩ := hok.1 hb
      rw [hr, ok_bind, ih h hok.2]
      rfl

end Scaffold
