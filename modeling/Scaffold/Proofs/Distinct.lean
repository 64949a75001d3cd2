import Mathlib.Data.List.Nodup
import Mathlib.Data.List.Induction

/-!
Lists of which only first occurrences are kept. What is dropped inside a part of a list changes
nothing in what is left of the whole, so parts may be made distinct first or last. Lists whose
elements have keys stay distinct when an element is renewed in its place, or added if its key
is new.
-/
namespace Scaffold.Distinct

variable {α β : Type}

theorem nodup_concat {l : List α} {x : α} (h : l.Nodup) (hx : x ∉ l) : (l ++ [x]).Nodup := by
  rw [← List.concat_eq_append]
  exact h.concat hx

section Keys

variable {key : β → α} {k : α}

/-- What is asked for by its key is found wherever it stands. -/
theorem find?_eq_some_iff {l : List β} {q : β → Bool} {x : β} (hnodup : (l.map key).Nodup)
    (hq : ∀ y, q y = true → key y = k) : l.find? q = some x ↔ x ∈ l ∧ q x = true := by
  constructor
  · intro h
    exact ⟨List.mem_of_find?_eq_some h, List.find?_some h⟩
  · rintro ⟨hx, hqx⟩
    cases h : l.find? q with
    | none => exact absurd hqx (List.find?_eq_none.mp h x hx)
    | some y =>
      have hkey : key y = key x := (hq y (List.find?_some h)).trans (hq x hqx).symm
      rw [List.inj_on_of_nodup_map hnodup (List.mem_of_find?_eq_some h) hx hkey]

/-- A part that is carried over under its keys keeps them in order. -/
theorem keys_filterMap_sublist {γ : Type} {f : γ → Option β} {key' : γ → α}
    (h : ∀ x y, f x = some y → key y = key' x) (l : List γ) :
    ((l.filterMap f).map key).Sublist (l.map key') := by
  induction l with
  | nil => exact List.Sublist.slnil
  | cons x l ih =>
    cases hx : f x with
    | none =>
      rw [List.filterMap_cons_none hx, List.map_cons]
      exact ih.cons (key' x)
    | some y =>
      rw [List.filterMap_cons_some hx, List.map_cons, List.map_cons, h x y hx]
      exact ih.cons_cons (key' x)

end Keys

variable [DecidableEq α]

theorem eraseDups_concat (l : List α) (x : α) :
    (l ++ [x]).eraseDups = if x ∈ l then l.eraseDups else l.eraseDups ++ [x] := by
  rw [List.eraseDups_append]
  by_cases hx : x ∈ l <;> simp [List.removeAll, hx, List.eraseDups_cons]

theorem nodup_eraseDups (l : List α) : l.eraseDups.Nodup := by
  induction l using List.reverseRecOn with
  | nil => simp
  | append_singleton l x ih =>
    rw [eraseDups_concat]
    by_cases hx : x ∈ l
    · rwa [if_pos hx]
    · rw [if_neg hx]
      exact nodup_concat ih fun hmem => hx (List.mem_eraseDups.mp hmem)

theorem eraseDups_of_nodup {l : List α} (h : l.Nodup) : l.eraseDups = l := by
  induction l using List.reverseRecOn with
  | nil => rfl
  | append_singleton l x ih =>
    have hparts := List.nodup_append.mp h
    have hx : x ∉ l := fun hmem => hparts.2.2 x hmem x List.mem_cons_self rfl
    rw [eraseDups_concat, if_neg hx, ih hparts.1]

theorem eraseDups_append_eq (l r : List α) :
    (l ++ r).eraseDups = l.eraseDups ++ r.eraseDups.filter (· ∉ l) := by
  induction r using List.reverseRecOn with
  | nil => simp
  | append_singleton r x ih =>
    rw [← List.append_assoc, eraseDups_concat, eraseDups_concat, ih]
    by_cases hl : x ∈ l <;> by_cases hr : x ∈ r <;> simp [hl, hr]

theorem eraseDups_append_congr {l l' r r' : List α} (hl : l.eraseDups = l'.eraseDups)
    (hr : r.eraseDups = r'.eraseDups) : (l ++ r).eraseDups = (l' ++ r').eraseDups := by
  have hmem : ∀ x, x ∈ l ↔ x ∈ l' := by
    intro x
    rw [← List.mem_eraseDups (l := l), hl, List.mem_eraseDups]
  rw [eraseDups_append_eq, eraseDups_append_eq, hl, hr]
  simp only [hmem]

theorem eraseDups_flatMap_congr {l : List β} {f g : β → List α}
    (h : ∀ x ∈ l, (f x).eraseDups = (g x).eraseDups) :
    (l.flatMap f).eraseDups = (l.flatMap g).eraseDups := by
  induction l with
  | nil => rfl
  | cons x l ih =>
    rw [List.flatMap_cons, List.flatMap_cons]
    exact eraseDups_append_congr (h x List.mem_cons_self)
      (ih fun y hy => h y (List.mem_cons_of_mem x hy))

theorem eraseDups_idem (l : List α) : l.eraseDups.eraseDups = l.eraseDups :=
  eraseDups_of_nodup (nodup_eraseDups l)

theorem eraseDups_flatMap_eraseDups [DecidableEq β] (l : List β) (f : β → List α) :
    (l.eraseDups.flatMap f).eraseDups = (l.flatMap f).eraseDups := by
  induction l using List.reverseRecOn with
  | nil => rfl
  | append_singleton l x ih =>
    rw [eraseDups_concat]
    by_cases hx : x ∈ l
    · have habsorbed : (l.flatMap f ++ f x).eraseDups = (l.flatMap f).eraseDups := by
        rw [eraseDups_append_eq, List.filter_eq_nil_iff.mpr, List.append_nil]
        intro y hy
        have hmem : y ∈ l.flatMap f :=
          List.mem_flatMap.mpr ⟨x, hx, List.mem_eraseDups.mp hy⟩
        simpa using hmem
      rw [if_pos hx, ih]
      simpa using habsorbed.symm
    · rw [if_neg hx, List.flatMap_append, List.flatMap_append]
      exact eraseDups_append_congr ih rfl

/-- What tells apart all that it keeps may be applied before or after. -/
theorem eraseDups_filterMap [DecidableEq β] {g : β → Option α}
    (hg : ∀ x y a, g x = some a → g y = some a → x = y) (l : List β) :
    l.eraseDups.filterMap g = (l.filterMap g).eraseDups := by
  have hflat : ∀ l : List β, l.filterMap g = l.flatMap fun x => (g x).toList := fun l => by
    rw [List.filterMap_eq_flatMap_toList]
  have hnodup : (l.eraseDups.filterMap g).Nodup :=
    (nodup_eraseDups l).filterMap fun x y a hx hy => hg x y a hx hy
  rw [← eraseDups_of_nodup hnodup, hflat, hflat, eraseDups_flatMap_eraseDups]

theorem lookup_cons_ite (x k : α) (y : β) (l : List (α × β)) :
    List.lookup x ((k, y) :: l) = if x = k then some y else l.lookup x := by
  by_cases hx : x = k
  · rw [hx, List.lookup_cons_self, if_pos rfl]
  · rw [List.lookup_cons, beq_eq_false_iff_ne.mpr hx, if_neg hx]

section Firsts

variable {key : β → α}

/-- The first element of each key. -/
def firsts (key : β → α) (l : List β) : List β :=
  l.eraseDupsBy fun x first => key x = key first

theorem firsts_cons (x : β) (l : List β) :
    firsts key (x :: l) = x :: firsts key (l.filter (key · ≠ key x)) := by
  simp only [firsts, List.eraseDupsBy_cons, decide_eq_false_iff_not, ne_eq]

theorem mem_of_mem_firsts {x : β} {l : List β} (h : x ∈ firsts key l) : x ∈ l := by
  induction hn : l.length using Nat.strongRecOn generalizing l with
  | _ n ih =>
    cases l with
    | nil => exact absurd h List.not_mem_nil
    | cons y l =>
      rw [firsts_cons] at h
      rcases List.mem_cons.mp h with rfl | hrest
      · exact List.mem_cons_self
      · have hshorter : (l.filter (key · ≠ key y)).length < n :=
          hn ▸ Nat.lt_succ_of_le (List.length_filter_le _ l)
        have hmem := ih _ hshorter hrest rfl
        exact List.mem_cons_of_mem y (List.mem_of_mem_filter hmem)

/-- The first elements of the keys that were not seen before. -/
theorem firsts_unseen_cons (seen : List α) (x : β) (l : List β) :
    firsts key ((x :: l).filter (key · ∉ seen)) =
      if key x ∈ seen then firsts key (l.filter (key · ∉ seen))
      else x :: firsts key (l.filter (key · ∉ seen ++ [key x])) := by
  by_cases hx : key x ∈ seen
  · rw [if_pos hx, List.filter_cons_of_neg (by simpa using hx)]
  · rw [if_neg hx, List.filter_cons_of_pos (by simpa using hx), firsts_cons, List.filter_filter]
    congr 2
    apply List.filter_congr
    intro y _
    simp [and_comm]

end Firsts

section Keyed

variable {key : β → α} {k : α} {fresh : β} {update : β → β}

/-- Renews the first element of a key, or adds one at the end. -/
def renew (key : β → α) (k : α) (fresh : β) (update : β → β) : List β → List β
  | [] => [fresh]
  | x :: l => if key x = k then update x :: l else x :: renew key k fresh update l

theorem keys_renew (hfresh : key fresh = k) (hupdate : ∀ x, key x = k → key (update x) = k)
    (l : List β) :
    (renew key k fresh update l).map key =
      if k ∈ l.map key then l.map key else l.map key ++ [k] := by
  induction l with
  | nil => simp [renew, hfresh]
  | cons x l ih =>
    unfold renew
    by_cases hx : key x = k
    · rw [if_pos hx, List.map_cons, List.map_cons, hupdate x hx, hx,
        if_pos List.mem_cons_self]
    · have hmem : k ∈ key x :: l.map key ↔ k ∈ l.map key := by
        rw [List.mem_cons, or_iff_right (Ne.symm hx)]
      rw [if_neg hx, List.map_cons, ih, List.map_cons]
      by_cases hin : k ∈ l.map key
      · rw [if_pos hin, if_pos (hmem.mpr hin)]
      · rw [if_neg hin, if_neg (mt hmem.mp hin), List.cons_append]

theorem mem_renew {l : List β} {y : β} (hnodup : (l.map key).Nodup)
    (hy : y ∈ renew key k fresh update l) :
    y ∈ l ∧ key y ≠ k ∨ (∃ x ∈ l, key x = k ∧ y = update x) ∨ k ∉ l.map key ∧ y = fresh := by
  induction l with
  | nil =>
    have hfresh : y = fresh := by simpa [renew] using hy
    exact Or.inr (Or.inr ⟨by simp, hfresh⟩)
  | cons x l ih =>
    obtain ⟨hkey, hrest⟩ := List.nodup_cons.mp hnodup
    unfold renew at hy
    by_cases hx : key x = k
    · rw [if_pos hx] at hy
      rcases List.mem_cons.mp hy with rfl | hmem
      · exact Or.inr (Or.inl ⟨x, List.mem_cons_self, hx, rfl⟩)
      · refine Or.inl ⟨List.mem_cons_of_mem x hmem, fun hyk => hkey ?_⟩
        rw [hx, ← hyk]
        exact List.mem_map_of_mem hmem
    · rw [if_neg hx] at hy
      rcases List.mem_cons.mp hy with rfl | hmem
      · exact Or.inl ⟨List.mem_cons_self, hx⟩
      · rcases ih hrest hmem with ⟨hl, hyk⟩ | ⟨z, hz, hzk, hyz⟩ | ⟨hnew, hyf⟩
        · exact Or.inl ⟨List.mem_cons_of_mem x hl, hyk⟩
        · exact Or.inr (Or.inl ⟨z, List.mem_cons_of_mem x hz, hzk, hyz⟩)
        · refine Or.inr (Or.inr ⟨?_, hyf⟩)
          rw [List.map_cons, List.mem_cons, not_or]
          exact ⟨Ne.symm hx, hnew⟩

end Keyed

end Scaffold.Distinct
