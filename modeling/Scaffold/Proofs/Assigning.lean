import Scaffold.Eval.Store
import Scaffold.Proofs.Distinct

/-!
Assignments to the fields of one object. An assignment is seen under its own name only, and
nowhere but in that object. Assignments to distinct names do not get in each other's way, so
after a row of them each name has its value, and the same row once more changes nothing.
-/
namespace Scaffold.Eval.Store

variable {s : Store} {r : Ref}

theorem lookup_setField (name x : String) (v : Value) (fields : List (String × Value)) :
    (setField name v fields).lookup x = if x = name then some v else fields.lookup x := by
  induction fields with
  | nil => exact Distinct.lookup_cons_ite x name v []
  | cons field fields ih =>
    obtain ⟨n, old⟩ := field
    unfold setField
    by_cases hn : n = name
    · rw [if_pos hn, Distinct.lookup_cons_ite, Distinct.lookup_cons_ite, hn]
      by_cases hx : x = name
      · rw [if_pos hx, if_pos hx]
      · rw [if_neg hx, if_neg hx, if_neg hx]
    · rw [if_neg hn, Distinct.lookup_cons_ite, Distinct.lookup_cons_ite, ih]
      by_cases hx : x = n
      · rw [if_pos hx, if_pos hx, if_neg fun hname => hn (hx.symm.trans hname)]
      · rw [if_neg hx, if_neg hx]

theorem setField_eq_self {name : String} {v : Value} {fields : List (String × Value)}
    (h : fields.lookup name = some v) : setField name v fields = fields := by
  induction fields with
  | nil => simp at h
  | cons field fields ih =>
    obtain ⟨n, old⟩ := field
    unfold setField
    by_cases hn : n = name
    · subst hn
      obtain rfl : old = v := by simpa using h
      rw [if_pos rfl]
    · rw [Distinct.lookup_cons_ite, if_neg (Ne.symm hn)] at h
      rw [if_neg hn, ih h]

theorem className?_eq_some_iff {className : String} :
    s.className? (.ref r) = some className ↔
      ∃ fields, s.cell? r = some (.object className fields) := by
  cases hcell : s.cell? r with
  | none => simp [className?, hcell]
  | some cell => cases cell <;> simp [className?, hcell]

theorem cell?_assign_of_ne {r' : Ref} (h : r' ≠ r) (name : String) (v : Value) :
    (s.assign r name v).cell? r' = s.cell? r' := by
  unfold assign
  split
  · exact List.getElem?_set_ne (Ne.symm h)
  · rfl

theorem cell?_assign_self {className : String} {fields : List (String × Value)}
    (h : s.cell? r = some (.object className fields)) (name : String) (v : Value) :
    (s.assign r name v).cell? r = some (.object className (setField name v fields)) := by
  have hr : r < s.cells.length := (List.getElem?_eq_some_iff.mp h).1
  simp only [assign, h]
  exact List.getElem?_set_self hr

theorem className?_assign_self (name : String) (v : Value) :
    (s.assign r name v).className? (.ref r) = s.className? (.ref r) := by
  cases h : s.cell? r with
  | none => simp only [assign, h]
  | some cell =>
    cases cell with
    | array items => simp only [assign, h]
    | object className fields => simp only [className?, cell?_assign_self h, h]

theorem field?_assign_self {className : String} (h : s.className? (.ref r) = some className)
    (name x : String) (v : Value) :
    (s.assign r name v).field? (.ref r) x = if x = name then some v else s.field? (.ref r) x := by
  obtain ⟨fields, hcell⟩ := className?_eq_some_iff.mp h
  simp only [field?, cell?_assign_self hcell, hcell, lookup_setField]

theorem assign_eq_self {name : String} {v : Value} (h : s.field? (.ref r) name = some v) :
    s.assign r name v = s := by
  obtain ⟨cells⟩ := s
  unfold assign
  split
  · rename_i className fields hcell
    have hlookup : fields.lookup name = some v := by simpa [field?, hcell] using h
    obtain ⟨hr, hget⟩ := List.getElem?_eq_some_iff.mp hcell
    rw [setField_eq_self hlookup, ← hget]
    simp only [List.set_getElem_self]
  · rfl

/-- Assigns the values to the fields of their names, one after the other. -/
def assignAll (s : Store) (r : Ref) (values : List (String × Value)) : Store :=
  values.foldl (fun s value => s.assign r value.1 value.2) s

theorem assignAll_cons (r : Ref) (value : String × Value) (values : List (String × Value)) :
    s.assignAll r (value :: values) = (s.assign r value.1 value.2).assignAll r values := rfl

theorem className?_assignAll (values : List (String × Value)) :
    (s.assignAll r values).className? (.ref r) = s.className? (.ref r) := by
  induction values generalizing s with
  | nil => rfl
  | cons value values ih => rw [assignAll_cons, ih, className?_assign_self]

theorem cell?_assignAll_of_ne {r' : Ref} (h : r' ≠ r) (values : List (String × Value)) :
    (s.assignAll r values).cell? r' = s.cell? r' := by
  induction values generalizing s with
  | nil => rfl
  | cons value values ih => rw [assignAll_cons, ih, cell?_assign_of_ne h]

/-- Values that are no other object's are not touched. -/
theorem field?_assignAll_of_ne {v : Value} (h : v ≠ .ref r) (values : List (String × Value))
    (x : String) : (s.assignAll r values).field? v x = s.field? v x := by
  cases v with
  | null | bool | int | str => rfl
  | ref r' =>
    have hr : r' ≠ r := fun hr => h (congrArg Value.ref hr)
    simp only [field?, cell?_assignAll_of_ne hr]

variable {className : String} {values : List (String × Value)}

theorem field?_assignAll_of_not_mem (hclass : s.className? (.ref r) = some className)
    {x : String} (hx : x ∉ values.map Prod.fst) :
    (s.assignAll r values).field? (.ref r) x = s.field? (.ref r) x := by
  induction values generalizing s with
  | nil => rfl
  | cons value values ih =>
    rw [List.map_cons, List.mem_cons, not_or] at hx
    rw [assignAll_cons, ih (by rwa [className?_assign_self]) hx.2, field?_assign_self hclass,
      if_neg hx.1]

theorem field?_assignAll_of_mem (hclass : s.className? (.ref r) = some className)
    (hnodup : (values.map Prod.fst).Nodup) {x : String} {v : Value} (h : (x, v) ∈ values) :
    (s.assignAll r values).field? (.ref r) x = some v := by
  induction values generalizing s with
  | nil => simp at h
  | cons value values ih =>
    obtain ⟨hfirst, hrest⟩ := List.nodup_cons.mp hnodup
    have hclass' : (s.assign r value.1 value.2).className? (.ref r) = some className := by
      rwa [className?_assign_self]
    rw [assignAll_cons]
    rcases List.mem_cons.mp h with rfl | h
    · rw [field?_assignAll_of_not_mem hclass' hfirst, field?_assign_self hclass, if_pos rfl]
    · exact ih hclass' hrest h

theorem assignAll_eq_self (h : ∀ value ∈ values, s.field? (.ref r) value.1 = some value.2) :
    s.assignAll r values = s := by
  induction values with
  | nil => rfl
  | cons value values ih =>
    rw [assignAll_cons, assign_eq_self (h value List.mem_cons_self)]
    exact ih fun value' hvalue' => h value' (List.mem_cons_of_mem value hvalue')

theorem assignAll_assignAll (hclass : s.className? (.ref r) = some className)
    (hnodup : (values.map Prod.fst).Nodup) :
    (s.assignAll r values).assignAll r values = s.assignAll r values := by
  apply assignAll_eq_self
  intro value hvalue
  exact field?_assignAll_of_mem hclass hnodup hvalue

end Scaffold.Eval.Store
