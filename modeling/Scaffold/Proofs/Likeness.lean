import Scaffold.Proofs.Ancestry
import Scaffold.Proofs.Hashing
import Mathlib.Data.List.Perm.Subperm
import Mathlib.Logic.Relation

/-!
When values are alike. Likeness is defined without any bound on how deep values nest, and it is
an equivalence for every comparison; looking deeper into arrays never tells apart what was
alike before. The test of equality counts levels instead. On a value from which every way down
ends no way is longer than the store, so there the levels suffice and the test finds just the
values that are alike.
-/
namespace Scaffold

/-- How a comparison that looks into arrays compares their items. -/
def Comparison.items? : Comparison → Option Comparison
  | .structural | .identity => none
  | .shallowContent => some .structural
  | .deepContent => some .deepContent

theorem Comparison.items?_mono {c c' inner : Comparison} (hinner : c.items? = some inner)
    (h : c.reach ≤ c'.reach) :
    ∃ inner', c'.items? = some inner' ∧ inner.reach ≤ inner'.reach := by
  cases c <;> cases c' <;> simp_all [items?, reach]
  subst hinner
  exact Nat.zero_le _

namespace Eval

/-- What a comparison says of two values: that they are one and the same, or arrays with items
that are alike in turn, if the comparison looks into arrays, or objects of one class with alike
values under the same names. -/
inductive Alike (s : Store) : Comparison → Value → Value → Prop
  | same (c : Comparison) (v : Value) : Alike s c v v
  | items {c inner : Comparison} {r r' : Ref} {as bs : List Value}
      (hr : s.cell? r = some (.array as)) (hr' : s.cell? r' = some (.array bs))
      (hinner : c.items? = some inner) (hlength : as.length = bs.length)
      (hall : ∀ (i : Nat) a b, as[i]? = some a → bs[i]? = some b → Alike s inner a b) :
      Alike s c (.ref r) (.ref r')
  | fields {c : Comparison} {r r' : Ref} {className : String} {as bs : List (String × Value)}
      (hr : s.cell? r = some (.object className as))
      (hr' : s.cell? r' = some (.object className bs))
      (hnames : as.map Prod.fst = bs.map Prod.fst)
      (hall : ∀ (i : Nat) a b, as[i]? = some a → bs[i]? = some b → Alike s .structural a.2 b.2) :
      Alike s c (.ref r) (.ref r')

namespace Alike

variable {s : Store} {c : Comparison} {a b d : Value}

theorem symm (h : Alike s c a b) : Alike s c b a := by
  induction h with
  | same c v => exact .same c v
  | items hr hr' hinner hlength _ ih =>
    exact .items hr' hr hinner hlength.symm fun i a b ha hb => ih i b a hb ha
  | fields hr hr' hnames _ ih =>
    exact .fields hr' hr hnames.symm fun i a b ha hb => ih i b a hb ha

private theorem getElem?_mid {α β : Type} {l : List α} {l' : List β} {i : Nat} {x : α}
    (hlength : l.length = l'.length) (hx : l[i]? = some x) : ∃ y, l'[i]? = some y := by
  obtain ⟨hi, -⟩ := List.getElem?_eq_some_iff.mp hx
  have hi' : i < l'.length := hlength ▸ hi
  exact ⟨l'[i], List.getElem?_eq_getElem hi'⟩

theorem trans (h : Alike s c a b) (h' : Alike s c b d) : Alike s c a d := by
  induction h generalizing d with
  | same => exact h'
  | items hr hr' hinner hlength hall ih =>
    cases h' with
    | same => exact .items hr hr' hinner hlength hall
    | items hmid hr'' hinner' hlength' hall' =>
      obtain rfl := Cell.array.inj (Option.some.inj (hmid.symm.trans hr'))
      obtain rfl := Option.some.inj (hinner.symm.trans hinner')
      refine .items hr hr'' hinner (hlength.trans hlength') fun i x z hx hz => ?_
      obtain ⟨y, hy⟩ := getElem?_mid hlength hx
      exact ih i x y hx hy (hall' i y z hy hz)
    | fields hmid => simp [hr'] at hmid
  | fields hr hr' hnames hall ih =>
    cases h' with
    | same => exact .fields hr hr' hnames hall
    | items hmid => simp [hr'] at hmid
    | fields hmid hr'' hnames' hall' =>
      obtain ⟨rfl, rfl⟩ := Cell.object.inj (Option.some.inj (hmid.symm.trans hr'))
      refine .fields hr hr'' (hnames.trans hnames') fun i x z hx hz => ?_
      have hlength := congrArg List.length hnames
      rw [List.length_map, List.length_map] at hlength
      obtain ⟨y, hy⟩ := getElem?_mid hlength hx
      exact ih i x y hx hy (hall' i y z hy hz)

/-- A comparison that looks deeper into arrays finds alike what was alike. -/
theorem mono {c' : Comparison} (h : Alike s c a b) (hc : c.reach ≤ c'.reach) :
    Alike s c' a b := by
  induction h generalizing c' with
  | same c v => exact .same c' v
  | items hr hr' hinner hlength _ ih =>
    obtain ⟨inner', hinner', hreach⟩ := Comparison.items?_mono hinner hc
    exact .items hr hr' hinner' hlength fun i a b ha hb => ih i a b ha hb hreach
  | fields hr hr' hnames hall _ => exact .fields hr hr' hnames hall

end Alike

section Test

variable {s : Store} {n : Nat} {c : Comparison} {a b : Value}

theorem equalAll_iff {eq : Value → Value → Bool} {as bs : List Value} :
    equalAll eq as bs = true ↔ as.length = bs.length ∧
      ∀ (i : Nat) a b, as[i]? = some a → bs[i]? = some b → eq a b = true := by
  induction as generalizing bs with
  | nil => cases bs <;> simp [equalAll]
  | cons a as ih =>
    cases bs with
    | nil => simp [equalAll]
    | cons b bs =>
      rw [equalAll, Bool.and_eq_true, ih, List.length_cons, List.length_cons,
        Nat.add_right_cancel_iff]
      constructor
      · rintro ⟨hfirst, hlength, hrest⟩
        refine ⟨hlength, fun i x y hx hy => ?_⟩
        cases i with
        | zero =>
          obtain rfl : a = x := by simpa using hx
          obtain rfl : b = y := by simpa using hy
          exact hfirst
        | succ i => exact hrest i x y (by simpa using hx) (by simpa using hy)
      · rintro ⟨hlength, hall⟩
        exact ⟨hall 0 a b rfl rfl, hlength, fun i x y hx hy => hall (i + 1) x y hx hy⟩

theorem equalFields_iff {eq : Value → Value → Bool} {as bs : List (String × Value)} :
    equalFields eq as bs = true ↔ as.map Prod.fst = bs.map Prod.fst ∧
      ∀ (i : Nat) a b, as[i]? = some a → bs[i]? = some b → eq a.2 b.2 = true := by
  induction as generalizing bs with
  | nil => cases bs <;> simp [equalFields]
  | cons a as ih =>
    obtain ⟨m, a⟩ := a
    cases bs with
    | nil => simp [equalFields]
    | cons b bs =>
      obtain ⟨k, b⟩ := b
      rw [equalFields, Bool.and_eq_true, Bool.and_eq_true, ih, List.map_cons, List.map_cons,
        List.cons.injEq, decide_eq_true_eq]
      constructor
      · rintro ⟨⟨hname, hfirst⟩, hnames, hrest⟩
        refine ⟨⟨hname, hnames⟩, fun i x y hx hy => ?_⟩
        cases i with
        | zero =>
          obtain rfl : (m, a) = x := by simpa using hx
          obtain rfl : (k, b) = y := by simpa using hy
          exact hfirst
        | succ i => exact hrest i x y (by simpa using hx) (by simpa using hy)
      · rintro ⟨⟨hname, hnames⟩, hall⟩
        exact ⟨⟨hname, hall 0 _ _ rfl rfl⟩, hnames, fun i x y hx hy => hall (i + 1) x y hx hy⟩

theorem equalWithin_refl (s : Store) (n : Nat) (c : Comparison) (v : Value) :
    equalWithin s n c v v = true := by
  induction n generalizing c v with
  | zero => simp [equalWithin]
  | succ n ih =>
    cases v with
    | null | bool | int | str => simp [equalWithin]
    | ref r =>
      have hsame : ∀ (c : Comparison) (l : List Value),
          equalAll (equalWithin s n c) l l = true := by
        intro c l
        refine equalAll_iff.mpr ⟨rfl, fun i x y hx hy => ?_⟩
        obtain rfl := Option.some.inj (hx.symm.trans hy)
        exact ih c x
      rcases hr : s.cell? r with _ | (items | ⟨className, fields⟩)
      · simp [equalWithin, hr]
      · cases c <;> simp [equalWithin, hr, hsame]
      · simp [equalWithin, hr]

/-- What the test takes for equal is alike, however many levels it was allowed. -/
theorem alike_of_equalWithin (h : equalWithin s n c a b = true) : Alike s c a b := by
  induction n generalizing c a b with
  | zero =>
    obtain rfl : a = b := by simpa [equalWithin] using h
    exact .same c a
  | succ n ih =>
    rcases equalWithin_cases h with rfl | ⟨r, r', as, bs, rfl, rfl, hr, hr', hitems⟩ |
      ⟨r, r', className, as, bs, rfl, rfl, hr, hr', hfields⟩
    · exact .same c a
    · rcases hitems with ⟨rfl, hitems⟩ | ⟨rfl, hitems⟩
      · obtain ⟨hlength, hall⟩ := equalAll_iff.mp hitems
        exact .items hr hr' rfl hlength fun i x y hx hy => ih (hall i x y hx hy)
      · obtain ⟨hlength, hall⟩ := equalAll_iff.mp hitems
        exact .items hr hr' rfl hlength fun i x y hx hy => ih (hall i x y hx hy)
    · obtain ⟨hnames, hall⟩ := equalFields_iff.mp hfields
      exact .fields hr hr' hnames fun i x y hx hy => ih (hall i x y hx hy)

end Test

/-- The values in a cell. -/
def Cell.held : Cell → List Value
  | .array items => items
  | .object _ fields => fields.map Prod.snd

namespace Store

variable {s : Store}

/-- The cell of the first reference holds the second. -/
def Nests (s : Store) (r r' : Ref) : Prop :=
  ∃ cell, s.cell? r = some cell ∧ .ref r' ∈ cell.held

/-- Every way down from the value ends. -/
def Finite (s : Store) (v : Value) : Prop :=
  ∀ r, v = .ref r → Acc (fun r' r => s.Nests r r') r

theorem Finite.of_held {r : Ref} {cell : Cell} {v : Value} (h : s.Finite (.ref r))
    (hcell : s.cell? r = some cell) (hv : v ∈ cell.held) : s.Finite v := by
  rintro r' rfl
  exact (h r rfl).inv ⟨cell, hcell, hv⟩

/-- Where cells hold only older references every way down ends. -/
theorem finite_of_older (h : ∀ r cell, s.cell? r = some cell →
    ∀ r', .ref r' ∈ cell.held → r' < r) (v : Value) : s.Finite v := by
  rintro r rfl
  induction r using Nat.strongRecOn with
  | _ r ih =>
    refine Acc.intro r ?_
    rintro r' ⟨cell, hcell, hheld⟩
    exact ih r' (h r cell hcell r' hheld)

/-- Distinct references of cells, so many that the levels left suffice for the others. -/
structure Depth (s : Store) (n : Nat) (path : List Ref) : Prop where
  nodup : path.Nodup
  cells : ∀ r ∈ path, r < s.size
  levels : s.size < path.length + n

theorem Depth.pos {n : Nat} {path : List Ref} (h : s.Depth n path) : 0 < n := by
  have hsub : path ⊆ List.range s.size := fun r hr => List.mem_range.mpr (h.cells r hr)
  have hle := (List.subperm_of_subset h.nodup hsub).length_le
  have hlevels := h.levels
  rw [List.length_range] at hle
  omega

theorem Depth.push {n : Nat} {path : List Ref} {r : Ref} {cell : Cell}
    (h : s.Depth (n + 1) path) (hcell : s.cell? r = some cell) (hnew : r ∉ path) :
    s.Depth n (r :: path) := by
  have hr : r < s.size := (List.getElem?_eq_some_iff.mp hcell).1
  refine ⟨List.nodup_cons.mpr ⟨hnew, h.nodup⟩, List.forall_mem_cons.mpr ⟨hr, h.cells⟩, ?_⟩
  have hlevels := h.levels
  rw [List.length_cons]
  omega

/-- The references on the path lead down to the value. -/
def LeadDown (s : Store) (path : List Ref) (v : Value) : Prop :=
  ∀ r, v = .ref r → ∀ above ∈ path, Relation.TransGen s.Nests above r

theorem LeadDown.push {path : List Ref} {r : Ref} {cell : Cell} {v : Value}
    (h : s.LeadDown path (.ref r)) (hcell : s.cell? r = some cell) (hv : v ∈ cell.held) :
    s.LeadDown (r :: path) v := by
  rintro r' rfl above habove
  have hstep : s.Nests r r' := ⟨cell, hcell, hv⟩
  rcases List.mem_cons.mp habove with rfl | habove
  · exact .single hstep
  · exact (h r rfl above habove).tail hstep

end Store

section Levels

variable {s : Store} {c : Comparison} {a b : Value}

/-- The induction is on the likeness. The references passed on the way down are distinct,
because none of them is met again below itself. -/
theorem equalWithin_of_alike (h : Alike s c a b) (n : Nat) (path : List Ref)
    (hdepth : s.Depth n path) (hdown : s.LeadDown path a) (hfinite : s.Finite a) :
    equalWithin s n c a b = true := by
  induction h generalizing n path with
  | same c v => exact equalWithin_refl s n c v
  | @items c inner r r' as bs hr hr' hinner hlength _ ih =>
    have hnew : r ∉ path := fun hmem =>
      not_circular_of_acc (hfinite r rfl) (hdown r rfl r hmem)
    obtain ⟨n, rfl⟩ := Nat.exists_eq_add_one.mpr hdepth.pos
    have hall : equalAll (equalWithin s n inner) as bs = true := by
      refine equalAll_iff.mpr ⟨hlength, fun i x y hx hy => ?_⟩
      have hheld : x ∈ (Cell.array as).held := List.mem_of_getElem? hx
      exact ih i x y hx hy n (r :: path) (hdepth.push hr hnew) (hdown.push hr hheld)
        (hfinite.of_held hr hheld)
    cases c <;> simp_all [Comparison.items?, equalWithin]
  | @fields c r r' className as bs hr hr' hnames _ ih =>
    have hnew : r ∉ path := fun hmem =>
      not_circular_of_acc (hfinite r rfl) (hdown r rfl r hmem)
    obtain ⟨n, rfl⟩ := Nat.exists_eq_add_one.mpr hdepth.pos
    have hall : equalFields (equalWithin s n .structural) as bs = true := by
      refine equalFields_iff.mpr ⟨hnames, fun i x y hx hy => ?_⟩
      have hheld : x.2 ∈ (Cell.object className as).held :=
        List.mem_map_of_mem (List.mem_of_getElem? hx)
      exact ih i x y hx hy n (r :: path) (hdepth.push hr hnew) (hdown.push hr hheld)
        (hfinite.of_held hr hheld)
    simp [equalWithin, hr, hr', hall]

/-- The test of equality decides likeness wherever the value ends. -/
theorem equal_iff_alike (hfinite : s.Finite a) : equal s c a b = true ↔ Alike s c a b := by
  constructor
  · exact alike_of_equalWithin
  · intro h
    have hdepth : s.Depth (s.size + 1) [] := ⟨List.nodup_nil, by simp, by simp⟩
    exact equalWithin_of_alike h (s.size + 1) [] hdepth (fun _ _ _ h => by simp at h) hfinite

end Levels

end Eval

end Scaffold
