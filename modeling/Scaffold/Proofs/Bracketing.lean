import Mathlib.Data.List.Basic

/-!
How a reader finds the unions in a type's text. A reader keeps count of the brackets that are
open and of the quotation it is in; ` | ` parts the members of a union where no bracket and no
quotation is open. A text that closes what it opens is read alike at every depth, so in
brackets it never adds a member to what stands around it.
-/
namespace Scaffold.Projection

/-- Where a reader stands: how many brackets are open, and the mark that ends a quotation. -/
structure Position where
  depth : Nat
  quote : Option Char
deriving DecidableEq, Repr

namespace Position

def top : Position := ⟨0, none⟩

/-- The same place inside one more bracket. -/
def deeper (p : Position) : Position := ⟨p.depth + 1, p.quote⟩

def isMark (c : Char) : Bool := c ∈ ['\x22', '\x27', '\x60']

def opens (c : Char) : Bool := c ∈ ['(', '[', '\x7b', '<']

def closes (c : Char) : Bool := c ∈ [')', ']', '\x7d', '>']

/-- None if a bracket closes that was not opened. -/
def step? (p : Position) (c : Char) : Option Position :=
  match p.quote with
  | some mark => some (if c = mark then ⟨p.depth, none⟩ else p)
  | none =>
    if isMark c then some ⟨p.depth, some c⟩
    else if opens c then some p.deeper
    else if closes c then
      match p.depth with
      | 0 => none
      | d + 1 => some ⟨d, none⟩
    else some p

/-- A bracket that closes nothing is passed over. -/
def step (p : Position) (c : Char) : Position := (p.step? c).getD p

theorem deeper_ne_top (p : Position) : p.deeper ≠ top := by
  intro h
  have hdepth : p.depth + 1 = 0 := congrArg depth h
  omega

theorem step?_deeper {p q : Position} {c : Char} (h : p.step? c = some q) :
    p.deeper.step? c = some q.deeper := by
  obtain ⟨depth, quote⟩ := p
  cases quote with
  | some mark =>
    simp only [step?, deeper, Option.some.injEq] at h ⊢
    rw [← h]
    by_cases hmark : c = mark <;> simp [hmark]
  | none =>
    simp only [step?, deeper] at h ⊢
    by_cases hmark : isMark c
    · obtain rfl : (⟨depth, some c⟩ : Position) = q := by simpa [hmark] using h
      simp [hmark]
    by_cases hopens : opens c
    · obtain rfl : (⟨depth + 1, none⟩ : Position) = q := by simpa [hmark, hopens] using h
      simp [hmark, hopens]
    by_cases hcloses : closes c
    · cases depth with
      | zero => simp [hmark, hopens, hcloses] at h
      | succ d =>
        obtain rfl : (⟨d, none⟩ : Position) = q := by simpa [hmark, hopens, hcloses] using h
        simp [hmark, hopens, hcloses]
    · obtain rfl : (⟨depth, none⟩ : Position) = q := by simpa [hmark, hopens, hcloses] using h
      simp [hmark, hopens, hcloses]

end Position

open Position

/-- The text leads a reader from one place to another, and closes nothing that it did not
open. -/
def Reads (p : Position) (text : List Char) (q : Position) : Prop :=
  text.foldlM step? p = some q

namespace Reads

variable {p q r : Position} {s t : List Char}

theorem nil (p : Position) : Reads p [] p := rfl

theorem cons_iff {c : Char} : Reads p (c :: s) r ↔ ∃ q, p.step? c = some q ∧ Reads q s r := by
  simp only [Reads, List.foldlM_cons, Option.bind_eq_bind, Option.bind_eq_some_iff]

theorem append (hs : Reads p s q) (ht : Reads q t r) : Reads p (s ++ t) r := by
  simp only [Reads] at hs ⊢
  rw [List.foldlM_append, hs]
  exact ht

theorem deeper (h : Reads p s q) : Reads p.deeper s q.deeper := by
  induction s generalizing p with
  | nil =>
    obtain rfl : p = q := Option.some.inj h
    exact nil _
  | cons c s ih =>
    obtain ⟨mid, hstep, hrest⟩ := cons_iff.mp h
    exact cons_iff.mpr ⟨mid.deeper, step?_deeper hstep, ih hrest⟩

end Reads

/-- No bar stands where nothing is open. -/
def barFree : Position → List Char → Bool
  | _, [] => true
  | p, c :: rest => !(p = top && c = '|') && barFree (p.step c) rest

theorem barFree_append {p q : Position} {s t : List Char} (hs : Reads p s q) :
    barFree p (s ++ t) = (barFree p s && barFree q t) := by
  induction s generalizing p with
  | nil =>
    obtain rfl : p = q := Option.some.inj hs
    rfl
  | cons c s ih =>
    obtain ⟨mid, hstep, hrest⟩ := Reads.cons_iff.mp hs
    have hmid : p.step c = mid := by simp [step, hstep]
    rw [List.cons_append, barFree, barFree, hmid, ih hrest, Bool.and_assoc]

/-- The text leads a reader from one place to another, past no bar where nothing is open. -/
def Passes (p : Position) (text : List Char) (q : Position) : Prop :=
  Reads p text q ∧ barFree p text

instance (p q : Position) (text : List Char) : Decidable (Passes p text q) :=
  inferInstanceAs (Decidable ((_ = _) ∧ _))

theorem Passes.append {p q r : Position} {s t : List Char} (hs : Passes p s q)
    (ht : Passes q t r) : Passes p (s ++ t) r := by
  refine ⟨hs.1.append ht.1, ?_⟩
  rw [barFree_append hs.1, hs.2, ht.2]
  rfl

/-- In brackets every bar stands where something is open. -/
theorem Reads.passes_deeper {p q : Position} {s : List Char} (h : Reads p s q) :
    Passes p.deeper s q.deeper := by
  refine ⟨h.deeper, ?_⟩
  induction s generalizing p with
  | nil => rfl
  | cons c s ih =>
    obtain ⟨mid, hstep, hrest⟩ := Reads.cons_iff.mp h
    have hmid : p.deeper.step c = mid.deeper := by simp [step, step?_deeper hstep]
    rw [barFree, hmid, ih hrest]
    simp [deeper_ne_top]

/-- The text closes what it opens. -/
def Closed (text : String) : Prop := Reads top text.toList top

/-- The text closes what it opens, and is no union. -/
def Plain (text : String) : Prop := Passes top text.toList top

instance (text : String) : Decidable (Closed text) :=
  inferInstanceAs (Decidable (_ = _))

instance (text : String) : Decidable (Plain text) :=
  inferInstanceAs (Decidable (Passes _ _ _))

theorem Closed.intercalate {s : String} {l : List String} (hs : Closed s)
    (hl : ∀ text ∈ l, Closed text) : Closed (s.intercalate l) := by
  induction l with
  | nil => exact Reads.nil top
  | cons text l ih =>
    rw [List.forall_mem_cons] at hl
    by_cases hempty : l = []
    · subst hempty
      rw [String.intercalate_singleton]
      exact hl.1
    · rw [String.intercalate_cons_of_ne_nil hempty]
      simp only [Closed, String.toList_append]
      exact (hl.1.append hs).append (ih hl.2)

theorem Plain.append {s t : String} (hs : Plain s) (ht : Plain t) : Plain (s ++ t) := by
  rw [Plain, String.toList_append]
  exact Passes.append hs ht

/-- Cuts a text at every ` | ` where nothing is open. `piece` is what was read since the last
cut, and `skip` characters of a separator are left to pass. -/
def cut : Position → Nat → List Char → List Char → List (List Char)
  | _, _, piece, [] => [piece]
  | p, skip + 1, piece, _ :: rest => cut p skip piece rest
  | p, 0, piece, c :: rest =>
    if p = top ∧ [' ', '|', ' '].isPrefixOf (c :: rest) then piece :: cut p 2 [] rest
    else cut (p.step c) 0 (piece ++ [c]) rest

/-- The members of the union that a text is at top level. -/
def alternatives (text : String) : List String := (cut top 0 [] text.toList).map String.ofList

def isUnion (text : String) : Bool := 1 < (alternatives text).length

/-- A text with no bar where nothing is open is not cut. -/
theorem cut_append {p q : Position} {s rest : List Char} (hs : Reads p s q)
    (hfree : barFree p s) (hrest : rest.head? ≠ some '|') (piece : List Char) :
    cut p 0 piece (s ++ rest) = cut q 0 (piece ++ s) rest := by
  induction s generalizing p piece with
  | nil =>
    obtain rfl : p = q := Option.some.inj hs
    rw [List.nil_append, List.append_nil]
  | cons c s ih =>
    obtain ⟨mid, hstep, hreads⟩ := Reads.cons_iff.mp hs
    have hmid : p.step c = mid := by simp [step, hstep]
    rw [barFree, hmid, Bool.and_eq_true] at hfree
    have huncut : ¬ (p = top ∧ [' ', '|', ' '].isPrefixOf (c :: (s ++ rest))) := by
      rintro ⟨rfl, hbar⟩
      -- the bar would be the next character, which stands where nothing is open as well
      obtain ⟨rfl, hnext⟩ : ' ' = c ∧ (s ++ rest).head? = some '|' := by
        cases hsr : s ++ rest with
        | nil => simp [hsr] at hbar
        | cons d more =>
          simp only [hsr, List.isPrefixOf, Bool.and_eq_true, beq_iff_eq] at hbar
          exact ⟨hbar.1, congrArg some hbar.2.1.symm⟩
      obtain rfl : top = mid := Option.some.inj hstep
      cases s with
      | nil => exact hrest hnext
      | cons d s =>
        obtain rfl : d = '|' := by simpa using hnext
        exact absurd hfree.2 (by simp [barFree])
    rw [List.cons_append, cut, if_neg huncut, hmid, ih hreads hfree.2]
    simp

/-- What is joined from texts that are no unions has just these members. -/
theorem alternatives_intercalate {ms : List String} (hne : ms ≠ []) (hplain : ∀ m ∈ ms, Plain m) :
    alternatives (" | ".intercalate ms) = ms := by
  have hcut : cut top 0 [] (" | ".intercalate ms).toList = ms.map String.toList := by
    induction ms with
    | nil => exact absurd rfl hne
    | cons m ms ih =>
      rw [List.forall_mem_cons] at hplain
      obtain ⟨⟨hclosed, hfree⟩, hplain⟩ := hplain
      by_cases hms : ms = []
      · subst hms
        have hone : cut top 0 [] (m.toList ++ []) = cut top 0 ([] ++ m.toList) [] :=
          cut_append hclosed hfree (by simp) []
        simpa [cut] using hone
      · rw [String.intercalate_cons_of_ne_nil hms, String.toList_append, String.toList_append,
          List.append_assoc, cut_append hclosed hfree (by simp)]
        simpa [cut] using ih hms hplain
  rw [alternatives, hcut, List.map_map]
  simp [Function.comp_def]

end Scaffold.Projection
