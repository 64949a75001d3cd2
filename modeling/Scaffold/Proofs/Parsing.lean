import Mathlib.Data.List.TakeWhile
import Scaffold.Json.Reader
import Scaffold.Proofs.Lexing

/-!
Written JSON is parsed back to its tree. Wherever a value must come, the tokens of a tree are
taken as this tree, whatever lists and tables are open around it.
-/
namespace Scaffold

namespace Json

namespace Number

/-- The digits of a size are read as the size. -/
theorem toTree_toDigits {n : Nat} (h : n < 2 ^ 64) : toTree (Nat.toDigits 10 n) = .int n := by
  have hdigits : ∀ c ∈ Nat.toDigits 10 n, c.isDigit = true := fun c hc =>
    Nat.isDigit_of_mem_toDigits (by omega) (by omega) hc
  have hsign : (Nat.toDigits 10 n).head? ≠ some '-' := by
    intro hhead
    exact absurd (hdigits '-' (List.mem_of_head? hhead)) (by decide)
  have hwhole : (Nat.toDigits 10 n).takeWhile Char.isDigit = Nat.toDigits 10 n :=
    List.takeWhile_eq_self_iff.mpr hdigits
  have hplain : (Nat.toDigits 10 n).all (fun c => c.isDigit || c = '-') = true :=
    List.all_eq_true.mpr fun c hc => by rw [hdigits c hc, Bool.true_or]
  have hfits : Bits.fitsUnsigned 64 n = true := by
    have hcount : Bits.count 64 = 2 ^ 64 := rfl
    rw [Bits.fitsUnsigned, hcount, Bool.and_eq_true, decide_eq_true_eq, decide_eq_true_eq]
    omega
  simp [toTree, split, hsign, hwhole, hplain, hfits, Nat.ofDigitChars_ten_toDigits]

end Number

namespace State

open Token

variable {frames : List Frame} {rest : List Token}

theorem run_cons (state : State) (token : Token) :
    run state (token :: rest) = (step state token).bind fun state => run state rest := by
  rw [run]
  cases step state token <;> rfl

/-- Tokens that, where a value must come, are this value. -/
def Parses (ts : List Token) (t : Tree) : Prop :=
  ∀ frames rest, run (.value frames) (ts ++ rest) = run (supply t frames) rest

/-- Where a list may end instead, the first item is read as any other. -/
theorem run_first {t : Tree} : run (.first frames) (ofTree t ++ rest) =
    run (.value (.list [] :: frames)) (ofTree t ++ rest) := by
  cases t <;> rfl

theorem run_items {done items : List Tree} {t : Tree}
    (h : ∀ u ∈ t :: items, Parses (ofTree u) u) :
    run (.value (.list done :: frames)) (ofItems (t :: items) ++ .rightBracket :: rest) =
      run (supply (.list (done.reverse ++ t :: items)) frames) rest := by
  induction items generalizing t done with
  | nil =>
    rw [ofItems, h t List.mem_cons_self]
    simp [supply, run_cons, step]
  | cons u items ih =>
    rw [List.forall_mem_cons] at h
    change run _ ((ofTree t ++ .comma :: ofItems (u :: items)) ++ .rightBracket :: rest) = _
    rw [List.append_assoc, h.1, supply, List.cons_append, run_cons, step, Option.bind_some, ih h.2]
    simp

theorem run_list {items : List Tree} (h : ∀ t ∈ items, Parses (ofTree t) t) :
    Parses (ofTree (.list items)) (.list items) := by
  intro frames rest
  rw [ofTree, List.append_assoc, List.cons_append, List.singleton_append, run_cons, step, begin?,
    Option.bind_some]
  cases items with
  | nil => rfl
  | cons t items =>
    -- the list does not end at once, so the state after the bracket is that before any item
    have hfirst : run (.first frames) (ofItems (t :: items) ++ .rightBracket :: rest) =
        run (.value (.list [] :: frames)) (ofItems (t :: items) ++ .rightBracket :: rest) := by
      cases items with
      | nil => exact run_first
      | cons u items =>
        change run _ ((ofTree t ++ _) ++ _) = run _ ((ofTree t ++ _) ++ _)
        rw [List.append_assoc, run_first]
    rw [hfirst, run_items h]
    rfl

theorem run_entries {done entries : List (String × Tree)} {e : String × Tree}
    (h : ∀ e' ∈ e :: entries, Parses (ofTree e'.2) e'.2) :
    run (.nextKey (some done) frames) (ofEntries (e :: entries) ++ .rightBrace :: rest) =
      run (supply (.table (done.reverse ++ e :: entries)) frames) rest := by
  induction entries generalizing e done with
  | nil =>
    obtain ⟨k, t⟩ := e
    have hvalue := h (k, t) List.mem_cons_self
    rw [ofEntries, List.cons_append, List.cons_append, run_cons, step, Option.bind_some, run_cons,
      step, Option.bind_some, hvalue]
    simp [supply, run_cons, step, closeTable]
  | cons e' entries ih =>
    obtain ⟨k, t⟩ := e
    rw [List.forall_mem_cons] at h
    change run _ (.text (some k) :: .colon ::
      ((ofTree t ++ .comma :: ofEntries (e' :: entries)) ++ .rightBrace :: rest)) = _
    rw [run_cons, step, Option.bind_some, run_cons, step, Option.bind_some, List.append_assoc, h.1,
      supply, List.cons_append, run_cons, step, Option.bind_some, Option.bind_some, Option.map_some,
      ih h.2]
    simp

theorem run_table {entries : List (String × Tree)}
    (h : ∀ e ∈ entries, Parses (ofTree e.2) e.2) :
    Parses (ofTree (.table entries)) (.table entries) := by
  intro frames rest
  rw [ofTree, List.append_assoc, List.cons_append, List.singleton_append, run_cons, step, begin?,
    Option.bind_some]
  cases entries with
  | nil => rfl
  | cons e entries =>
    have hfirst : run (.firstKey frames) (ofEntries (e :: entries) ++ .rightBrace :: rest) =
        run (.nextKey (some []) frames) (ofEntries (e :: entries) ++ .rightBrace :: rest) := by
      cases entries <;> rfl
    rw [hfirst, run_entries h]
    rfl

theorem parses_ofTree {t : Tree} (h : t.Faithful) : Parses (ofTree t) t := by
  induction h with
  | null => exact fun _ _ => rfl
  | flag _ => exact fun _ _ => rfl
  | size hn =>
    intro frames rest
    rw [ofTree, List.singleton_append, run_cons, step, begin?, Option.bind_some]
    exact congrArg (fun t => run (supply t frames) rest) (Number.toTree_toDigits hn)
  | text _ => exact fun _ _ => rfl
  | list _ ih => exact run_list ih
  | table _ ih => exact run_table ih

end State

/-- A tree that its text tells in full is read back from it. -/
theorem parse?_compact {t : Tree} (h : t.Faithful) : parse? (compact t) = some t := by
  have hrun := State.parses_ofTree h [] []
  rw [List.append_nil] at hrun
  rw [parse?, compact, String.toList_ofList, Token.lex_chars h]
  simp [hrun, State.supply, State.run, State.result?]

end Json

end Scaffold
