import Mathlib.Tactic.IntervalCases
import Mathlib.Tactic.SplitIfs
import Scaffold.Json.Number
import Scaffold.Json.Writer
import Scaffold.Json.Token

/-!
Written JSON is read off token by token. What a tree is written as lexes to the tokens of the
tree and leaves what follows as it is; only a number has to be followed by a character that it
cannot take.
-/
namespace Scaffold

/-- A tree that its text tells in full: all parts have a value and the numbers are sizes. -/
inductive Tree.Faithful : Tree → Prop
  | null : Faithful .null
  | flag (b : Bool) : Faithful (.flag b)
  | size {n : Nat} (h : n < 2 ^ 64) : Faithful (.int n)
  | text (s : String) : Faithful (.text s)
  | list {items : List Tree} (h : ∀ t ∈ items, Faithful t) : Faithful (.list items)
  | table {entries : List (String × Tree)} (h : ∀ e ∈ entries, Faithful e.2) :
    Faithful (.table entries)

namespace Json

namespace Token

mutual

/-- The tokens that a tree is written as. -/
def ofTree : Tree → List Token
  | .flag b => [.word (.flag b)]
  | .int z => [.number (intChars z)]
  | .text s => [.text (some s)]
  | .list items => .leftBracket :: ofItems items ++ [.rightBracket]
  | .table entries => .leftBrace :: ofEntries entries ++ [.rightBrace]
  | _ => [.word .null]

def ofItems : List Tree → List Token
  | [] => []
  | [t] => ofTree t
  | t :: rest => ofTree t ++ .comma :: ofItems rest

def ofEntries : List (String × Tree) → List Token
  | [] => []
  | [(k, t)] => .text (some k) :: .colon :: ofTree t
  | (k, t) :: rest => .text (some k) :: .colon :: ofTree t ++ .comma :: ofEntries rest

end

/-- The tokens of a text whose first characters were read before. -/
def lexFrom (out : List Token) (s : List Char) : Option (List Token) :=
  (scanFrom (.between, out) s).bind finish

/-- Nothing follows, or a character that ends a number. -/
def Ends : List Char → Prop
  | [] => True
  | c :: _ => c = ',' ∨ c = ']' ∨ c = '\x7d'

variable {out : List Token} {rest : List Char}

section Text

variable {o : OpenText}

theorem value?_digitChar : ∀ n < 32, Hex.value? (Nat.digitChar (n / 16)) = some (n / 16) ∧
    Hex.value? (Nat.digitChar (n % 16)) = some (n % 16) := by decide

/-- A control is written by its number and read back from it. A number below 32 is no half of a
surrogate pair. -/
theorem scanFrom_unit {c : Char} (hc : c.toNat < 32) (ho : o.half = none) :
    scanFrom (.escape o, out) ('u' :: '0' :: '0' :: hexDigits c.toNat ++ rest) =
      scanFrom (.text (o.push c), out) rest := by
  obtain ⟨hhigh, hlow⟩ := value?_digitChar c.toNat hc
  have hunit : o.pushUnit (c.toNat / 16 * 16 + c.toNat % 16) = o.push c := by
    rw [Nat.div_add_mod', OpenText.pushUnit, ho]
    simp only []
    rw [if_neg (by omega), if_neg (by omega), Char.ofNat_toNat, OpenText.push, ho]
    simp
  have hzero : Hex.value? '0' = some 0 := by decide
  simp [scanFrom, step, hexDigits, hzero, hhigh, hlow, hunit]

theorem scanFrom_escape (c : Char) (ho : o.half = none) :
    scanFrom (.text o, out) (escape c ++ rest) = scanFrom (.text (o.push c), out) rest := by
  unfold escape
  split_ifs with hquote hbackslash hb hf hn hr ht hcontrol
  · subst hquote; rfl
  · subst hbackslash; rfl
  · subst hb; rfl
  · subst hf; rfl
  · subst hn; rfl
  · subst hr; rfl
  · subst ht; rfl
  · exact scanFrom_unit hcontrol ho
  · simp [scanFrom, step, hquote, hbackslash, hcontrol]

theorem scanFrom_text (cs : List Char) (ho : o.half = none) (hsound : o.sound = true) :
    scanFrom (.text o, out) (cs.flatMap escape ++ '"' :: rest) =
      scanFrom (.between, .text (some (String.ofList (o.seen.reverse ++ cs))) :: out) rest := by
  induction cs generalizing o with
  | nil => simp [scanFrom, step, OpenText.close, ho, hsound]
  | cons c cs ih =>
    rw [List.flatMap_cons, List.append_assoc, scanFrom_escape c ho,
      ih rfl (by simp [OpenText.push, ho, hsound])]
    simp [OpenText.push]

theorem lexFrom_text (s : String) :
    lexFrom out (textChars s ++ rest) = lexFrom (.text (some s) :: out) rest := by
  have hchars : textChars s ++ rest = '"' :: (s.toList.flatMap escape ++ '"' :: rest) := by
    simp [textChars]
  have hstart : scanFrom (.between, out) (textChars s ++ rest) =
      scanFrom (.text .empty, out) (s.toList.flatMap escape ++ '"' :: rest) := by
    rw [hchars]
    rfl
  rw [lexFrom, hstart, scanFrom_text s.toList rfl rfl]
  simp [OpenText.empty, lexFrom]

end Text

section Digits

theorem toDigits_eq_cons {n : Nat} (hn : 0 < n) :
    ∃ k ds, 0 < k ∧ k < 10 ∧ Nat.toDigits 10 n = Nat.digitChar k :: ds := by
  induction n using Nat.strongRecOn with
  | ind n ih =>
    by_cases hsmall : n < 10
    · exact ⟨n, [], hn, hsmall, Nat.toDigits_of_lt_base hsmall⟩
    · obtain ⟨k, ds, hk, hk', hds⟩ := ih (n / 10) (by omega) (by omega)
      refine ⟨k, ds ++ [Nat.digitChar (n % 10)], hk, hk', ?_⟩
      rw [Nat.toDigits_of_base_le (by omega) (by omega), hds, List.cons_append]

theorem scanFrom_digits {seen ds : List Char} (hds : ∀ c ∈ ds, c.isDigit = true) :
    scanFrom (.number .digits seen, out) (ds ++ rest) =
      scanFrom (.number .digits (ds.reverse ++ seen), out) rest := by
  induction ds generalizing seen with
  | nil => rfl
  | cons c ds ih =>
    rw [List.forall_mem_cons] at hds
    simp [scanFrom, step, NumberPart.next?, hds.1, ih hds.2]

theorem scanFrom_ends {part : NumberPart} {seen : List Char}
    (hpart : part = .zero ∨ part = .digits) (hrest : Ends rest) :
    (scanFrom (.number part seen, out) rest).bind finish =
      lexFrom (.number seen.reverse :: out) rest := by
  cases rest with
  | nil => rcases hpart with rfl | rfl <;> rfl
  | cons c rest => rcases hpart with rfl | rfl <;> rcases hrest with rfl | rfl | rfl <;> rfl

theorem lexFrom_digits (n : Nat) (hrest : Ends rest) :
    lexFrom out (Nat.toDigits 10 n ++ rest) =
      lexFrom (.number (Nat.toDigits 10 n) :: out) rest := by
  rcases Nat.eq_zero_or_pos n with rfl | hn
  · change (scanFrom (.number .zero ['0'], out) rest).bind finish = _
    exact scanFrom_ends (.inl rfl) hrest
  · obtain ⟨k, ds, hk, hk', hds⟩ := toDigits_eq_cons hn
    have hdigits : ∀ c ∈ ds, c.isDigit = true := by
      intro c hc
      have hmem : c ∈ Nat.toDigits 10 n := hds ▸ List.mem_cons_of_mem _ hc
      exact Nat.isDigit_of_mem_toDigits (by omega) (by omega) hmem
    have hstart : start (Nat.digitChar k) out =
        some (.number .digits [Nat.digitChar k], out) := by
      interval_cases k <;> rfl
    have hscan : scanFrom (.between, out) (Nat.toDigits 10 n ++ rest) =
        scanFrom (.number .digits (Nat.toDigits 10 n).reverse, out) rest := by
      rw [hds, List.cons_append, scanFrom, step, hstart]
      simp only [scanFrom_digits hdigits, List.reverse_cons]
    rw [lexFrom, hscan, scanFrom_ends (.inr rfl) hrest, List.reverse_reverse]

end Digits

section Trees

/-- Characters that are these tokens wherever a number may end behind them. -/
def Lexes (s : List Char) (ts : List Token) : Prop :=
  ∀ out rest, Ends rest → lexFrom out (s ++ rest) = lexFrom (ts.reverse ++ out) rest

theorem ends_comma : Ends (',' :: rest) := Or.inl rfl

theorem ends_rightBracket : Ends (']' :: rest) := Or.inr (Or.inl rfl)

theorem ends_rightBrace : Ends ('\x7d' :: rest) := Or.inr (Or.inr rfl)

theorem lexFrom_comma : lexFrom out (',' :: rest) = lexFrom (.comma :: out) rest := rfl

theorem lexFrom_colon : lexFrom out (':' :: rest) = lexFrom (.colon :: out) rest := rfl

theorem lexFrom_leftBracket : lexFrom out ('[' :: rest) = lexFrom (.leftBracket :: out) rest := rfl

theorem lexFrom_rightBracket :
    lexFrom out (']' :: rest) = lexFrom (.rightBracket :: out) rest := rfl

theorem lexFrom_leftBrace : lexFrom out ('\x7b' :: rest) = lexFrom (.leftBrace :: out) rest := rfl

theorem lexFrom_rightBrace : lexFrom out ('\x7d' :: rest) = lexFrom (.rightBrace :: out) rest := rfl

theorem Lexes.comma {s s' : List Char} {ts ts' : List Token} (h : Lexes s ts) (h' : Lexes s' ts') :
    Lexes (s ++ ',' :: s') (ts ++ .comma :: ts') := by
  intro out rest hrest
  rw [List.append_assoc, List.cons_append, h _ _ ends_comma, lexFrom_comma, h' _ _ hrest]
  simp

theorem Lexes.entry {k : String} {s : List Char} {ts : List Token} (h : Lexes s ts) :
    Lexes (textChars k ++ ':' :: s) (.text (some k) :: .colon :: ts) := by
  intro out rest hrest
  rw [List.append_assoc, List.cons_append, lexFrom_text, lexFrom_colon, h _ _ hrest]
  simp

theorem lexes_itemChars {items : List Tree} (h : ∀ t ∈ items, Lexes (chars t) (ofTree t)) :
    Lexes (itemChars items) (ofItems items) := by
  induction items with
  | nil => exact fun _ _ _ => rfl
  | cons t items ih =>
    rw [List.forall_mem_cons] at h
    cases items with
    | nil => exact h.1
    | cons t' items => exact h.1.comma (ih h.2)

theorem lexes_entryChars {entries : List (String × Tree)}
    (h : ∀ e ∈ entries, Lexes (chars e.2) (ofTree e.2)) :
    Lexes (entryChars entries) (ofEntries entries) := by
  induction entries with
  | nil => exact fun _ _ _ => rfl
  | cons e entries ih =>
    rw [List.forall_mem_cons] at h
    cases entries with
    | nil => exact h.1.entry
    | cons e' entries => exact h.1.entry.comma (ih h.2)

theorem lexes_chars {t : Tree} (h : t.Faithful) : Lexes (chars t) (ofTree t) := by
  induction h with
  | null => exact fun _ _ _ => rfl
  | flag b => cases b <;> exact fun _ _ _ => rfl
  | size _ => exact fun _ _ hrest => lexFrom_digits _ hrest
  | text s => exact fun _ _ _ => lexFrom_text s
  | list _ ih =>
    intro out rest _
    rw [chars, ofTree, List.append_assoc, List.cons_append, List.singleton_append,
      lexFrom_leftBracket, lexes_itemChars ih _ _ ends_rightBracket, lexFrom_rightBracket]
    simp
  | table _ ih =>
    intro out rest _
    rw [chars, ofTree, List.append_assoc, List.cons_append, List.singleton_append,
      lexFrom_leftBrace, lexes_entryChars ih _ _ ends_rightBrace, lexFrom_rightBrace]
    simp

/-- The text of a tree is its tokens. -/
theorem lex_chars {t : Tree} (h : t.Faithful) : lex (chars t) = some (ofTree t) := by
  have hlexes := lexes_chars h [] [] trivial
  simp only [List.append_nil] at hlexes
  rw [lex]
  change lexFrom [] (chars t) = _
  rw [hlexes, lexFrom, scanFrom, Option.bind_some, finish, List.reverse_reverse]

end Trees

end Token

end Json

end Scaffold
