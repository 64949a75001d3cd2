import Scaffold.Text.Hex

/-!
The tokens of TOML text. Comments are dropped, quoted texts are decoded, and every other run
of characters is one bare token: whether it is a key or part of a value depends on its place.
-/
namespace Scaffold.Toml

inductive Token where
  | newline
  | space
  | tab
  | dot
  | equals
  | comma
  | leftBracket
  | rightBracket
  | leftBrace
  | rightBrace
  | bare (s : List Char)
  | text (isLong : Bool) (s : String)
deriving DecidableEq, Repr

namespace Token

/-- A line ends in a line feed, or in a carriage return with a line feed. The pair is joined to
a lone return; a return without a line feed is refused. -/
def joinReturns : List Char → Option (List Char)
  | [] => some []
  | '\r' :: '\n' :: rest => (joinReturns rest).map ('\r' :: ·)
  | '\r' :: _ => none
  | c :: rest => (joinReturns rest).map (c :: ·)

def isNewline (c : Char) : Bool := c = '\n' || c = '\r'

def isBlank (c : Char) : Bool := c = ' ' || c = '\t'

/-- Whether a character may stand in a comment or a text: a tab, or no control. -/
def isShown (c : Char) : Bool := c = '\t' || (0x20 ≤ c.toNat && c.toNat ≠ 0x7f)

/-- The token that a character is by itself. -/
def mark? (c : Char) : Option Token :=
  match c with
  | '\n' | '\r' => some .newline
  | ' ' => some .space
  | '\t' => some .tab
  | '.' => some .dot
  | '=' => some .equals
  | ',' => some .comma
  | '[' => some .leftBracket
  | ']' => some .rightBracket
  | '\x7b' => some .leftBrace
  | '\x7d' => some .rightBrace
  | _ => none

/-- A text whose end has not come: its quote, whether three of them enclose it, and its
characters so far, last first. -/
structure OpenText where
  quote : Char
  isLong : Bool
  seen : List Char
deriving Repr

namespace OpenText

def push (t : OpenText) (c : Char) : OpenText :=
  { t with seen := if c = '\r' then '\n' :: '\r' :: t.seen else c :: t.seen }

def pushQuotes (t : OpenText) (n : Nat) : OpenText :=
  { t with seen := List.replicate n t.quote ++ t.seen }

def close (t : OpenText) : Token := .text t.isLong (String.ofList t.seen.reverse)

end OpenText

inductive Mode where
  | between
  | bare (seen : List Char)
  | comment
  /-- One quote was seen, or two. -/
  | opening (quote : Char) (isPair : Bool)
  /-- Three quotes were seen: a line end that follows is no part of the text. -/
  | begun (t : OpenText)
  | text (t : OpenText)
  /-- Quotes in a long text that may be its end. -/
  | quotes (t : OpenText) (count : Nat)
  | escape (t : OpenText)
  | unit (t : OpenText) (missing : Nat) (value : Nat)
  /-- Blanks behind a backslash; they are skipped together with line ends, of which at least
  one has to come. -/
  | gap (t : OpenText) (isBroken : Bool)
deriving Repr

/-- The state of the scan: the mode, and the finished tokens, last first. -/
abbrev Scan := Mode × List Token

def start (c : Char) (out : List Token) : Scan :=
  match mark? c with
  | some token => (.between, token :: out)
  | none =>
    if c = '#' then (.comment, out)
    else if c = '"' ∨ c = '\'' then (.opening c false, out)
    else (.bare [c], out)

/-- What a letter after a backslash stands for. -/
def escaped? (c : Char) : Option Char :=
  match c with
  | '"' => some '"'
  | '\\' => some '\\'
  | 'b' => some '\x08'
  | 'e' => some '\x1b'
  | 'f' => some '\x0c'
  | 'n' => some '\n'
  | 'r' => some '\x0d'
  | 't' => some '\t'
  | _ => none

/-- How many digits follow a letter that begins the number of a character. -/
def unitLength? (c : Char) : Option Nat :=
  match c with
  | 'x' => some 2
  | 'u' => some 4
  | 'U' => some 8
  | _ => none

/-- Takes a character inside a text. -/
def inText (t : OpenText) (c : Char) (out : List Token) : Option Scan :=
  if c = t.quote then
    some (if t.isLong then (.quotes t 1, out) else (.between, t.close :: out))
  else if c = '\\' ∧ t.quote = '"' then some (.escape t, out)
  else if isNewline c then if t.isLong then some (.text (t.push c), out) else none
  else if isShown c then some (.text (t.push c), out)
  else none

/-- Takes a character after a backslash. -/
def inEscape (t : OpenText) (c : Char) (out : List Token) : Option Scan :=
  if t.isLong ∧ (isBlank c ∨ isNewline c) then some (.gap t (isNewline c), out)
  else
    match unitLength? c with
    | some n => some (.unit t n 0, out)
    | none => (escaped? c).map fun c => (.text { t with seen := c :: t.seen }, out)

/-- Takes a digit of the number of a character. -/
def inUnit (t : OpenText) (missing value : Nat) (c : Char) (out : List Token) : Option Scan := do
  let d ← Hex.value? c
  let value := value * 16 + d
  if 1 < missing then some (.unit t (missing - 1) value, out)
  else if value.isValidChar then some (.text { t with seen := Char.ofNat value :: t.seen }, out)
  else none

def step (scan : Scan) (c : Char) : Option Scan :=
  match scan with
  | (.between, out) => some (start c out)
  | (.bare seen, out) =>
    if (mark? c).isSome ∨ c = '#' ∨ c = '"' ∨ c = '\'' then
      some (start c (.bare seen.reverse :: out))
    else some (.bare (c :: seen), out)
  | (.comment, out) =>
    if isNewline c then some (start c out) else if isShown c then some (.comment, out) else none
  | (.opening quote false, out) =>
    if c = quote then some (.opening quote true, out) else inText ⟨quote, false, []⟩ c out
  | (.opening quote true, out) =>
    some (if c = quote then (.begun ⟨quote, true, []⟩, out) else start c (.text false "" :: out))
  | (.begun t, out) => if isNewline c then some (.text t, out) else inText t c out
  | (.text t, out) => inText t c out
  | (.quotes t count, out) =>
    if c = t.quote then
      some (if count = 4 then (.between, (t.pushQuotes 2).close :: out)
        else (.quotes t (count + 1), out))
    else if 3 ≤ count then some (start c ((t.pushQuotes (count - 3)).close :: out))
    else inText (t.pushQuotes count) c out
  | (.escape t, out) => inEscape t c out
  | (.unit t missing value, out) => inUnit t missing value c out
  | (.gap t isBroken, out) =>
    if isBlank c then some (.gap t isBroken, out)
    else if isNewline c then some (.gap t true, out)
    else if isBroken then inText t c out
    else none

/-- The tokens of a scan that may end here. -/
def finish : Scan → Option (List Token)
  | (.between, out) | (.comment, out) => some out.reverse
  | (.bare seen, out) => some (.bare seen.reverse :: out).reverse
  | (.opening _ true, out) => some (.text false "" :: out).reverse
  | (.quotes t count, out) =>
    if 3 ≤ count then some ((t.pushQuotes (count - 3)).close :: out).reverse else none
  | _ => none

def scanFrom (scan : Scan) : List Char → Option Scan
  | [] => some scan
  | c :: rest =>
    match step scan c with
    | none => none
    | some scan => scanFrom scan rest

def lex (s : List Char) : Option (List Token) := do
  let s ← joinReturns s
  let scan ← scanFrom (.between, []) s
  finish scan

end Token

end Scaffold.Toml
