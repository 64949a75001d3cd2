import Scaffold.Text.Hex
import Scaffold.Tree

/-!
The tokens of JSON text. `Token.lex` reads them off one character at a time; what is open when
a character comes is the `Mode`.
-/
namespace Scaffold.Json

inductive Token where
  | leftBrace
  | rightBrace
  | leftBracket
  | rightBracket
  | comma
  | colon
  | word (value : Tree)
  | number (spelling : List Char)
  /-- A text; none if its escapes hold half of a surrogate pair. -/
  | text (s : Option String)
deriving Inhabited, Repr

namespace Token

/-- A text whose end has not come: the characters so far, last first, the first half of a
surrogate pair if one waits for its second, and whether every half found its partner. -/
structure OpenText where
  seen : List Char
  half : Option Nat
  sound : Bool
deriving Repr

namespace OpenText

def empty : OpenText := ⟨[], none, true⟩

def push (o : OpenText) (c : Char) : OpenText :=
  ⟨c :: o.seen, none, o.sound && o.half.isNone⟩

/-- Adds one escaped code unit. -/
def pushUnit (o : OpenText) (unit : Nat) : OpenText :=
  match o.half with
  | some high =>
    if 0xdc00 ≤ unit ∧ unit < 0xe000 then
      ⟨Char.ofNat (0x10000 + (high - 0xd800) * 0x400 + (unit - 0xdc00)) :: o.seen, none, o.sound⟩
    else ⟨o.seen, none, false⟩
  | none =>
    if 0xd800 ≤ unit ∧ unit < 0xdc00 then ⟨o.seen, some unit, o.sound⟩
    else if 0xdc00 ≤ unit ∧ unit < 0xe000 then ⟨o.seen, none, false⟩
    else ⟨Char.ofNat unit :: o.seen, none, o.sound⟩

def close (o : OpenText) : Token :=
  .text (if o.sound && o.half.isNone then some (String.ofList o.seen.reverse) else none)

end OpenText

/-- How far a number has come. -/
inductive NumberPart where
  | minus
  | zero
  | digits
  | point
  | fraction
  | exponent
  | sign
  | power
deriving DecidableEq, Repr

namespace NumberPart

def isEnd : NumberPart → Bool
  | .zero | .digits | .fraction | .power => true
  | _ => false

/-- The part after one more character; none if the number cannot take it. -/
def next? (part : NumberPart) (c : Char) : Option NumberPart :=
  match part with
  | .minus => if c = '0' then some .zero else if c.isDigit then some .digits else none
  | .zero => if c = '.' then some .point else if c = 'e' ∨ c = 'E' then some .exponent else none
  | .digits =>
    if c.isDigit then some .digits
    else if c = '.' then some .point
    else if c = 'e' ∨ c = 'E' then some .exponent
    else none
  | .point => if c.isDigit then some .fraction else none
  | .fraction =>
    if c.isDigit then some .fraction
    else if c = 'e' ∨ c = 'E' then some .exponent
    else none
  | .exponent =>
    if c = '+' ∨ c = '-' then some .sign else if c.isDigit then some .power else none
  | .sign => if c.isDigit then some .power else none
  | .power => if c.isDigit then some .power else none

end NumberPart

inductive Mode where
  | between
  | word (rest : List Char) (value : Tree)
  | number (part : NumberPart) (seen : List Char)
  | text (o : OpenText)
  | escape (o : OpenText)
  | unit (o : OpenText) (missing : Nat) (value : Nat)
deriving Repr

def isSpace (c : Char) : Bool := c = ' ' ∨ c = '\n' ∨ c = '\t' ∨ c = '\r'

/-- What a letter after a backslash stands for. -/
def escaped? (c : Char) : Option Char :=
  if c = '"' then some '"'
  else if c = '\\' then some '\\'
  else if c = '/' then some '/'
  else if c = 'b' then some '\x08'
  else if c = 'f' then some '\x0c'
  else if c = 'n' then some '\n'
  else if c = 'r' then some '\r'
  else if c = 't' then some '\t'
  else none

/-- The state of the scan: the mode, and the finished tokens, last first. -/
abbrev Scan := Mode × List Token

/-- Takes a character when nothing is open. -/
def start (c : Char) (out : List Token) : Option Scan :=
  if isSpace c then some (.between, out)
  else if c = '\x7b' then some (.between, .leftBrace :: out)
  else if c = '\x7d' then some (.between, .rightBrace :: out)
  else if c = '[' then some (.between, .leftBracket :: out)
  else if c = ']' then some (.between, .rightBracket :: out)
  else if c = ',' then some (.between, .comma :: out)
  else if c = ':' then some (.between, .colon :: out)
  else if c = '"' then some (.text .empty, out)
  else if c = '-' then some (.number .minus [c], out)
  else if c = '0' then some (.number .zero [c], out)
  else if c.isDigit then some (.number .digits [c], out)
  else if c = 'n' then some (.word ['u', 'l', 'l'] .null, out)
  else if c = 't' then some (.word ['r', 'u', 'e'] (.flag true), out)
  else if c = 'f' then some (.word ['a', 'l', 's', 'e'] (.flag false), out)
  else none

def step (scan : Scan) (c : Char) : Option Scan :=
  match scan with
  | (.between, out) => start c out
  | (.word rest value, out) =>
    match rest with
    | [] => none
    | [last] => if c = last then some (.between, .word value :: out) else none
    | next :: more => if c = next then some (.word more value, out) else none
  | (.number part seen, out) =>
    match part.next? c with
    | some part => some (.number part (c :: seen), out)
    | none => if part.isEnd then start c (.number seen.reverse :: out) else none
  | (.text o, out) =>
    if c = '"' then some (.between, o.close :: out)
    else if c = '\\' then some (.escape o, out)
    else if c.toNat < 0x20 then none
    else some (.text (o.push c), out)
  | (.escape o, out) =>
    if c = 'u' then some (.unit o 4 0, out)
    else (escaped? c).map fun c => (.text (o.push c), out)
  | (.unit o missing value, out) =>
    (Hex.value? c).map fun d =>
      if missing = 1 then (.text (o.pushUnit (value * 16 + d)), out)
      else (.unit o (missing - 1) (value * 16 + d), out)

/-- The tokens of a scan that may end here. -/
def finish : Scan → Option (List Token)
  | (.between, out) => some out.reverse
  | (.number part seen, out) => if part.isEnd then some (.number seen.reverse :: out).reverse else none
  | _ => none

def scanFrom (scan : Scan) : List Char → Option Scan
  | [] => some scan
  | c :: rest =>
    match step scan c with
    | none => none
    | some scan => scanFrom scan rest

def lex (s : List Char) : Option (List Token) :=
  (scanFrom (.between, []) s).bind finish

end Token

end Scaffold.Json
