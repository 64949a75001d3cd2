import Scaffold.Json.Number
import Scaffold.Text.Bits
import Scaffold.Text.Hex
import Scaffold.Toml.Moment

/-!
Values that are written without quotes: booleans, numbers, dates and times.
-/
namespace Scaffold.Toml.Scalar

/-- Digits in which single underscores may stand between two others; gives them without. -/
def digits? (isDigit : Char → Bool) : List Char → Option (List Char)
  | [] => none
  | [c] => if isDigit c then some [c] else none
  | c :: '_' :: rest => if isDigit c then (digits? isDigit rest).map (c :: ·) else none
  | c :: rest => if isDigit c then (digits? isDigit rest).map (c :: ·) else none

/-- Decimal digits that do not begin with a needless zero. -/
def whole? (s : List Char) : Option (List Char) :=
  match digits? Char.isDigit s with
  | some ('0' :: _ :: _) => none
  | found => found

/-- Integers that fit no 128 bits, signed or unsigned, have no value. -/
def ofInt? (z : Int) (spelling : List Char) : Option Tree :=
  if Bits.fits 64 z then some (.int z)
  else if Bits.fits 128 z then some (.real (String.ofList spelling))
  else none

def isHex (c : Char) : Bool := (Hex.value? c).isSome

def isOctal (c : Char) : Bool := '0' ≤ c && c ≤ '7'

def isBinary (c : Char) : Bool := c = '0' || c = '1'

def valueIn (base : Nat) (digits : List Char) : Nat :=
  digits.foldl (fun n c => base * n + (Hex.value? c).getD 0) 0

/-- The digits of a number whose base is written in front of it. -/
def ofBase? (base : Nat) (isDigit : Char → Bool) (s : List Char) : Option Tree := do
  let digits ← digits? isDigit s
  ofInt? (valueIn base digits) digits

/-- An exponent with its letter; nothing if there is none. -/
def power? (s : List Char) : Option (List Char) :=
  match s with
  | [] => some []
  | c :: rest =>
    if c ≠ 'e' ∧ c ≠ 'E' then none
    else
      match rest with
      | '-' :: rest => (digits? Char.isDigit rest).map fun ds => 'e' :: '-' :: ds
      | '+' :: rest => (digits? Char.isDigit rest).map fun ds => 'e' :: ds
      | rest => (digits? Char.isDigit rest).map fun ds => 'e' :: ds

def isPower (c : Char) : Bool := c = 'e' || c = 'E'

/-- A number with a fraction or an exponent. -/
def float? (sign s : List Char) : Option Tree := do
  let isFront (c : Char) : Bool := c ≠ '.' && !isPower c
  let front ← whole? (s.takeWhile isFront)
  let (fraction, rest) ←
    match s.dropWhile isFront with
    | '.' :: rest => do
      let digits ← digits? Char.isDigit (rest.takeWhile fun c => !isPower c)
      some ('.' :: digits, rest.dropWhile fun c => !isPower c)
    | rest => some ([], rest)
  let power ← power? rest
  let spelling := sign ++ front ++ fraction ++ power
  if Json.Number.isPastDoubles (Json.Number.split spelling) then none
  else some (.real (String.ofList spelling))

/-- A decimal number behind its sign. -/
def number? (sign s : List Char) : Option Tree :=
  match whole? s with
  | some ds =>
    let n : Int := Nat.ofDigitChars 10 ds 0
    ofInt? (if sign = [] then n else -n) (sign ++ ds)
  | none =>
    if s = ['i', 'n', 'f'] ∨ s = ['n', 'a', 'n'] then some (.real (String.ofList (sign ++ s)))
    else float? sign s

/-- The value of an unquoted run of characters. -/
def parse? (s : List Char) : Option Tree :=
  match s with
  | ['t', 'r', 'u', 'e'] => some (.flag true)
  | ['f', 'a', 'l', 's', 'e'] => some (.flag false)
  | '0' :: 'x' :: rest => ofBase? 16 isHex rest
  | '0' :: 'o' :: rest => ofBase? 8 isOctal rest
  | '0' :: 'b' :: rest => ofBase? 2 isBinary rest
  | '-' :: rest => number? ['-'] rest
  | '+' :: rest => number? [] rest
  | s =>
    match number? [] s with
    | some t => some t
    | none => (Moment.parse? s).map Moment.toTree

end Scaffold.Toml.Scalar
