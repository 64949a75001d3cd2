import Scaffold.Tree

/-!
Dates and times. `Moment.parse?` takes a date, a time of day, or both with or without an
offset, and refuses what no calendar or clock shows.
-/
namespace Scaffold.Toml

structure Date where
  year : Nat
  month : Nat
  day : Nat
deriving DecidableEq, Repr

structure Time where
  hour : Nat
  minute : Nat
  second : Option Nat
  /-- The digits behind the decimal point of the seconds. -/
  fraction : Option (List Char)
deriving DecidableEq, Repr

inductive Offset where
  | utc
  | shift (isNegative : Bool) (hours minutes : Nat)
deriving DecidableEq, Repr

structure Moment where
  date : Option Date
  time : Option Time
  offset : Option Offset
deriving DecidableEq, Repr

/-- Takes exactly `n` digits. -/
def takeDigits (n : Nat) (s : List Char) : Option (Nat × List Char) :=
  let digits := s.take n
  if digits.length = n ∧ digits.all Char.isDigit then
    some (Nat.ofDigitChars 10 digits 0, s.drop n)
  else none

/-- A number of `n` digits, written with zeros in front. -/
def padded (n value : Nat) : List Char :=
  let digits := Nat.toDigits 10 value
  List.replicate (n - digits.length) '0' ++ digits

namespace Date

def isLeap (year : Nat) : Bool := year % 4 = 0 && (year % 100 ≠ 0 || year % 400 = 0)

def daysIn (year month : Nat) : Nat :=
  if month = 2 then if isLeap year then 29 else 28
  else if month = 4 ∨ month = 6 ∨ month = 9 ∨ month = 11 then 30
  else 31

def isValid (d : Date) : Bool :=
  1 ≤ d.month && d.month ≤ 12 && 1 ≤ d.day && d.day ≤ daysIn d.year d.month

/-- Takes a date and gives back what follows it. -/
def take? (s : List Char) : Option (Date × List Char) := do
  let (year, s) ← takeDigits 4 s
  let s ← if s.head? = some '-' then some (s.drop 1) else none
  let (month, s) ← takeDigits 2 s
  let s ← if s.head? = some '-' then some (s.drop 1) else none
  let (day, s) ← takeDigits 2 s
  let d : Date := ⟨year, month, day⟩
  if d.isValid then some (d, s) else none

def chars (d : Date) : List Char :=
  padded 4 d.year ++ '-' :: padded 2 d.month ++ '-' :: padded 2 d.day

end Date

namespace Time

/-- A leap second may end any minute. -/
def isValid (t : Time) : Bool :=
  t.hour ≤ 23 && t.minute ≤ 59 && t.second.getD 0 ≤ 60

/-- The seconds of a time, which may be left out, with their fraction. -/
def takeSeconds? (s : List Char) : Option ((Option Nat × Option (List Char)) × List Char) :=
  match s with
  | ':' :: s => do
    let (second, s) ← takeDigits 2 s
    match s with
    | '.' :: s =>
      let digits := s.takeWhile Char.isDigit
      if digits = [] then none else some ((some second, some digits), s.dropWhile Char.isDigit)
    | s => some ((some second, none), s)
  | s => some ((none, none), s)

def take? (s : List Char) : Option (Time × List Char) := do
  let (hour, s) ← takeDigits 2 s
  let s ← if s.head? = some ':' then some (s.drop 1) else none
  let (minute, s) ← takeDigits 2 s
  let ((second, fraction), s) ← takeSeconds? s
  let t : Time := ⟨hour, minute, second, fraction⟩
  if t.isValid then some (t, s) else none

/-- The fraction to the nanosecond, without the zeros at its end. -/
def fractionChars (digits : List Char) : List Char :=
  match ((digits.take 9).reverse.dropWhile (· = '0')).reverse with
  | [] => ['0']
  | digits => digits

def chars (t : Time) : List Char :=
  padded 2 t.hour ++ ':' :: padded 2 t.minute ++
    (match t.second with
      | some s => ':' :: padded 2 s
      | none => []) ++
    match t.fraction with
    | some digits => '.' :: fractionChars digits
    | none => []

end Time

namespace Offset

def parse? (s : List Char) : Option Offset :=
  match s with
  | ['z'] | ['Z'] => some .utc
  | sign :: s => do
    let (hours, s) ← takeDigits 2 s
    let s ← if s.head? = some ':' then some (s.drop 1) else none
    let (minutes, s) ← takeDigits 2 s
    if (sign = '+' ∨ sign = '-') ∧ hours ≤ 23 ∧ minutes ≤ 59 ∧ s = [] then
      some (.shift (sign = '-' && 0 < hours + minutes) hours minutes)
    else none
  | [] => none

def chars : Offset → List Char
  | .utc => ['Z']
  | .shift isNegative hours minutes =>
    (if isNegative then '-' else '+') :: padded 2 hours ++ ':' :: padded 2 minutes

end Offset

namespace Moment

/-- The time behind a date, with its offset. -/
def behindDate? (d : Date) (s : List Char) : Option Moment :=
  match s with
  | [] => some ⟨some d, none, none⟩
  | c :: s => do
    let (t, s) ← if c = 'T' ∨ c = 't' ∨ c = ' ' then Time.take? s else none
    if s = [] then some ⟨some d, some t, none⟩
    else
      let offset ← Offset.parse? s
      some ⟨some d, some t, some offset⟩

def parse? (s : List Char) : Option Moment :=
  match Date.take? s with
  | some (d, s) => behindDate? d s
  | none =>
    match Time.take? s with
    | some (t, []) => some ⟨none, some t, none⟩
    | _ => none

def chars (m : Moment) : List Char :=
  (m.date.map Date.chars).getD [] ++
    (if m.date.isSome && m.time.isSome then ['T'] else []) ++
    (m.time.map Time.chars).getD [] ++ (m.offset.map Offset.chars).getD []

/-- The key under which a date or time stands in a tree. -/
def key : String := "$__toml_private_datetime"

/-- A date or time is neither a text nor a number: it is a table with its normal spelling as
the only entry. -/
def toTree (m : Moment) : Tree := .table [(key, .text (String.ofList m.chars))]

end Moment

end Scaffold.Toml
