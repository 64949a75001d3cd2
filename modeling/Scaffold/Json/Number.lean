import Scaffold.Text.Bits
import Scaffold.Tree

/-!
The value of a number by its spelling. Integers that fit 64 bits, signed or unsigned, keep
their value. Of every other number only its spelling is kept, and one that rounds past the
largest double has no value at all.
-/
namespace Scaffold.Json.Number

/-- Digits in front of the point, behind it, and the exponent. -/
structure Parts where
  negative : Bool
  whole : List Char
  fraction : List Char
  power : Int

def split (spelling : List Char) : Parts :=
  let negative := spelling.head? = some '-'
  let body := if negative then spelling.drop 1 else spelling
  let whole := body.takeWhile Char.isDigit
  let rest := body.dropWhile Char.isDigit
  let fraction := if rest.head? = some '.' then (rest.drop 1).takeWhile Char.isDigit else []
  let tail := if rest.head? = some '.' then (rest.drop 1).dropWhile Char.isDigit else rest
  let digits := (tail.drop 1).filter Char.isDigit
  let power : Int := Nat.ofDigitChars 10 digits 0
  ⟨negative, whole, fraction, if (tail.drop 1).head? = some '-' then -power else power⟩

/-- Whether the number rounds past the largest double: it is at least 2^1024 - 2^970. The
exponent is looked at only near the limit, so that no power is ever large. -/
def isPastDoubles (p : Parts) : Bool :=
  let digits := (p.whole ++ p.fraction).dropWhile (· = '0')
  let magnitude : Int := digits.length + p.power - p.fraction.length
  if digits = [] ∨ magnitude < 309 then false
  else if 309 < magnitude then true
  else
    let scaled := Nat.ofDigitChars 10 digits 0
    let power := p.power - p.fraction.length
    let limit := Bits.count 1024 - Bits.count 970
    if 0 ≤ power then limit ≤ scaled * Nat.pow 10 power.toNat
    else limit * Nat.pow 10 (-power).toNat ≤ scaled

/-- The tree of a number. A zero with a minus sign is no integer. -/
def toTree (spelling : List Char) : Tree :=
  let p := split spelling
  let magnitude := Nat.ofDigitChars 10 p.whole 0
  let plain := spelling.all fun c => c.isDigit || c = '-'
  if plain ∧ ¬ p.negative ∧ Bits.fitsUnsigned 64 magnitude then .int magnitude
  else if plain ∧ p.negative ∧ 0 < magnitude ∧ Bits.fitsSigned 64 (-magnitude) then
    .int (-magnitude)
  else if isPastDoubles p then .unreadable
  else .real (String.ofList spelling)

end Scaffold.Json.Number
