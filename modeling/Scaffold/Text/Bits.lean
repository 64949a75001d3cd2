/-!
Integers that fit into a number of bits.
-/
namespace Scaffold.Bits

/-- How many values a number of bits has. -/
def count (bits : Nat) : Nat := Nat.pow 2 bits

def fitsUnsigned (bits : Nat) (z : Int) : Bool := 0 ≤ z && z < count bits

def fitsSigned (bits : Nat) (z : Int) : Bool :=
  -(count (bits - 1) : Int) ≤ z && z < count (bits - 1)

/-- Whether an integer fits with a sign or without one. -/
def fits (bits : Nat) (z : Int) : Bool := fitsSigned bits z || fitsUnsigned bits z

end Scaffold.Bits
