import Scaffold.Code
import Scaffold.Eval.Store

/-!
Equality, hashing, order and text of values. Inside an object everything is compared
structurally, whatever the mode outside; structurally an array is equal only to itself and
hashes by its identity.
-/
namespace Scaffold.Eval

def equalAll (eq : Value → Value → Bool) : List Value → List Value → Bool
  | [], [] => true
  | a :: as, b :: bs => eq a b && equalAll eq as bs
  | _, _ => false

def equalFields (eq : Value → Value → Bool) :
    List (String × Value) → List (String × Value) → Bool
  | [], [] => true
  | (n, a) :: as, (m, b) :: bs => n = m && eq a b && equalFields eq as bs
  | _, _ => false

/-- Equality of values that nest at most as deep as the given number of levels. -/
def equalWithin (s : Store) : Nat → Comparison → Value → Value → Bool
  | 0, _, a, b => a = b
  | n + 1, mode, .ref r, .ref r' =>
    match s.cell? r, s.cell? r' with
    | some (.array as), some (.array bs) =>
      match mode with
      | .structural | .identity => r = r'
      | .shallowContent => equalAll (equalWithin s n .structural) as bs
      | .deepContent => equalAll (equalWithin s n .deepContent) as bs
    | some (.object c as), some (.object d bs) =>
      r = r' || (c = d && equalFields (equalWithin s n .structural) as bs)
    | _, _ => r = r'
  | _, _, a, b => a = b

/-- Values without cycles nest no deeper than there are cells. -/
def equal (s : Store) (mode : Comparison) (a b : Value) : Bool :=
  equalWithin s (s.size + 1) mode a b

/-- Thirty-one times what there is, plus the next. -/
def mix (h v : Int64) : Int64 := h * 31 + v

def hashText (s : String) : Int64 :=
  s.toList.foldl (fun h c => mix h (Int64.ofNat c.toNat)) 0

/-- The hash of a value; `identity` gives the hash of an array as such. -/
def hashWithin (s : Store) (identity : Ref → Int64) : Nat → Comparison → Value → Int64
  | _, _, .null => 0
  | _, _, .bool b => if b then 1231 else 1237
  | _, _, .int n => n
  | _, _, .str t => hashText t
  | 0, _, .ref _ => 0
  | n + 1, mode, .ref r =>
    match s.cell? r with
    | some (.array items) =>
      match mode with
      | .structural | .identity => identity r
      | .shallowContent => (items.map (hashWithin s identity n .structural)).foldl mix 1
      | .deepContent => (items.map (hashWithin s identity n .deepContent)).foldl mix 1
    | some (.object _ fields) =>
      (fields.map fun f => hashWithin s identity n .structural f.2).foldl mix 1
    | none => 0

def hash (s : Store) (identity : Ref → Int64) (mode : Comparison) (v : Value) : Int64 :=
  hashWithin s identity (s.size + 1) mode v

def ofOrdering : Ordering → Int64
  | .lt => -1
  | .eq => 0
  | .gt => 1

/-- The three-way comparison: null comes first, and otherwise only scalars of one kind can be
compared. -/
def compareValues? : Value → Value → Option Int64
  | .null, .null => some 0
  | .null, _ => some (-1)
  | _, .null => some 1
  | .int a, .int b => some (ofOrdering (compareOfLessAndEq a b))
  | .str a, .str b => some (ofOrdering (compareOfLessAndEq a b))
  | .bool a, .bool b => some (ofOrdering (compareOfLessAndEq a b))
  | _, _ => none

def renderInt (n : Int64) : String := toString n.toInt

def renderWithin (s : Store) : Nat → Value → String
  | _, .null => "null"
  | _, .bool b => if b then "true" else "false"
  | _, .int n => renderInt n
  | _, .str t => t
  | 0, .ref _ => ""
  | n + 1, .ref r =>
    match s.cell? r with
    | some (.array items) => "[" ++ ", ".intercalate (items.map (renderWithin s n)) ++ "]"
    | some (.object className _) => className
    | none => ""

/-- The text of a value: arrays show their items, objects only their class. -/
def render (s : Store) (v : Value) : String := renderWithin s (s.size + 1) v

end Scaffold.Eval
