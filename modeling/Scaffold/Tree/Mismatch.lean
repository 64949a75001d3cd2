import Scaffold.Tree
import Scaffold.Text.Quoted

/-!
Why a tree does not hold what a reader expects, and the text that says so.
-/
namespace Scaffold

/-- What stood in the document, as far as a message tells. -/
inductive Tree.Sort where
  | null
  | flag (b : Bool)
  | int (z : Int)
  | real
  | text (s : String)
  | list
  | table

inductive Mismatch where
  /-- The text is not well formed, or a part that was read has no value. -/
  | malformed
  | sort (got : Tree.Sort) (expected : String)
  | value (got : Tree.Sort) (expected : String)
  | length (count : Nat) (expected : String)
  | missing (field : String)
  | duplicate (field : String)
  | variant (name : String) (known : List String)

namespace Tree.Sort

/-- No text is given for a number that is no integer. -/
def describe : Tree.Sort → Option String
  | .null => some "null"
  | .flag true => some "boolean `true`"
  | .flag false => some "boolean `false`"
  | .int z => some ("integer `" ++ toString z ++ "`")
  | .real => none
  | .text s => some ("string " ++ Quoted.encode s)
  | .list => some "sequence"
  | .table => some "map"

end Tree.Sort

namespace Mismatch

/-- The tree is of the wrong sort. -/
def unexpected (t : Tree) (expected : String) : Mismatch :=
  match t with
  | .null => .sort .null expected
  | .flag b => .sort (.flag b) expected
  | .int z => .sort (.int z) expected
  | .real _ => .sort .real expected
  | .text s => .sort (.text s) expected
  | .list _ => .sort .list expected
  | .table _ => .sort .table expected
  | .unreadable => .malformed

def message : Mismatch → Option String
  | .malformed => none
  | .sort got expected => got.describe.map fun g => "invalid type: " ++ g ++ ", expected " ++ expected
  | .value got expected => got.describe.map fun g => "invalid value: " ++ g ++ ", expected " ++ expected
  | .length count expected =>
    some ("invalid length " ++ toString count ++ ", expected " ++ expected)
  | .missing field => some ("missing field `" ++ field ++ "`")
  | .duplicate field => some ("duplicate field `" ++ field ++ "`")
  | .variant name known =>
    some ("unknown variant `" ++ name ++ "`, expected one of " ++
      ", ".intercalate (known.map fun k => "`" ++ k ++ "`"))

end Mismatch

end Scaffold
