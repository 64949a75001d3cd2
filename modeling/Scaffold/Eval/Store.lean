/-!
Values at run time and the store they refer to. Arrays and objects are cells of the store, so
they have an identity; the cell of an array never changes.
-/
namespace Scaffold.Eval

abbrev Ref := Nat

inductive Value where
  | null
  | bool (b : Bool)
  | int (n : Int64)
  | str (s : String)
  | ref (r : Ref)
deriving DecidableEq, Repr, Inhabited

inductive Cell where
  | array (items : List Value)
  | object (className : String) (fields : List (String × Value))
deriving DecidableEq, Repr, Inhabited

structure Store where
  cells : List Cell
deriving DecidableEq, Repr, Inhabited

namespace Store

def empty : Store := ⟨[]⟩

def size (s : Store) : Nat := s.cells.length

def cell? (s : Store) (r : Ref) : Option Cell := s.cells[r]?

/-- Adds a cell; its reference is the first that was free. -/
def alloc (s : Store) (c : Cell) : Ref × Store := (s.size, ⟨s.cells ++ [c]⟩)

/-- Sets a field, or adds it behind the others. -/
def setField (name : String) (v : Value) : List (String × Value) → List (String × Value)
  | [] => [(name, v)]
  | (n, old) :: rest => if n = name then (n, v) :: rest else (n, old) :: setField name v rest

def assign (s : Store) (r : Ref) (name : String) (v : Value) : Store :=
  match s.cell? r with
  | some (.object className fields) => ⟨s.cells.set r (.object className (setField name v fields))⟩
  | _ => s

def className? (s : Store) : Value → Option String
  | .ref r =>
    match s.cell? r with
    | some (.object className _) => some className
    | _ => none
  | _ => none

def field? (s : Store) (v : Value) (name : String) : Option Value :=
  match v with
  | .ref r =>
    match s.cell? r with
    | some (.object _ fields) => fields.lookup name
    | _ => none
  | _ => none

/-- Whether both are one and the same array or object. -/
def same : Value → Value → Bool
  | .ref r, .ref r' => r = r'
  | _, _ => false

theorem cell?_alloc_self (s : Store) (c : Cell) : (s.alloc c).2.cell? (s.alloc c).1 = some c := by
  simp [alloc, cell?, size]

theorem cell?_alloc_fresh (s : Store) (c : Cell) : s.cell? (s.alloc c).1 = none := by
  simp [alloc, cell?, size]

/-- No other cell changes. -/
theorem cell?_alloc_of_ne {s : Store} {r : Ref} (c : Cell) (h : r ≠ (s.alloc c).1) :
    (s.alloc c).2.cell? r = s.cell? r := by
  rcases Nat.lt_or_gt_of_ne (show r ≠ s.cells.length from h) with hlt | hgt
  · exact List.getElem?_append_left hlt
  · have hnew : (s.cells ++ [c]).length ≤ r := by
      rw [List.length_append]
      exact hgt
    simp only [alloc, cell?]
    rw [List.getElem?_eq_none hnew, List.getElem?_eq_none (Nat.le_of_lt hgt)]

end Store

end Scaffold.Eval
