/-!
Documents as trees. A tree is what a document says once its spelling is forgotten: tables keep
their entries in the order they were written, and a number keeps its value only if it is an
integer of 64 bits, signed or unsigned.
-/
namespace Scaffold

inductive Tree where
  | null
  | flag (b : Bool)
  | int (z : Int)
  /-- Any other number, as it was spelled. -/
  | real (spelling : String)
  | text (s : String)
  | list (items : List Tree)
  | table (entries : List (String × Tree))
  /-- A part that is well spelled but has no value: a number past every double, or a text or
  a table key with half of a surrogate pair. It may only stand where nobody reads it. -/
  | unreadable
deriving Inhabited, Repr

namespace Tree

mutual

/-- Whether every part has a value and lists and tables nest at most `levels` deep. -/
def readable (levels : Nat) : Tree → Bool
  | .unreadable => false
  | .list items => 0 < levels && readableItems (levels - 1) items
  | .table entries => 0 < levels && readableEntries (levels - 1) entries
  | _ => true

def readableItems (levels : Nat) : List Tree → Bool
  | [] => true
  | t :: rest => readable levels t && readableItems levels rest

def readableEntries (levels : Nat) : List (String × Tree) → Bool
  | [] => true
  | (_, t) :: rest => readable levels t && readableEntries levels rest

end

/-- A table without the entries that hold nothing. -/
def tableOf (entries : List (String × Option Tree)) : Tree :=
  .table (entries.filterMap fun e => e.2.map fun t => (e.1, t))

def ofOption (write : α → Tree) : Option α → Tree
  | none => .null
  | some a => write a

def ofList (write : α → Tree) (items : List α) : Tree :=
  .list (items.map write)

/-- The list, unless it is empty. -/
def someList (write : α → Tree) (items : List α) : Option Tree :=
  if items.isEmpty then none else some (ofList write items)

end Tree

end Scaffold
