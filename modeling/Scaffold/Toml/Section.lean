import Scaffold.Tree

/-!
Tables while a document is being read. A table may be filled from several places, and what may
still add to it depends on how it came to be.
-/
namespace Scaffold.Toml

inductive Origin where
  /-- A header of its own, or the start of the document. -/
  | header
  /-- A header that names a table inside it. -/
  | passed
  /-- A dotted key that names a part of it. -/
  | dotted
deriving DecidableEq, Repr

inductive Node where
  | value (t : Tree)
  | table (origin : Origin) (entries : List (String × Node))
  /-- Tables with one header each, last first. -/
  | tables (items : List (List (String × Node)))
deriving Inhabited

/-- The entries of a table that is being filled. -/
abbrev Section := List (String × Node)

namespace Node

mutual

def toTree : Node → Tree
  | .value t => t
  | .table _ entries => .table (entryTrees entries)
  | .tables items => .list (itemTrees items).reverse

def entryTrees : List (String × Node) → List (String × Tree)
  | [] => []
  | (key, n) :: rest => (key, toTree n) :: entryTrees rest

def itemTrees : List (List (String × Node)) → List Tree
  | [] => []
  | entries :: rest => .table (entryTrees entries) :: itemTrees rest

end

end Node

namespace Section

def toTree (s : Section) : Tree := .table (Node.entryTrees s)

def set (key : String) (n : Node) : Section → Section
  | [] => [(key, n)]
  | (k, m) :: rest => if k = key then (key, n) :: rest else (k, m) :: set key n rest

/-- Changes the table at the end of a path, and makes the tables on the way that are missing.
A dotted key may not go through a table that has a header of its own; of tables with one header
each the last one is meant. -/
def alter (byKey : Bool) (change : Origin → Section → Option Section) :
    List String → Origin → Section → Option Section
  | [], origin, s => change origin s
  | key :: path, _, s =>
    match s.lookup key with
    | none => do
      let origin := if byKey then .dotted else .passed
      let inner ← alter byKey change path origin []
      some (s.set key (.table origin inner))
    | some (.table origin inner) =>
      if byKey ∧ origin = .header then none
      else do
        let inner ← alter byKey change path origin inner
        some (s.set key (.table origin inner))
    | some (.tables (last :: others)) => do
      let last ← alter byKey change path .header last
      some (s.set key (.tables (last :: others)))
    | some _ => none

/-- Gives a value to a key, which must not have one, behind the dots of `path`. Tables that
were not made by dotted keys are not added to by them. -/
def assign (path : List String) (key : String) (t : Tree) (origin : Origin) (s : Section) :
    Option Section :=
  alter true (fun origin s =>
    if decide (origin = .dotted) = path.isEmpty ∨ (s.lookup key).isSome then none
    else some (s.set key (.value t))) path origin s

/-- Begins the table of a header. A table that was only passed through may still get one. -/
def beginTable (path : List String) (key : String) (s : Section) : Option Section :=
  alter false (fun _ s =>
    match s.lookup key with
    | none => some (s.set key (.table .header []))
    | some (.table .passed inner) => some (s.set key (.table .header inner))
    | some _ => none) path .header s

/-- Begins one more of the tables of a header in double brackets. -/
def beginItem (path : List String) (key : String) (s : Section) : Option Section :=
  alter false (fun _ s =>
    match s.lookup key with
    | none => some (s.set key (.tables [[]]))
    | some (.tables items) => some (s.set key (.tables ([] :: items)))
    | some _ => none) path .header s

end Section

end Scaffold.Toml
