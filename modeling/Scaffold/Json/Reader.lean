import Scaffold.Json.Token
import Scaffold.Json.Number

/-!
From JSON text to a tree. The tokens are taken one by one; lists and tables that are still
open wait on a stack of frames, so that depth is bounded by nothing but the text.
-/
namespace Scaffold.Json

/-- A list or table with a value missing at its end. Finished parts stand last first. A table
loses its value with the first key that has none. -/
inductive Frame where
  | list (items : List Tree)
  | table (entries : Option (List (String × Tree))) (key : Option String)

inductive State where
  /-- A value must come. -/
  | value (frames : List Frame)
  /-- A list was opened: a value or its end. -/
  | first (frames : List Frame)
  | afterItem (items : List Tree) (frames : List Frame)
  /-- A table was opened: a key or its end. -/
  | firstKey (frames : List Frame)
  | nextKey (entries : Option (List (String × Tree))) (frames : List Frame)
  | colon (entries : Option (List (String × Tree))) (key : Option String) (frames : List Frame)
  | afterEntry (entries : Option (List (String × Tree))) (frames : List Frame)
  | complete (t : Tree)

namespace State

/-- Puts a finished value where the innermost frame misses one. -/
def supply (t : Tree) : List Frame → State
  | [] => .complete t
  | .list items :: frames => .afterItem (t :: items) frames
  | .table entries key :: frames =>
    .afterEntry (entries.bind fun es => key.map fun k => (k, t) :: es) frames

def closeTable (entries : Option (List (String × Tree))) : Tree :=
  match entries with
  | some es => .table es.reverse
  | none => .unreadable

/-- Takes a token where a value must come. -/
def begin? (token : Token) (frames : List Frame) : Option State :=
  match token with
  | .leftBrace => some (.firstKey frames)
  | .leftBracket => some (.first frames)
  | .word t => some (supply t frames)
  | .number spelling => some (supply (Number.toTree spelling) frames)
  | .text (some s) => some (supply (.text s) frames)
  | .text none => some (supply .unreadable frames)
  | _ => none

def step (state : State) (token : Token) : Option State :=
  match state, token with
  | .value frames, token => begin? token frames
  | .first frames, .rightBracket => some (supply (.list []) frames)
  | .first frames, token => begin? token (.list [] :: frames)
  | .afterItem items frames, .comma => some (.value (.list items :: frames))
  | .afterItem items frames, .rightBracket => some (supply (.list items.reverse) frames)
  | .firstKey frames, .rightBrace => some (supply (.table []) frames)
  | .firstKey frames, .text key => some (.colon (some []) key frames)
  | .nextKey entries frames, .text key => some (.colon entries key frames)
  | .colon entries key frames, .colon => some (.value (.table entries key :: frames))
  | .afterEntry entries frames, .comma => some (.nextKey entries frames)
  | .afterEntry entries frames, .rightBrace => some (supply (closeTable entries) frames)
  | _, _ => none

def run (state : State) : List Token → Option State
  | [] => some state
  | token :: rest =>
    match step state token with
    | none => none
    | some state => run state rest

def result? : State → Option Tree
  | .complete t => some t
  | _ => none

end State

/-- The tree of a JSON text; none if the text is not JSON. -/
def parse? (source : String) : Option Tree := do
  let tokens ← Token.lex source.toList
  let state ← (State.value []).run tokens
  state.result?

end Scaffold.Json
