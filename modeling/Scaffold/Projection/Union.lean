/-!
The TypeScript text of a type, as the members of a flat union.
-/
namespace Scaffold.Projection

structure Union where
  members : List String
deriving DecidableEq, Repr, Inhabited

namespace Union

def single (text : String) : Union := ⟨[text]⟩

/-- Joins a member, unless it is there. -/
def add (u : Union) (member : String) : Union :=
  if member ∈ u.members then u else ⟨u.members ++ [member]⟩

def render (u : Union) : String := " | ".intercalate u.members

/-- The text inside another composite type, where a union stands in parentheses. -/
def grouped (u : Union) : String :=
  if 1 < u.members.length then "(" ++ u.render ++ ")" else u.render

end Union

end Scaffold.Projection
