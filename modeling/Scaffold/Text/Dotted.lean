/-!
Dotted names. A name is cut at its last dot into a package part and a simple name, and
`qualify` puts the two together again.
-/
namespace Scaffold.Dotted

/-- The text after the last dot; the whole name if it has none. -/
def simple (name : String) : String :=
  String.ofList (name.toList.reverse.takeWhile (· ≠ '.')).reverse

/-- The text in front of the last dot; empty if there is none. -/
def packagePart (name : String) : String :=
  String.ofList ((name.toList.reverse.dropWhile (· ≠ '.')).drop 1).reverse

def qualify (package simple : String) : String :=
  if package = "" then simple else package ++ "." ++ simple

/-- The non-empty pieces between dots. -/
def segments (name : String) : List String :=
  ((name.toList.splitOn '.').filter (· ≠ [])).map String.ofList

/-- A name without a suffix, unless nothing else would be left. -/
def withoutSuffix (suffix name : String) : String :=
  if suffix ≠ "" ∧ suffix ≠ name ∧ suffix.toList.isSuffixOf name.toList then
    String.ofList (name.toList.take (name.length - suffix.length))
  else name

end Scaffold.Dotted
