/-!
Path names as text. Parts are separated by slashes; nothing is normalised, so a path keeps
the spelling its parts were joined with.
-/
namespace Scaffold.PathName

def isAbsolute (path : String) : Bool := path.toList.head? = some '/'

/-- Appends a part. A slash is put between only if the base needs one, and an absolute part
stands for itself. -/
def push (base part : String) : String :=
  if isAbsolute part then part
  else if base.toList.getLast?.all (· = '/') then base ++ part
  else base ++ "/" ++ part

/-- The names between the slashes. -/
def parts (path : String) : List String :=
  ((path.toList.splitOn '/').filter (· ≠ [])).map String.ofList

/-- The text behind the last slash. -/
def fileName (path : String) : String :=
  String.ofList (path.toList.reverse.takeWhile (· ≠ '/')).reverse

/-- Splits off the last component of a reversed body, with the slash in front of it. -/
def splitLast (body : List Char) : List Char × List Char :=
  (body.takeWhile (· ≠ '/'), (body.dropWhile (· ≠ '/')).drop 1)

/-- Drops empty and single-dot components from the end of a reversed body. -/
def dropIdle (body : List Char) : List Char :=
  match body with
  | [] => []
  | '/' :: rest => dropIdle rest
  | ['.'] => []
  | '.' :: '/' :: rest => dropIdle rest
  | body => body

/-- The part of a path that no component may eat into: the root slash, or a leading dot. -/
def anchor (path : List Char) : Nat :=
  match path with
  | '/' :: _ => 1
  | ['.'] => 1
  | '.' :: '/' :: _ => 1
  | _ => 0

/-- The directory a path names its last component in; none for the root and the empty path. -/
def parent? (path : String) : Option String :=
  let chars := path.toList
  let head := chars.take (anchor chars)
  match dropIdle (chars.drop (anchor chars)).reverse with
  | [] => if head = ['.'] then some "" else none
  | body => some (String.ofList (head ++ (dropIdle (splitLast body).2).reverse))

/-- Whether a file name ends in the extension, with something in front of the dot. -/
def hasExtension (extension name : String) : Bool :=
  ('.' :: extension.toList).isSuffixOf name.toList && extension.length + 1 < name.length

end Scaffold.PathName
