import Scaffold.Tree

/-!
From a tree to JSON text: `compact` on one line without blanks, `pretty` with an item or an
entry a line, indented by two spaces a level.
-/
namespace Scaffold.Json

def hexDigits (n : Nat) : List Char :=
  [Nat.digitChar (n / 16), Nat.digitChar (n % 16)]

/-- Only quotes, backslashes and controls are escaped. -/
def escape (c : Char) : List Char :=
  if c = '"' then ['\\', '"']
  else if c = '\\' then ['\\', '\\']
  else if c = '\x08' then ['\\', 'b']
  else if c = '\x0c' then ['\\', 'f']
  else if c = '\n' then ['\\', 'n']
  else if c = '\r' then ['\\', 'r']
  else if c = '\t' then ['\\', 't']
  else if c.toNat < 0x20 then ['\\', 'u', '0', '0'] ++ hexDigits c.toNat
  else [c]

def textChars (s : String) : List Char :=
  '"' :: s.toList.flatMap escape ++ ['"']

def intChars (z : Int) : List Char :=
  match z with
  | .ofNat n => Nat.toDigits 10 n
  | .negSucc n => '-' :: Nat.toDigits 10 (n + 1)

/-- A part without a value is written as null. -/
def leafChars : Tree → List Char
  | .flag true => ['t', 'r', 'u', 'e']
  | .flag false => ['f', 'a', 'l', 's', 'e']
  | .int z => intChars z
  | .real spelling => spelling.toList
  | .text s => textChars s
  | _ => ['n', 'u', 'l', 'l']

mutual

def chars : Tree → List Char
  | .list items => '[' :: itemChars items ++ [']']
  | .table entries => '\x7b' :: entryChars entries ++ ['\x7d']
  | t => leafChars t

def itemChars : List Tree → List Char
  | [] => []
  | [t] => chars t
  | t :: rest => chars t ++ ',' :: itemChars rest

def entryChars : List (String × Tree) → List Char
  | [] => []
  | [(k, t)] => textChars k ++ ':' :: chars t
  | (k, t) :: rest => textChars k ++ ':' :: chars t ++ ',' :: entryChars rest

end

def compact (t : Tree) : String := String.ofList (chars t)

/-- A new line at the given depth. -/
def newline (depth : Nat) : List Char := '\n' :: List.replicate (2 * depth) ' '

mutual

def prettyChars (depth : Nat) : Tree → List Char
  | .list [] => ['[', ']']
  | .list items => '[' :: prettyItems (depth + 1) items ++ newline depth ++ [']']
  | .table [] => ['\x7b', '\x7d']
  | .table entries => '\x7b' :: prettyEntries (depth + 1) entries ++ newline depth ++ ['\x7d']
  | t => leafChars t

def prettyItems (depth : Nat) : List Tree → List Char
  | [] => []
  | [t] => newline depth ++ prettyChars depth t
  | t :: rest => newline depth ++ prettyChars depth t ++ ',' :: prettyItems depth rest

def prettyEntries (depth : Nat) : List (String × Tree) → List Char
  | [] => []
  | [(k, t)] => newline depth ++ textChars k ++ [':', ' '] ++ prettyChars depth t
  | (k, t) :: rest =>
    newline depth ++ textChars k ++ [':', ' '] ++ prettyChars depth t ++
      ',' :: prettyEntries depth rest

end

def pretty (t : Tree) : String := String.ofList (prettyChars 0 t)

end Scaffold.Json
