import Scaffold.Toml.Scalar
import Scaffold.Toml.Section
import Scaffold.Toml.Token

/-!
From TOML text to a tree. The tokens are taken one by one; the values that are still open
around the present place are its context.
-/
namespace Scaffold.Toml

/-- A key: the parts in front of its last dot, and the part behind it. -/
structure Slot where
  path : List String
  key : String
deriving DecidableEq, Repr

/-- Where a value stands. -/
inductive Context where
  /-- Behind a key of the section that is open. -/
  | line (slot : Slot)
  /-- In a list, after other items, last first. -/
  | item (items : List Tree) (outer : Context)
  /-- In a table in braces, after other members. -/
  | member (members : Section) (slot : Slot) (outer : Context)

/-- How many lists and tables in braces a value stands in. -/
def Context.depth : Context → Nat
  | .line _ => 0
  | .item _ outer => outer.depth + 1
  | .member _ _ outer => outer.depth + 1

/-- The deepest nesting of lists and tables in braces. -/
def maxDepth : Nat := 80

/-- What a key belongs to. -/
inductive Place where
  | line
  | header (isItem : Bool)
  | member (members : Section) (outer : Context)

inductive Mode where
  /-- The beginning of a line. -/
  | line
  /-- A bracket at the beginning of a line. -/
  | bracket
  /-- Inside a key: its parts so far, last first, and whether a dot or its end may come. -/
  | key (place : Place) (parts : List String) (isComplete : Bool)
  /-- The first bracket of the two that close a header. -/
  | closing (slot : Slot)
  /-- Nothing more may come on the line. -/
  | rest
  | value (context : Context)
  | scalar (context : Context) (seen : List Char)
  /-- A space behind a date: the time may follow. -/
  | dateGap (context : Context) (date : List Char)
  | item (items : List Tree) (outer : Context)
  | afterItem (items : List Tree) (outer : Context)
  | member (members : Section) (outer : Context)
  | afterMember (members : Section) (outer : Context)

structure State where
  root : Section
  /-- The header of the section that is open; none before the first one. -/
  header : Option Slot
  mode : Mode

namespace State

/-- Goes on in another mode. -/
def enter (st : State) (mode : Mode) : Option State := some { st with mode := mode }

def headerPath (st : State) : List String :=
  match st.header with
  | some slot => slot.path ++ [slot.key]
  | none => []

/-- Gives a value to a key of the section that is open. -/
def assign (st : State) (slot : Slot) (t : Tree) : Option Section :=
  st.root.alter false (Section.assign slot.path slot.key t) st.headerPath .header

/-- Puts a finished value where its context has it. -/
def supply (st : State) (t : Tree) : Context → Option State
  | .line slot => do
    let root ← st.assign slot t
    some { st with root := root, mode := .rest }
  | .item items outer => st.enter (.afterItem (t :: items) outer)
  | .member members slot outer => do
    let members ← members.assign slot.path slot.key t .header
    st.enter (.afterMember members outer)

def slotOf? : List String → Option Slot
  | [] => none
  | key :: path => some ⟨path.reverse, key⟩

def beginTable (st : State) (slot : Slot) : Option State := do
  let root ← st.root.beginTable slot.path slot.key
  some ⟨root, some slot, .rest⟩

def beginItem (st : State) (slot : Slot) : Option State := do
  let root ← st.root.beginItem slot.path slot.key
  some ⟨root, some slot, .rest⟩

def isKeyChar (c : Char) : Bool := c.isAlphanum || c = '-' || c = '_'

/-- Takes a token inside a key. -/
def inKey (st : State) (place : Place) (parts : List String) (isComplete : Bool) (token : Token) :
    Option State :=
  match token with
  | .space | .tab => st.enter (.key place parts isComplete)
  | .bare s =>
    if ¬ isComplete ∧ s.all isKeyChar then st.enter (.key place (String.ofList s :: parts) true)
    else none
  | .text false s => if isComplete then none else st.enter (.key place (s :: parts) true)
  | .dot => if isComplete then st.enter (.key place parts false) else none
  | .equals =>
    if isComplete then do
      let slot ← slotOf? parts
      match place with
      | .line => st.enter (.value (.line slot))
      | .member members outer => st.enter (.value (.member members slot outer))
      | .header _ => none
    else none
  | .rightBracket =>
    if isComplete then do
      let slot ← slotOf? parts
      match place with
      | .header false => st.beginTable slot
      | .header true => st.enter (.closing slot)
      | _ => none
    else none
  | _ => none

/-- Takes a token where a value must come. -/
def inValue (st : State) (context : Context) (token : Token) : Option State :=
  match token with
  | .space | .tab => st.enter (.value context)
  | .text _ s => st.supply (.text s) context
  | .bare s => st.enter (.scalar context s)
  | .leftBracket => if context.depth < maxDepth then st.enter (.item [] context) else none
  | .leftBrace => if context.depth < maxDepth then st.enter (.member [] context) else none
  | _ => none

/-- Takes a token behind a value. -/
def behindValue (st : State) (token : Token) : Option State :=
  match st.mode, token with
  | .rest, .newline => st.enter .line
  | .rest, .space | .rest, .tab => some st
  | .afterItem _ _, .space | .afterItem _ _, .tab | .afterItem _ _, .newline => some st
  | .afterItem items outer, .comma => st.enter (.item items outer)
  | .afterItem items outer, .rightBracket => st.supply (.list items.reverse) outer
  | .afterMember _ _, .space | .afterMember _ _, .tab | .afterMember _ _, .newline => some st
  | .afterMember members outer, .comma => st.enter (.member members outer)
  | .afterMember members outer, .rightBrace => st.supply members.toTree outer
  | _, _ => none

/-- Ends an unquoted value. -/
def endScalar (st : State) (context : Context) (seen : List Char) : Option State := do
  let t ← Scalar.parse? seen
  st.supply t context

def isDate (s : List Char) : Bool :=
  match Date.take? s with
  | some (_, []) => true
  | _ => false

def inScalar (st : State) (context : Context) (seen : List Char) (token : Token) :
    Option State :=
  match token with
  | .bare s => st.enter (.scalar context (seen ++ s))
  | .dot => st.enter (.scalar context (seen ++ ['.']))
  | .space =>
    if isDate seen then st.enter (.dateGap context seen)
    else (st.endScalar context seen).bind (behindValue · .space)
  | token => (st.endScalar context seen).bind (behindValue · token)

def step (st : State) (token : Token) : Option State :=
  match st.mode with
  | .line =>
    match token with
    | .newline | .space | .tab => some st
    | .leftBracket => st.enter .bracket
    | token => st.inKey .line [] false token
  | .bracket =>
    match token with
    | .leftBracket => st.enter (.key (.header true) [] false)
    | token => st.inKey (.header false) [] false token
  | .key place parts isComplete => st.inKey place parts isComplete token
  | .closing slot => if token = .rightBracket then st.beginItem slot else none
  | .value context => st.inValue context token
  | .scalar context seen => st.inScalar context seen token
  | .dateGap context date =>
    match token with
    | .bare s => st.enter (.scalar context (date ++ ' ' :: s))
    | token => (st.endScalar context date).bind (behindValue · token)
  | .item items outer =>
    match token with
    | .newline => some st
    | .space | .tab => some st
    | .rightBracket => st.supply (.list items.reverse) outer
    | token => st.inValue (.item items outer) token
  | .member members outer =>
    match token with
    | .newline | .space | .tab => some st
    | .rightBrace => st.supply members.toTree outer
    | token => st.inKey (.member members outer) [] false token
  | .rest | .afterItem _ _ | .afterMember _ _ => st.behindValue token

def run (st : State) : List Token → Option State
  | [] => some st
  | token :: rest =>
    match st.step token with
    | none => none
    | some st => run st rest

/-- The document, if it may end here. -/
def result? (st : State) : Option Section :=
  match st.mode with
  | .line | .rest => some st.root
  | .scalar (.line slot) seen | .dateGap (.line slot) seen => do
    let t ← Scalar.parse? seen
    st.assign slot t
  | _ => none

end State

/-- The tree of a TOML text; none if the text is not TOML. A byte order mark in front is
skipped. -/
def parse? (source : String) : Option Tree := do
  let chars := source.toList
  let tokens ← Token.lex (if chars.head? = some '\ufeff' then chars.drop 1 else chars)
  let st ← (State.mk [] none .line).run tokens
  let root ← st.result?
  some root.toTree

end Scaffold.Toml
