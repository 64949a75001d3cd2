import Scaffold.Eval.Compare
import Scaffold.Text.Bits

/-!
Running method bodies. A run changes the store and gives a value, or gets stuck; what it did to
the store before it got stuck stays. Expressions are evaluated from left to right.
-/
namespace Scaffold.Eval

/-- Why a run cannot go on. -/
inductive Stuck where
  | noField (name : String)
  | notObject
  | notBool
  | notInt
  | incomparable
  | badLiteral (source : String)
  | unboundName (name : String)
  | notAssignable
  | noMethod (className method : String)
  | missingArgument (name : String)
  /-- Calls were nested deeper than was allowed. -/
  | tooDeep
deriving DecidableEq, Repr

def Run (α : Type) := Store → Except Stuck α × Store

namespace Run

protected def pure (a : α) : Run α := fun s => (.ok a, s)

protected def bind (r : Run α) (f : α → Run β) : Run β := fun s =>
  match r s with
  | (.ok a, s) => f a s
  | (.error e, s) => (.error e, s)

instance : Monad Run where
  pure := Run.pure
  bind := Run.bind

def stuck (e : Stuck) : Run α := fun s => (.error e, s)

/-- Reads off the store. -/
def look (f : Store → α) : Run α := fun s => (.ok (f s), s)

def modify (f : Store → Store) : Run Unit := fun s => (.ok (), f s)

def alloc (c : Cell) : Run Value := fun s => (.ok (.ref (s.alloc c).1), (s.alloc c).2)

def ofOption (e : Stuck) : Option α → Run α
  | some a => pure a
  | none => stuck e

@[simp] theorem pure_apply (a : α) (s : Store) : (pure a : Run α) s = (.ok a, s) := rfl

theorem bind_apply (r : Run α) (f : α → Run β) (s : Store) :
    (r >>= f) s = match r s with
      | (.ok a, s) => f a s
      | (.error e, s) => (.error e, s) := rfl

end Run

def asBool : Value → Run Bool
  | .bool b => pure b
  | _ => .stuck .notBool

def asInt : Value → Run Int64
  | .int n => pure n
  | _ => .stuck .notInt

/-- An integer with an optional sign that fits 64 bits. -/
def int64? (digits : List Char) : Option Int64 :=
  let negative := digits.head? = some '-'
  let body := if negative ∨ digits.head? = some '+' then digits.drop 1 else digits
  let magnitude : Int := Nat.ofDigitChars 10 body 0
  let z := if negative then -magnitude else magnitude
  if body = [] ∨ ¬ body.all Char.isDigit then none
  else if Bits.fitsSigned 64 z then some (Int64.ofInt z)
  else none

/-- The few literals that can be run; an integer may carry the mark of a long one. -/
def literal? (source : String) : Option Value :=
  if source = "null" then some .null
  else if source = "true" then some (.bool true)
  else if source = "false" then some (.bool false)
  else if source = "\"\"" then some (.str "")
  else (int64? (source.toList.reverse.dropWhile (· = 'L')).reverse).map .int

/-- What a body runs in. -/
structure Frame where
  this : Value
  locals : List (String × Value)
deriving Repr, Inhabited

namespace Frame

def set (f : Frame) (name : String) (v : Value) : Frame := ⟨f.this, (name, v) :: f.locals⟩

end Frame

/-- What code is run with: how a method is called on a value, and the identity hashes. -/
structure Machine where
  invoke : Value → String → List Value → Run Value
  identity : Ref → Int64

def getField (v : Value) (name : String) : Run Value := do
  let found ← Run.look fun s => s.field? v name
  Run.ofOption (.noField name) found

def setField (v : Value) (name : String) (new : Value) : Run Unit := do
  let className ← Run.look fun s => s.className? v
  match v, className with
  | .ref r, some _ => Run.modify fun s => s.assign r name new
  | _, _ => .stuck .notObject

mutual

def eval (m : Machine) (f : Frame) : Expr → Run Value
  | .this => pure f.this
  | .null => pure .null
  | .bool value => pure (.bool value)
  | .int value => pure (.int value)
  | .str value => pure (.str value)
  | .literal source => Run.ofOption (.badLiteral source) (literal? source)
  | .ident name => Run.ofOption (.unboundName name) (f.locals.lookup name)
  | .field receiver name => do
    let v ← eval m f receiver
    getField v name
  | .call none method args => do
    let vs ← evalAll m f args
    m.invoke f.this method vs
  | .call (some receiver) method args => do
    let v ← eval m f receiver
    let vs ← evalAll m f args
    m.invoke v method vs
  | .construct className args => do
    let fields ← evalArgs m f args
    Run.alloc (.object className fields)
  | .binary left .or right => do
    let l ← eval m f left
    if ← asBool l then pure (.bool true)
    else
      let r ← eval m f right
      let b ← asBool r
      pure (.bool b)
  | .binary left .eq right => do
    let l ← eval m f left
    let r ← eval m f right
    Run.look fun s => .bool (equal s .structural l r)
  | .binary left .notEq right => do
    let l ← eval m f left
    let r ← eval m f right
    Run.look fun s => .bool (!equal s .structural l r)
  | .binary left .refEq right => do
    let l ← eval m f left
    let r ← eval m f right
    pure (.bool (l = r))
  | .binary left .add right => do
    let l ← eval m f left
    let a ← asInt l
    let r ← eval m f right
    let b ← asInt r
    pure (.int (a + b))
  | .binary left .mul right => do
    let l ← eval m f left
    let a ← asInt l
    let r ← eval m f right
    let b ← asInt r
    pure (.int (a * b))
  | .not operand => do
    let v ← eval m f operand
    let b ← asBool v
    pure (.bool !b)
  | .cast value _ => eval m f value
  | .sameClass left right => do
    let l ← eval m f left
    let r ← eval m f right
    Run.look fun s =>
      match s.className? l, s.className? r with
      | some c, some d => .bool (c = d)
      | _, _ => .bool false
  | .equal left right comparison => do
    let l ← eval m f left
    let r ← eval m f right
    Run.look fun s => .bool (equal s comparison l r)
  | .hashOf value comparison _ => do
    let v ← eval m f value
    Run.look fun s => .int (hash s m.identity comparison v)
  | .compare left right => do
    let l ← eval m f left
    let r ← eval m f right
    Run.ofOption .incomparable ((compareValues? l r).map .int)
  | .concat parts => do
    let text ← evalText m f parts
    pure (.str text)

def evalAll (m : Machine) (f : Frame) : List Expr → Run (List Value)
  | [] => pure []
  | e :: rest => do
    let v ← eval m f e
    let vs ← evalAll m f rest
    pure (v :: vs)

def evalArgs (m : Machine) (f : Frame) : List (String × Expr) → Run (List (String × Value))
  | [] => pure []
  | (name, e) :: rest => do
    let v ← eval m f e
    let vs ← evalArgs m f rest
    pure ((name, v) :: vs)

def evalText (m : Machine) (f : Frame) : List Expr → Run String
  | [] => pure ""
  | e :: rest => do
    let v ← eval m f e
    let text ← Run.look fun s => render s v
    let texts ← evalText m f rest
    pure (text ++ texts)

end

mutual

/-- Runs a statement; a value ends the body. Names set in a branch stay set after it. -/
def exec (m : Machine) (f : Frame) : Stmt → Run (Option Value × Frame)
  | .let name _ value => do
    let v ← eval m f value
    pure (none, f.set name v)
  | .assign target value => do
    let v ← eval m f value
    match target with
    | .ident name => pure (none, f.set name v)
    | .field receiver name => do
      let object ← eval m f receiver
      setField object name v
      pure (none, f)
    | _ => .stuck .notAssignable
  | .cond condition thenBranch none => do
    let v ← eval m f condition
    if ← asBool v then execAll m f thenBranch else pure (none, f)
  | .cond condition thenBranch (some elseBranch) => do
    let v ← eval m f condition
    if ← asBool v then execAll m f thenBranch else execAll m f elseBranch
  | .ret value => do
    let v ← eval m f value
    pure (some v, f)
  | .expr e => do
    let _ ← eval m f e
    pure (none, f)
  | .comment _ => pure (none, f)

def execAll (m : Machine) (f : Frame) : List Stmt → Run (Option Value × Frame)
  | [] => pure (none, f)
  | s :: rest => do
    match ← exec m f s with
    | (some v, f) => pure (some v, f)
    | (none, f) => execAll m f rest

end

/-- Runs a whole body; one that does not return gives null. -/
def runBody (m : Machine) (f : Frame) (body : List Stmt) : Run Value := do
  let (v, _) ← execAll m f body
  pure (v.getD .null)

/-- The methods that can be called, by class and name; the latest definition counts. -/
structure Program where
  methods : List ((String × String) × Method)
  identity : Ref → Int64

namespace Program

def define (p : Program) (className : String) (m : Method) : Program :=
  ⟨((className, m.name), m) :: p.methods, p.identity⟩

/-- A frame with the arguments in the order of the parameters. -/
def bindArgs (this : Value) (params : List Param) (args : List Value) : Frame :=
  (params.zip args).foldl (fun f pa => f.set pa.1.name pa.2) ⟨this, []⟩

/-- Calls a method by the class of its receiver; calls nest at most `depth` deep. -/
def invoke (p : Program) : Nat → Value → String → List Value → Run Value
  | 0, _, _, _ => .stuck .tooDeep
  | depth + 1, receiver, name, args => do
    let className ← Run.look fun s => s.className? receiver
    match className with
    | none => .stuck .notObject
    | some className =>
      match p.methods.lookup (className, name) with
      | none => .stuck (.noMethod className name)
      | some m =>
        runBody ⟨invoke p depth, p.identity⟩ (bindArgs receiver m.params args) m.body

def machine (p : Program) (depth : Nat) : Machine := ⟨p.invoke depth, p.identity⟩

/-- Calls a method with arguments in order. -/
def call (p : Program) (depth : Nat) (m : Method) (this : Value) (args : List Value) : Run Value :=
  runBody (p.machine depth) (bindArgs this m.params args) m.body

/-- Binds named arguments; a parameter that is not given takes its default, which may refer to
the parameters before it. -/
def bindNamed (p : Program) (depth : Nat) (args : List (String × Value)) :
    List Param → Frame → Run Frame
  | [], f => pure f
  | param :: rest, f => do
    let v ←
      match args.lookup param.name, param.default with
      | some v, _ => pure v
      | none, some default => eval (p.machine depth) f default
      | none, none => .stuck (.missingArgument param.name)
    bindNamed p depth args rest (f.set param.name v)

def callNamed (p : Program) (depth : Nat) (m : Method) (this : Value)
    (args : List (String × Value)) : Run Value := do
  let f ← bindNamed p depth args m.params ⟨this, []⟩
  runBody (p.machine depth) f m.body

end Program

end Scaffold.Eval
