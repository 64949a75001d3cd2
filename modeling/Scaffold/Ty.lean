import Scaffold.Text.Dotted

/-!
Type expressions. A type is a scalar, a named type with arguments, an array, a nullable type
or a type variable. Nullable layers may be stacked; `nonNull` strips them all, and most
questions are asked of what is left.
-/
namespace Scaffold

inductive Scalar where
  | boolean
  | char
  | byte
  | short
  | int
  | long
  | float
  | double
  | string
deriving DecidableEq, Repr, Inhabited

namespace Scalar

/-- The name a scalar has in generated code. -/
def simpleName : Scalar → String
  | .boolean => "Boolean"
  | .char => "Char"
  | .byte => "Byte"
  | .short => "Short"
  | .int => "Int"
  | .long => "Long"
  | .float => "Float"
  | .double => "Double"
  | .string => "String"

def qualifiedName (s : Scalar) : String := "kotlin." ++ s.simpleName

def isInteger : Scalar → Bool
  | .byte | .short | .int | .long => true
  | _ => false

def isFloating : Scalar → Bool
  | .float | .double => true
  | _ => false

end Scalar

inductive Ty where
  | scalar (s : Scalar)
  | named (name : String) (args : List Ty)
  | array (element : Ty)
  | nullable (inner : Ty)
  /-- A type variable of the surrounding declaration. -/
  | param (name : String)
deriving Repr, Inhabited

namespace Ty

mutual

def decEq : (a b : Ty) → Decidable (a = b)
  | .scalar s, .scalar s' =>
    if h : s = s' then isTrue (by rw [h]) else isFalse fun e => h (by injection e)
  | .named n as, .named n' as' =>
    if h : n = n' then
      match decEqAll as as' with
      | isTrue h' => isTrue (by rw [h, h'])
      | isFalse h' => isFalse fun e => h' (by injection e)
    else isFalse fun e => h (by injection e)
  | .array e, .array e' =>
    match decEq e e' with
    | isTrue h => isTrue (by rw [h])
    | isFalse h => isFalse fun e => h (by injection e)
  | .nullable t, .nullable t' =>
    match decEq t t' with
    | isTrue h => isTrue (by rw [h])
    | isFalse h => isFalse fun e => h (by injection e)
  | .param n, .param n' =>
    if h : n = n' then isTrue (by rw [h]) else isFalse fun e => h (by injection e)
  | .scalar _, .named _ _ | .scalar _, .array _ | .scalar _, .nullable _ | .scalar _, .param _
  | .named _ _, .scalar _ | .named _ _, .array _ | .named _ _, .nullable _ | .named _ _, .param _
  | .array _, .scalar _ | .array _, .named _ _ | .array _, .nullable _ | .array _, .param _
  | .nullable _, .scalar _ | .nullable _, .named _ _ | .nullable _, .array _
  | .nullable _, .param _ | .param _, .scalar _ | .param _, .named _ _ | .param _, .array _
  | .param _, .nullable _ => isFalse nofun

def decEqAll : (as bs : List Ty) → Decidable (as = bs)
  | [], [] => isTrue rfl
  | a :: as, b :: bs =>
    match decEq a b, decEqAll as bs with
    | isTrue h, isTrue h' => isTrue (by rw [h, h'])
    | isFalse h, _ => isFalse fun e => h (by injection e)
    | _, isFalse h => isFalse fun e => h (by injection e)
  | [], _ :: _ | _ :: _, [] => isFalse nofun

end

instance : DecidableEq Ty := decEq

def isNullable : Ty → Bool
  | .nullable _ => true
  | _ => false

/-- Adds a nullable layer, unless there is one. -/
def orNull (t : Ty) : Ty := if t.isNullable then t else .nullable t

def nonNull : Ty → Ty
  | .nullable inner => inner.nonNull
  | t => t

def isArray (t : Ty) : Bool :=
  match t.nonNull with
  | .array _ => true
  | _ => false

/-- The qualified name of a type under its nullable layers; arrays and variables have none. -/
def head? (t : Ty) : Option String :=
  match t.nonNull with
  | .scalar s => some s.qualifiedName
  | .named name _ => some name
  | _ => none

def mark (t : Ty) : String := if t.isNullable then "?" else ""

mutual

/-- The text of a type under its nullable layers. -/
def bare : Ty → String
  | .scalar s => s.simpleName
  | .named name [] => Dotted.simple name
  | .named name args => Dotted.simple name ++ "<" ++ ", ".intercalate (displayAll args) ++ ">"
  | .array element => "Array<" ++ bare element ++ element.mark ++ ">"
  | .nullable inner => bare inner
  | .param name => name

def displayAll : List Ty → List String
  | [] => []
  | t :: rest => (bare t ++ t.mark) :: displayAll rest

end

/-- The text of a type in messages: simple names, and one question mark for any number of
nullable layers. -/
def display (t : Ty) : String := t.bare ++ t.mark

mutual

/-- Replaces the type variables that have a binding. -/
def subst (bindings : String → Option Ty) : Ty → Ty
  | .param name => (bindings name).getD (.param name)
  | .named name args => .named name (substAll bindings args)
  | .array element => .array (subst bindings element)
  | .nullable inner => .nullable (subst bindings inner)
  | .scalar s => .scalar s

def substAll (bindings : String → Option Ty) : List Ty → List Ty
  | [] => []
  | t :: rest => subst bindings t :: substAll bindings rest

end

mutual

/-- The number of nodes of a type. -/
def size : Ty → Nat
  | .scalar _ => 1
  | .named _ args => 1 + sizeAll args
  | .array element => 1 + size element
  | .nullable inner => 1 + size inner
  | .param _ => 1

def sizeAll : List Ty → Nat
  | [] => 0
  | t :: rest => size t + sizeAll rest

end

theorem substAll_eq_map (bindings : String → Option Ty) (ts : List Ty) :
    substAll bindings ts = ts.map (subst bindings) := by
  induction ts with
  | nil => rfl
  | cons t rest ih => simp [substAll, ih]

theorem isNullable_orNull (t : Ty) : t.orNull.isNullable = true := by
  unfold orNull
  split
  · assumption
  · rfl

theorem nonNull_orNull (t : Ty) : t.orNull.nonNull = t.nonNull := by
  unfold orNull
  split <;> simp [nonNull]

theorem isNullable_nonNull (t : Ty) : t.nonNull.isNullable = false := by
  induction t using nonNull.induct with
  | case1 inner ih => simpa [nonNull] using ih
  | case2 t h => cases t <;> simp_all [nonNull, isNullable]

end Ty

end Scaffold
