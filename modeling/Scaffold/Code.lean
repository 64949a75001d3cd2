import Scaffold.Decl

/-!
Abstract code: the expressions and statements of generated method bodies, and the description
of a generated class, which is handed to whatever writes source text.
-/
namespace Scaffold

/-- How two values are compared or hashed. -/
inductive Comparison where
  /-- As the value itself does. -/
  | structural
  | identity
  /-- The contents of an array, one level deep. -/
  | shallowContent
  /-- The contents of an array and of the arrays in it. -/
  | deepContent
deriving DecidableEq, Repr, Inhabited

/-- Only arrays are compared by the mode of the target. -/
def Comparison.ofType (type : Ty) (arrays : ArrayMode) : Comparison :=
  if type.isArray then
    match arrays with
    | .identity => .identity
    | .shallow => .shallowContent
    | .deep => .deepContent
  else .structural

inductive BinaryOp where
  | eq
  | notEq
  | refEq
  | or
  | add
  | mul
deriving DecidableEq, Repr, Inhabited

inductive Expr where
  | this
  | null
  | bool (value : Bool)
  | int (value : Int64)
  | str (value : String)
  /-- Source text that is copied as it is. -/
  | literal (source : String)
  | ident (name : String)
  | field (receiver : Expr) (name : String)
  /-- A call; without a receiver, on the object the code runs on. -/
  | call (receiver : Option Expr) (method : String) (args : List Expr)
  | construct (className : String) (args : List (String × Expr))
  | binary (left : Expr) (op : BinaryOp) (right : Expr)
  | not (operand : Expr)
  | cast (value : Expr) (type : Ty)
  /-- Whether both operands have exactly the same class. -/
  | sameClass (left right : Expr)
  | equal (left right : Expr) (comparison : Comparison)
  | hashOf (value : Expr) (comparison : Comparison) (nullable : Bool)
  /-- A three-way comparison in which null comes first. -/
  | compare (left right : Expr)
  | concat (parts : List Expr)
deriving Repr, Inhabited

namespace Expr

def thisField (name : String) : Expr := .field .this name

end Expr

inductive Stmt where
  | let (name : String) (isMutable : Bool) (value : Expr)
  | assign (target value : Expr)
  | cond (condition : Expr) (thenBranch : List Stmt) (elseBranch : Option (List Stmt))
  | ret (value : Expr)
  | expr (e : Expr)
  | comment (text : String)
deriving Repr, Inhabited

inductive Method.Kind where
  | equals
  | hashCode
  | toText
  | compareTo
  | clone
  | copy
  | updateBy
deriving DecidableEq, Repr, Inhabited

structure Param where
  name : String
  type : Ty
  default : Option Expr
deriving Repr, Inhabited

structure Method where
  name : String
  kind : Method.Kind
  overrides : Bool
  params : List Param
  returns : Ty
  body : List Stmt
deriving Repr, Inhabited

/-- A parameter of the primary constructor. The guard forces the parameters behind it to be
given by name. -/
structure ConstructorParam where
  name : String
  type : Ty
  default : Option Expr
  isGuard : Bool
deriving Repr, Inhabited

structure PropertyDesc where
  name : String
  type : Ty
  isMutable : Bool
  /-- The property redeclares one of the model. -/
  overrides : Bool
  annotations : List Annotation
deriving Repr, Inhabited

structure ClassDesc where
  package : String
  name : String
  /-- The qualified name of the model. -/
  model : String
  /-- The label of the target. -/
  target : String
  kind : Target.Kind
  typeParams : List String
  superclass : Option String
  superinterfaces : List Ty
  annotations : List Annotation
  constructor : List ConstructorParam
  properties : List PropertyDesc
  methods : List Method
  /-- Remarks on the generation, such as properties that compareTo skips. -/
  notes : List String
deriving Repr, Inhabited

namespace ClassDesc

def qualifiedName (c : ClassDesc) : String := Dotted.qualify c.package c.name

def property? (c : ClassDesc) (name : String) : Option PropertyDesc :=
  c.properties.find? (·.name = name)

def method? (c : ClassDesc) (kind : Method.Kind) : Option Method :=
  c.methods.find? (·.kind = kind)

end ClassDesc

end Scaffold
