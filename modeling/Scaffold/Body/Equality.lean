import Scaffold.Member

/-!
The bodies of equals, hashCode and toString. All three go over the members in order; arrays
are compared and hashed by the modes of the plan.
-/
namespace Scaffold.Body

def other : String := "other"

def that : String := "that"

def result : String := "result"

def retBool (value : Bool) : Stmt := .ret (.bool value)

/-- Leaves with the given answer if two members differ. -/
def unequalGuard (p : Plan) (m : Member) : Stmt :=
  .cond
    (.not (.equal (.thisField m.name) (.field (.ident that) m.name)
      (Comparison.ofType m.type p.equalsArrays)))
    [retBool false] none

/-- Equality is only between objects of exactly the same class. -/
def equalsBody (p : Plan) (members : List Member) : List Stmt :=
  [.cond (.binary .this .refEq (.ident other)) [retBool true] none,
    .cond
      (.binary (.binary (.ident other) .eq .null) .or (.not (.sameClass .this (.ident other))))
      [retBool false] none,
    .let that false (.cast (.ident other) p.type)] ++
  members.map (unequalGuard p) ++ [retBool true]

def equals (p : Plan) (members : List Member) : Method where
  name := "equals"
  kind := .equals
  overrides := true
  params := [⟨other, .nullable (.named "kotlin.Any" []), none⟩]
  returns := .scalar .boolean
  body := equalsBody p members

/-- Thirty-one times the result so far, plus the hash of a member. -/
def hashStep (p : Plan) (m : Member) : Stmt :=
  .assign (.ident result)
    (.binary (.binary (.int 31) .mul (.ident result)) .add
      (.hashOf (.thisField m.name) (Comparison.ofType m.type p.hashArrays) m.type.isNullable))

def hashBody (p : Plan) (members : List Member) : List Stmt :=
  if members.isEmpty then [.ret (.int 0)]
  else .let result true (.int 0) :: members.map (hashStep p) ++ [.ret (.ident result)]

def hashCode (p : Plan) (members : List Member) : Method where
  name := "hashCode"
  kind := .hashCode
  overrides := true
  params := []
  returns := .scalar .int
  body := hashBody p members

/-- The name and the value of every member, after the given separator. -/
def textParts (separator : String) : List Member → List Expr
  | [] => []
  | m :: rest =>
    .str (separator ++ m.name ++ "=") :: .thisField m.name :: textParts ", " rest

def toText (p : Plan) (members : List Member) : Method where
  name := "toString"
  kind := .toText
  overrides := true
  params := []
  returns := .scalar .string
  body := [.ret (.concat (.str (p.className ++ "(") :: textParts "" members ++ [.str ")"]))]

end Scaffold.Body
