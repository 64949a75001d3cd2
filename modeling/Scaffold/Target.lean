/-!
Targets: the implementations that are asked for on a model. A directive addresses a target by
its label, which is its name or, without one, the label of its kind.
-/
namespace Scaffold

inductive Target.Kind where
  /-- A value class that implements the model. -/
  | immutable
  /-- A transfer object that stands alone. -/
  | dto
  /-- A mutable entity that implements the model. -/
  | jpaEntity
deriving DecidableEq, Repr, Inhabited

namespace Target.Kind

def label : Kind → String
  | .immutable => "Immutable"
  | .dto => "Dto"
  | .jpaEntity => "JpaEntity"

/-- What class names of the kind begin with unless the target says otherwise. -/
def lead : Kind → String
  | .immutable => "Immutable"
  | .dto | .jpaEntity => ""

/-- What class names of the kind always end with. -/
def ending : Kind → String
  | .immutable => ""
  | .dto => "DTO"
  | .jpaEntity => "Entity"

def implementsModel (k : Kind) : Bool := k ≠ .dto

def isMutable (k : Kind) : Bool := k ≠ .immutable

def annotationNames : Kind → List String
  | .jpaEntity => ["jakarta.persistence.Entity"]
  | .immutable | .dto => []

end Target.Kind

/-- How arrays take part in equals and hashCode. -/
inductive ArrayMode where
  | identity
  | shallow
  | deep
deriving DecidableEq, Repr, Inhabited

namespace ArrayMode

def describe : ArrayMode → String
  | .identity => "identity"
  | .shallow => "shallow content"
  | .deep => "deep content"

/-- How much of an array's content the mode looks at. -/
def rank : ArrayMode → Nat
  | .identity => 0
  | .shallow => 1
  | .deep => 2

end ArrayMode

structure Target where
  kind : Target.Kind
  name : Option String
  lead : Option String
  ending : Option String
  package : Option String
  superclass : Option String
  equals : Bool
  hashCode : Bool
  toText : Bool
  comparable : Bool
  cloneable : Bool
  copy : Bool
  isMutable : Option Bool
  forceNullable : Bool
  defaultOmit : Bool
  equalsArrays : ArrayMode
  hashArrays : ArrayMode
  compareOrder : List String
  compareAll : Bool
  /-- Where the guard of named arguments goes among the constructor's parameters. -/
  guardAt : Option Nat
deriving DecidableEq, Repr, Inhabited

namespace Target

/-- A target of a kind with nothing else said. -/
def ofKind (kind : Kind) : Target where
  kind := kind
  name := none
  lead := none
  ending := none
  package := none
  superclass := none
  equals := true
  hashCode := true
  toText := true
  comparable := true
  cloneable := true
  copy := true
  isMutable := none
  forceNullable := false
  defaultOmit := false
  equalsArrays := .shallow
  hashArrays := .shallow
  compareOrder := []
  compareAll := true
  guardAt := none

def dto (name : String) : Target := { ofKind .dto with name := some name }

def label (t : Target) : String := t.name.getD t.kind.label

end Target

end Scaffold
