import Scaffold.Directive
import Scaffold.Target

/-!
Declarations: the types a host program makes known. A declaration with at least one target is
a model.
-/
namespace Scaffold

inductive Decl.Kind where
  | interface
  | classType
  | enum
  | object
deriving DecidableEq, Repr, Inhabited

/-- Where a declaration stands. -/
inductive Nesting where
  | topLevel
  | member (enclosing : String)
  | local
  | anonymous
deriving DecidableEq, Repr, Inhabited

namespace Nesting

def describe : Nesting → String
  | .topLevel => "top-level declaration"
  | .member _ => "member declaration"
  | .local => "local declaration"
  | .anonymous => "anonymous declaration"

end Nesting

structure Property where
  name : String
  type : Ty
  isMutable : Bool
  directives : List Directive
deriving DecidableEq, Repr, Inhabited

namespace Property

def plain (name : String) (type : Ty) : Property := ⟨name, type, false, []⟩

def withDirective (p : Property) (d : Directive) : Property :=
  { p with directives := p.directives ++ [d] }

end Property

structure Decl where
  /-- The qualified name, by which a declaration is known. -/
  name : String
  kind : Decl.Kind
  nesting : Nesting
  typeParams : List String
  supertypes : List Ty
  properties : List Property
  targets : List Target
  annotations : List Directive
  enumEntries : List String
  hasNoArgConstructor : Bool
deriving DecidableEq, Repr, Inhabited

namespace Decl

/-- A declaration with nothing but a name and a kind. -/
def plain (name : String) (kind : Kind) : Decl where
  name := name
  kind := kind
  nesting := .topLevel
  typeParams := []
  supertypes := []
  properties := []
  targets := []
  annotations := []
  enumEntries := []
  hasNoArgConstructor := false

def simpleName (d : Decl) : String := Dotted.simple d.name

def isModel (d : Decl) : Bool := !d.targets.isEmpty

def property? (d : Decl) (name : String) : Option Property :=
  d.properties.find? (·.name = name)

end Decl

end Scaffold
