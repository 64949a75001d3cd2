import Scaffold.Capability

/-!
The arguments of the library container that a type is or extends. A declared container passes
its own arguments on to the supertype through which it is one.
-/
namespace Scaffold.Projection

/-- What the type parameters of a declaration stand for. Of two parameters of one name the
last counts. -/
def bindings (params : List String) (args : List Ty) (name : String) : Option Ty :=
  (params.zip args).reverse.lookup name

/-- The first supertype that carries the capability. -/
def carrier? (k : Capabilities) (capability : Capability) (d : Decl) : Option Ty :=
  d.supertypes.find? fun t => t.head?.any fun parent => k.has parent capability

/-- Follows the carriers upward from a named type; `seen` are the declarations passed. -/
def carriedFrom (c : Catalog) (k : Capabilities) (capability : Capability) :
    Nat → List String → String → List Ty → List Ty
  | 0, _, _, args => args
  | n + 1, seen, name, args =>
    match c.get? name with
    | none => args
    | some d =>
      if name ∈ seen then args
      else
        match (carrier? k capability d).map (Ty.subst (bindings d.typeParams args)) with
        | some (.named parent parentArgs) =>
          carriedFrom c k capability n (name :: seen) parent parentArgs
        | _ => args

def carriedArgs (c : Catalog) (k : Capabilities) (capability : Capability) (name : String)
    (args : List Ty) : List Ty :=
  carriedFrom c k capability (c.size + 1) [] name args

end Scaffold.Projection
