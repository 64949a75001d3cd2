import Scaffold.Catalog

/-!
Capabilities: what values of a type can do. Some well-known names carry them from the start;
a declared type carries its own and those it inherits along its supertypes.
-/
namespace Scaffold

inductive Capability where
  /-- There is a natural order. -/
  | ordering
  | cloning
  /-- A collection of elements. -/
  | collection
  /-- A map from keys to values. -/
  | mapping
  /-- The type above all types. -/
  | top
  | enum
deriving DecidableEq, Repr, Inhabited

namespace Capability

def all : List Capability := [.ordering, .cloning, .collection, .mapping, .top, .enum]

/-- Whether subtypes share the capability. The other two tell what a type itself is. -/
def isInherited : Capability → Bool
  | .top | .enum => false
  | _ => true

def name : Capability → String
  | .ordering => "ordering"
  | .cloning => "cloning"
  | .collection => "collection"
  | .mapping => "mapping"
  | .top => "top"
  | .enum => "enum"

/-- The well-known names that carry a capability. -/
def carriers : Capability → List String
  | .ordering =>
    ["kotlin.Comparable", "java.lang.Comparable", "kotlin.Boolean", "kotlin.Char", "kotlin.Byte",
      "kotlin.Short", "kotlin.Int", "kotlin.Long", "kotlin.Float", "kotlin.Double",
      "kotlin.String", "java.math.BigDecimal", "java.math.BigInteger", "java.time.Instant",
      "java.time.LocalDate", "java.time.LocalDateTime", "java.time.Duration", "java.util.UUID"]
  | .cloning => ["kotlin.Cloneable", "java.lang.Cloneable"]
  | .collection =>
    ["kotlin.collections.Iterable", "kotlin.collections.Collection", "kotlin.collections.List",
      "kotlin.collections.MutableList", "kotlin.collections.Set", "kotlin.collections.MutableSet",
      "kotlin.collections.MutableCollection", "java.util.Collection", "java.util.List",
      "java.util.Set"]
  | .mapping => ["kotlin.collections.Map", "kotlin.collections.MutableMap", "java.util.Map"]
  | .top => ["kotlin.Any", "java.lang.Object"]
  | .enum => []

/-- What a name carries from the start. -/
def wellKnown (name : String) : List Capability :=
  all.filter fun c => name ∈ c.carriers

/-- What a declaration carries without its supertypes. -/
def own (d : Decl) : List Capability :=
  wellKnown d.name ++ if d.kind = .enum then [.enum, .ordering] else []

def union (a b : List Capability) : List Capability := a ++ b.filter (· ∉ a)

end Capability

/-- The capabilities of the declared types, by name. -/
structure Capabilities where
  derived : List (String × List Capability)
deriving Repr, Inhabited

namespace Capabilities

/-- What a derivation has found so far. -/
abbrev Found := List (String × List Capability)

/-- The capabilities of a name, and what is known after they were found. A name on `path` is
still being derived and counts with what it carries from the start. -/
def derive (c : Catalog) : Nat → List String → Found → String → List Capability × Found
  | 0, _, found, name => (Capability.wellKnown name, found)
  | n + 1, path, found, name =>
    match found.lookup name with
    | some capabilities => (capabilities, found)
    | none =>
      match c.get? name with
      | none => (Capability.wellKnown name, found)
      | some d =>
        if name ∈ path then (Capability.wellKnown name, found)
        else
          let (capabilities, found) :=
            (d.supertypes.filterMap Ty.head?).foldl
              (fun state parent =>
                let (inherited, found) := derive c n (name :: path) state.2 parent
                (Capability.union state.1 (inherited.filter Capability.isInherited), found))
              (Capability.own d, found)
          (capabilities, (name, capabilities) :: found)

def ofCatalog (c : Catalog) : Capabilities :=
  ⟨c.decls.foldl (fun found d => (derive c (c.size + 1) [] found d.name).2) []⟩

/-- The capabilities of a name, declared or not. -/
def of (k : Capabilities) (name : String) : List Capability :=
  (k.derived.lookup name).getD (Capability.wellKnown name)

def has (k : Capabilities) (name : String) (c : Capability) : Bool := c ∈ k.of name

/-- Whether values of a type have a capability. Nullable layers do not matter; arrays and type
variables can do nothing. -/
def typeHas (k : Capabilities) (type : Ty) (c : Capability) : Bool :=
  match type.nonNull with
  | .scalar _ => c = .ordering
  | .named name _ => k.has name c
  | _ => false

end Capabilities

end Scaffold
