/-!
Settings of a pass, shared by all models. Maps from type names are kept sorted by name.
-/
namespace Scaffold

/-- A map from names to texts, in increasing order of the names. -/
structure NameMap where
  entries : List (String × String)
deriving DecidableEq, Repr, Inhabited

namespace NameMap

def empty : NameMap := ⟨[]⟩

def insertSorted (key value : String) : List (String × String) → List (String × String)
  | [] => [(key, value)]
  | (k, v) :: rest =>
    if key < k then (key, value) :: (k, v) :: rest
    else if key = k then (key, value) :: rest
    else (k, v) :: insertSorted key value rest

/-- Sets a name; what it held before is lost. -/
def insert (m : NameMap) (key value : String) : NameMap := ⟨insertSorted key value m.entries⟩

def get? (m : NameMap) (key : String) : Option String := m.entries.lookup key

end NameMap

/-- How declarations are projected to TypeScript. -/
structure Settings.TypeScript where
  enabled : Bool
  /-- The file to write, in the output directory. -/
  output : String
  /-- The declarations to start from; all models if there are none. -/
  roots : List String
  /-- Texts that stand for types, by qualified name. -/
  mappings : NameMap
  ignoredSupertypes : List String
  /-- What is joined to a nullable type. -/
  voidMarker : String
  topType : String
  /-- What every definition begins with. -/
  lead : String
  wideIntegers : Bool
deriving DecidableEq, Repr, Inhabited

structure Settings where
  /-- The ending of model names that generated names leave out. -/
  templateSuffix : String
  /-- Default values by qualified type name. -/
  defaults : NameMap
  typescript : Settings.TypeScript
deriving DecidableEq, Repr, Inhabited

namespace Settings

def TypeScript.standard : TypeScript where
  enabled := true
  output := "types.d.ts"
  roots := []
  mappings := .empty
  ignoredSupertypes :=
    ["kotlin.Any", "java.lang.Object", "kotlin.Comparable", "java.lang.Comparable",
      "kotlin.Cloneable", "java.lang.Cloneable", "java.io.Serializable"]
  voidMarker := "undefined"
  topType := "any"
  lead := "export "
  wideIntegers := false

def standard : Settings where
  templateSuffix := "Model"
  defaults := .empty
  typescript := .standard

end Settings

end Scaffold
