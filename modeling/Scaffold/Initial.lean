import Scaffold.Settings
import Scaffold.Catalog
import Scaffold.Code

/-!
Initial values of constructor parameters, by type: null for nullable types, then what the
settings say, then what is built in, then the constructor without arguments.
-/
namespace Scaffold.Initial

def ofScalar : Scalar → String
  | .boolean => "false"
  | .char => "'\\u0000'"
  | .byte | .short | .int => "0"
  | .long => "0L"
  | .float => "0f"
  | .double => "0.0"
  | .string => "\"\""

/-- Library containers and the calls that make empty ones. -/
def containers : List (String × String) :=
  [("kotlin.collections.Iterable", "listOf()"),
    ("kotlin.collections.Collection", "listOf()"),
    ("kotlin.collections.List", "listOf()"),
    ("kotlin.collections.MutableCollection", "mutableListOf()"),
    ("kotlin.collections.MutableList", "mutableListOf()"),
    ("kotlin.collections.Set", "setOf()"),
    ("kotlin.collections.MutableSet", "mutableSetOf()"),
    ("kotlin.collections.Map", "mapOf()"),
    ("kotlin.collections.MutableMap", "mutableMapOf()"),
    ("java.util.List", "mutableListOf()"),
    ("java.util.Set", "mutableSetOf()"),
    ("java.util.Map", "mutableMapOf()")]

/-- The value that is built in for a type. -/
def builtIn? (c : Catalog) : Ty → Option Expr
  | .scalar s => some (.literal (ofScalar s))
  | .array _ => some (.literal "emptyArray()")
  | .named name _ =>
    match containers.lookup name with
    | some source => some (.literal source)
    | none =>
      match c.get? name with
      | some d => if d.hasNoArgConstructor then some (.construct d.name []) else none
      | none => none
  | .param _ | .nullable _ => none

def ofType? (defaults : NameMap) (c : Catalog) (type : Ty) : Option Expr :=
  if type.isNullable then some .null
  else
    match type.head?.bind defaults.get? with
    | some source => some (.literal source)
    | none => builtIn? c type

end Scaffold.Initial
