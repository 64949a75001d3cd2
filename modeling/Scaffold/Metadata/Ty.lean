import Scaffold.Ty
import Scaffold.Tree.Record

/-!
The written shape of types: a table tagged `kind`, in which empty arguments are left out.
-/
namespace Scaffold

namespace Scalar

/-- The scalars with their written names, in the order in which messages list them. -/
def written : List (String × Scalar) :=
  [("boolean", .boolean), ("char", .char), ("byte", .byte), ("short", .short), ("int", .int),
    ("long", .long), ("float", .float), ("double", .double), ("string", .string)]

def toTree : Scalar → Tree
  | .boolean => .text "boolean"
  | .char => .text "char"
  | .byte => .text "byte"
  | .short => .text "short"
  | .int => .text "int"
  | .long => .text "long"
  | .float => .text "float"
  | .double => .text "double"
  | .string => .text "string"

end Scalar

namespace Ty

mutual

def toTree : Ty → Tree
  | .scalar s => .table [("kind", .text "primitive"), ("name", s.toTree)]
  | .named name [] => .table [("kind", .text "named"), ("name", .text name)]
  | .named name args =>
    .table [("kind", .text "named"), ("name", .text name), ("args", .list (toTrees args))]
  | .array element => .table [("kind", .text "array"), ("element", toTree element)]
  | .nullable inner => .table [("kind", .text "nullable"), ("inner", toTree inner)]
  | .param name => .table [("kind", .text "param"), ("name", .text name)]

def toTrees : List Ty → List Tree
  | [] => []
  | t :: rest => toTree t :: toTrees rest

end

def tagging : Tagging :=
  ⟨"TypeExpr", "kind", ["primitive", "named", "array", "nullable", "param"]⟩

/-- Reads a type whose parts all have a value and which nests no deeper than the levels that
are left; `held` if it stands inside another type. -/
def ofTree (held : Bool) : Reader Ty
  | 0, .list _ | 0, .table _ => .error .malformed
  | levels + 1, t => do
    let (name, body) ← tagging.split held t
    let inner : Reader Ty := fun _ t => ofTree true levels t
    match name with
    | "primitive" =>
      let s ← tagging.fields "Primitive"
        [.must "name" (Reader.heldChoice Scalar.written) fun s _ => s] Scalar.boolean levels body
      pure (.scalar s)
    | "named" =>
      let (name, args) ← tagging.fields "Named"
        [.must "name" Reader.text fun name s => (name, s.2),
          .of "args" (Reader.list inner) fun args s => (s.1, args)] ("", []) levels body
      pure (.named name args)
    | "array" =>
      let element ← tagging.fields "Array" [.must "element" inner fun t _ => t] (.param "") levels
        body
      pure (.array element)
    | "nullable" =>
      let inner ← tagging.fields "Nullable" [.must "inner" inner fun t _ => t] (.param "") levels
        body
      pure (.nullable inner)
    | _ =>
      let name ← tagging.fields "Param" [.must "name" Reader.text fun name _ => name] "" levels
        body
      pure (.param name)
  | 0, t => .error (.unexpected t "internally tagged enum TypeExpr")
termination_by structural levels => levels

/-- Reads a type that stands in a record. -/
def reader : Reader Ty := Tagging.whole (ofTree false)

end Ty

end Scaffold
