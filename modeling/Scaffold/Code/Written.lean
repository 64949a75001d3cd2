import Scaffold.Code
import Scaffold.Metadata.Directive
import Scaffold.Metadata.Target

/-!
The written shape of abstract code. Statements are tagged `stmt` and expressions `expr`; empty
lists, absent options and guards that are off are left out.
-/
namespace Scaffold

namespace Comparison

def toTree : Comparison → Tree
  | .structural => .text "structural"
  | .identity => .text "identity"
  | .shallowContent => .text "shallow_content"
  | .deepContent => .text "deep_content"

end Comparison

namespace BinaryOp

def toTree : BinaryOp → Tree
  | .eq => .text "eq"
  | .notEq => .text "not_eq"
  | .refEq => .text "ref_eq"
  | .or => .text "or"
  | .add => .text "add"
  | .mul => .text "mul"

end BinaryOp

namespace Expr

def tagged (tag : String) (fields : List (String × Tree)) : Tree :=
  .table (("expr", .text tag) :: fields)

mutual

def toTree : Expr → Tree
  | .this => tagged "this" []
  | .null => tagged "null" []
  | .bool value => tagged "bool" [("value", .flag value)]
  | .int value => tagged "int" [("value", .int value.toInt)]
  | .str value => tagged "str" [("value", .text value)]
  | .literal source => tagged "literal" [("source", .text source)]
  | .ident name => tagged "ident" [("name", .text name)]
  | .field receiver name =>
    tagged "field" [("receiver", toTree receiver), ("name", .text name)]
  | .call none method args =>
    tagged "call" [("method", .text method), ("args", .list (toTrees args))]
  | .call (some receiver) method args =>
    tagged "call" [("receiver", toTree receiver), ("method", .text method),
      ("args", .list (toTrees args))]
  | .construct className args =>
    tagged "construct" [("class", .text className), ("args", .list (argTrees args))]
  | .binary left op right =>
    tagged "binary" [("left", toTree left), ("op", op.toTree), ("right", toTree right)]
  | .not operand => tagged "not" [("operand", toTree operand)]
  | .cast value type => tagged "cast" [("value", toTree value), ("type", type.toTree)]
  | .sameClass left right =>
    tagged "same_class" [("left", toTree left), ("right", toTree right)]
  | .equal left right comparison =>
    tagged "equal" [("left", toTree left), ("right", toTree right),
      ("comparison", comparison.toTree)]
  | .hashOf value comparison nullable =>
    tagged "hash_of" [("value", toTree value), ("comparison", comparison.toTree),
      ("nullable", .flag nullable)]
  | .compare left right => tagged "compare" [("left", toTree left), ("right", toTree right)]
  | .concat parts => tagged "concat" [("parts", .list (toTrees parts))]

def toTrees : List Expr → List Tree
  | [] => []
  | e :: rest => toTree e :: toTrees rest

def argTrees : List (String × Expr) → List Tree
  | [] => []
  | (name, e) :: rest => .table [("name", .text name), ("value", toTree e)] :: argTrees rest

end

end Expr

namespace Stmt

def tagged (tag : String) (fields : List (String × Tree)) : Tree :=
  .table (("stmt", .text tag) :: fields)

mutual

def toTree : Stmt → Tree
  | .let name isMutable value =>
    tagged "let" [("name", .text name), ("mutable", .flag isMutable), ("value", value.toTree)]
  | .assign target value => tagged "assign" [("target", target.toTree), ("value", value.toTree)]
  | .cond condition thenBranch none =>
    tagged "if" [("condition", condition.toTree), ("then_branch", .list (toTrees thenBranch))]
  | .cond condition thenBranch (some elseBranch) =>
    tagged "if" [("condition", condition.toTree), ("then_branch", .list (toTrees thenBranch)),
      ("else_branch", .list (toTrees elseBranch))]
  | .ret value => tagged "return" [("value", value.toTree)]
  | .expr e => tagged "expr" [("expr", e.toTree)]
  | .comment text => tagged "comment" [("text", .text text)]

def toTrees : List Stmt → List Tree
  | [] => []
  | s :: rest => toTree s :: toTrees rest

end

end Stmt

namespace Method.Kind

def toTree : Kind → Tree
  | .equals => .text "equals"
  | .hashCode => .text "hash_code"
  | .toText => .text "to_string"
  | .compareTo => .text "compare_to"
  | .clone => .text "clone"
  | .copy => .text "copy"
  | .updateBy => .text "update_by"

end Method.Kind

def Param.toTree (p : Param) : Tree :=
  Tree.tableOf [("name", some (.text p.name)), ("type", some p.type.toTree),
    ("default", p.default.map Expr.toTree)]

def Method.toTree (m : Method) : Tree :=
  .table [("name", .text m.name), ("kind", m.kind.toTree), ("override", .flag m.overrides),
    ("params", Tree.ofList Param.toTree m.params), ("returns", m.returns.toTree),
    ("body", Tree.ofList Stmt.toTree m.body)]

def ConstructorParam.toTree (p : ConstructorParam) : Tree :=
  Tree.tableOf [("name", some (.text p.name)), ("type", some p.type.toTree),
    ("default", p.default.map Expr.toTree),
    ("guard", if p.isGuard then some (.flag true) else none)]

def PropertyDesc.toTree (p : PropertyDesc) : Tree :=
  Tree.tableOf [("name", some (.text p.name)), ("type", some p.type.toTree),
    ("mutable", some (.flag p.isMutable)), ("override", some (.flag p.overrides)),
    ("annotations", Tree.someList Annotation.toTree p.annotations)]

def ClassDesc.toTree (c : ClassDesc) : Tree :=
  Tree.tableOf [("package", some (.text c.package)), ("name", some (.text c.name)),
    ("model", some (.text c.model)), ("target", some (.text c.target)),
    ("kind", some c.kind.toTree),
    ("type_params", Tree.someList .text c.typeParams),
    ("superclass", c.superclass.map .text),
    ("superinterfaces", some (Tree.ofList Ty.toTree c.superinterfaces)),
    ("annotations", Tree.someList Annotation.toTree c.annotations),
    ("constructor", some (Tree.ofList ConstructorParam.toTree c.constructor)),
    ("properties", some (Tree.ofList PropertyDesc.toTree c.properties)),
    ("methods", some (Tree.ofList Method.toTree c.methods)),
    ("notes", Tree.someList .text c.notes)]

end Scaffold
