import Scaffold.Target
import Scaffold.Tree.Record

/-!
The written shape of targets: a table of all twenty options, of which only the kind has to be
given. What is not said is written as null.
-/
namespace Scaffold

namespace Target.Kind

def written : List (String × Kind) :=
  [("immutable", .immutable), ("dto", .dto), ("jpa_entity", .jpaEntity)]

def toTree : Kind → Tree
  | .immutable => .text "immutable"
  | .dto => .text "dto"
  | .jpaEntity => .text "jpa_entity"

end Target.Kind

namespace ArrayMode

def written : List (String × ArrayMode) :=
  [("identity", .identity), ("shallow", .shallow), ("deep", .deep)]

def toTree : ArrayMode → Tree
  | .identity => .text "identity"
  | .shallow => .text "shallow"
  | .deep => .text "deep"

end ArrayMode

namespace Target

def toTree (t : Target) : Tree :=
  .table [("kind", t.kind.toTree),
    ("name", Tree.ofOption .text t.name),
    ("prefix", Tree.ofOption .text t.lead),
    ("suffix", Tree.ofOption .text t.ending),
    ("package", Tree.ofOption .text t.package),
    ("superclass", Tree.ofOption .text t.superclass),
    ("equals", .flag t.equals),
    ("hash_code", .flag t.hashCode),
    ("to_string", .flag t.toText),
    ("comparable", .flag t.comparable),
    ("cloneable", .flag t.cloneable),
    ("copy", .flag t.copy),
    ("mutable", Tree.ofOption .flag t.isMutable),
    ("force_nullable", .flag t.forceNullable),
    ("default_omit", .flag t.defaultOmit),
    ("equals_arrays", t.equalsArrays.toTree),
    ("hash_arrays", t.hashArrays.toTree),
    ("compare_order", Tree.ofList .text t.compareOrder),
    ("compare_all_properties", .flag t.compareAll),
    ("vararg_guard", Tree.ofOption (fun n : Nat => .int n) t.guardAt)]

def fields : List (Field Target) :=
  let text := Reader.optional Reader.text
  [.must "kind" (Reader.choice Kind.written) fun x t => { t with kind := x },
    .of "name" text fun x t => { t with name := x },
    .of "prefix" text fun x t => { t with lead := x },
    .of "suffix" text fun x t => { t with ending := x },
    .of "package" text fun x t => { t with package := x },
    .of "superclass" text fun x t => { t with superclass := x },
    .of "equals" Reader.flag fun x t => { t with equals := x },
    .of "hash_code" Reader.flag fun x t => { t with hashCode := x },
    .of "to_string" Reader.flag fun x t => { t with toText := x },
    .of "comparable" Reader.flag fun x t => { t with comparable := x },
    .of "cloneable" Reader.flag fun x t => { t with cloneable := x },
    .of "copy" Reader.flag fun x t => { t with copy := x },
    .of "mutable" (Reader.optional Reader.flag) fun x t => { t with isMutable := x },
    .of "force_nullable" Reader.flag fun x t => { t with forceNullable := x },
    .of "default_omit" Reader.flag fun x t => { t with defaultOmit := x },
    .of "equals_arrays" (Reader.choice ArrayMode.written) fun x t => { t with equalsArrays := x },
    .of "hash_arrays" (Reader.choice ArrayMode.written) fun x t => { t with hashArrays := x },
    .of "compare_order" (Reader.list Reader.text) fun x t => { t with compareOrder := x },
    .of "compare_all_properties" Reader.flag fun x t => { t with compareAll := x },
    .of "vararg_guard" (Reader.optional Reader.size) fun x t => { t with guardAt := x }]

def reader : Reader Target := Record.read "TargetSpec" fields (ofKind .immutable)

end Target

end Scaffold
