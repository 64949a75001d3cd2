import Scaffold.Decl
import Scaffold.Metadata.Directive
import Scaffold.Metadata.Target

/-!
The written shape of declarations and their properties. Only names, and the types of
properties, have to be given.
-/
namespace Scaffold

namespace Decl.Kind

def written : List (String × Kind) :=
  [("interface", .interface), ("class", .classType), ("enum", .enum), ("object", .object)]

def toTree : Kind → Tree
  | .interface => .text "interface"
  | .classType => .text "class"
  | .enum => .text "enum"
  | .object => .text "object"

end Decl.Kind

namespace Nesting

def toTree : Nesting → Tree
  | .topLevel => .table [("shape", .text "top_level")]
  | .member enclosing => .table [("shape", .text "member"), ("enclosing", .text enclosing)]
  | .local => .table [("shape", .text "local")]
  | .anonymous => .table [("shape", .text "anonymous")]

def tagging : Tagging := ⟨"Nesting", "shape", ["top_level", "member", "local", "anonymous"]⟩

def ofTree : Reader Nesting
  | 0, .list _ | 0, .table _ => .error .malformed
  | levels, t => do
    let (name, body) ← tagging.split false t
    match name with
    | "member" =>
      let enclosing ← tagging.fields "Member" [.must "enclosing" Reader.text fun e _ => e] ""
        (levels - 1) body
      return .member enclosing
    | "top_level" => do
      Tagging.bare body
      return .topLevel
    | "local" => do
      Tagging.bare body
      return .local
    | _ => do
      Tagging.bare body
      return .anonymous

def reader : Reader Nesting := Tagging.whole ofTree

end Nesting

namespace Property

def toTree (p : Property) : Tree :=
  .table [("name", .text p.name), ("type", p.type.toTree), ("mutable", .flag p.isMutable),
    ("directives", Tree.ofList Directive.toTree p.directives)]

def fields : List (Field Property) :=
  [.must "name" Reader.text fun x p => { p with name := x },
    .must "type" Ty.reader fun x p => { p with type := x },
    .of "mutable" Reader.flag fun x p => { p with isMutable := x },
    .of "directives" (Reader.list Directive.reader) fun x p => { p with directives := x }]

def reader : Reader Property := Record.read "PropertyDecl" fields (plain "" (.param ""))

end Property

namespace Decl

def toTree (d : Decl) : Tree :=
  .table [("name", .text d.name), ("kind", d.kind.toTree), ("nesting", d.nesting.toTree),
    ("type_params", Tree.ofList .text d.typeParams),
    ("supertypes", Tree.ofList Ty.toTree d.supertypes),
    ("properties", Tree.ofList Property.toTree d.properties),
    ("targets", Tree.ofList Target.toTree d.targets),
    ("annotations", Tree.ofList Directive.toTree d.annotations),
    ("enum_entries", Tree.ofList .text d.enumEntries),
    ("has_no_arg_constructor", .flag d.hasNoArgConstructor)]

def fields : List (Field Decl) :=
  [.must "name" Reader.text fun x d => { d with name := x },
    .of "kind" (Reader.choice Kind.written) fun x d => { d with kind := x },
    .of "nesting" Nesting.reader fun x d => { d with nesting := x },
    .of "type_params" (Reader.list Reader.text) fun x d => { d with typeParams := x },
    .of "supertypes" (Reader.list Ty.reader) fun x d => { d with supertypes := x },
    .of "properties" (Reader.list Property.reader) fun x d => { d with properties := x },
    .of "targets" (Reader.list Target.reader) fun x d => { d with targets := x },
    .of "annotations" (Reader.list Directive.reader) fun x d => { d with annotations := x },
    .of "enum_entries" (Reader.list Reader.text) fun x d => { d with enumEntries := x },
    .of "has_no_arg_constructor" Reader.flag fun x d => { d with hasNoArgConstructor := x }]

def reader : Reader Decl := Record.read "TypeDecl" fields (plain "" .interface)

end Decl

end Scaffold
