import Scaffold.Directive
import Scaffold.Metadata.Ty

/-!
The written shape of directives and annotations. A directive is a table tagged `kind`; a
target that is not named is written as null.
-/
namespace Scaffold

namespace Annotation

def toTree (a : Annotation) : Tree :=
  Tree.tableOf [("name", some (.text a.name)), ("args", Tree.someList .text a.args)]

end Annotation

namespace Directive

def toTree : Directive → Tree
  | .omit target => .table [("kind", .text "omit"), ("target", Tree.ofOption .text target)]
  | .include target => .table [("kind", .text "include"), ("target", Tree.ofOption .text target)]
  | .init expr target =>
    .table [("kind", .text "init"), ("expr", .text expr), ("target", Tree.ofOption .text target)]
  | .noInit target => .table [("kind", .text "no_init"), ("target", Tree.ofOption .text target)]
  | .preventOverride target =>
    .table [("kind", .text "prevent_override"), ("target", Tree.ofOption .text target)]
  | .annotate target name args =>
    .table [("kind", .text "annotate"), ("target", .text target),
      ("annotation", .text name), ("args", Tree.ofList .text args)]
  | .narrow target type =>
    .table [("kind", .text "narrow"), ("target", .text target), ("type", type.toTree)]

def tagging : Tagging :=
  ⟨"Directive", "kind",
    ["omit", "include", "init", "no_init", "prevent_override", "annotate", "narrow"]⟩

/-- The field by which most directives name their target. -/
def targetField : Field (Option String) :=
  .of "target" (Reader.optional Reader.text) fun target _ => target

def ofTree : Reader Directive
  | 0, .list _ | 0, .table _ => .error .malformed
  | levels + 1, t => do
    let (name, body) ← tagging.split false t
    match name with
    | "omit" => return .omit (← tagging.fields "Omit" [targetField] none levels body)
    | "include" => return .include (← tagging.fields "Include" [targetField] none levels body)
    | "init" =>
      let (expr, target) ← tagging.fields "Init"
        [.must "expr" Reader.text fun expr s => (expr, s.2),
          .of "target" (Reader.optional Reader.text) fun target s => (s.1, target)]
        ("", none) levels body
      return .init expr target
    | "no_init" => return .noInit (← tagging.fields "NoInit" [targetField] none levels body)
    | "prevent_override" =>
      return .preventOverride (← tagging.fields "PreventOverride" [targetField] none levels body)
    | "annotate" =>
      let (target, name, args) ← tagging.fields "Annotate"
        [.must "target" Reader.text fun target s => (target, s.2),
          .must "annotation" Reader.text fun name s => (s.1, name, s.2.2),
          .of "args" (Reader.list Reader.text) fun args s => (s.1, s.2.1, args)]
        ("", "", []) levels body
      return .annotate target name args
    | _ =>
      let (target, type) ← tagging.fields "Narrow"
        [.must "target" Reader.text fun target s => (target, s.2),
          .must "type" (fun _ t => Ty.ofTree true levels t) fun type s => (s.1, type)]
        ("", .param "") levels body
      return .narrow target type
  | 0, t => .error (.unexpected t "internally tagged enum Directive")

def reader : Reader Directive := Tagging.whole ofTree

end Directive

end Scaffold
