import Scaffold.Member

/-!
The bodies of clone and copy. Both construct a new object of the class from its declared
members; copy takes any of their values as a named argument.
-/
namespace Scaffold.Body

def construct (p : Plan) (members : List Member) (value : String → Expr) : Expr :=
  .construct p.qualifiedName
    ((members.filter (·.declared)).map fun m => (m.name, value m.name))

def clone (p : Plan) (members : List Member) : Method where
  name := "clone"
  kind := .clone
  overrides := true
  params := []
  returns := p.type
  body := [.ret (construct p members .thisField)]

def copyParam (m : Member) : Param := ⟨m.name, m.type, some (.thisField m.name)⟩

def copy (p : Plan) (members : List Member) : Method where
  name := "copy"
  kind := .copy
  overrides := false
  params := (members.filter (·.declared)).map copyParam
  returns := p.type
  body := [.ret (construct p members .ident)]

end Scaffold.Body
