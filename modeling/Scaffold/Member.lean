import Scaffold.Inheritance
import Scaffold.Plan

/-!
Members: the properties of a model as one generated class has them. Properties left out for
the target are gone. A final property is only inherited, so a class that does not implement the
model has none.
-/
namespace Scaffold

structure Member where
  property : Effective
  /-- The type in the class, narrowed and made nullable as the target asks. -/
  type : Ty
  /-- The class declares the property itself. -/
  declared : Bool
deriving DecidableEq, Repr, Inhabited

namespace Member

def name (m : Member) : String := m.property.name

/-- The member a property becomes, if it becomes one. -/
def ofProperty? (p : Plan) (e : Effective) : Option Member :=
  let declared := !e.directives.isFinal p.label
  if e.directives.isOmitted p.label p.defaultOmit then none
  else if !declared && !p.implementsModel then none
  else
    let type := (e.directives.narrowed p.label).getD e.type
    some ⟨e, if p.forceNullable then type.orNull else type, declared⟩

def collect (p : Plan) (t : PropertyTable) : List Member :=
  t.entries.filterMap (ofProperty? p)

end Member

end Scaffold
