import Scaffold.Body.Equality

/-!
The body of updateBy, which takes over what a transfer object says about the properties that
both classes declare. Where the types differ under their nullable layers, the value updates
itself. A value that may be null is taken only if it is there, unless null may stand in the
class as well.
-/
namespace Scaffold.Body

def updateName : String := "updateBy"

/-- The step for a member of the class and its counterpart in the transfer object. -/
def updateStep (m source : Member) : Stmt :=
  let target := Expr.thisField m.name
  let value := Expr.field (.ident other) m.name
  let delegates : Bool := m.type.nonNull ≠ source.type.nonNull
  let step : Stmt :=
    if delegates then .expr (.call (some target) updateName [value]) else .assign target value
  if source.type.isNullable && (delegates || !m.type.isNullable) then
    .cond (.binary value .notEq .null) [step] none
  else step

/-- The counterpart of a member, if the transfer object declares one. -/
def counterpart? (dtoMembers : List Member) (m : Member) : Option Member :=
  dtoMembers.find? fun d => d.declared && d.name = m.name

def updateBody (members dtoMembers : List Member) : List Stmt :=
  (members.filter (·.declared)).filterMap
    (fun m => (counterpart? dtoMembers m).map (updateStep m)) ++ [.ret .this]

def updateBy (p : Plan) (members : List Member) (dto : Plan) (dtoMembers : List Member) :
    Method where
  name := updateName
  kind := .updateBy
  overrides := false
  params := [⟨other, dto.type, none⟩]
  returns := p.type
  body := updateBody members dtoMembers

end Scaffold.Body
