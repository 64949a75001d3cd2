import Scaffold.Body.Equality

/-!
The body of compareTo: a cascade of three-way comparisons. First come the keys of the plan,
then, if the plan says so, all other members. A member whose type has no natural order is
skipped, which a comment in the body and a note on the class tell.
-/
namespace Scaffold.Body

/-- The members in the order in which they are compared, each with whether it descends. -/
abbrev Sequence := List (Member × Bool)

/-- The members that the keys name, each at its first key. A key that names no member is a
fault. -/
def keyed (p : Plan) (t : PropertyTable) (members : List Member) :
    List SortKey → Sequence → Except Fault Sequence
  | [], done => .ok done
  | key :: rest, done => do
    let context := "compare order of " ++ p.label
    let _ ← t.require key.property context
    match members.find? (·.name = key.property) with
    | none => throw (.missingProperty p.model key.property context)
    | some m =>
      if done.any (·.1.name = m.name) then keyed p t members rest done
      else keyed p t members rest (done ++ [(m, key.descending)])

/-- Appends the members that no key named. -/
def completed (members : List Member) (done : Sequence) : Sequence :=
  members.foldl
    (fun done m => if done.any (·.1.name = m.name) then done else done ++ [(m, false)]) done

def sequence (p : Plan) (t : PropertyTable) (members : List Member) : Except Fault Sequence := do
  let done ← keyed p t members p.compareOrder []
  pure (if p.compareAll then completed members done else done)

def hasOrder (capabilities : Capabilities) (m : Member) : Bool :=
  capabilities.typeHas m.type .ordering

def skipNote (m : Member) : String :=
  "compareTo skips " ++ m.name ++ ": " ++ m.type.display ++ " has no natural ordering"

/-- Compares one member and leaves if it decides. A descending member is compared with the
sides exchanged. -/
def compareStep (capabilities : Capabilities) (entry : Member × Bool) : List Stmt :=
  let (m, descending) := entry
  if hasOrder capabilities m then
    let mine := Expr.thisField m.name
    let theirs := Expr.field (.ident other) m.name
    [.assign (.ident result) (if descending then .compare theirs mine else .compare mine theirs),
      .cond (.binary (.ident result) .notEq (.int 0)) [.ret (.ident result)] none]
  else [.comment (skipNote m)]

def compareBody (capabilities : Capabilities) (order : Sequence) : List Stmt :=
  (if order.any fun e => hasOrder capabilities e.1 then [.let result true (.int 0)] else []) ++
    order.flatMap (compareStep capabilities) ++ [.ret (.int 0)]

def compareNotes (capabilities : Capabilities) (order : Sequence) : List String :=
  (order.filter fun e => !hasOrder capabilities e.1).map fun e => skipNote e.1

def compareTo (p : Plan) (capabilities : Capabilities) (order : Sequence) : Method where
  name := "compareTo"
  kind := .compareTo
  overrides := true
  params := [⟨other, if p.implementsModel then p.modelType else p.type, none⟩]
  returns := .scalar .int
  body := compareBody capabilities order

end Scaffold.Body
