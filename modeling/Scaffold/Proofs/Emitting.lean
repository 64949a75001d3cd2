import Scaffold.Proofs.Scoping
import Scaffold.Body.Copying
import Scaffold.Proofs.ComparisonOrder
import Scaffold.Proofs.Updating

/-!
What the generated methods read, assign to and return. Each body is made from another view of
the members: all of them, those that have an order, those that the class declares, or those that
a transfer object declares as well. The fields it reads are in that view.
-/
namespace Scaffold

/-- What may be read: a name in scope, a field that is allowed, and all that is neither. -/
@[simp] def Expr.Admitted (fields : Expr → String → Prop) : List String × Expr → Prop
  | (scope, .ident name) => name ∈ scope
  | (_, .field receiver name) => fields receiver name
  | _ => True

namespace Stmt

/-- In a scope, statements read names in scope and allowed fields only, assign to allowed targets
only, and return. -/
structure Sound (fields : Expr → String → Prop) (targets : List String × Expr → Prop)
    (scope : List String) (body : List Stmt) : Prop where
  reads : ∀ part ∈ readsAll scope body, Expr.Admitted fields part
  writes : ∀ target ∈ writesAll scope body, targets target
  returns : Returns body

namespace Sound

variable {fields : Expr → String → Prop} {targets : List String × Expr → Prop}
  {scope : List String} {rest : List Stmt} {value : Expr}

theorem ret (hvalue : ∀ part ∈ value.readIn scope, Expr.Admitted fields part) :
    Sound fields targets scope [.ret value] where
  reads := by simpa [-Prod.forall] using hvalue
  writes := by simp
  returns := .ret

theorem bind {name : String} {isMutable : Bool}
    (hvalue : ∀ part ∈ value.readIn scope, Expr.Admitted fields part)
    (hrest : Sound fields targets (name :: scope) rest) :
    Sound fields targets scope (.let name isMutable value :: rest) where
  reads := List.forall_mem_append.mpr ⟨hvalue, hrest.reads⟩
  writes := hrest.writes
  returns := .later hrest.returns

/-- Sound statements stay sound behind others that bind nothing. -/
theorem append {steps : List Stmt} (hbinds : ∀ s ∈ steps, s.binds = [])
    (hreads : ∀ s ∈ steps, ∀ part ∈ s.reads scope, Expr.Admitted fields part)
    (hwrites : ∀ s ∈ steps, ∀ target ∈ s.writes scope, targets target)
    (hrest : Sound fields targets scope rest) : Sound fields targets scope (steps ++ rest) where
  reads := by
    rw [readsAll_append hbinds, List.forall_mem_append, List.forall_mem_flatMap]
    exact ⟨hreads, hrest.reads⟩
  writes := by
    rw [writesAll_append hbinds, List.forall_mem_append, List.forall_mem_flatMap]
    exact ⟨hwrites, hrest.writes⟩
  returns := hrest.returns.append steps

end Sound

end Stmt

/-- The body of a method is sound where its parameters are in scope; their defaults read allowed
fields only and no names. -/
structure Method.Sound (fields : Expr → String → Prop) (targets : List String × Expr → Prop)
    (m : Method) : Prop where
  defaults : ∀ q ∈ m.params, ∀ e, q.default = some e →
    ∀ part ∈ e.readIn [], Expr.Admitted fields part
  body : Stmt.Sound fields targets (m.params.map Param.name) m.body

namespace Body

open Stmt Scaffold.Expr

/-- The fields of some receivers that are named like members. -/
def OfMembers (members : List Member) (receivers : List Expr) (receiver : Expr) (name : String) :
    Prop :=
  receiver ∈ receivers ∧ name ∈ members.map Member.name

/-- A target that is a name in scope. -/
def IsLocal (target : List String × Expr) : Prop := ∃ name ∈ target.1, target.2 = .ident name

variable {p : Plan} {members : List Member} {m : Member} {scope : List String}

theorem ofMembers_of_mem {receivers : List Expr} {receiver : Expr} (hm : m ∈ members)
    (hreceiver : receiver ∈ receivers) : OfMembers members receivers receiver m.name :=
  ⟨hreceiver, List.mem_map_of_mem hm⟩

section Equality

theorem reads_unequalGuard (hm : m ∈ members) (hthat : that ∈ scope) :
    ∀ part ∈ (unequalGuard p m).reads scope,
      Admitted (OfMembers members [.this, .ident that]) part := by
  have hmine : OfMembers members [.this, .ident that] .this m.name := ofMembers_of_mem hm (by simp)
  have htheirs : OfMembers members [.this, .ident that] (.ident that) m.name :=
    ofMembers_of_mem hm (by simp)
  -- a part stays a pair here, for `Admitted` looks at its second half
  simp [-Prod.forall, unequalGuard, Expr.thisField, retBool, hmine, htheirs, hthat]

theorem sound_equals :
    (equals p members).Sound (OfMembers members [.this, .ident that]) IsLocal := by
  refine ⟨by simp [equals], ?_⟩
  change Stmt.Sound _ _ [other] ([_, _] ++ (_ :: (members.map (unequalGuard p) ++ [retBool true])))
  refine .append (by simp) ?_ (by simp [retBool]) (.bind ?_ (.append ?_ ?_ ?_ (.ret ?_)))
  · simp [-Prod.forall, retBool]
  · simp [-Prod.forall]
  · simp [unequalGuard]
  · exact List.forall_mem_map.mpr fun m hm => reads_unequalGuard hm List.mem_cons_self
  · simp [unequalGuard, retBool]
  · simp

theorem reads_hashStep (hm : m ∈ members) (hresult : result ∈ scope) :
    ∀ part ∈ (hashStep p m).reads scope, Admitted (OfMembers members [.this]) part := by
  have hmine := ofMembers_of_mem hm (List.mem_singleton_self Expr.this)
  simp [-Prod.forall, hashStep, Expr.thisField, hresult, hmine]

theorem sound_hashCode : (hashCode p members).Sound (OfMembers members [.this]) IsLocal := by
  refine ⟨by simp [hashCode], ?_⟩
  simp only [hashCode, hashBody]
  split
  · exact .ret (by simp)
  · refine .bind (by simp) (.append ?_ ?_ ?_ (.ret ?_))
    · simp [hashStep]
    · exact List.forall_mem_map.mpr fun m hm => reads_hashStep hm List.mem_cons_self
    · simp [-Prod.forall, hashStep, IsLocal]
    · simp [-Prod.forall]

theorem parts_textParts {shown : List Member} (hshown : ∀ m ∈ shown, m ∈ members)
    (separator : String) : ∀ e ∈ textParts separator shown, ∀ part ∈ e.readIn scope,
      Admitted (OfMembers members [.this]) part := by
  induction shown generalizing separator with
  | nil => exact List.forall_mem_nil _
  | cons m rest ih =>
    rw [List.forall_mem_cons] at hshown
    have hmine := ofMembers_of_mem hshown.1 (List.mem_singleton_self Expr.this)
    rw [textParts, List.forall_mem_cons, List.forall_mem_cons]
    refine ⟨?_, ?_, ih hshown.2 ", "⟩ <;> simp [-Prod.forall, Expr.thisField, hmine]

theorem sound_toText : (toText p members).Sound (OfMembers members [.this]) IsLocal := by
  refine ⟨by simp [toText], ?_⟩
  change Stmt.Sound _ _ [] [_]
  refine .ret ?_
  have hparts : ∀ e ∈ textParts "" members, ∀ part ∈ e.readIn [],
      Admitted (OfMembers members [.this]) part := parts_textParts (fun _ hm => hm) ""
  simp only [readIn, List.forall_mem_map] at hparts
  simp only [readIn, parts, partsAll_eq, List.forall_mem_map, List.forall_mem_cons,
    List.cons_append, List.flatMap_append, List.flatMap_cons, List.forall_mem_append,
    List.forall_mem_flatMap]
  exact ⟨trivial, trivial, List.forall_mem_nil _, hparts, by simp⟩

end Equality

section Ordering

variable {k : Capabilities}

theorem reads_compareStep {entry : Member × Bool} (hm : entry.1 ∈ members)
    (hresult : hasOrder k entry.1 → result ∈ scope) (hother : other ∈ scope) :
    ∀ s ∈ compareStep k entry, ∀ part ∈ s.reads scope,
      Admitted (OfMembers members [.this, .ident other]) part := by
  obtain ⟨m, descending⟩ := entry
  have hmine : OfMembers members [.this, .ident other] .this m.name :=
    ofMembers_of_mem hm (by simp)
  have htheirs : OfMembers members [.this, .ident other] (.ident other) m.name :=
    ofMembers_of_mem hm (by simp)
  by_cases horder : hasOrder k m
  · cases descending <;>
      simp [-Prod.forall, compareStep, horder, hresult horder, hother, Expr.thisField, hmine,
        htheirs]
  · simp [compareStep, horder]

/-- Comparing the members is sound where the result is bound, which it need not be if none of
them has an order. -/
theorem sound_compareSteps {order : Sequence} (horder : ∀ entry ∈ order, entry.1 ∈ members)
    (hresult : ∀ entry ∈ order, hasOrder k entry.1 → result ∈ scope) (hother : other ∈ scope) :
    Stmt.Sound (OfMembers members [.this, .ident other]) IsLocal scope
      (order.flatMap (compareStep k) ++ [.ret (.int 0)]) := by
  refine .append ?_ ?_ ?_ (.ret (by simp)) <;> rw [List.forall_mem_flatMap] <;> intro entry hentry
  · by_cases h : hasOrder k entry.1 <;> simp [compareStep, h]
  · exact reads_compareStep (horder entry hentry) (hresult entry hentry) hother
  · by_cases h : hasOrder k entry.1
    · simp [-Prod.forall, compareStep, h, IsLocal, hresult entry hentry h]
    · simp [compareStep, h]

theorem sound_compareTo {order : Sequence} (horder : ∀ entry ∈ order, entry.1 ∈ members) :
    (compareTo p k order).Sound (OfMembers members [.this, .ident other]) IsLocal := by
  refine ⟨by simp [compareTo], ?_⟩
  change Stmt.Sound _ _ [other] (compareBody k order)
  rw [compareBody, List.append_assoc]
  split
  · exact .bind (by simp) (sound_compareSteps horder (by simp) (by simp))
  · rename_i hany
    refine sound_compareSteps horder (fun entry hentry h => absurd ?_ hany) (by simp)
    exact List.any_eq_true.mpr ⟨entry, hentry, h⟩

end Ordering

section Copying

/-- What is read to construct an object from the values of its declared members. -/
theorem reads_construct {fields : Expr → String → Prop} {value : String → Expr}
    (hvalue : ∀ m ∈ members, m.declared = true →
      ∀ part ∈ (value m.name).readIn scope, Admitted fields part) :
    ∀ part ∈ (construct p members value).readIn scope, Admitted fields part := by
  simp only [readIn, List.forall_mem_map] at hvalue
  simp only [construct, readIn, parts, partsOfArgs_eq, List.forall_mem_map, List.forall_mem_cons,
    List.forall_mem_flatMap, List.mem_filter]
  exact ⟨trivial, fun m hm => hvalue m hm.1 hm.2⟩

theorem reads_thisField (hm : m ∈ members) :
    ∀ part ∈ (thisField m.name).readIn scope, Admitted (OfMembers members [.this]) part := by
  have hmine := ofMembers_of_mem hm (List.mem_singleton_self Expr.this)
  simp [-Prod.forall, Expr.thisField, hmine]

theorem sound_clone : (clone p members).Sound (OfMembers members [.this]) IsLocal :=
  ⟨by simp [clone], .ret (reads_construct fun _ hm _ => reads_thisField hm)⟩

theorem sound_copy : (copy p members).Sound (OfMembers members [.this]) IsLocal := by
  refine ⟨?_, .ret (reads_construct fun m hm hdeclared => ?_)⟩
  · simp only [copy, copyParam, List.forall_mem_map, List.mem_filter, Option.some.injEq]
    rintro m ⟨hm, -⟩ _ rfl
    exact reads_thisField hm
  · have hparam : m.name ∈ (copy p members).params.map Param.name := by
      simp only [copy, copyParam, List.map_map, List.mem_map, List.mem_filter, Function.comp_apply]
      exact ⟨m, ⟨hm, hdeclared⟩, rfl⟩
    simpa [-Prod.forall] using hparam

end Copying

section Updating

/-- The fields of this object that are named like members, and those of the other one that are
named like members it declares. -/
inductive OfShared (members dtoMembers : List Member) : Expr → String → Prop
  | mine {name : String} (h : name ∈ members.map Member.name) :
    OfShared members dtoMembers .this name
  | theirs {source : Member} (hsource : source ∈ dtoMembers) (hdeclared : source.declared = true) :
    OfShared members dtoMembers (.ident other) source.name

/-- A target that is a field of this object for a declared member. -/
def IsOwn (members : List Member) (target : List String × Expr) : Prop :=
  ∃ m ∈ members, m.declared = true ∧ target.2 = .thisField m.name

theorem reads_updateStep {source : Member} {fields : Expr → String → Prop}
    (hmine : fields .this m.name) (htheirs : fields (.ident other) m.name)
    (hother : other ∈ scope) :
    ∀ part ∈ (updateStep m source).reads scope, Admitted fields part := by
  unfold updateStep Expr.thisField
  simp only []
  split <;> split <;> simp [-Prod.forall, hmine, htheirs, hother]

theorem writes_updateStep {source : Member} :
    ∀ target ∈ (updateStep m source).writes scope, target = (scope, .thisField m.name) := by
  unfold updateStep
  simp only []
  split <;> split <;> simp

theorem sound_updateBy {dto : Plan} {dtoMembers : List Member} :
    (updateBy p members dto dtoMembers).Sound (OfShared members dtoMembers) (IsOwn members) := by
  have hsteps : ∀ s ∈ (members.filter (·.declared)).filterMap
      (fun m => (counterpart? dtoMembers m).map (updateStep m)), ∃ m ∈ members,
      m.declared = true ∧ ∃ source ∈ dtoMembers, source.declared = true ∧ source.name = m.name ∧
        s = updateStep m source := by
    intro s hs
    obtain ⟨m, hm, hstep⟩ := List.mem_filterMap.mp hs
    obtain ⟨source, hsource, rfl⟩ := Option.map_eq_some_iff.mp hstep
    have hshares := List.find?_some hsource
    simp only [Bool.and_eq_true, decide_eq_true_eq] at hshares
    exact ⟨m, List.mem_of_mem_filter hm, (List.mem_filter.mp hm).2, source,
      List.mem_of_find?_eq_some hsource, hshares.1, hshares.2, rfl⟩
  refine ⟨by simp [updateBy], .append ?_ ?_ ?_ (.ret (by simp))⟩ <;> intro s hs <;>
    obtain ⟨m, hm, hdeclared, source, hsource, hsourceDeclared, hname, rfl⟩ := hsteps s hs
  · unfold updateStep
    simp only []
    split <;> split <;> rfl
  · refine reads_updateStep (.mine (List.mem_map_of_mem hm)) ?_ (by simp [updateBy])
    rw [← hname]
    exact .theirs hsource hsourceDeclared
  · intro target htarget
    rw [writes_updateStep target htarget]
    exact ⟨m, hm, hdeclared, rfl⟩

end Updating

end Body
end Scaffold
