import Scaffold.Proofs.Updating

/-!
What updateBy does where the types of a property differ under their nullable layers. There the
value in the class updates itself from the value of the transfer object. A null of the transfer
object is passed over before that, but nothing looks at the value in the class. So a run comes
to its end if the class has an object wherever the transfer object has a value, and gets stuck
at the first member where it has none.
-/
namespace Scaffold

/-- The types differ under their nullable layers. -/
def Member.Delegates (m source : Member) : Prop := m.type.nonNull ≠ source.type.nonNull

instance (m source : Member) : Decidable (m.Delegates source) :=
  inferInstanceAs (Decidable (_ ≠ _))

namespace Eval

open Body

/-- The transfer object has a value for a member that has to update itself, but what the class
has there is no object. -/
def Stranded (s : Store) (e d : Value) (m source : Member) : Prop :=
  m.Delegates source ∧ s.valueOf d m ≠ .null ∧ s.className? (s.valueOf e m) = none

instance (s : Store) (e d : Value) (m source : Member) : Decidable (Stranded s e d m source) :=
  inferInstanceAs (Decidable (_ ∧ _ ∧ _))

/-- All that later steps read is as it was. -/
structure Undisturbed (s s' : Store) (e d : Value) (members dtoMembers : List Member) : Prop where
  className : s'.className? e = s.className? e
  delegated : ∀ m ∈ members, ∀ source ∈ dtoMembers, m.Shares source → m.Delegates source →
    s'.field? e m.name = s.field? e m.name ∧
      s'.className? (s.valueOf e m) = s.className? (s.valueOf e m)
  transfer : ∀ x, s'.field? d x = s.field? d x

namespace Undisturbed

variable {s s' s₁ : Store} {e d : Value} {members dtoMembers : List Member}

theorem refl (s : Store) (e d : Value) (members dtoMembers : List Member) :
    Undisturbed s s e d members dtoMembers where
  className := rfl
  delegated _ _ _ _ _ _ := ⟨rfl, rfl⟩
  transfer _ := rfl

theorem valueOf_eq (h : Undisturbed s s' e d members dtoMembers) {m source : Member}
    (hm : m ∈ members) (hsource : source ∈ dtoMembers) (hshares : m.Shares source)
    (hdelegates : m.Delegates source) : s'.valueOf e m = s.valueOf e m := by
  have hfield := (h.delegated m hm source hsource hshares hdelegates).1
  unfold Store.valueOf
  rw [hfield]

theorem transfer_eq (h : Undisturbed s s' e d members dtoMembers) (m : Member) :
    s'.valueOf d m = s.valueOf d m := by
  unfold Store.valueOf
  rw [h.transfer]

theorem stranded_iff (h : Undisturbed s s' e d members dtoMembers) {m source : Member}
    (hm : m ∈ members) (hsource : source ∈ dtoMembers) (hshares : m.Shares source) :
    Stranded s' e d m source ↔ Stranded s e d m source := by
  unfold Stranded
  refine and_congr_right fun hdelegates => ?_
  rw [h.transfer_eq, h.valueOf_eq hm hsource hshares hdelegates,
    (h.delegated m hm source hsource hshares hdelegates).2]

theorem trans (h : Undisturbed s s₁ e d members dtoMembers)
    (h' : Undisturbed s₁ s' e d members dtoMembers) :
    Undisturbed s s' e d members dtoMembers where
  className := h'.className.trans h.className
  delegated := by
    intro m hm source hsource hshares hdelegates
    have hvalue := h.valueOf_eq hm hsource hshares hdelegates
    obtain ⟨hfield, hclass⟩ := h.delegated m hm source hsource hshares hdelegates
    obtain ⟨hfield', hclass'⟩ := h'.delegated m hm source hsource hshares hdelegates
    rw [hvalue] at hclass'
    exact ⟨hfield'.trans hfield, hclass'.trans hclass⟩
  transfer x := (h'.transfer x).trans (h.transfer x)

end Undisturbed

theorem Store.className?_assign (s : Store) (r : Ref) (name : String) (new v : Value) :
    (s.assign r name new).className? v = s.className? v := by
  cases v with
  | null | bool | int | str => rfl
  | ref r' =>
    by_cases hr : r' = r
    · rw [hr, Store.className?_assign_self]
    · simp only [Store.className?, Store.cell?_assign_of_ne hr]

/-- Assigning to a member that is not delegated leaves the delegated ones alone, for no two
members have one name. -/
theorem Undisturbed.of_assign {s : Store} {r : Ref} {d : Value} {className : String}
    {members dtoMembers : List Member} (hne : d ≠ .ref r)
    (hnodup : (members.map Member.name).Nodup) (hdto : (dtoMembers.map Member.name).Nodup)
    (hclass : s.className? (.ref r) = some className) {m source : Member} (hm : m ∈ members)
    (hsource : source ∈ dtoMembers) (hshares : m.Shares source)
    (hdirect : ¬ m.Delegates source) (v : Value) :
    Undisturbed s (s.assign r m.name v) (.ref r) d members dtoMembers where
  className := s.className?_assign r m.name v _
  delegated := by
    intro m' hm' source' hsource' hshares' hdelegates
    refine ⟨?_, s.className?_assign r m.name v _⟩
    rw [Store.field?_assign_self hclass, if_neg]
    intro hname
    obtain rfl : m' = m := List.inj_on_of_nodup_map hnodup hm' hm hname
    obtain rfl : source' = source := List.inj_on_of_nodup_map hdto hsource' hsource
      (hshares'.2.2.trans hshares.2.2.symm)
    exact hdirect hdelegates
  transfer x := Store.field?_assignAll_of_ne hne [(m.name, v)] x

/-- In each of these stores the classes held in delegated members have an updateBy that
completes, and what later steps of the run read is as it was. The stores are those that the
steps of the run lead to. -/
structure Completing (program : Program) (depth : Nat) (among : Store → Prop) (r : Ref)
    (d : Value) (members dtoMembers : List Member) : Prop where
  assign : ∀ s, among s → ∀ m ∈ members, ∀ source ∈ dtoMembers, m.Shares source →
    ¬ m.Delegates source → among (s.assign r m.name (s.valueOf d m))
  update : ∀ s, among s → ∀ m ∈ members, ∀ source ∈ dtoMembers, m.Shares source →
    m.Delegates source → (s.className? (s.valueOf (.ref r) m)).isSome = true →
    s.valueOf d m ≠ .null →
    ∃ v s', program.invoke depth (s.valueOf (.ref r) m) updateName [s.valueOf d m] s =
        (.ok v, s') ∧
      among s' ∧ Undisturbed s s' (.ref r) d members dtoMembers

section Run

variable {program : Program} {depth : Nat} {among : Store → Prop} {f : Frame} {s s₀ : Store}
  {r : Ref} {d : Value} {className : String} {members dtoMembers : List Member}

/-- A delegated step passes over a null that the transfer object admits, and calls the value in
the class otherwise, whatever that is. -/
theorem exec_delegatedStep {k : Machine} {m source : Member}
    (hother : f.locals.lookup other = some d) (hvalue : s.field? d m.name = some (s.valueOf d m))
    (hadmits : s.valueOf d m = .null → source.type.isNullable = true)
    (hdelegates : m.Delegates source) :
    exec k f (updateStep m source) s =
      if s.valueOf d m = .null then (.ok (none, f), s)
      else exec k f
        (.expr (.call (some (.thisField m.name)) updateName [.field (.ident other) m.name])) s := by
  have hread : eval k f (.field (.ident other) m.name) s = (.ok (s.valueOf d m), s) :=
    eval_field (eval_ident hother) hvalue
  have hdecide : decide (m.type.nonNull ≠ source.type.nonNull) = true :=
    decide_eq_true hdelegates
  simp only [updateStep, hdecide, Bool.true_or, Bool.and_true, if_true]
  by_cases hnullable : source.type.isNullable = true
  · rw [if_pos hnullable, exec_cond _ (eval_notNull hread)]
    by_cases hnull : s.valueOf d m = .null
    · rw [if_pos hnull, if_neg (by simpa using hnull)]
    · rw [if_neg hnull, if_pos (by simpa using hnull), execAll_single]
  · rw [if_neg hnullable, if_neg (fun hnull => hnullable (hadmits hnull))]

/-- A delegated step gets stuck at a stranded member. At any other it completes, for a null of
the transfer object is passed over and an object has an updateBy that completes. -/
theorem exec_delegatedStep_of_completing (hthis : f.this = .ref r)
    (hother : f.locals.lookup other = some d)
    (hcompleting : Completing program (depth + 1) among r d members dtoMembers) (hamong : among s)
    {m source : Member} (hm : m ∈ members) (hsource : source ∈ dtoMembers)
    (hshares : m.Shares source) (hdelegates : m.Delegates source)
    (hmine : s.field? (.ref r) m.name = some (s.valueOf (.ref r) m))
    (hvalue : s.field? d m.name = some (s.valueOf d m))
    (hadmits : s.valueOf d m = .null → source.type.isNullable = true) :
    if Stranded s (.ref r) d m source then
      exec (program.machine (depth + 1)) f (updateStep m source) s = (.error .notObject, s)
    else ∃ s', exec (program.machine (depth + 1)) f (updateStep m source) s =
        (.ok (none, f), s') ∧
      among s' ∧ Undisturbed s s' (.ref r) d members dtoMembers := by
  rw [exec_delegatedStep hother hvalue hadmits hdelegates]
  by_cases hnull : s.valueOf d m = .null
  · have hstranded : ¬ Stranded s (.ref r) d m source := fun h => h.2.1 hnull
    rw [if_neg hstranded, if_pos hnull]
    exact ⟨s, rfl, hamong, Undisturbed.refl s _ d _ _⟩
  · have hread : eval (program.machine (depth + 1)) f (.thisField m.name) s =
        (.ok (s.valueOf (.ref r) m), s) := by
      apply eval_thisField
      rw [hthis, hmine]
    have hcall := eval_callOn (m := program.machine (depth + 1)) updateName hread
      (eval_field (eval_ident hother) hvalue)
    rw [if_neg hnull]
    cases hobject : s.className? (s.valueOf (.ref r) m) with
    | none =>
      rw [if_pos ⟨hdelegates, hnull, hobject⟩]
      exact exec_expr_of_stuck (hcall.trans (invoke_of_not_object depth updateName _ hobject))
    | some c =>
      have hstranded : ¬ Stranded s (.ref r) d m source := by
        rintro ⟨-, -, hnone⟩
        simp [hobject] at hnone
      have hisObject : (s.className? (s.valueOf (.ref r) m)).isSome = true := by
        rw [hobject]
        rfl
      obtain ⟨v, s', hinvoke, hamong', hkept⟩ :=
        hcompleting.update s hamong m hm source hsource hshares hdelegates hisObject hnull
      rw [if_neg hstranded]
      exact ⟨s', exec_expr (hcall.trans hinvoke), hamong', hkept⟩

section Steps

variable (hthis : f.this = .ref r) (hother : f.locals.lookup other = some d) (hne : d ≠ .ref r)
  (hnodup : (members.map Member.name).Nodup) (hdto : (dtoMembers.map Member.name).Nodup)
  (hclass : s₀.className? (.ref r) = some className)
  (hfields : ∀ m ∈ members, m.declared = true → ∃ x, s₀.field? (.ref r) m.name = some x)
  (hvalues : ∀ m ∈ dtoMembers, m.declared = true → ∃ v, s₀.field? d m.name = some v)
  (hadmits : ∀ m ∈ dtoMembers, m.declared = true → s₀.field? d m.name = some .null →
    m.type.isNullable = true)
  (hcompleting : Completing program (depth + 1) among r d members dtoMembers)

include hthis hother hne hnodup hdto hclass hfields hvalues hadmits hcompleting

/-- A step gets stuck at a stranded member. At any other it completes, and the run is again
where it can be relied on. -/
theorem exec_updateStep_of_completing (hamong : among s)
    (hkept : Undisturbed s₀ s (.ref r) d members dtoMembers) {m source : Member}
    (hm : m ∈ members) (hsource : source ∈ dtoMembers) (hshares : m.Shares source) :
    if Stranded s₀ (.ref r) d m source then
      exec (program.machine (depth + 1)) f (updateStep m source) s = (.error .notObject, s)
    else ∃ s', exec (program.machine (depth + 1)) f (updateStep m source) s =
        (.ok (none, f), s') ∧
      among s' ∧ Undisturbed s₀ s' (.ref r) d members dtoMembers := by
  have hvalue₀ : s₀.field? d m.name = some (s₀.valueOf d m) := by
    obtain ⟨v, hv⟩ := hvalues source hsource hshares.2.1
    rw [hshares.2.2] at hv
    exact Store.field?_eq_valueOf hv
  have hsame : s.valueOf d m = s₀.valueOf d m := hkept.transfer_eq m
  have hvalue : s.field? d m.name = some (s.valueOf d m) := by
    rw [hkept.transfer, hvalue₀, hsame]
  rw [← if_congr (hkept.stranded_iff hm hsource hshares) rfl rfl]
  by_cases hdelegates : m.Delegates source
  · obtain ⟨x, hx⟩ := hfields m hm hshares.1
    have hmine : s.field? (.ref r) m.name = some (s.valueOf (.ref r) m) := by
      rw [(hkept.delegated m hm source hsource hshares hdelegates).1,
        hkept.valueOf_eq hm hsource hshares hdelegates]
      exact Store.field?_eq_valueOf hx
    have hadmitted : s.valueOf d m = .null → source.type.isNullable = true := by
      intro hnull
      apply hadmits source hsource hshares.2.1
      rw [hshares.2.2, hvalue₀, ← hsame, hnull]
    have hstep := exec_delegatedStep_of_completing hthis hother hcompleting hamong hm hsource
      hshares hdelegates hmine hvalue hadmitted
    by_cases hstranded : Stranded s (.ref r) d m source
    · rwa [if_pos hstranded] at hstep ⊢
    · rw [if_neg hstranded] at hstep ⊢
      obtain ⟨s', hexec, hamong', hkept'⟩ := hstep
      exact ⟨s', hexec, hamong', hkept.trans hkept'⟩
  · have hstranded : ¬ Stranded s (.ref r) d m source := fun h => hdelegates h.1
    have htype : m.type.nonNull = source.type.nonNull := not_not.mp hdelegates
    have hclass' : s.className? (.ref r) = some className := hkept.className.trans hclass
    rw [if_neg hstranded]
    refine ⟨_, exec_updateStep hthis hother hclass' (hsame ▸ hvalue) hvalue₀ htype, ?_⟩
    by_cases hpassed : PassedOver s₀ d m source
    · rw [if_pos hpassed]
      exact ⟨hamong, hkept⟩
    · rw [if_neg hpassed, ← hsame]
      exact ⟨hcompleting.assign s hamong m hm source hsource hshares hdelegates,
        hkept.trans (.of_assign hne hnodup hdto hclass' hm hsource hshares hdelegates _)⟩

/-- The steps follow one another until one of them is stuck. -/
theorem execAll_updateSteps_of_completing (hamong : among s)
    (hkept : Undisturbed s₀ s (.ref r) d members dtoMembers) {todo : List Member}
    (htodo : ∀ m ∈ todo, m ∈ members ∧ m.declared = true) (rest : List Stmt) :
    if ∃ m ∈ todo, ∃ source ∈ dtoMembers, m.Shares source ∧ Stranded s₀ (.ref r) d m source then
      ∃ s', execAll (program.machine (depth + 1)) f
        (todo.filterMap (fun m => (counterpart? dtoMembers m).map (updateStep m)) ++ rest) s =
          (.error .notObject, s')
    else ∃ s', execAll (program.machine (depth + 1)) f
        (todo.filterMap (fun m => (counterpart? dtoMembers m).map (updateStep m)) ++ rest) s =
          execAll (program.machine (depth + 1)) f rest s' := by
  induction todo generalizing s with
  | nil =>
    rw [if_neg (by simp)]
    exact ⟨s, rfl⟩
  | cons m todo ih =>
    obtain ⟨hm, hdeclared⟩ := htodo m List.mem_cons_self
    have htodo' : ∀ m' ∈ todo, m' ∈ members ∧ m'.declared = true :=
      fun m' hm' => htodo m' (List.mem_cons_of_mem m hm')
    simp only [List.exists_mem_cons_iff]
    cases hsource : counterpart? dtoMembers m with
    | none =>
      have hno : ¬ ∃ source ∈ dtoMembers, m.Shares source ∧ Stranded s₀ (.ref r) d m source := by
        rintro ⟨source, hmem, hshares, -⟩
        have hsome := (counterpart?_eq_some_iff hdto hdeclared).mpr ⟨hmem, hshares⟩
        rw [hsome] at hsource
        exact Option.some_ne_none source hsource
      rw [List.filterMap_cons_none (by rw [hsource]; rfl)]
      simp only [hno, false_or]
      exact ih hamong hkept htodo'
    | some source =>
      obtain ⟨hmem, hshares⟩ := (counterpart?_eq_some_iff hdto hdeclared).mp hsource
      have hstep := exec_updateStep_of_completing hthis hother hne hnodup hdto hclass hfields
        hvalues hadmits hcompleting hamong hkept hm hmem hshares
      rw [List.filterMap_cons_some (by rw [hsource]; rfl), List.cons_append]
      by_cases hstranded : Stranded s₀ (.ref r) d m source
      · rw [if_pos hstranded] at hstep
        rw [if_pos (Or.inl ⟨source, hmem, hshares, hstranded⟩)]
        exact ⟨s, execAll_of_stuck _ hstep⟩
      · have hno : ¬ ∃ source ∈ dtoMembers, m.Shares source ∧
            Stranded s₀ (.ref r) d m source := by
          rintro ⟨source', hmem', hshares', hstranded'⟩
          have hname : source'.name = source.name := hshares'.2.2.trans hshares.2.2.symm
          obtain rfl : source' = source := List.inj_on_of_nodup_map hdto hmem' hmem hname
          exact hstranded hstranded'
        rw [if_neg hstranded] at hstep
        obtain ⟨s', hexec, hamong', hkept'⟩ := hstep
        rw [execAll_of_next _ hexec]
        simp only [hno, false_or]
        exact ih hamong' hkept' htodo'

end Steps

end Run

/-- The generated updateBy on an object and another one of a transfer class of the same model.
It completes if no member is stranded, and otherwise calls updateBy on what is no object. -/
theorem updateBy_completes_unless_stranded {c : Catalog} {t : PropertyTable} (p dto : Plan)
    (htable : PropertyTable.ofCatalog c p.model = .ok t) (program : Program) (depth : Nat)
    (s : Store) (r : Ref) (d : Value) (among : Store → Prop)
    (he : s.Holds ((Member.collect p t).filter (·.declared)) (.ref r))
    (hd : s.Holds ((Member.collect dto t).filter (·.declared)) d) (hne : d ≠ .ref r)
    (hadmits : NullsAdmitted s ((Member.collect dto t).filter (·.declared)) d)
    (hamong : among s)
    (hcompleting : Completing program (depth + 1) among r d (Member.collect p t)
      (Member.collect dto t)) :
    ((∀ m ∈ Member.collect p t, ∀ source ∈ Member.collect dto t, m.Shares source →
        ¬ Stranded s (.ref r) d m source) →
      ∃ s', program.call (depth + 1)
        (updateBy p (Member.collect p t) dto (Member.collect dto t)) (.ref r) [d] s =
          (.ok (.ref r), s')) ∧
    ((∃ m ∈ Member.collect p t, ∃ source ∈ Member.collect dto t, m.Shares source ∧
        Stranded s (.ref r) d m source) →
      ∃ s', program.call (depth + 1)
        (updateBy p (Member.collect p t) dto (Member.collect dto t)) (.ref r) [d] s =
          (.error .notObject, s')) := by
  have hnodup := Member.nodup_names_collect p htable
  have hdto := Member.nodup_names_collect dto htable
  obtain ⟨className, hclass⟩ := he.isObject
  have hfields : ∀ m ∈ Member.collect p t, m.declared = true →
      ∃ x, s.field? (.ref r) m.name = some x :=
    fun m hm hdeclared => he.hasValue m (List.mem_filter.mpr ⟨hm, hdeclared⟩)
  have hvalues : ∀ m ∈ Member.collect dto t, m.declared = true →
      ∃ v, s.field? d m.name = some v :=
    fun m hm hdeclared => hd.hasValue m (List.mem_filter.mpr ⟨hm, hdeclared⟩)
  have hadmitted : ∀ m ∈ Member.collect dto t, m.declared = true →
      s.field? d m.name = some .null → m.type.isNullable = true :=
    fun m hm hdeclared => hadmits m (List.mem_filter.mpr ⟨hm, hdeclared⟩)
  have htodo : ∀ m ∈ (Member.collect p t).filter (·.declared),
      m ∈ Member.collect p t ∧ m.declared = true := fun m hm => List.mem_filter.mp hm
  have hsteps := execAll_updateSteps_of_completing (f := ⟨.ref r, [(other, d)]⟩) rfl
    List.lookup_cons_self hne hnodup hdto hclass hfields hvalues hadmitted hcompleting hamong
    (Undisturbed.refl s _ d _ _) htodo [.ret .this]
  constructor
  · intro hnone
    rw [if_neg] at hsteps
    · obtain ⟨s', hexec⟩ := hsteps
      exact ⟨s', call_of_return (hexec.trans (execAll_of_return [] (exec_ret (eval_this _ _ _))))⟩
    · rintro ⟨m, hm, source, hsource, hshares, hstranded⟩
      exact hnone m (htodo m hm).1 source hsource hshares hstranded
  · rintro ⟨m, hm, source, hsource, hshares, hstranded⟩
    rw [if_pos ⟨m, List.mem_filter.mpr ⟨hm, hshares.1⟩, source, hsource, hshares, hstranded⟩]
      at hsteps
    obtain ⟨s', hexec⟩ := hsteps
    exact ⟨s', call_of_stuck hexec⟩

/-- A model with a property that updates itself from a transfer object of its own, and for which
null is a value. -/
def profile : Decl :=
  { Decl.plain "a.Profile" .interface with
    properties := [.plain "email" (.scalar .string),
      (Property.plain "settings" (.nullable (.named "a.Settings" []))).withDirective
        (.narrow "Patch" (.nullable (.named "a.SettingsPatchDTO" [])))]
    targets := [.ofKind .jpaEntity, .dto "Patch"] }

def profiles : Catalog := ⟨[profile], by decide⟩

def profilePlan (target : Target) : Plan :=
  (Plan.ofTarget profiles (.ofCatalog profiles) .standard profile target).toOption.getD default

def profileTable : PropertyTable :=
  (PropertyTable.ofCatalog profiles "a.Profile").toOption.getD default

def profileMembers (target : Target) : List Member :=
  Member.collect (profilePlan target) profileTable

def updateProfile : Method :=
  updateBy (profilePlan (.ofKind .jpaEntity)) (profileMembers (.ofKind .jpaEntity))
    (profilePlan (.dto "Patch")) (profileMembers (.dto "Patch"))

/-- Takes over the theme. -/
def updateSettings : Method where
  name := updateName
  kind := .updateBy
  overrides := false
  params := [⟨other, .named "a.SettingsPatchDTO" [], none⟩]
  returns := .named "a.Settings" []
  body := [.assign (.thisField "theme") (.field (.ident other) "theme"), .ret .this]

def profileProgram : Program :=
  ⟨[(("a.Settings", updateName), updateSettings)], fun r => r.toInt64⟩

/-- An entity with the given settings and a transfer object that has some. -/
def profileStore (settings : Value) : Store :=
  ⟨[.object "a.ProfileEntity" [("email", .str "old"), ("settings", settings)],
    .object "a.ProfilePatchDTO" [("email", .str "new"), ("settings", .ref 3)],
    .object "a.Settings" [("theme", .str "light")],
    .object "a.SettingsPatchDTO" [("theme", .str "dark")]]⟩

theorem updateBy_stuck_on_null_settings :
    PropertyTable.ofCatalog profiles "a.Profile" = .ok profileTable ∧
      (profileStore .null).Holds ((profileMembers (.ofKind .jpaEntity)).filter (·.declared))
        (.ref 0) ∧
      (profileStore .null).Holds ((profileMembers (.dto "Patch")).filter (·.declared)) (.ref 1) ∧
      NullsAdmitted (profileStore .null) (profileMembers (.ofKind .jpaEntity)) (.ref 0) ∧
      NullsAdmitted (profileStore .null) (profileMembers (.dto "Patch")) (.ref 1) ∧
      (profileProgram.call 2 updateSettings (.ref 2) [.ref 3] (profileStore .null)).1 =
        .ok (.ref 2) ∧
      (profileProgram.call 2 updateProfile (.ref 0) [.ref 1] (profileStore .null)).1 =
        .error .notObject := by
  refine ⟨rfl, ⟨⟨_, rfl⟩, ?_⟩, ⟨⟨_, rfl⟩, ?_⟩, ?_, ?_, rfl, rfl⟩
  · simp only [Option.isSome_iff_exists.symm]
    decide
  · simp only [Option.isSome_iff_exists.symm]
    decide
  · unfold NullsAdmitted
    decide
  · unfold NullsAdmitted
    decide

/-- The stores in which the two objects still have their settings. -/
structure KeepsSettings (s : Store) : Prop where
  entity : s.className? (.ref 0) = some "a.ProfileEntity"
  settings : s.field? (.ref 0) "settings" = some (.ref 2)
  patch : s.field? (.ref 1) "settings" = some (.ref 3)
  className : s.className? (.ref 2) = some "a.Settings"
  theme : s.field? (.ref 3) "theme" = some (.str "dark")

theorem invoke_updateSettings {s : Store} (h : KeepsSettings s) :
    profileProgram.invoke 2 (.ref 2) updateName [.ref 3] s =
      (.ok (.ref 2), s.assign 2 "theme" (.str "dark")) := by
  have hread : eval (profileProgram.machine 1) ⟨.ref 2, [(other, .ref 3)]⟩
      (.field (.ident other) "theme") s = (.ok (.str "dark"), s) :=
    eval_field (eval_ident rfl) h.theme
  have hassign : exec (profileProgram.machine 1) ⟨.ref 2, [(other, .ref 3)]⟩
      (.assign (.thisField "theme") (.field (.ident other) "theme")) s =
      (.ok (none, ⟨.ref 2, [(other, .ref 3)]⟩), s.assign 2 "theme" (.str "dark")) :=
    exec_assignField hread rfl h.className
  have hrun : profileProgram.call 1 updateSettings (.ref 2) [.ref 3] s =
      (.ok (.ref 2), s.assign 2 "theme" (.str "dark")) :=
    call_of_return ((execAll_of_next _ hassign).trans (execAll_of_return [] rfl))
  unfold Program.invoke
  rw [bind_ok (look_apply _ s), h.className]
  exact hrun

theorem KeepsSettings.assign_email {s : Store} (h : KeepsSettings s) (v : Value) :
    KeepsSettings (s.assign 0 "email" v) where
  entity := (Store.className?_assign_self _ _).trans h.entity
  settings := (Store.field?_assign_self h.entity _ _ _).trans h.settings
  patch := (Store.field?_assignAll_of_ne (by decide) [("email", v)] _).trans h.patch
  className := (s.className?_assign 0 "email" v _).trans h.className
  theme := (Store.field?_assignAll_of_ne (by decide) [("email", v)] _).trans h.theme

theorem KeepsSettings.assign_theme {s : Store} (h : KeepsSettings s) (v : Value) :
    KeepsSettings (s.assign 2 "theme" v) where
  entity := (s.className?_assign 2 "theme" v _).trans h.entity
  settings := (Store.field?_assignAll_of_ne (by decide) [("theme", v)] _).trans h.settings
  patch := (Store.field?_assignAll_of_ne (by decide) [("theme", v)] _).trans h.patch
  className := (Store.className?_assign_self _ _).trans h.className
  theme := (Store.field?_assignAll_of_ne (by decide) [("theme", v)] _).trans h.theme

theorem completing_profileProgram :
    Completing profileProgram 2 KeepsSettings 0 (.ref 1) (profileMembers (.ofKind .jpaEntity))
      (profileMembers (.dto "Patch")) where
  assign := by
    intro s hs m hm source hsource hshares hdirect
    have hname : m.name = "email" := by
      revert m source
      decide
    rw [hname]
    exact hs.assign_email _
  update := by
    intro s hs m hm source hsource hshares hdelegates hobject hset
    have hname : m.name = "settings" := by
      clear hobject hset
      revert m source
      decide
    have hreceiver : s.valueOf (.ref 0) m = .ref 2 := by
      rw [Store.valueOf, hname, hs.settings]
      rfl
    have hvalue : s.valueOf (.ref 1) m = .ref 3 := by
      rw [Store.valueOf, hname, hs.patch]
      rfl
    rw [hreceiver, hvalue]
    refine ⟨_, _, invoke_updateSettings hs, hs.assign_theme _, ?_⟩
    refine ⟨s.className?_assign 2 "theme" _ _, ?_, ?_⟩
    · intro m' _ _ _ _ _
      exact ⟨Store.field?_assignAll_of_ne (by decide) [("theme", .str "dark")] _,
        s.className?_assign 2 "theme" _ _⟩
    · exact Store.field?_assignAll_of_ne (by decide) [("theme", .str "dark")]

theorem updateBy_completes_unless_stranded_profile :
    let s := profileStore (.ref 2)
    KeepsSettings s ∧
      ∃ s', profileProgram.call 2 updateProfile (.ref 0) [.ref 1] s = (.ok (.ref 0), s') := by
  have hkeeps : KeepsSettings (profileStore (.ref 2)) := ⟨rfl, rfl, rfl, rfl, rfl⟩
  have he : (profileStore (.ref 2)).Holds
      ((profileMembers (.ofKind .jpaEntity)).filter (·.declared)) (.ref 0) := by
    refine ⟨⟨_, rfl⟩, ?_⟩
    simp only [Option.isSome_iff_exists.symm]
    decide
  have hd : (profileStore (.ref 2)).Holds
      ((profileMembers (.dto "Patch")).filter (·.declared)) (.ref 1) := by
    refine ⟨⟨_, rfl⟩, ?_⟩
    simp only [Option.isSome_iff_exists.symm]
    decide
  have hadmits : NullsAdmitted (profileStore (.ref 2))
      ((profileMembers (.dto "Patch")).filter (·.declared)) (.ref 1) := by
    unfold NullsAdmitted
    decide
  have htable : PropertyTable.ofCatalog profiles (profilePlan (.ofKind .jpaEntity)).model =
      .ok profileTable := rfl
  have hresult := updateBy_completes_unless_stranded (profilePlan (.ofKind .jpaEntity))
    (profilePlan (.dto "Patch")) htable profileProgram 1 (profileStore (.ref 2)) 0 (.ref 1)
    KeepsSettings he hd (by decide) hadmits hkeeps completing_profileProgram
  refine ⟨hkeeps, hresult.1 ?_⟩
  decide

end Eval

end Scaffold
