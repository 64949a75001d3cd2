import Scaffold.Body.Update
import Scaffold.Proofs.Assigning
import Scaffold.Proofs.PropertyOrder
import Scaffold.Proofs.Running

/-!
What updateBy does where the types of the two classes agree under their nullable layers. Each
step assigns what the transfer object has to one field of the object, or passes over a null
that only the transfer object admits. So a run is a row of assignments to distinct fields with
values that it does not change itself, and can be repeated without effect.
-/
namespace Scaffold

namespace Member

/-- The two declare one property, the first in the class and the second in the transfer
object. -/
def Shares (m source : Member) : Prop :=
  m.declared = true ∧ source.declared = true ∧ source.name = m.name

instance (m source : Member) : Decidable (m.Shares source) :=
  inferInstanceAs (Decidable (_ ∧ _ ∧ _))

theorem name_of_ofProperty? {p : Plan} {e : Effective} {m : Member}
    (h : ofProperty? p e = some m) : m.name = e.name := by
  unfold ofProperty? at h
  dsimp only at h
  split at h
  · simp at h
  · split at h
    · simp at h
    · rw [← Option.some.inj h]
      rfl

theorem names_collect_sublist (p : Plan) (t : PropertyTable) :
    ((collect p t).map name).Sublist t.names := by
  unfold collect PropertyTable.names
  exact Distinct.keys_filterMap_sublist (fun _ _ => name_of_ofProperty?) t.entries

theorem nodup_names_collect {c : Catalog} {model : String} {t : PropertyTable} (p : Plan)
    (h : PropertyTable.ofCatalog c model = .ok t) : ((collect p t).map name).Nodup :=
  (PropertyTable.nodup_names_ofCatalog h).sublist (names_collect_sublist p t)

end Member

namespace Eval

open Body

theorem counterpart?_eq_some_iff {dtoMembers : List Member} {m source : Member}
    (hnodup : (dtoMembers.map Member.name).Nodup) (hm : m.declared = true) :
    counterpart? dtoMembers m = some source ↔ source ∈ dtoMembers ∧ m.Shares source := by
  unfold counterpart?
  rw [Distinct.find?_eq_some_iff (k := m.name) hnodup (by simp), Bool.and_eq_true,
    decide_eq_true_eq]
  exact and_congr_right fun _ => (and_iff_right hm).symm

/-- The transfer object has null where the class has no place for it. -/
def PassedOver (s : Store) (d : Value) (m source : Member) : Prop :=
  s.field? d m.name = some .null ∧ source.type.isNullable = true ∧ m.type.isNullable = false

instance (s : Store) (d : Value) (m source : Member) : Decidable (PassedOver s d m source) :=
  inferInstanceAs (Decidable (_ ∧ _ ∧ _))

/-- What the step for a member assigns, if it assigns anything. -/
def taken? (s : Store) (d : Value) (dtoMembers : List Member) (m : Member) :
    Option (String × Value) :=
  (counterpart? dtoMembers m).bind fun source =>
    if PassedOver s d m source then none else some (m.name, s.valueOf d m)

def taken (s : Store) (d : Value) (members dtoMembers : List Member) : List (String × Value) :=
  (members.filter (·.declared)).filterMap (taken? s d dtoMembers)

section Taken

variable {s : Store} {d : Value} {members dtoMembers : List Member}

theorem mem_taken (hnodup : (dtoMembers.map Member.name).Nodup) {x : String} {v : Value} :
    (x, v) ∈ taken s d members dtoMembers ↔
      ∃ m ∈ members, ∃ source ∈ dtoMembers, m.Shares source ∧
        ¬ PassedOver s d m source ∧ m.name = x ∧ s.valueOf d m = v := by
  simp only [taken, List.mem_filterMap, List.mem_filter, taken?, Option.bind_eq_some_iff]
  constructor
  · rintro ⟨m, ⟨hm, hdeclared⟩, source, hsource, htaken⟩
    obtain ⟨hmem, hshares⟩ := (counterpart?_eq_some_iff hnodup hdeclared).mp hsource
    by_cases hpassed : PassedOver s d m source
    · simp [hpassed] at htaken
    · rw [if_neg hpassed, Option.some.injEq, Prod.mk.injEq] at htaken
      exact ⟨m, hm, source, hmem, hshares, hpassed, htaken⟩
  · rintro ⟨m, hm, source, hmem, hshares, hpassed, rfl, rfl⟩
    exact ⟨m, ⟨hm, hshares.1⟩, source,
      (counterpart?_eq_some_iff hnodup hshares.1).mpr ⟨hmem, hshares⟩, if_neg hpassed⟩

theorem nodup_taken (hnodup : (members.map Member.name).Nodup) :
    ((taken s d members dtoMembers).map Prod.fst).Nodup := by
  have hname : ∀ m value, taken? s d dtoMembers m = some value → value.1 = m.name := by
    intro m value hm
    obtain ⟨source, -, htaken⟩ := Option.bind_eq_some_iff.mp hm
    by_cases hpassed : PassedOver s d m source
    · simp [hpassed] at htaken
    · rw [if_neg hpassed, Option.some.injEq] at htaken
      rw [← htaken]
  have hkeys := Distinct.keys_filterMap_sublist hname (members.filter (·.declared))
  exact hnodup.sublist (hkeys.trans (List.filter_sublist.map Member.name))

end Taken

section Run

variable {k : Machine} {f : Frame} {s s₀ : Store} {r : Ref} {d : Value}
  {className : String}

/-- A step reads the transfer object as it was at the start of the run. -/
theorem exec_updateStep {m source : Member} (hthis : f.this = .ref r)
    (hother : f.locals.lookup other = some d) (hclass : s.className? (.ref r) = some className)
    (hvalue : s.field? d m.name = some (s₀.valueOf d m))
    (hvalue₀ : s₀.field? d m.name = some (s₀.valueOf d m))
    (htype : m.type.nonNull = source.type.nonNull) :
    exec k f (updateStep m source) s =
      (.ok (none, f), if PassedOver s₀ d m source then s
        else s.assign r m.name (s₀.valueOf d m)) := by
  have hread : eval k f (.field (.ident other) m.name) s =
      (.ok (s₀.valueOf d m), s) :=
    eval_field (eval_ident hother) hvalue
  have hassign : exec k f
      (.assign (.thisField m.name) (.field (.ident other) m.name)) s =
      (.ok (none, f), s.assign r m.name (s₀.valueOf d m)) := by
    have hreceiver : eval k f .this s = (.ok (.ref r), s) := by rw [eval_this, hthis]
    exact exec_assignField hread hreceiver hclass
  simp only [updateStep, htype, ne_eq, not_true_eq_false, decide_false, Bool.false_or,
    Bool.false_eq_true, if_false]
  by_cases hguarded : source.type.isNullable = true ∧ m.type.isNullable = false
  · have hguard : (source.type.isNullable && !m.type.isNullable) = true := by simpa using hguarded
    rw [if_pos hguard, exec_cond _ (eval_notNull hread)]
    by_cases hnull : s₀.valueOf d m = .null
    · have hpassed : PassedOver s₀ d m source := ⟨by rw [hvalue₀, hnull], hguarded⟩
      rw [if_pos hpassed, if_neg (by simpa using hnull)]
    · have hpassed : ¬ PassedOver s₀ d m source := by
        rintro ⟨hfield, -⟩
        rw [hvalue₀] at hfield
        exact hnull (Option.some.inj hfield)
      rw [if_neg hpassed, if_pos (by simpa using hnull)]
      exact execAll_of_next [] hassign
  · have hguard : ¬ (source.type.isNullable && !m.type.isNullable) = true := by
      simpa using hguarded
    have hpassed : ¬ PassedOver s₀ d m source := fun hpassed => hguarded hpassed.2
    rw [if_neg hguard, if_neg hpassed]
    exact hassign

/-- The object keeps its class and the transfer object its fields, so every step finds what the
one before it found. -/
private theorem execAll_updateSteps {members dtoMembers : List Member}
    (hthis : f.this = .ref r) (hother : f.locals.lookup other = some d) (hne : d ≠ .ref r)
    (hnodup : (dtoMembers.map Member.name).Nodup)
    (hmembers : ∀ m ∈ members, m.declared = true)
    (hclass : s.className? (.ref r) = some className)
    (hfields : ∀ x, s.field? d x = s₀.field? d x)
    (hvalues : ∀ m ∈ dtoMembers, m.declared = true → ∃ v, s₀.field? d m.name = some v)
    (htypes : ∀ m ∈ members, ∀ source ∈ dtoMembers, m.Shares source →
      m.type.nonNull = source.type.nonNull)
    (rest : List Stmt) :
    execAll k f
      (members.filterMap (fun m => (counterpart? dtoMembers m).map (updateStep m)) ++ rest) s =
    execAll k f rest
      (s.assignAll r (members.filterMap (taken? s₀ d dtoMembers))) := by
  induction members generalizing s with
  | nil => rfl
  | cons m members ih =>
    have hm : m.declared = true := hmembers m List.mem_cons_self
    have hmembers' : ∀ m' ∈ members, m'.declared = true :=
      fun m' hm' => hmembers m' (List.mem_cons_of_mem m hm')
    have htypes' : ∀ m' ∈ members, ∀ source ∈ dtoMembers, m'.Shares source →
        m'.type.nonNull = source.type.nonNull :=
      fun m' hm' => htypes m' (List.mem_cons_of_mem m hm')
    cases hsource : counterpart? dtoMembers m with
    | none =>
      rw [List.filterMap_cons_none (by rw [hsource]; rfl),
        List.filterMap_cons_none (by rw [taken?, hsource]; rfl)]
      exact ih hmembers' hclass hfields htypes'
    | some source =>
      obtain ⟨hmem, hshares⟩ := (counterpart?_eq_some_iff hnodup hm).mp hsource
      have hvalue : s₀.field? d m.name = some (s₀.valueOf d m) := by
        obtain ⟨v, hv⟩ := hvalues source hmem hshares.2.1
        rw [hshares.2.2] at hv
        rw [Store.valueOf, hv]
        rfl
      have hstep := exec_updateStep (k := k) hthis hother hclass
        ((hfields m.name).trans hvalue) hvalue (htypes m List.mem_cons_self source hmem hshares)
      rw [List.filterMap_cons_some (by rw [hsource]; rfl), List.cons_append,
        execAll_of_next _ hstep]
      by_cases hpassed : PassedOver s₀ d m source
      · rw [if_pos hpassed, List.filterMap_cons_none (by simp [taken?, hsource, hpassed])]
        exact ih hmembers' hclass hfields htypes'
      · rw [if_neg hpassed, List.filterMap_cons_some (b := (m.name, s₀.valueOf d m))
          (by simp [taken?, hsource, hpassed]), Store.assignAll_cons]
        apply ih hmembers' _ _ htypes'
        · rwa [Store.className?_assign_self]
        · intro x
          rw [← hfields x]
          exact Store.field?_assignAll_of_ne hne [(m.name, s₀.valueOf d m)] x

end Run

section UpdateBy

variable {s : Store} {r : Ref} {d : Value} {members dtoMembers : List Member} {p dto : Plan}

/-- The generated updateBy is a row of assignments, also when it runs on a later store in which
the transfer object is the same. -/
theorem call_updateBy (program : Program) (depth : Nat) {s₀ : Store} {className : String}
    (hne : d ≠ .ref r) (hnodup : (dtoMembers.map Member.name).Nodup)
    (hclass : s.className? (.ref r) = some className)
    (hfields : ∀ x, s.field? d x = s₀.field? d x)
    (hvalues : ∀ m ∈ dtoMembers, m.declared = true → ∃ v, s₀.field? d m.name = some v)
    (htypes : ∀ m ∈ members, ∀ source ∈ dtoMembers, m.Shares source →
      m.type.nonNull = source.type.nonNull) :
    program.call depth (updateBy p members dto dtoMembers) (.ref r) [d] s =
      (.ok (.ref r), s.assignAll r (taken s₀ d members dtoMembers)) := by
  have hdeclared : ∀ m ∈ members.filter (·.declared), m.declared = true :=
    fun m hm => (List.mem_filter.mp hm).2
  have hsteps := execAll_updateSteps (k := program.machine depth)
    (f := ⟨.ref r, [(other, d)]⟩) rfl List.lookup_cons_self hne hnodup hdeclared hclass hfields
    hvalues (fun m hm => htypes m (List.mem_filter.mp hm).1) [.ret .this]
  exact call_of_return (hsteps.trans (execAll_of_return [] (exec_ret (eval_this _ _ _))))

/-- What an update makes of an object. A shared property is as the transfer object has it,
unless that has null and only the transfer object admits it; all else is as it was. -/
structure Updated (s s' : Store) (e d : Value) (members dtoMembers : List Member) : Prop where
  shared : ∀ m ∈ members, ∀ source ∈ dtoMembers, m.Shares source →
    s'.field? e m.name = if PassedOver s d m source then s.field? e m.name else s.field? d m.name
  others : ∀ x, (∀ m ∈ members, ∀ source ∈ dtoMembers, m.Shares source → m.name ≠ x) →
    s'.field? e x = s.field? e x
  className : s'.className? e = s.className? e
  transfer : ∀ x, s'.field? d x = s.field? d x
  frame : ∀ r, e ≠ .ref r → s'.cell? r = s.cell? r

theorem updated_assignAll {className : String} (hne : d ≠ .ref r)
    (hnodup : (members.map Member.name).Nodup) (hdto : (dtoMembers.map Member.name).Nodup)
    (hclass : s.className? (.ref r) = some className)
    (hvalues : ∀ m ∈ dtoMembers, m.declared = true → ∃ v, s.field? d m.name = some v) :
    Updated s (s.assignAll r (taken s d members dtoMembers)) (.ref r) d members dtoMembers where
  shared := by
    intro m hm source hsource hshares
    by_cases hpassed : PassedOver s d m source
    · rw [if_pos hpassed]
      apply Store.field?_assignAll_of_not_mem hclass
      intro hmem
      obtain ⟨⟨x, v⟩, htaken, rfl⟩ := List.mem_map.mp hmem
      obtain ⟨m', hm', source', hsource', hshares', hpassed', hname, -⟩ :=
        (mem_taken hdto).mp htaken
      -- the name stands for one member on either side
      obtain rfl : m' = m := List.inj_on_of_nodup_map hnodup hm' hm hname
      obtain rfl : source' = source := List.inj_on_of_nodup_map hdto hsource' hsource
        (hshares'.2.2.trans hshares.2.2.symm)
      exact hpassed' hpassed
    · obtain ⟨v, hv⟩ := hvalues source hsource hshares.2.1
      rw [hshares.2.2] at hv
      have hvalue : s.valueOf d m = v := by
        rw [Store.valueOf, hv]
        rfl
      have htaken : (m.name, v) ∈ taken s d members dtoMembers :=
        (mem_taken hdto).mpr ⟨m, hm, source, hsource, hshares, hpassed, rfl, hvalue⟩
      rw [if_neg hpassed, hv]
      exact Store.field?_assignAll_of_mem hclass (nodup_taken hnodup) htaken
  others := by
    intro x hx
    apply Store.field?_assignAll_of_not_mem hclass
    intro hmem
    obtain ⟨⟨y, v⟩, htaken, rfl⟩ := List.mem_map.mp hmem
    obtain ⟨m, hm, source, hsource, hshares, -, hname, -⟩ := (mem_taken hdto).mp htaken
    exact hx m hm source hsource hshares hname
  className := Store.className?_assignAll _
  transfer := Store.field?_assignAll_of_ne hne _
  frame := by
    intro r' hr'
    exact Store.cell?_assignAll_of_ne (fun h => hr' (congrArg Value.ref h.symm)) _

/-- Null stands only in members whose type admits it. -/
def NullsAdmitted (s : Store) (members : List Member) (v : Value) : Prop :=
  ∀ m ∈ members, s.field? v m.name = some .null → m.type.isNullable = true

/-- A null that the class does not admit is not taken over, for it is passed over. -/
theorem Updated.nullsAdmitted {s' : Store} {e : Value} (h : Updated s s' e d members dtoMembers)
    (hnodup : (members.map Member.name).Nodup) {held : List Member}
    (hheld : ∀ m ∈ held, m ∈ members) (he : NullsAdmitted s held e)
    (hd : NullsAdmitted s (dtoMembers.filter (·.declared)) d) : NullsAdmitted s' held e := by
  intro m hm hnull
  by_cases hshared : ∃ source ∈ dtoMembers, m.Shares source
  · obtain ⟨source, hsource, hshares⟩ := hshared
    rw [h.shared m (hheld m hm) source hsource hshares] at hnull
    by_cases hpassed : PassedOver s d m source
    · rw [if_pos hpassed] at hnull
      exact he m hm hnull
    · rw [if_neg hpassed] at hnull
      by_contra hadmits
      have hsourceNull : s.field? d source.name = some .null := by rwa [hshares.2.2]
      have hsourceAdmits : source.type.isNullable = true :=
        hd source (List.mem_filter.mpr ⟨hsource, hshares.2.1⟩) hsourceNull
      exact hpassed ⟨hnull, hsourceAdmits, Bool.eq_false_iff.mpr hadmits⟩
  · have hother : s'.field? e m.name = s.field? e m.name := by
      apply h.others
      intro m' hm' source hsource hshares hname
      obtain rfl : m' = m := List.inj_on_of_nodup_map hnodup hm' (hheld m hm) hname
      exact hshared ⟨source, hsource, hshares⟩
    rw [hother] at hnull
    exact he m hm hnull

end UpdateBy

/-- The generated updateBy on an object and another one of a transfer class of the same model,
where no property that both declare has types that differ under their nullable layers. The one
table serves both classes, for they are of one model. A second update finds nothing to do, and
nulls stay where the types admit them. -/
theorem updateBy_takes_over_what_is_set {c : Catalog} {t : PropertyTable} (p dto : Plan)
    (htable : PropertyTable.ofCatalog c p.model = .ok t)
    (htypes : ∀ m ∈ Member.collect p t, ∀ source ∈ Member.collect dto t, m.Shares source →
      m.type.nonNull = source.type.nonNull)
    (program : Program) (depth : Nat) (s : Store) (e d : Value)
    (he : s.Holds ((Member.collect p t).filter (·.declared)) e)
    (hd : s.Holds ((Member.collect dto t).filter (·.declared)) d) (hne : d ≠ e) :
    ∃ s', program.call depth (updateBy p (Member.collect p t) dto (Member.collect dto t)) e [d] s =
        (.ok e, s') ∧
      Updated s s' e d (Member.collect p t) (Member.collect dto t) ∧
      program.call depth (updateBy p (Member.collect p t) dto (Member.collect dto t)) e [d] s' =
        (.ok e, s') ∧
      ∀ held, (∀ m ∈ held, m ∈ Member.collect p t) → NullsAdmitted s held e →
        NullsAdmitted s ((Member.collect dto t).filter (·.declared)) d →
        NullsAdmitted s' held e := by
  have hnodup := Member.nodup_names_collect p htable
  have hdto := Member.nodup_names_collect dto htable
  obtain ⟨r, rfl⟩ := he.eq_ref
  obtain ⟨className, hclass⟩ := he.isObject
  have hvalues : ∀ m ∈ Member.collect dto t, m.declared = true →
      ∃ v, s.field? d m.name = some v :=
    fun m hm hdeclared => hd.hasValue m (List.mem_filter.mpr ⟨hm, hdeclared⟩)
  have hupdated := updated_assignAll hne hnodup hdto hclass hvalues
  refine ⟨s.assignAll r (taken s d (Member.collect p t) (Member.collect dto t)),
    call_updateBy program depth hne hdto hclass (fun _ => rfl) hvalues htypes, hupdated, ?_, ?_⟩
  · have hclass' := hupdated.className.trans hclass
    rw [call_updateBy program depth hne hdto hclass' hupdated.transfer hvalues htypes,
      Store.assignAll_assignAll hclass (nodup_taken hnodup)]
  · intro held hheld hheldNulls hdNulls
    exact hupdated.nullsAdmitted hnodup hheld hheldNulls hdNulls

/-- A property that keeps its value, one that is set, one that null is a value of, and one that
only the class has. -/
def account : Decl :=
  { Decl.plain "a.Account" .interface with
    properties := [.plain "id" (.scalar .long), .plain "email" (.scalar .string),
      .plain "nickname" (.nullable (.scalar .string)),
      (Property.plain "created" (.scalar .long)).withDirective (.omit (some "Patch"))] }

def accounts : Catalog := ⟨[account], by decide⟩

def accountPlan? (target : Target) : Except Fault Plan :=
  Plan.ofTarget accounts (.ofCatalog accounts) .standard account target

def entityPlan : Plan := (accountPlan? (.ofKind .jpaEntity)).toOption.getD default

def patchPlan : Plan :=
  (accountPlan? { Target.dto "Patch" with forceNullable := true }).toOption.getD default

def accountTable : PropertyTable :=
  (PropertyTable.ofCatalog accounts "a.Account").toOption.getD default

def patched : Store :=
  ⟨[.object "a.AccountEntity"
      [("id", .int 1), ("email", .str "old"), ("nickname", .str "old"), ("created", .int 100)],
    .object "a.AccountPatchDTO" [("id", .null), ("email", .str "new"), ("nickname", .null)]]⟩

theorem updateBy_takes_over_what_is_set_account :
    accountPlan? (.ofKind .jpaEntity) = .ok entityPlan ∧
      accountPlan? { Target.dto "Patch" with forceNullable := true } = .ok patchPlan ∧
      PropertyTable.ofCatalog accounts entityPlan.model = .ok accountTable ∧
      ∃ s', Program.call ⟨[], fun r => r.toInt64⟩ 1
          (updateBy entityPlan (Member.collect entityPlan accountTable) patchPlan
            (Member.collect patchPlan accountTable)) (.ref 0) [.ref 1] patched =
          (.ok (.ref 0), s') ∧
        s'.field? (.ref 0) "id" = some (.int 1) ∧
        s'.field? (.ref 0) "email" = some (.str "new") ∧
        s'.field? (.ref 0) "nickname" = some .null ∧
        s'.field? (.ref 0) "created" = some (.int 100) := by
  have htable : PropertyTable.ofCatalog accounts entityPlan.model = .ok accountTable := rfl
  have he : patched.Holds ((Member.collect entityPlan accountTable).filter (·.declared))
      (.ref 0) := by
    refine ⟨⟨_, rfl⟩, ?_⟩
    simp only [Option.isSome_iff_exists.symm]
    decide
  have hd : patched.Holds ((Member.collect patchPlan accountTable).filter (·.declared))
      (.ref 1) := by
    refine ⟨⟨_, rfl⟩, ?_⟩
    simp only [Option.isSome_iff_exists.symm]
    decide
  have htypes : ∀ m ∈ Member.collect entityPlan accountTable,
      ∀ source ∈ Member.collect patchPlan accountTable, m.Shares source →
        m.type.nonNull = source.type.nonNull := by decide
  obtain ⟨s', hcall, hupdated, -⟩ := updateBy_takes_over_what_is_set entityPlan patchPlan htable
    htypes ⟨[], fun r => r.toInt64⟩ 1 patched (.ref 0) (.ref 1) he hd (by decide)
  refine ⟨rfl, rfl, htable, s', hcall, ?_, ?_, ?_, ?_⟩
  · exact hupdated.shared (Member.collect entityPlan accountTable)[0] (by decide)
      (Member.collect patchPlan accountTable)[0] (by decide) (by decide)
  · exact hupdated.shared (Member.collect entityPlan accountTable)[1] (by decide)
      (Member.collect patchPlan accountTable)[1] (by decide) (by decide)
  · exact hupdated.shared (Member.collect entityPlan accountTable)[2] (by decide)
      (Member.collect patchPlan accountTable)[2] (by decide) (by decide)
  · exact hupdated.others "created" (by decide)

end Eval

end Scaffold
