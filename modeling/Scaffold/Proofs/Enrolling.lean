import Scaffold.Proofs.Faults
import Scaffold.Proofs.Replanning

/-!
What a survey gives. It succeeds if every target of every model can be planned and no two plans
are for one class, and its roster then has the plans in the order of the models and of their
targets. So another order of the catalog gives the same plans in another order, and for one
model the plans follow its targets.
-/
namespace Scaffold

/-- The roster with these plans. -/
def Roster.ofPlans (plans : List Plan) (h : (plans.map Plan.qualifiedName).Nodup) : Roster :=
  ⟨⟨plans, (plans.map Plan.qualifiedName).zipIdx⟩, ⟨h, rfl⟩⟩

theorem Roster.eq_of_plans {r r' : Roster} (h : r.plans = r'.plans) : r = r' := by
  obtain ⟨⟨plans, byClass⟩, hsound⟩ := r
  obtain ⟨⟨plans', byClass'⟩, hsound'⟩ := r'
  obtain rfl : plans = plans' := h
  obtain rfl : byClass = byClass' := hsound.byClass.trans hsound'.byClass.symm
  rfl

/-- A plan is entered behind the others, and is refused only if that gives no roster. -/
theorem Roster.enter_ok_iff {r r' : Roster} {p : Plan} :
    r.enter p = .ok r' ↔ r'.plans = r.plans ++ [p] := by
  rcases r.enter_cases p with ⟨-, entered, henter, hentered⟩ | ⟨q, hq, hname, henter⟩
  · rw [henter, Except.ok.injEq, ← hentered]
    constructor
    · rintro rfl
      rfl
    · intro hplans
      exact Roster.eq_of_plans hplans.symm
  · rw [henter]
    refine iff_of_false (by simp) fun hplans => ?_
    have hnodup := r'.nodup
    rw [hplans, List.map_append] at hnodup
    have hmem : p.qualifiedName ∈ r.plans.map Plan.qualifiedName :=
      List.mem_map.mpr ⟨q, hq, hname⟩
    exact (List.nodup_append.mp hnodup).2.2 _ hmem _ List.mem_cons_self rfl

namespace Catalog

variable {c : Catalog} {k : Capabilities} {settings : Settings}

/-- The plans that can be made for a model. -/
def plansFor (c : Catalog) (k : Capabilities) (settings : Settings) (model : Decl) : List Plan :=
  model.targets.filterMap fun t => (Plan.ofTarget c k settings model t).toOption

/-- Every target of the model can be planned. -/
def Plannable (c : Catalog) (k : Capabilities) (settings : Settings) (model : Decl) : Prop :=
  ∀ t ∈ model.targets, ∃ p, Plan.ofTarget c k settings model t = .ok p

theorem enterTargets_ok_iff (model : Decl) (ts : List Target) (roster roster' : Roster) :
    Survey.enterTargets c k settings model ts roster = .ok roster' ↔
      (∀ t ∈ ts, ∃ p, Plan.ofTarget c k settings model t = .ok p) ∧
      roster'.plans = roster.plans ++
        ts.filterMap fun t => (Plan.ofTarget c k settings model t).toOption := by
  induction ts generalizing roster with
  | nil =>
    rw [Survey.enterTargets, Except.ok.injEq]
    constructor
    · rintro rfl
      simp
    · rintro ⟨-, hplans⟩
      exact Roster.eq_of_plans (by simpa using hplans.symm)
  | cons t ts ih =>
    rw [Survey.enterTargets, bind_ok_iff, List.forall_mem_cons]
    simp only [bind_ok_iff, ih, Roster.enter_ok_iff]
    constructor
    · rintro ⟨p, hp, mid, hmid, hrest, hplans⟩
      refine ⟨⟨⟨p, hp⟩, hrest⟩, ?_⟩
      rw [hplans, hmid, List.filterMap_cons_some (by rw [hp]; rfl), List.append_assoc]
      rfl
    · rintro ⟨⟨⟨p, hp⟩, hrest⟩, hplans⟩
      rw [List.filterMap_cons_some (by rw [hp]; rfl), List.append_cons] at hplans
      have hnodup := roster'.nodup
      rw [hplans, List.map_append] at hnodup
      exact ⟨p, hp, .ofPlans (roster.plans ++ [p]) hnodup.of_append_left, rfl, hrest, hplans⟩

/-- The survey of some models takes up their properties and their plans. -/
theorem surveyModels_ok_iff (models : List Decl) (s s' : Survey) :
    Survey.surveyModels c settings models s = .ok s' ↔
      (∀ m ∈ models, (∃ t, PropertyTable.ofCatalog c m.name = .ok t) ∧
        Plannable c s.capabilities settings m) ∧
      s'.capabilities = s.capabilities ∧
      s'.tables = s.tables ++
        models.filterMap (fun m => (PropertyTable.ofCatalog c m.name).toOption) ∧
      s'.roster.plans = s.roster.plans ++ models.flatMap (plansFor c s.capabilities settings) := by
  induction models generalizing s with
  | nil =>
    rw [Survey.surveyModels, Except.ok.injEq]
    constructor
    · rintro rfl
      simp
    · rintro ⟨-, hcapabilities, htables, hplans⟩
      obtain ⟨k, tables, roster⟩ := s
      obtain ⟨k', tables', roster'⟩ := s'
      have hroster : roster = roster' := Roster.eq_of_plans (by simpa using hplans.symm)
      simp_all
  | cons m models ih =>
    rw [Survey.surveyModels, bind_ok_iff, List.forall_mem_cons]
    simp only [bind_ok_iff, ih, enterTargets_ok_iff]
    constructor
    · rintro ⟨t, ht, roster, ⟨hplannable, hroster⟩, hmodels, hcapabilities, htables, hplans⟩
      refine ⟨⟨⟨⟨t, ht⟩, hplannable⟩, hmodels⟩, hcapabilities, ?_, ?_⟩
      · rw [htables, List.filterMap_cons_some (by rw [ht]; rfl), List.append_assoc]
        rfl
      · rw [hplans, hroster, List.append_assoc]
        rfl
    · rintro ⟨⟨⟨⟨t, ht⟩, hplannable⟩, hmodels⟩, hcapabilities, htables, hplans⟩
      rw [List.filterMap_cons_some (by rw [ht]; rfl), List.append_cons] at htables
      rw [List.flatMap_cons, ← List.append_assoc] at hplans
      have hnodup := s'.roster.nodup
      rw [hplans, List.map_append] at hnodup
      exact ⟨t, ht, .ofPlans (s.roster.plans ++ plansFor c s.capabilities settings m)
        hnodup.of_append_left, ⟨hplannable, rfl⟩, hmodels, hcapabilities, htables, hplans⟩

/-- All plans of a pass, in the order of the models and of their targets. -/
def plans (c : Catalog) (k : Capabilities) (settings : Settings) : List Plan :=
  c.models.flatMap (plansFor c k settings)

theorem get?_of_mem_models {m : Decl} (hm : m ∈ c.models) : c.get? m.name = some m :=
  get?_eq_some_iff.mpr ⟨List.mem_of_mem_filter hm, rfl⟩

theorem model_of_ofCatalog {model : String} {t : PropertyTable}
    (h : PropertyTable.ofCatalog c model = .ok t) : t.model = model := by
  unfold PropertyTable.ofCatalog at h
  cases hget : c.get? model with
  | none => simp [hget] at h
  | some d =>
    rw [hget] at h
    obtain rfl := Except.ok.inj h
    rfl

theorem exists_table {m : Decl} (hm : m ∈ c.models) :
    ∃ t, PropertyTable.ofCatalog c m.name = .ok t := by
  unfold PropertyTable.ofCatalog
  rw [get?_of_mem_models hm]
  exact ⟨_, rfl⟩

/-- What a survey holds. -/
structure Surveyed (c : Catalog) (settings : Settings) (s : Survey) : Prop where
  capabilities : s.capabilities = .ofCatalog c
  plannable : ∀ m ∈ c.models, Plannable c (.ofCatalog c) settings m
  plans : s.roster.plans = c.plans (.ofCatalog c) settings
  tables : ∀ m ∈ c.models, s.propertiesOf m.name = PropertyTable.ofCatalog c m.name

theorem surveyed_of_ofCatalog {s : Survey} (h : Survey.ofCatalog c settings = .ok s) :
    Surveyed c settings s := by
  obtain ⟨hmodels, hcapabilities, htables, hplans⟩ := (surveyModels_ok_iff _ _ _).mp h
  refine ⟨hcapabilities, fun m hm => (hmodels m hm).2, hplans, ?_⟩
  intro m hm
  obtain ⟨t, ht⟩ := exists_table hm
  have htable : t ∈ s.tables := by
    rw [htables, List.nil_append, List.mem_filterMap]
    exact ⟨m, hm, by rw [ht]; rfl⟩
  unfold Survey.propertiesOf
  cases hfind : s.tables.find? (·.model = m.name) with
  | none =>
    have hother := List.find?_eq_none.mp hfind t htable
    simp [model_of_ofCatalog ht] at hother
  | some t' =>
    have hname : t'.model = m.name := by simpa using List.find?_some hfind
    have hmem := List.mem_of_find?_eq_some hfind
    rw [htables, List.nil_append, List.mem_filterMap] at hmem
    obtain ⟨m', hm', ht'⟩ := hmem
    obtain ⟨t'', ht''⟩ := exists_table hm'
    rw [ht''] at ht'
    obtain rfl : t'' = t' := Option.some.inj ht'
    rw [model_of_ofCatalog ht''] at hname
    rw [← hname, ht'']

theorem exists_survey_iff : (∃ s, Survey.ofCatalog c settings = .ok s) ↔
    (∀ m ∈ c.models, Plannable c (.ofCatalog c) settings m) ∧
      ((c.plans (.ofCatalog c) settings).map Plan.qualifiedName).Nodup := by
  constructor
  · rintro ⟨s, hs⟩
    have hsurveyed := surveyed_of_ofCatalog hs
    refine ⟨hsurveyed.plannable, ?_⟩
    rw [← hsurveyed.plans]
    exact s.roster.nodup
  · rintro ⟨hplannable, hnodup⟩
    refine ⟨⟨.ofCatalog c, c.models.filterMap fun m =>
      (PropertyTable.ofCatalog c m.name).toOption, .ofPlans (c.plans (.ofCatalog c) settings) hnodup⟩,
      ?_⟩
    rw [Survey.ofCatalog, surveyModels_ok_iff]
    exact ⟨fun m hm => ⟨exists_table hm, hplannable m hm⟩, rfl, rfl, rfl⟩

section Order

variable {c' : Catalog} {targets : String → List Target} {k' : Capabilities}

theorem models_perm (htargets : ∀ d ∈ c.decls, (targets d.name).Perm d.targets)
    (hperm : c'.decls.Perm (c.decls.map (Decl.retarget targets))) :
    c'.models.Perm (c.models.map (Decl.retarget targets)) := by
  have hmodel : ∀ d ∈ c.decls, (Decl.isModel ∘ Decl.retarget targets) d = d.isModel := by
    intro d hd
    simp only [Function.comp_apply, Decl.isModel, Decl.retarget, (htargets d hd).isEmpty_eq]
  have hfiltered := hperm.filter Decl.isModel
  rwa [List.filter_map, List.filter_congr hmodel] at hfiltered

theorem plansFor_retarget (h : c.Agrees c' targets)
    (hhas : ∀ name q, k'.has name q = k.has name q) (m : Decl) :
    plansFor c' k' settings (m.retarget targets) =
      (targets m.name).filterMap fun t => (Plan.ofTarget c k settings m t).toOption := by
  unfold plansFor
  simp only [h.ofTarget_eq hhas]
  rfl

theorem Reordered.plannable (h : c.Reordered c') (hhas : ∀ name q, k'.has name q = k.has name q)
    (hplannable : ∀ m ∈ c.models, Plannable c k settings m) :
    ∀ m ∈ c'.models, Plannable c' k' settings m := by
  obtain ⟨targets, htargets, hperm⟩ := h
  have hagrees := agrees_of_perm hperm
  intro m' hm' t ht
  obtain ⟨m, hm, rfl⟩ := List.mem_map.mp ((models_perm htargets hperm).mem_iff.mp hm')
  rw [hagrees.ofTarget_eq hhas]
  have hdecl : m ∈ c.decls := List.mem_of_mem_filter hm
  exact hplannable m hm t ((htargets m hdecl).mem_iff.mp ht)

/-- A catalog in another order has the same plans in another order. -/
theorem Reordered.plans_perm (h : c.Reordered c')
    (hhas : ∀ name q, k'.has name q = k.has name q) :
    (c'.plans k' settings).Perm (c.plans k settings) := by
  obtain ⟨targets, htargets, hperm⟩ := h
  have hagrees := agrees_of_perm hperm
  have hmodels := (models_perm htargets hperm).flatMap_right (plansFor c' k' settings)
  rw [List.flatMap_map] at hmodels
  refine hmodels.trans (List.Perm.flatMap_left _ fun m hm => ?_)
  have hdecl : m ∈ c.decls := List.mem_of_mem_filter hm
  rw [plansFor_retarget hagrees hhas]
  exact (htargets m hdecl).filterMap _

section Surveyed

variable {s s' : Survey} (hs : c.Surveyed settings s) (hs' : c'.Surveyed settings s')
  (h : c.Reordered c') (hcheck : c.check = .ok ())

include hs hs' h hcheck

theorem Surveyed.has_eq (name : String) (q : Capability) :
    s'.capabilities.has name q = s.capabilities.has name q := by
  rw [hs.capabilities, hs'.capabilities]
  exact h.has_eq hcheck name q

theorem Surveyed.plans_perm : s.roster.plans.Perm s'.roster.plans := by
  rw [hs.plans, hs'.plans]
  exact (h.plans_perm (h.has_eq hcheck)).symm

end Surveyed

end Order

section Updates

/-- What a plan takes over from its model and target. -/
theorem ofTarget_spec {m : Decl} {t : Target} {p : Plan}
    (h : Plan.ofTarget c k settings m t = .ok p) :
    p.model = m.name ∧ p.kind = t.kind ∧ (p.kind = .immutable → p.isMutable = false) := by
  unfold Plan.ofTarget at h
  obtain ⟨enclosing, -, h⟩ := bind_ok_iff.mp h
  split at h
  · obtain ⟨_, hthrow, -⟩ := bind_ok_iff.mp h
    simp [throw, throwThe, MonadExceptOf.throw] at hthrow
  · rw [← Except.ok.inj h]
    refine ⟨rfl, rfl, fun hkind => ?_⟩
    have hnot : decide (t.kind ≠ .immutable) = false := decide_eq_false (not_not_intro hkind)
    simp only [hnot, Bool.false_and]

theorem model_of_mem_plansFor {m : Decl} {p : Plan} (h : p ∈ plansFor c k settings m) :
    p.model = m.name := by
  obtain ⟨t, -, ht⟩ := List.mem_filterMap.mp h
  cases hplan : Plan.ofTarget c k settings m t with
  | error f => simp [hplan, Except.toOption] at ht
  | ok q =>
    rw [hplan] at ht
    obtain rfl : q = p := Option.some.inj ht
    exact (ofTarget_spec hplan).1

theorem Surveyed.exists_model {s : Survey} (hs : c.Surveyed settings s) {p : Plan}
    (hp : p ∈ s.roster.plans) : ∃ m ∈ c.models, p.model = m.name := by
  rw [hs.plans] at hp
  obtain ⟨m, hm, hpm⟩ := List.mem_flatMap.mp hp
  exact ⟨m, hm, model_of_mem_plansFor hpm⟩

/-- The plans of one model are kept together. -/
theorem plans_filter_model {m : Decl} (hm : m ∈ c.models) :
    (c.plans k settings).filter (·.model = m.name) = plansFor c k settings m := by
  have hnodup : (c.models.map Decl.name).Nodup :=
    c.nodup.sublist (List.filter_sublist.map Decl.name)
  unfold plans
  generalize c.models = models at hm hnodup
  induction models with
  | nil => simp at hm
  | cons first models ih =>
    obtain ⟨hfirst, hrest⟩ := List.nodup_cons.mp hnodup
    have hkeep : ∀ m', m'.name = m.name →
        (plansFor c k settings m').filter (·.model = m.name) = plansFor c k settings m' := by
      intro m' hname
      refine List.filter_eq_self.mpr fun p hp => ?_
      simpa [hname] using model_of_mem_plansFor hp
    have hdrop : ∀ m', m'.name ≠ m.name →
        (plansFor c k settings m').filter (·.model = m.name) = [] := by
      intro m' hname
      refine List.filter_eq_nil_iff.mpr fun p hp => ?_
      simpa [model_of_mem_plansFor hp] using hname
    rw [List.flatMap_cons, List.filter_append]
    rcases List.mem_cons.mp hm with rfl | hm
    · have hothers : (models.flatMap (plansFor c k settings)).filter (·.model = m.name) = [] := by
        rw [List.filter_flatMap, List.flatMap_eq_nil_iff]
        intro m' hm'
        exact hdrop m' fun hname => hfirst (hname ▸ List.mem_map_of_mem hm')
      rw [hkeep m rfl, hothers, List.append_nil]
    · have hother : first.name ≠ m.name := fun hname => hfirst (hname ▸ List.mem_map_of_mem hm)
      rw [hdrop first hother, List.nil_append, ih hm hrest]

end Updates

end Catalog

namespace ClassDesc

/-- The method by which a class is updated from the class for a target of its model, if that is
another one and a transfer object. -/
def updateFrom? (c : Catalog) (k : Capabilities) (settings : Settings) (model : Decl) (p : Plan)
    (table : PropertyTable) (t : Target) : Option Method :=
  ((Plan.ofTarget c k settings model t).toOption.filter fun dto =>
    p.isMutable && (dto.kind = .dto && dto.qualifiedName ≠ p.qualifiedName)).map fun dto =>
      Body.updateBy p (Member.collect p table) dto (Member.collect dto table)

theorem updateFrom?_eq {c c' : Catalog} {targets : String → List Target} {k k' : Capabilities}
    (h : c.Agrees c' targets) (hhas : ∀ name q, k'.has name q = k.has name q) (settings : Settings)
    (m : Decl) (p : Plan) (table : PropertyTable) :
    updateFrom? c' k' settings (m.retarget targets) p table =
      updateFrom? c k settings m p table := by
  funext t
  unfold updateFrom?
  rw [h.ofTarget_eq hhas]

/-- The methods that update a class follow the targets of its model. -/
theorem updates_eq {c : Catalog} {settings : Settings} {s : Survey}
    (hs : Catalog.Surveyed c settings s) {m : Decl} (hm : m ∈ c.models) {p : Plan}
    (hp : p.model = m.name) (table : PropertyTable) :
    updates s.roster p table (Member.collect p table) =
      m.targets.filterMap (updateFrom? c (.ofCatalog c) settings m p table) := by
  have hdtos : s.roster.dtosOf p.model =
      (Catalog.plansFor c (.ofCatalog c) settings m).filter (·.kind = .dto) := by
    rw [Roster.dtosOf_eq, Roster.ofModel_eq, hs.plans, hp, Catalog.plans_filter_model hm]
  unfold updates updateFrom?
  rw [hdtos]
  cases hmutable : p.isMutable with
  | false => simp
  | true =>
    simp only [Catalog.plansFor, List.filter_filterMap, List.map_filterMap, Option.filter_filter,
      if_true, Bool.true_and]

end ClassDesc

end Scaffold
