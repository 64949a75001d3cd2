import Scaffold.Generation
import Scaffold.Proofs.Reprojection

/-!
A pass does not depend on the order of its input. Over a catalog in another order it succeeds
just if it succeeds over the catalog itself, and gives the same classes and the same definitions.
Only the methods that update a class from transfer objects follow the targets of its model.
-/
namespace Scaffold

/-- Two rows that correspond to one row correspond to each other. -/
theorem forall₂_join {α β γ : Type} {R : α → β → Prop} {S : α → γ → Prop} {T : β → γ → Prop}
    {as : List α} {bs : List β} {cs : List γ} (hbs : List.Forall₂ R as bs)
    (hcs : List.Forall₂ S as cs) (h : ∀ a ∈ as, ∀ b c, R a b → S a c → T b c) :
    List.Forall₂ T bs cs := by
  induction hbs generalizing cs with
  | nil =>
    cases hcs
    exact .nil
  | cons hb hrest ih =>
    cases hcs with
    | cons hc hcs =>
      rw [List.forall_mem_cons] at h
      exact .cons (h.1 _ _ hb hc) (ih hcs h.2)

namespace ClassDesc

variable {c c' : Catalog} {settings : Settings} {s s' : Survey} {p : Plan}

/-- The method takes a transfer object of the class that is planned for the target. -/
def UpdatesFrom (c : Catalog) (settings : Settings) (m : Decl) (t : Target) (u : Method) : Prop :=
  ∃ dto, Plan.ofTarget c (.ofCatalog c) settings m t = .ok dto ∧ dto.kind = .dto ∧
    u.kind = .updateBy ∧ u.params.map Param.type = [dto.type]

/-- The descriptions are the same, except that the methods that update the class come in the
order of the targets of its model. -/
structure SameButUpdates (c c' : Catalog) (settings : Settings) (d d' : ClassDesc) : Prop where
  rest : { d' with methods := d.methods } = d
  methods : ∃ m m' own, ∃ update : Target → Option Method,
    c.get? d.model = some m ∧ c'.get? d.model = some m' ∧ (∀ u ∈ own, u.kind ≠ .updateBy) ∧
      (∀ t u, update t = some u → UpdatesFrom c settings m t u) ∧
      d.methods = own ++ m.targets.filterMap update ∧
      d'.methods = own ++ m'.targets.filterMap update

/-- A method that a class may have or not. -/
theorem forall_mem_ite {P : Method → Prop} {own : Method} (b : Bool) (hown : b = true → P own) :
    ∀ u ∈ (if b then [own] else []), P u := by
  cases b with
  | false => exact List.forall_mem_nil _
  | true => exact List.forall_mem_singleton.mpr (hown rfl)

/-- A description is of the class that is planned, and its last methods are those that update
the class. -/
theorem ofPlan_spec {d : ClassDesc} (h : ofPlan c s settings p = .ok d) :
    d.model = p.model ∧ d.qualifiedName = p.qualifiedName ∧ ∃ own table,
      (∀ u ∈ own, u.kind ≠ .updateBy) ∧
        d.methods = own ++ updates s.roster p table (Member.collect p table) := by
  unfold ofPlan at h
  obtain ⟨table, -, h⟩ := bind_ok_iff.mp h
  obtain ⟨params, -, h⟩ := bind_ok_iff.mp h
  obtain ⟨order, -, h⟩ := ite_bind_ok_iff.mp h
  obtain rfl := Except.ok.inj h
  refine ⟨rfl, rfl, _, table, ?_, rfl⟩
  simp only [List.forall_mem_append]
  exact ⟨⟨⟨⟨⟨forall_mem_ite _ nofun, forall_mem_ite _ nofun⟩, forall_mem_ite _ nofun⟩,
    forall_mem_ite _ nofun⟩, forall_mem_ite _ nofun⟩, forall_mem_ite _ nofun⟩

theorem updatesFrom_of_updateFrom? {m : Decl} {table : PropertyTable} {t : Target} {u : Method}
    (h : updateFrom? c (.ofCatalog c) settings m p table t = some u) :
    UpdatesFrom c settings m t u := by
  obtain ⟨dto, hdto, rfl⟩ := Option.map_eq_some_iff.mp h
  obtain ⟨hplan, hkept⟩ := Option.filter_eq_some_iff.mp hdto
  cases hplanned : Plan.ofTarget c (.ofCatalog c) settings m t with
  | error f => simp [hplanned, Except.toOption] at hplan
  | ok q =>
    rw [hplanned] at hplan
    obtain rfl : q = dto := Option.some.inj hplan
    simp only [Bool.and_eq_true, decide_eq_true_eq] at hkept
    exact ⟨q, hplanned, hkept.2.1, rfl, rfl⟩

/-- A class that is described over the catalog is described alike over one in another order. -/
theorem sameButUpdates_of_ofPlan (h : c.Reordered c') (hcheck : c.check = .ok ())
    (hs : Catalog.Surveyed c settings s) (hs' : Catalog.Surveyed c' settings s')
    (hp : p ∈ s.roster.plans) {d : ClassDesc} (hd : ofPlan c s settings p = .ok d) :
    ∃ d', ofPlan c' s' settings p = .ok d' ∧ SameButUpdates c c' settings d d' := by
  have hhas := h.has_eq hcheck
  have hhas' := hs.has_eq hs' h hcheck
  obtain ⟨targets, htargets, hperm⟩ := h
  have hagrees := Catalog.agrees_of_perm hperm
  -- the model of the plan, in both catalogs, and its properties
  obtain ⟨m, hm, hmodel⟩ := hs.exists_model hp
  have hm' : m.retarget targets ∈ c'.models :=
    (Catalog.models_perm htargets hperm).mem_iff.mpr (List.mem_map_of_mem hm)
  obtain ⟨table, htable⟩ := Catalog.exists_table hm
  have hproperties : s.propertiesOf p.model = .ok table := by
    rw [hmodel, hs.tables m hm, htable]
  have hproperties' : s'.propertiesOf p.model = .ok table := by
    rw [hmodel]
    exact (hs'.tables _ hm').trans ((hagrees.table_eq m.name).trans htable)
  -- the outlines are the same and the updates follow the targets
  rw [ofPlan_eq_outline hproperties, map_ok_iff] at hd
  obtain ⟨o, ho, rfl⟩ := hd
  have ho' : outline c' s' settings p = .ok o := by
    rw [outline_eq hagrees hhas' (hproperties'.trans hproperties.symm), ho]
  have hupdate := updateFrom?_eq hagrees hhas settings m p table
  obtain ⟨homodel, -, own, _, hown, hmethods⟩ := ofPlan_spec ho
  rw [updates_empty, List.append_nil] at hmethods
  have hd' : ofPlan c' s' settings p = .ok
      { o with methods := o.methods ++ updates s'.roster p table (Member.collect p table) } := by
    rw [ofPlan_eq_outline hproperties', ho']
    rfl
  refine ⟨_, hd', rfl, m, m.retarget targets, own,
    updateFrom? c (.ofCatalog c) settings m p table, ?_, ?_, hown,
    fun t u => updatesFrom_of_updateFrom?, ?_, ?_⟩
  · change c.get? o.model = some m
    rw [homodel, hmodel]
    exact Catalog.get?_of_mem_models hm
  · change c'.get? o.model = some (m.retarget targets)
    rw [homodel, hmodel]
    exact Catalog.get?_of_mem_models hm'
  · rw [← updates_eq hs hm hmodel, ← hmethods]
  · rw [← hupdate, ← updates_eq hs' hm' hmodel, ← hmethods]

end ClassDesc

namespace Output

variable {c c' : Catalog} {settings : Settings}

/-- What a pass gives when it succeeds. -/
theorem ofSurvey_ok_iff {s : Survey} {o : Output} : ofSurvey c s settings = .ok o ↔
    o.models = c.models.length ∧
      List.Forall₂ (fun p d => ClassDesc.ofPlan c s settings p = .ok d) s.roster.plans o.classes ∧
      (if settings.typescript.enabled then
        ∃ ds, Projection.projectTypes ⟨c, s.capabilities, settings.typescript⟩ = .ok ds ∧
          some ds = o.typescript
      else none = o.typescript) := by
  have hscript : ∀ t, ((if settings.typescript.enabled then
      some <$> Projection.projectTypes ⟨c, s.capabilities, settings.typescript⟩
      else pure none) = Except.ok t ↔ if settings.typescript.enabled then
        ∃ ds, Projection.projectTypes ⟨c, s.capabilities, settings.typescript⟩ = .ok ds ∧
          some ds = t
      else none = t) := by
    intro t
    split
    · exact map_ok_iff
    · exact ⟨fun heq => Except.ok.inj heq, fun heq => heq ▸ rfl⟩
  unfold ofSurvey
  rw [bind_ok_iff]
  constructor
  · rintro ⟨classes, hclasses, h⟩
    obtain ⟨typescript, htypescript, h⟩ := ite_bind_ok_iff.mp h
    obtain rfl := Except.ok.inj h
    exact ⟨rfl, mapM_ok_iff.mp hclasses, (hscript _).mp htypescript⟩
  · rintro ⟨hmodels, hclasses, htypescript⟩
    refine ⟨o.classes, mapM_ok_iff.mpr hclasses,
      ite_bind_ok_iff.mpr ⟨o.typescript, (hscript _).mpr htypescript, ?_⟩⟩
    rw [← hmodels]
    rfl

theorem ofCatalog_ok_iff {o : Output} : ofCatalog c settings = .ok o ↔
    c.check = .ok () ∧
      ∃ s, Survey.ofCatalog c settings = .ok s ∧ ofSurvey c s settings = .ok o := by
  unfold ofCatalog
  simp only [bind_ok_iff]
  constructor
  · rintro ⟨u, hcheck, h⟩
    exact ⟨hcheck, h⟩
  · rintro ⟨hcheck, h⟩
    exact ⟨(), hcheck, h⟩

/-- The classes of a pass have the names of the roster. -/
theorem nodup_qualifiedNames {s : Survey} {o : Output} (h : ofSurvey c s settings = .ok o) :
    (o.classes.map ClassDesc.qualifiedName).Nodup := by
  obtain ⟨-, hclasses, -⟩ := ofSurvey_ok_iff.mp h
  have hnames : List.Forall₂ Eq (s.roster.plans.map Plan.qualifiedName)
      (o.classes.map ClassDesc.qualifiedName) := by
    rw [List.forall₂_map_left_iff, List.forall₂_map_right_iff]
    exact hclasses.imp fun p d hd => (ClassDesc.ofPlan_spec hd).2.1.symm
  rw [List.forall₂_eq_eq_eq] at hnames
  rw [← hnames]
  exact s.roster.nodup

/-- The second pass gives what the first gives, in some order. -/
structure SameUpToOrder (c c' : Catalog) (settings : Settings) (o o' : Output) : Prop where
  models : o'.models = o.models
  classNames : (o.classes.map ClassDesc.qualifiedName).Nodup
  classes : ∃ classes, List.Forall₂ (ClassDesc.SameButUpdates c c' settings) o.classes classes ∧
    classes.Perm o'.classes
  definitions : Option.Rel
    (fun ds ds' => (ds.map Projection.Definition.name).Nodup ∧ ds.Perm ds')
    o.typescript o'.typescript

section Surveyed

variable {s s' : Survey} (h : c.Reordered c') (hcheck : c.check = .ok ())
  (hs : Catalog.Surveyed c settings s) (hs' : Catalog.Surveyed c' settings s')

include h hcheck hs hs'

theorem exists_ofSurvey {o : Output} (ho : ofSurvey c s settings = .ok o) :
    ∃ o', ofSurvey c' s' settings = .ok o' := by
  obtain ⟨-, hclasses, hdefinitions⟩ := ofSurvey_ok_iff.mp ho
  have hplans := hs.plans_perm hs' h hcheck
  have hhas := hs.has_eq hs' h hcheck
  have hdescribed : ∀ p ∈ s'.roster.plans, ∃ d, ClassDesc.ofPlan c' s' settings p = .ok d := by
    intro p hp
    have hp' := hplans.mem_iff.mpr hp
    obtain ⟨d, hd⟩ := exists_mapM_iff.mp ⟨_, mapM_ok_iff.mpr hclasses⟩ p hp'
    obtain ⟨d', hd', -⟩ := ClassDesc.sameButUpdates_of_ofPlan h hcheck hs hs' hp' hd
    exact ⟨d', hd'⟩
  obtain ⟨classes, hclasses'⟩ := exists_mapM_iff.mpr hdescribed
  split at hdefinitions
  · rename_i henabled
    obtain ⟨ds, hds, -⟩ := hdefinitions
    obtain ⟨ds', hds'⟩ := (Projection.exists_projectTypes_iff_of_reordered h hhas).mpr ⟨ds, hds⟩
    refine ⟨⟨c'.models.length, classes, some ds'⟩,
      ofSurvey_ok_iff.mpr ⟨rfl, mapM_ok_iff.mp hclasses', ?_⟩⟩
    rw [if_pos henabled]
    exact ⟨ds', hds', rfl⟩
  · rename_i henabled
    refine ⟨⟨c'.models.length, classes, none⟩,
      ofSurvey_ok_iff.mpr ⟨rfl, mapM_ok_iff.mp hclasses', ?_⟩⟩
    rw [if_neg henabled]

theorem sameUpToOrder_of_ofSurvey {o o' : Output} (ho : ofSurvey c s settings = .ok o)
    (ho' : ofSurvey c' s' settings = .ok o') : SameUpToOrder c c' settings o o' := by
  obtain ⟨hmodels, hclasses, hdefinitions⟩ := ofSurvey_ok_iff.mp ho
  obtain ⟨hmodels', hclasses', hdefinitions'⟩ := ofSurvey_ok_iff.mp ho'
  have hplans := hs.plans_perm hs' h hcheck
  have hhas := hs.has_eq hs' h hcheck
  refine ⟨?_, nodup_qualifiedNames ho, ?_, ?_⟩
  · obtain ⟨targets, htargets, hperm⟩ := h
    rw [hmodels, hmodels', (Catalog.models_perm htargets hperm).length_eq, List.length_map]
  · obtain ⟨classes, hmatched, hperm⟩ := List.perm_comp_forall₂ hplans hclasses'
    refine ⟨classes, forall₂_join hclasses hmatched ?_, hperm⟩
    intro p hp d d' hd hd'
    obtain ⟨e, he, hsame⟩ := ClassDesc.sameButUpdates_of_ofPlan h hcheck hs hs' hp hd
    obtain rfl : e = d' := Except.ok.inj (he.symm.trans hd')
    exact hsame
  · split at hdefinitions
    · rename_i henabled
      rw [if_pos henabled] at hdefinitions'
      obtain ⟨ds, hds, hsome⟩ := hdefinitions
      obtain ⟨ds', hds', hsome'⟩ := hdefinitions'
      rw [← hsome, ← hsome']
      exact .some ⟨Projection.nodup_of_projectTypes hds,
        (Projection.perm_of_projectTypes h hhas hds hds').symm⟩
    · rename_i henabled
      rw [if_neg henabled] at hdefinitions'
      rw [← hdefinitions, ← hdefinitions']
      exact .none

end Surveyed

theorem exists_ofCatalog_of_reordered (h : c.Reordered c') {o : Output}
    (ho : ofCatalog c settings = .ok o) : ∃ o', ofCatalog c' settings = .ok o' := by
  obtain ⟨hcheck, s, hs, ho⟩ := ofCatalog_ok_iff.mp ho
  have hhas := h.has_eq hcheck
  obtain ⟨hplannable, hnodup⟩ := Catalog.exists_survey_iff.mp ⟨s, hs⟩
  obtain ⟨s', hs'⟩ := Catalog.exists_survey_iff.mpr
    ⟨h.plannable hhas hplannable, ((h.plans_perm hhas).map _).nodup_iff.mpr hnodup⟩
  obtain ⟨o', ho'⟩ := exists_ofSurvey h hcheck (Catalog.surveyed_of_ofCatalog hs)
    (Catalog.surveyed_of_ofCatalog hs') ho
  exact ⟨o', ofCatalog_ok_iff.mpr ⟨h.check_ok hcheck, s', hs', ho'⟩⟩

/-- A pass over a catalog in another order succeeds just as well and gives the same. -/
theorem ofCatalog_order_independent (h : c.Reordered c') :
    ((∃ o', ofCatalog c' settings = .ok o') ↔ ∃ o, ofCatalog c settings = .ok o) ∧
      ∀ o o', ofCatalog c settings = .ok o → ofCatalog c' settings = .ok o' →
        SameUpToOrder c c' settings o o' := by
  refine ⟨⟨?_, ?_⟩, ?_⟩
  · rintro ⟨o', ho'⟩
    exact exists_ofCatalog_of_reordered h.symm ho'
  · rintro ⟨o, ho⟩
    exact exists_ofCatalog_of_reordered h ho
  · intro o o' ho ho'
    obtain ⟨hcheck, s, hs, ho⟩ := ofCatalog_ok_iff.mp ho
    obtain ⟨-, s', hs', ho'⟩ := ofCatalog_ok_iff.mp ho'
    exact sameUpToOrder_of_ofSurvey h hcheck (Catalog.surveyed_of_ofCatalog hs)
      (Catalog.surveyed_of_ofCatalog hs') ho ho'

/-- An account with two transfer objects, and its owner. -/
def accounts : Catalog where
  decls := [
    { Decl.plain "shop.Owner" .interface with
      properties := [.plain "name" (.scalar .string)] },
    { Decl.plain "shop.Account" .interface with
      properties := [.plain "owner" (.nullable (.named "shop.Owner" [])),
        .plain "credit" (.scalar .int)]
      targets := [.ofKind .jpaEntity, .dto "Patch", .dto "View"] }]
  nodup := by decide

def accountTargets (name : String) : List Target :=
  if name = "shop.Account" then [.dto "View", .dto "Patch", .ofKind .jpaEntity] else []

def accountsReversed : Catalog where
  decls := (accounts.decls.map (Decl.retarget accountTargets)).reverse
  nodup := by decide

theorem reordered_accounts : accounts.Reordered accountsReversed :=
  ⟨accountTargets, by decide, List.reverse_perm _⟩

theorem ofCatalog_order_independent_accounts :
    accounts.Reordered accountsReversed ∧ ∃ o o', ofCatalog accounts .standard = .ok o ∧
      ofCatalog accountsReversed .standard = .ok o' ∧
      SameUpToOrder accounts accountsReversed .standard o o' := by
  refine ⟨reordered_accounts, _, _, rfl, rfl, ?_⟩
  exact (ofCatalog_order_independent reordered_accounts).2 _ _ rfl rfl

end Output

end Scaffold
