import Scaffold.Proofs.OrderIndependence

/-!
What a registry holds after any number of plans were brought to it. A plan is refused just if its
class is there, a plan that was refused leaves no trace, and both indexes name the places of the
plans that were accepted. The roster of a survey is complete before any class is described, so a
mutable class is updated from every other transfer object of its model, wherever among the
targets that one stands.
-/
namespace Scaffold

namespace Registry.Builder

/-- The plans that were not refused. -/
def accepted (answers : List (Plan × Option Fault)) : List Plan :=
  (answers.filter (·.2.isNone)).map Prod.fst

variable {b b' : Builder} {p : Plan}

/-- A plan is refused just if a plan for its class is there, which the fault names, and then the
builder stays as it is. -/
theorem Sound.register_refused_iff (h : b.Sound) {f : Fault} :
    b.register p = some (b', some f) ↔ b' = b ∧ ∃ q ∈ b.plans,
      q.qualifiedName = p.qualifiedName ∧ f = .duplicateClass p.qualifiedName q.title p.title := by
  rcases h.register_cases p with ⟨hnew, hregister⟩ | ⟨q, hq, hname, hregister⟩
  · refine iff_of_false (by simp [hregister]) ?_
    rintro ⟨-, q, hq, hname, -⟩
    exact hnew (List.mem_map.mpr ⟨q, hq, hname⟩)
  · rw [hregister, Option.some.injEq, Prod.mk.injEq, Option.some.injEq]
    constructor
    · rintro ⟨rfl, rfl⟩
      exact ⟨rfl, q, hq, hname, rfl⟩
    · rintro ⟨rfl, q', hq', hname', rfl⟩
      obtain rfl := List.inj_on_of_nodup_map h.nodup hq hq' (hname.trans hname'.symm)
      exact ⟨rfl, rfl⟩

theorem registerAll_cons {answer : Option Fault} (h : b.register p = some (b', answer))
    (rest : List Plan) : b.registerAll (p :: rest) =
      (b'.registerAll rest).map fun later => (later.1, (p, answer) :: later.2) := by
  rw [registerAll, h]
  cases hlater : b'.registerAll rest <;> simp [hlater]

theorem registerAll_append (b : Builder) (ps qs : List Plan) :
    b.registerAll (ps ++ qs) = (b.registerAll ps).bind fun run =>
      (run.1.registerAll qs).map fun later => (later.1, run.2 ++ later.2) := by
  induction ps generalizing b with
  | nil => simp [registerAll]
  | cons p ps ih =>
    cases hregister : b.register p with
    | none => simp [registerAll, hregister]
    | some next =>
      rw [List.cons_append, registerAll_cons hregister, registerAll_cons hregister, ih]
      cases next.1.registerAll ps with
      | none => rfl
      | some run => cases hrun : run.1.registerAll qs <;> simp [hrun]

/-- What a builder and the answers tell of the plans that were brought to another one. -/
structure Run (b : Builder) (ps : List Plan) (last : Builder)
    (answers : List (Plan × Option Fault)) : Prop where
  sound : last.Sound
  asked : answers.map Prod.fst = ps
  plans : last.plans = b.plans ++ accepted answers
  /-- Of the plans for one class the first is accepted. -/
  firsts : accepted answers = Distinct.firsts Plan.qualifiedName
    (ps.filter (·.qualifiedName ∉ b.plans.map Plan.qualifiedName))

theorem Run.accept {ps : List Plan} {last : Builder} {answers : List (Plan × Option Fault)}
    (h : Run (b.append p) ps last answers)
    (hnew : p.qualifiedName ∉ b.plans.map Plan.qualifiedName) :
    Run b (p :: ps) last ((p, none) :: answers) where
  sound := h.sound
  asked := by rw [List.map_cons, h.asked]
  plans := by
    rw [h.plans, append, List.append_assoc]
    rfl
  firsts := by
    have haccepted : accepted ((p, none) :: answers) = p :: accepted answers := rfl
    rw [haccepted, h.firsts, Distinct.firsts_unseen_cons, if_neg hnew, append, List.map_append]
    rfl

theorem Run.refuse {ps : List Plan} {last : Builder} {answers : List (Plan × Option Fault)}
    (h : Run b ps last answers) (hmem : p.qualifiedName ∈ b.plans.map Plan.qualifiedName)
    (f : Fault) : Run b (p :: ps) last ((p, some f) :: answers) where
  sound := h.sound
  asked := by rw [List.map_cons, h.asked]
  plans := h.plans
  firsts := by
    rw [Distinct.firsts_unseen_cons, if_pos hmem]
    exact h.firsts

theorem Sound.exists_run (h : b.Sound) (ps : List Plan) :
    ∃ last answers, b.registerAll ps = some (last, answers) ∧ Run b ps last answers := by
  induction ps generalizing b with
  | nil => exact ⟨b, [], rfl, h, rfl, (List.append_nil _).symm, rfl⟩
  | cons p ps ih =>
    rcases h.register_cases p with ⟨hnew, hregister⟩ | ⟨q, hq, hname, hregister⟩
    · obtain ⟨last, answers, hlast, hrun⟩ := ih (h.append hnew)
      refine ⟨last, (p, none) :: answers, ?_, hrun.accept hnew⟩
      rw [registerAll_cons hregister, hlast]
      rfl
    · obtain ⟨last, answers, hlast, hrun⟩ := ih h
      have hmem := List.mem_map.mpr ⟨q, hq, hname⟩
      refine ⟨last, (p, some (.duplicateClass p.qualifiedName q.title p.title)) :: answers, ?_,
        hrun.refuse hmem _⟩
      rw [registerAll_cons hregister, hlast]
      rfl

/-- Plans for different new classes are all accepted. -/
theorem Sound.exists_accepting (h : b.Sound) (ps : List Plan)
    (hnodup : ((b.plans ++ ps).map Plan.qualifiedName).Nodup) :
    ∃ last, b.registerAll ps = some (last, ps.map fun p => (p, none)) ∧ last.Sound ∧
      last.plans = b.plans ++ ps := by
  induction ps generalizing b with
  | nil => exact ⟨b, rfl, h, (List.append_nil _).symm⟩
  | cons p ps ih =>
    have hnew : p.qualifiedName ∉ b.plans.map Plan.qualifiedName := by
      rw [List.map_append] at hnodup
      intro hmem
      exact (List.nodup_append.mp hnodup).2.2 _ hmem _ List.mem_cons_self rfl
    rw [List.append_cons] at hnodup
    obtain ⟨last, hlast, hsound, hplans⟩ := ih (h.append hnew) hnodup
    rcases h.register_cases p with ⟨-, hregister⟩ | ⟨q, hq, hname, -⟩
    · refine ⟨last, ?_, hsound, by rw [hplans, List.append_cons]; rfl⟩
      rw [registerAll_cons hregister, hlast]
      rfl
    · exact absurd (List.mem_map.mpr ⟨q, hq, hname⟩) hnew

/-- What a builder and its finished registry hold after plans were brought to it, and what the
next plan will find. -/
structure Consistent (ps : List Plan) (b : Builder) (answers : List (Plan × Option Fault)) :
    Prop where
  asked : answers.map Prod.fst = ps
  firsts : accepted answers = Distinct.firsts Plan.qualifiedName ps
  nodup : ((accepted answers).map Plan.qualifiedName).Nodup
  plans : b.plans = accepted answers
  byClass : ∀ name,
    b.byClass.lookup name = (accepted answers).findIdx? (·.qualifiedName = name)
  finished : b.finish.plans = accepted answers
  byModel : ∀ model,
    (b.finish.byModel.lookup model).getD [] = placesOf (accepted answers) model
  ofModel : ∀ model, b.finish.ofModel? model = some ((accepted answers).filter (·.model = model))
  dtosOf : ∀ model, b.finish.dtosOf? model =
    some ((accepted answers).filter fun p => p.model = model ∧ p.kind = .dto)
  /-- The next plan is answered, and later plans find the builder that it leaves. -/
  answered : ∀ p, ∃ next answer, b.register p = some (next, answer) ∧
    ∀ rest, empty.registerAll (ps ++ p :: rest) =
      (next.registerAll rest).map fun later => (later.1, answers ++ (p, answer) :: later.2)
  /-- It is refused just if its class is that of one that was accepted, and then it leaves the
  builder as it is. -/
  refused : ∀ p next f, b.register p = some (next, some f) ↔ next = b ∧
    ∃ q ∈ accepted answers, q.qualifiedName = p.qualifiedName ∧
      f = .duplicateClass p.qualifiedName q.title p.title

theorem exists_consistent (ps : List Plan) :
    ∃ b answers, empty.registerAll ps = some (b, answers) ∧ Consistent ps b answers := by
  obtain ⟨b, answers, hanswers, hrun⟩ := sound_empty.exists_run ps
  have hplans : b.plans = accepted answers := hrun.plans
  refine ⟨b, answers, hanswers, ?_⟩
  exact {
    asked := hrun.asked
    firsts := by
      rw [hrun.firsts]
      simp [empty]
    nodup := by
      rw [← hplans]
      exact hrun.sound.nodup
    plans := hplans
    byClass := by
      intro name
      rw [hrun.sound.lookup_byClass, hplans]
    finished := hplans
    byModel := by
      intro model
      rw [byModel_finish, hplans]
    ofModel := by
      intro model
      rw [ofModel?_finish, hplans]
    dtosOf := by
      intro model
      rw [dtosOf?_finish, hplans, List.filter_filter]
      simp only [Bool.decide_and, Bool.and_comm]
    answered := by
      intro p
      obtain ⟨⟨next, answer⟩, hregister⟩ :=
        Option.ne_none_iff_exists'.mp (hrun.sound.register_ne_none p)
      refine ⟨next, answer, hregister, fun rest => ?_⟩
      rw [registerAll_append, hanswers, Option.bind_some, registerAll_cons hregister,
        Option.map_map]
      rfl
    refused := by
      intro p next f
      rw [hrun.sound.register_refused_iff, hplans] }

end Registry.Builder

/-- A roster is what the registration of its plans comes to. -/
theorem Roster.registerAll_plans (r : Roster) :
    Registry.Builder.empty.registerAll r.plans =
      some (r.builder, r.plans.map fun p => (p, none)) := by
  obtain ⟨last, hlast, hsound, hplans⟩ :=
    Registry.Builder.sound_empty.exists_accepting r.plans r.nodup
  have hsame : (⟨last, hsound⟩ : Roster) = r := Roster.eq_of_plans hplans
  rw [hlast, ← hsame]

namespace ClassDesc

variable {c : Catalog} {settings : Settings} {s : Survey} {p : Plan}

/-- The methods by which a class is updated. -/
def updateMethods (d : ClassDesc) : List Method := d.methods.filter (·.kind = .updateBy)

theorem updateMethods_ofPlan {d : ClassDesc} (h : ofPlan c s settings p = .ok d) :
    ∃ table, d.updateMethods = updates s.roster p table (Member.collect p table) := by
  obtain ⟨-, -, own, table, hown, hmethods⟩ := ofPlan_spec h
  have hupdates : ∀ u ∈ updates s.roster p table (Member.collect p table), u.kind = .updateBy := by
    intro u hu
    unfold updates at hu
    split at hu
    · obtain ⟨dto, -, rfl⟩ := List.mem_map.mp hu
      rfl
    · exact absurd hu List.not_mem_nil
  refine ⟨table, ?_⟩
  rw [updateMethods, hmethods, List.filter_append,
    List.filter_eq_nil_iff.mpr fun u hu => by simpa using hown u hu, List.nil_append]
  exact List.filter_eq_self.mpr fun u hu => by simpa using hupdates u hu

/-- No two methods take transfer objects of one class. -/
theorem nodup_updates (roster : Roster) (p : Plan) (table : PropertyTable)
    (members : List Member) :
    ((updates roster p table members).map fun u => u.params.map Param.type).Nodup := by
  unfold updates
  split
  · rw [List.map_map]
    have hsublist : ((roster.dtosOf p.model).filter (·.qualifiedName ≠ p.qualifiedName)).Sublist
        roster.plans := by
      rw [Roster.dtosOf_eq, Roster.ofModel_eq]
      exact List.filter_sublist.trans (List.filter_sublist.trans List.filter_sublist)
    have hnames := roster.nodup.sublist (hsublist.map Plan.qualifiedName)
    refine (List.Nodup.of_map Plan.qualifiedName hnames).map_on ?_
    intro q hq q' hq' hsame
    refine List.inj_on_of_nodup_map hnames hq hq' ?_
    have htypes : [q.type] = [q'.type] := hsame
    simp only [Plan.type, List.cons.injEq, Ty.named.injEq] at htypes
    exact htypes.1.1
  · exact List.nodup_nil

end ClassDesc

namespace Catalog

variable {c : Catalog} {settings : Settings} {k : Capabilities} {s : Survey} {p : Plan} {m : Decl}

/-- The class for a target, if it can be planned. -/
def className (c : Catalog) (k : Capabilities) (settings : Settings) (m : Decl) (t : Target) :
    String :=
  ((Plan.ofTarget c k settings m t).toOption.map Plan.qualifiedName).getD ""

theorem className_of_ofTarget {t : Target} (h : Plan.ofTarget c k settings m t = .ok p) :
    className c k settings m t = p.qualifiedName := by
  rw [className, h]
  rfl

/-- The classes for the targets of a model differ. -/
theorem Surveyed.nodup_classNames (hs : c.Surveyed settings s) (hm : m ∈ c.models) :
    (m.targets.map (className c (.ofCatalog c) settings m)).Nodup := by
  have hnodup : ((plansFor c (.ofCatalog c) settings m).map Plan.qualifiedName).Nodup := by
    rw [← plans_filter_model hm, ← hs.plans]
    exact s.roster.nodup.sublist (List.filter_sublist.map _)
  have hnames : (plansFor c (.ofCatalog c) settings m).map Plan.qualifiedName =
      m.targets.map (className c (.ofCatalog c) settings m) := by
    rw [plansFor, List.map_filterMap, List.filterMap_eq_map_iff_forall_eq_some]
    intro t ht
    obtain ⟨p, hp⟩ := hs.plannable m hm t ht
    rw [className_of_ofTarget hp, hp]
    rfl
  rwa [hnames] at hnodup

/-- The plan of a roster was made for a target of its model. -/
theorem Surveyed.exists_target (hs : c.Surveyed settings s) (hp : p ∈ s.roster.plans) :
    ∃ m ∈ c.models, p.model = m.name ∧
      ∃ t ∈ m.targets, Plan.ofTarget c (.ofCatalog c) settings m t = .ok p := by
  rw [hs.plans] at hp
  obtain ⟨m, hm, hpm⟩ := List.mem_flatMap.mp hp
  obtain ⟨t, ht, hplan⟩ := List.mem_filterMap.mp hpm
  refine ⟨m, hm, model_of_mem_plansFor hpm, t, ht, ?_⟩
  cases hok : Plan.ofTarget c (.ofCatalog c) settings m t with
  | error f => simp [hok, Except.toOption] at hplan
  | ok q =>
    rw [hok] at hplan
    exact congrArg Except.ok (Option.some.inj hplan)

end Catalog

/-- What is kept of a row corresponds to what it becomes. -/
theorem forall₂_filterMap {α β : Type} {R : α → β → Prop} {f : α → Option β} {q : α → Bool}
    {l : List α} (h : ∀ a ∈ l, (q a = true ↔ (f a).isSome = true) ∧ ∀ b, f a = some b → R a b) :
    List.Forall₂ R (l.filter q) (l.filterMap f) := by
  induction l with
  | nil => exact .nil
  | cons a l ih =>
    rw [List.forall_mem_cons] at h
    obtain ⟨⟨hq, hR⟩, hl⟩ := h
    cases hf : f a with
    | none =>
      rw [List.filter_cons_of_neg (by simp [hq, hf]), List.filterMap_cons_none hf]
      exact ih hl
    | some b =>
      rw [List.filter_cons_of_pos (by simp [hq, hf]), List.filterMap_cons_some hf]
      exact .cons (hR b hf) (ih hl)

/-- After any row of plans, accepted and refused, the builder and its finished registry are
consistent with the answers. A survey that succeeds has registered all plans of the pass and
none was refused. The targets of a model differ then, and a class is updated from just the other
transfer objects of its model if it is mutable, with no two methods for one class. -/
theorem roster_consistent_updates_complete :
    (∀ ps : List Plan, ∃ b answers, Registry.Builder.empty.registerAll ps = some (b, answers) ∧
      Registry.Builder.Consistent ps b answers) ∧
    ∀ (c : Catalog) (settings : Settings) (s : Survey), Survey.ofCatalog c settings = .ok s →
      Registry.Builder.empty.registerAll (c.plans (.ofCatalog c) settings) =
        some (s.roster.builder, (c.plans (.ofCatalog c) settings).map fun p => (p, none)) ∧
      ∀ p ∈ s.roster.plans, ∀ d, ClassDesc.ofPlan c s settings p = .ok d →
        ∃ m ∈ c.models, p.model = m.name ∧ m.targets.Nodup ∧ ∃ t ∈ m.targets,
          Plan.ofTarget c (.ofCatalog c) settings m t = .ok p ∧
          List.Forall₂ (ClassDesc.UpdatesFrom c settings m)
            (if p.isMutable then m.targets.filter fun u => u.kind = .dto ∧ u ≠ t else [])
            d.updateMethods ∧
          (d.updateMethods.map fun u => u.params.map Param.type).Nodup := by
  refine ⟨Registry.Builder.exists_consistent, fun c settings s hs => ?_⟩
  have hsurveyed := Catalog.surveyed_of_ofCatalog hs
  refine ⟨by rw [← hsurveyed.plans, s.roster.registerAll_plans], ?_⟩
  intro p hp d hd
  obtain ⟨m, hm, hmodel, t, ht, hplan⟩ := hsurveyed.exists_target hp
  have hnames := hsurveyed.nodup_classNames hm
  obtain ⟨table, htable⟩ := ClassDesc.updateMethods_ofPlan hd
  refine ⟨m, hm, hmodel, hnames.of_map, t, ht, hplan, ?_, ?_⟩
  · rw [htable, ClassDesc.updates_eq hsurveyed hm hmodel]
    have hfilter : (if p.isMutable then m.targets.filter fun u => u.kind = .dto ∧ u ≠ t else []) =
        m.targets.filter fun u => p.isMutable ∧ u.kind = .dto ∧ u ≠ t := by
      cases p.isMutable <;> simp
    rw [hfilter]
    refine forall₂_filterMap fun u hu =>
      ⟨?_, fun method hmethod => ClassDesc.updatesFrom_of_updateFrom? hmethod⟩
    obtain ⟨q, hq⟩ := hsurveyed.plannable m hm u hu
    have hother : u ≠ t ↔ q.qualifiedName ≠ p.qualifiedName := by
      rw [← Catalog.className_of_ofTarget hq, ← Catalog.className_of_ofTarget hplan]
      exact not_congr ⟨congrArg _, List.inj_on_of_nodup_map hnames hu ht⟩
    have hkind := (Catalog.ofTarget_spec hq).2.1
    unfold ClassDesc.updateFrom?
    rw [hq]
    simp [Option.isSome_map, hother, hkind, Except.toOption]
  · rw [htable]
    exact ClassDesc.nodup_updates _ _ _ _

/-- A model whose entity is declared between its two transfer objects. -/
def club : Catalog where
  decls := [
    { Decl.plain "club.Member" .interface with
      properties := [.plain "name" (.scalar .string),
        .plain "email" (.nullable (.scalar .string))]
      targets := [.dto "Create", .ofKind .jpaEntity, .dto "Patch"] }]
  nodup := by decide

/-- The plan of the entity is brought to a registry twice, at first and in its place among those
of the roster, where it is refused. -/
theorem roster_consistent_updates_complete_club :
    ∃ s p d, Survey.ofCatalog club .standard = .ok s ∧ p ∈ s.roster.plans ∧
      ClassDesc.ofPlan club s .standard p = .ok d ∧ p.className = "MemberEntity" ∧
      d.updateMethods.map (fun u => u.params.map Param.type) =
        [[.named "club.MemberCreateDTO" []], [.named "club.MemberPatchDTO" []]] ∧
      (∃ b answers, Registry.Builder.empty.registerAll (p :: s.roster.plans) = some (b, answers) ∧
        b.plans.map Plan.className = ["MemberEntity", "MemberCreateDTO", "MemberPatchDTO"] ∧
        Registry.Builder.Consistent (p :: s.roster.plans) b answers) ∧
      ∃ m ∈ club.models, p.model = m.name ∧ ∃ t ∈ m.targets,
        List.Forall₂ (ClassDesc.UpdatesFrom club .standard m)
          (m.targets.filter fun u => u.kind = .dto ∧ u ≠ t) d.updateMethods := by
  have hentity : ∃ s p d, Survey.ofCatalog club .standard = .ok s ∧ p ∈ s.roster.plans ∧
      ClassDesc.ofPlan club s .standard p = .ok d ∧ p.className = "MemberEntity" ∧
      p.isMutable = true ∧ d.updateMethods.map (fun u => u.params.map Param.type) =
        [[.named "club.MemberCreateDTO" []], [.named "club.MemberPatchDTO" []]] ∧
      (Registry.Builder.empty.registerAll (p :: s.roster.plans)).map
          (fun run => run.1.plans.map Plan.className) =
        some ["MemberEntity", "MemberCreateDTO", "MemberPatchDTO"] :=
    ⟨_, _, _, rfl, List.mem_cons_of_mem _ List.mem_cons_self, rfl, rfl, rfl, rfl, rfl⟩
  obtain ⟨s, p, d, hs, hp, hd, hname, hmutable, htypes, hclasses⟩ := hentity
  obtain ⟨b, answers, hrun, hconsistent⟩ :=
    roster_consistent_updates_complete.1 (p :: s.roster.plans)
  rw [hrun] at hclasses
  obtain ⟨m, hm, hmodel, -, t, ht, -, hupdates, -⟩ :=
    (roster_consistent_updates_complete.2 club .standard s hs).2 p hp d hd
  rw [if_pos hmutable] at hupdates
  exact ⟨s, p, d, hs, hp, hd, hname, htypes,
    ⟨b, answers, hrun, Option.some.inj hclasses, hconsistent⟩, m, hm, hmodel, t, ht, hupdates⟩

end Scaffold
