import Scaffold.Proofs.Emitting
import Scaffold.Proofs.Registering

/-!
The shape of generated classes. The constructor, the properties and the methods are made from
the members one by one; together they are a class in which every name that is used is there.
-/
namespace Scaffold

namespace Method

variable {fields fields' : Expr → String → Prop} {targets targets' : List String × Expr → Prop}
  {m : Method}

theorem Sound.mono (h : m.Sound fields targets)
    (hfields : ∀ receiver name, fields receiver name → fields' receiver name)
    (htargets : ∀ target, targets target → targets' target) : m.Sound fields' targets' := by
  have hadmitted : ∀ part, Expr.Admitted fields part → Expr.Admitted fields' part := by
    rintro ⟨scope, e⟩ hpart
    cases e with
    | field receiver name => exact hfields receiver name hpart
    | ident name => exact hpart
    | _ => exact trivial
  exact ⟨fun q hq e he part hpart => hadmitted part (h.defaults q hq e he part hpart),
    fun part hpart => hadmitted part (h.body.reads part hpart),
    fun target htarget => htargets target (h.body.writes target htarget), h.body.returns⟩

end Method

namespace ClassDesc

variable {c : Catalog} {settings : Settings} {s : Survey} {p : Plan} {table : PropertyTable}
  {d : ClassDesc}

/-- The names of the properties that the class of a plan declares. -/
def declaredNames (p : Plan) (table : PropertyTable) : List String :=
  ((Member.collect p table).filter (·.declared)).map Member.name

section Shape

/-- A method may read the members of its own class, those of the other object that it is compared
to, and what the transfer object that it takes declares. -/
inductive Readable (s : Survey) (p : Plan) (table : PropertyTable) (m : Method) :
    Expr → String → Prop
  | own {name : String} (h : name ∈ (Member.collect p table).map Member.name) :
    Readable s p table m .this name
  | that {name : String} (hkind : m.kind = .equals)
    (h : name ∈ (Member.collect p table).map Member.name) :
    Readable s p table m (.ident Body.that) name
  | other {name : String} (hkind : m.kind = .compareTo)
    (h : name ∈ (Member.collect p table).map Member.name) :
    Readable s p table m (.ident Body.other) name
  | source {name : String} {dto : Plan} (hkind : m.kind = .updateBy)
    (hdto : dto ∈ s.roster.dtosOf p.model) (hparam : m.params = [⟨Body.other, dto.type, none⟩])
    (h : name ∈ declaredNames dto table) : Readable s p table m (.ident Body.other) name

/-- A method may assign to the variables in scope; updateBy assigns to the properties of the
class instead. -/
inductive Assignable (p : Plan) (table : PropertyTable) (m : Method) : List String × Expr → Prop
  | variable {scope : List String} {name : String} (hkind : m.kind ≠ .updateBy)
    (h : name ∈ scope) : Assignable p table m (scope, .ident name)
  | property {scope : List String} {name : String} (hkind : m.kind = .updateBy)
    (h : name ∈ declaredNames p table) : Assignable p table m (scope, .thisField name)

/-- What holds of a class, given the properties of its model. -/
structure WellFormed (s : Survey) (p : Plan) (table : PropertyTable) (d : ClassDesc) : Prop where
  nodup : (d.properties.map PropertyDesc.name).Nodup
  properties : d.properties.map PropertyDesc.name = declaredNames p table
  /-- The parameters of the constructor, other than the guard, are the properties. -/
  parameters : (d.constructor.filter (!·.isGuard)).map (fun q => (q.name, q.type)) =
    d.properties.map fun q => (q.name, q.type)
  guards : d.constructor.countP (·.isGuard) = if p.guardAt.isSome then 1 else 0
  guardAt : ∀ n, p.guardAt = some n →
    (d.constructor[min n d.properties.length]?).map ConstructorParam.isGuard = some true
  methods : ∀ m ∈ d.methods, m.Sound (Readable s p table m) (Assignable p table m)
  /-- Running a method to its end gives a value. -/
  answers : ∀ m ∈ d.methods, ∀ (k : Eval.Machine) (f g : Eval.Frame) (st st' : Eval.Store)
    (v : Option Eval.Value), Eval.execAll k f m.body st = (.ok (v, g), st') → v.isSome = true
  /-- A transfer object has no members but its properties. -/
  members : p.kind = .dto → (Member.collect p table).map Member.name = declaredNames p table
  immutable : p.kind = .immutable →
    (∀ q ∈ d.properties, q.isMutable = false) ∧ ∀ m ∈ d.methods, m.kind ≠ .updateBy

end Shape

section Constructor

variable {members : List Member} {params : List ConstructorParam}

theorem parameters_of_mapM (h : members.mapM (parameter c settings p) = .ok params) :
    params.map (fun q => (q.name, q.type)) = members.map (fun m => (m.name, m.type)) ∧
      ∀ q ∈ params, q.isGuard = false := by
  have hparams := mapM_ok_iff.mp h
  clear h
  induction hparams with
  | nil => exact ⟨rfl, List.forall_mem_nil _⟩
  | cons hparam _ ih =>
    obtain ⟨default, -, rfl⟩ := map_ok_iff.mp hparam
    rw [List.map_cons, List.map_cons, ih.1, List.forall_mem_cons]
    exact ⟨rfl, rfl, ih.2⟩

variable (hparams : ∀ q ∈ params, q.isGuard = false)

include hparams

theorem filter_withGuard : (withGuard p params).filter (!·.isGuard) = params := by
  have hkept : params.filter (!·.isGuard) = params :=
    List.filter_eq_self.mpr fun q hq => by rw [hparams q hq]; rfl
  unfold withGuard
  cases p.guardAt with
  | none => exact hkept
  | some n =>
    change (params.take n ++ guardParam :: params.drop n).filter _ = params
    rw [List.filter_append, List.filter_cons_of_neg (by decide), ← List.filter_append,
      List.take_append_drop, hkept]

theorem countP_withGuard :
    (withGuard p params).countP (·.isGuard) = if p.guardAt.isSome then 1 else 0 := by
  have hnone : ∀ part : List ConstructorParam, part.Sublist params →
      part.countP (·.isGuard) = 0 := fun part hpart =>
    List.countP_eq_zero.mpr fun q hq => by rw [hparams q (hpart.subset hq)]; decide
  unfold withGuard
  cases p.guardAt with
  | none => exact hnone params (List.Sublist.refl _)
  | some n =>
    change (params.take n ++ guardParam :: params.drop n).countP _ = 1
    rw [List.countP_append, List.countP_cons_of_pos (by rfl), hnone _ (List.take_sublist _ _),
      hnone _ (List.drop_sublist _ _)]

omit hparams in
theorem getElem?_withGuard {n : Nat} (h : p.guardAt = some n) :
    (withGuard p params)[min n params.length]? = some guardParam := by
  have hguard : withGuard p params = params.take n ++ guardParam :: params.drop n := by
    unfold withGuard
    rw [h]
  rw [hguard, ← List.length_take, List.getElem?_append_right le_rfl, Nat.sub_self]
  rfl

end Constructor

section Methods

/-- The methods that a class may have. -/
inductive Emitted (s : Survey) (p : Plan) (table : PropertyTable) : Method → Prop
  | equals : Emitted s p table (Body.equals p (Member.collect p table))
  | hashCode : Emitted s p table (Body.hashCode p (Member.collect p table))
  | toText : Emitted s p table (Body.toText p (Member.collect p table))
  | compareTo {order : Body.Sequence}
    (horder : Body.sequence p table (Member.collect p table) = .ok order) :
    Emitted s p table (Body.compareTo p s.capabilities order)
  | clone : Emitted s p table (Body.clone p (Member.collect p table))
  | copy : Emitted s p table (Body.copy p (Member.collect p table))
  | updateBy {dto : Plan} (hmutable : p.isMutable = true) (hdto : dto ∈ s.roster.dtosOf p.model) :
    Emitted s p table
      (Body.updateBy p (Member.collect p table) dto (Member.collect dto table))

theorem emitted_of_mem_updates :
    ∀ m ∈ updates s.roster p table (Member.collect p table), Emitted s p table m := by
  unfold updates
  split
  · rename_i hmutable
    rw [List.forall_mem_map]
    exact fun dto hdto => .updateBy hmutable (List.mem_of_mem_filter hdto)
  · exact List.forall_mem_nil _

/-- What a description is made of. -/
theorem ofPlan_parts (h : ofPlan c s settings p = .ok d) : ∃ table params,
    s.propertiesOf p.model = .ok table ∧
      ((Member.collect p table).filter (·.declared)).mapM (parameter c settings p) = .ok params ∧
      d.constructor = withGuard p params ∧
      d.properties = ((Member.collect p table).filter (·.declared)).map (property p) ∧
      ∀ m ∈ d.methods, Emitted s p table m := by
  unfold ofPlan at h
  obtain ⟨table, htable, h⟩ := bind_ok_iff.mp h
  obtain ⟨params, hparams, h⟩ := bind_ok_iff.mp h
  obtain ⟨order, horder, h⟩ := ite_bind_ok_iff.mp h
  obtain rfl := Except.ok.inj h
  refine ⟨table, params, htable, hparams, rfl, rfl, ?_⟩
  simp only [List.forall_mem_append]
  refine ⟨⟨⟨⟨⟨⟨?_, ?_⟩, ?_⟩, ?_⟩, ?_⟩, ?_⟩, emitted_of_mem_updates⟩ <;>
    refine forall_mem_ite _ fun hasIt => ?_
  · exact .equals
  · exact .hashCode
  · exact .toText
  · exact .compareTo (by rwa [if_pos hasIt] at horder)
  · exact .clone
  · exact .copy

/-- The own methods of a class read its members only. -/
theorem sound_own {m : Method} (h : m.Sound (Body.OfMembers (Member.collect p table) [.this])
    Body.IsLocal) (hkind : m.kind ≠ .updateBy) :
    m.Sound (Readable s p table m) (Assignable p table m) := by
  refine h.mono ?_ ?_
  · rintro receiver name ⟨hreceiver, hname⟩
    obtain rfl := List.mem_singleton.mp hreceiver
    exact .own hname
  · rintro ⟨scope, target⟩ ⟨name, hname, rfl⟩
    exact .variable hkind hname

/-- Those that compare two objects read the members of both. -/
theorem sound_comparing {m : Method} {receiver : Expr}
    (h : m.Sound (Body.OfMembers (Member.collect p table) [.this, receiver]) Body.IsLocal)
    (hkind : m.kind ≠ .updateBy)
    (hreceiver : ∀ name ∈ (Member.collect p table).map Member.name,
      Readable s p table m receiver name) :
    m.Sound (Readable s p table m) (Assignable p table m) := by
  refine h.mono ?_ ?_
  · rintro e name ⟨he, hname⟩
    rcases List.mem_cons.mp he with rfl | he
    · exact .own hname
    · obtain rfl := List.mem_singleton.mp he
      exact hreceiver name hname
  · rintro ⟨scope, target⟩ ⟨name, hname, rfl⟩
    exact .variable hkind hname

theorem sound_update {dto : Plan} (hdto : dto ∈ s.roster.dtosOf p.model) :
    let m := Body.updateBy p (Member.collect p table) dto (Member.collect dto table)
    m.Sound (Readable s p table m) (Assignable p table m) := by
  refine Body.sound_updateBy.mono ?_ ?_
  · intro receiver name hname
    cases hname with
    | mine hname => exact .own hname
    | theirs hsource hdeclared =>
      exact .source rfl hdto rfl (List.mem_map_of_mem (List.mem_filter.mpr ⟨hsource, hdeclared⟩))
  · rintro ⟨scope, target⟩ ⟨m, hm, hdeclared, rfl⟩
    exact .property rfl (List.mem_map_of_mem (List.mem_filter.mpr ⟨hm, hdeclared⟩))

theorem sound_of_emitted {m : Method} (h : Emitted s p table m) :
    m.Sound (Readable s p table m) (Assignable p table m) := by
  cases h with
  | equals => exact sound_comparing Body.sound_equals nofun fun _ => .that rfl
  | hashCode => exact sound_own Body.sound_hashCode nofun
  | toText => exact sound_own Body.sound_toText nofun
  | compareTo horder =>
    refine sound_comparing (Body.sound_compareTo fun entry hentry => ?_) nofun fun _ => .other rfl
    rw [Body.sequence_eq horder] at hentry
    exact Body.mem_of_mem_comparisonOrder hentry
  | clone => exact sound_own Body.sound_clone nofun
  | copy => exact sound_own Body.sound_copy nofun
  | updateBy _ hdto => exact sound_update hdto

end Methods

/-- A class that implements nothing declares all of its members. -/
theorem declared_of_mem_collect {m : Member} (hkind : p.kind = .dto)
    (hm : m ∈ Member.collect p table) : m.declared = true := by
  obtain ⟨e, -, hm⟩ := List.mem_filterMap.mp hm
  have himplements : p.implementsModel = false := by
    rw [Plan.implementsModel, hkind]
    rfl
  unfold Member.ofProperty? at hm
  rw [himplements] at hm
  dsimp only at hm
  split at hm
  · simp at hm
  · split at hm
    · simp at hm
    · rename_i hdeclared
      rw [← Option.some.inj hm]
      simpa using hdeclared

/-- Every class that is described over a survey is well formed. -/
theorem wellFormed_of_ofPlan (hs : Survey.ofCatalog c settings = .ok s) (hp : p ∈ s.roster.plans)
    (hd : ofPlan c s settings p = .ok d) :
    ∃ table, s.propertiesOf p.model = .ok table ∧ WellFormed s p table d := by
  have hsurveyed := Catalog.surveyed_of_ofCatalog hs
  obtain ⟨model, hmodel, hname, t, -, hplan⟩ := hsurveyed.exists_target hp
  obtain ⟨table, params, htable, hparams, hconstructor, hproperties, hmethods⟩ := ofPlan_parts hd
  obtain ⟨hlisted, hplain⟩ := parameters_of_mapM hparams
  have hnames : d.properties.map PropertyDesc.name = declaredNames p table := by
    rw [hproperties, List.map_map]
    rfl
  have hlength : d.properties.length = params.length := by
    simpa [hproperties] using (congrArg List.length hlisted).symm
  refine ⟨table, htable, ?_⟩
  exact {
    nodup := by
      rw [hname, hsurveyed.tables model hmodel] at htable
      rw [hnames]
      exact (Member.nodup_names_collect p htable).sublist (List.filter_sublist.map _)
    properties := hnames
    parameters := by
      rw [hconstructor, filter_withGuard hplain, hlisted, hproperties, List.map_map]
      rfl
    guards := by
      rw [hconstructor]
      exact countP_withGuard hplain
    guardAt := by
      intro n hn
      rw [hconstructor, hlength, getElem?_withGuard hn]
      rfl
    methods := fun m hm => sound_of_emitted (hmethods m hm)
    answers := fun m hm _ _ _ _ _ _ h =>
      Eval.isSome_of_execAll (sound_of_emitted (hmethods m hm)).body.returns h
    members := by
      intro hkind
      rw [declaredNames, List.filter_eq_self.mpr fun m hm => declared_of_mem_collect hkind hm]
    immutable := by
      intro hkind
      have hfixed := (Catalog.ofTarget_spec hplan).2.2 hkind
      refine ⟨?_, fun m hm hupdate => ?_⟩
      · rw [hproperties, List.forall_mem_map]
        exact fun _ _ => hfixed
      · cases hmethods m hm with
        | updateBy hmutable => exact absurd (hmutable.symm.trans hfixed) (by decide)
        | _ => exact absurd hupdate nofun }

/-- A model with a property that its classes inherit, an entity that is built by name only and
a transfer object. -/
def press : Catalog where
  decls := [
    { Decl.plain "press.Article" .interface with
      properties := [.plain "title" (.scalar .string),
        { Property.plain "slug" (.scalar .string) with directives := [.preventOverride none] },
        .plain "teaser" (.nullable (.scalar .string))]
      targets := [{ Target.ofKind .jpaEntity with guardAt := some 7 }, .dto "Patch"] }]
  nodup := by decide

theorem wellFormed_of_ofPlan_press :
    ∃ s p d table, Survey.ofCatalog press .standard = .ok s ∧ p ∈ s.roster.plans ∧
      ofPlan press s .standard p = .ok d ∧ d.name = "ArticleEntity" ∧
      (Member.collect p table).map Member.name = ["title", "slug", "teaser"] ∧
      d.constructor.map ConstructorParam.name = ["title", "teaser", "namedArgumentsOnly"] ∧
      d.methods.map Method.kind = [.equals, .hashCode, .toText, .copy, .updateBy] ∧
      WellFormed s p table d := by
  have hentity : ∃ s p d, Survey.ofCatalog press .standard = .ok s ∧ p ∈ s.roster.plans ∧
      ofPlan press s .standard p = .ok d ∧ d.name = "ArticleEntity" ∧
      ((s.propertiesOf p.model).map fun table => (Member.collect p table).map Member.name) =
        .ok ["title", "slug", "teaser"] ∧
      d.constructor.map ConstructorParam.name = ["title", "teaser", "namedArgumentsOnly"] ∧
      d.methods.map Method.kind = [.equals, .hashCode, .toText, .copy, .updateBy] :=
    ⟨_, _, _, rfl, List.mem_cons_self, rfl, rfl, rfl, rfl, rfl⟩
  obtain ⟨s, p, d, hs, hp, hd, hname, hmembers, hconstructor, hmethods⟩ := hentity
  obtain ⟨table, htable, hwell⟩ := wellFormed_of_ofPlan hs hp hd
  rw [htable] at hmembers
  exact ⟨s, p, d, table, hs, hp, hd, hname, Except.ok.inj hmembers, hconstructor, hmethods, hwell⟩

end ClassDesc

end Scaffold
