import Scaffold.Proofs.Layering
import Scaffold.Proofs.Shaping

/-!
When a class cannot be described. Each member that the class declares needs a directive that
gives it a first value or requires one, or else an initial value of its type; each key of an
order that is asked for has to name a member. The first member without comes before the first
key without, and nothing else ends a description.
-/
namespace Scaffold

namespace Layers

/-- Some directive about the first value is for this label or for all targets. -/
def Initializes (l : Layers) (label : String) : Prop :=
  ∃ x ∈ l.entries, x.slot = .initializer (some label) ∨ x.slot = .initializer none

instance (l : Layers) (label : String) : Decidable (l.Initializes label) :=
  inferInstanceAs (Decidable (∃ x ∈ l.entries, _))

theorem isSome_initializer_iff (l : Layers) (label : String) :
    (l.initializer label).isSome ↔ l.Initializes label := by
  have hslotted : ∀ target, (l.entries.findSome?
      (Directive.choice? Family.initializer.pick target)).isSome ↔
        ∃ x ∈ l.entries, x.slot = .initializer target := by
    intro target
    rw [List.findSome?_isSome_iff]
    exact exists_congr fun x => and_congr_right fun _ => Family.initializer.slotted x target
  have hlookup : l.initializer label = _ := Family.initializer.lookup_eq label l
  rw [hlookup, Option.isSome_or, Bool.or_eq_true, hslotted, hslotted, Initializes]
  simp only [← exists_or, and_or_left]

end Layers

namespace Plan

/-- The type that a property has in the class of a plan. -/
def typeOf (p : Plan) (e : Effective) : Ty :=
  let type := (e.directives.narrowed p.label).getD e.type
  if p.forceNullable then type.orNull else type

/-- The class has the property: it is not left out, and a class that does not implement the
model does not have it if it is final. -/
def HasMember (p : Plan) (e : Effective) : Prop :=
  e.directives.isOmitted p.label p.defaultOmit = false ∧
    (e.directives.isFinal p.label = true → p.implementsModel = true)

/-- The class declares the property itself. -/
def Declares (p : Plan) (e : Effective) : Prop :=
  e.directives.isOmitted p.label p.defaultOmit = false ∧ e.directives.isFinal p.label = false

/-- A first value is known, or it is known that one has to be given. -/
def Provides (p : Plan) (c : Catalog) (defaults : NameMap) (e : Effective) : Prop :=
  e.directives.Initializes p.label ∨ (Initial.ofType? defaults c (p.typeOf e)).isSome

/-- The class declares the property, and nothing is known about its first value. -/
def Lacks (p : Plan) (c : Catalog) (defaults : NameMap) (e : Effective) : Prop :=
  p.Declares e ∧ ¬ p.Provides c defaults e

/-- The key names a member of the class. -/
def NamesMember (p : Plan) (t : PropertyTable) (key : SortKey) : Prop :=
  ∃ e ∈ t.entries, e.name = key.property ∧ p.HasMember e

variable (p : Plan) (t : PropertyTable)

instance : DecidablePred p.HasMember := fun _ => inferInstanceAs (Decidable (_ ∧ _))

instance : DecidablePred p.Declares := fun _ => inferInstanceAs (Decidable (_ ∧ _))

instance (c : Catalog) (defaults : NameMap) : DecidablePred (p.Provides c defaults) :=
  fun _ => inferInstanceAs (Decidable (_ ∨ _))

instance (c : Catalog) (defaults : NameMap) : DecidablePred (p.Lacks c defaults) :=
  fun _ => inferInstanceAs (Decidable (_ ∧ _))

instance : DecidablePred (p.NamesMember t) :=
  fun _ => inferInstanceAs (Decidable (∃ e ∈ t.entries, _))

variable {p t}

theorem find?_lacks_eq_none_iff {c : Catalog} {defaults : NameMap} :
    t.entries.find? (p.Lacks c defaults) = none ↔
      ∀ e ∈ t.entries, p.Declares e → p.Provides c defaults e := by
  simp only [List.find?_eq_none, decide_eq_true_eq]
  exact forall₂_congr fun e _ => by rw [Lacks, not_and, not_not]

end Plan

namespace Member

variable {p : Plan} {t : PropertyTable}

theorem ofProperty?_eq (p : Plan) (e : Effective) : ofProperty? p e =
    if p.HasMember e then some ⟨e, p.typeOf e, !e.directives.isFinal p.label⟩ else none := by
  cases homitted : e.directives.isOmitted p.label p.defaultOmit <;>
    cases hfinal : e.directives.isFinal p.label <;> cases himplements : p.implementsModel <;>
    simp [ofProperty?, Plan.HasMember, Plan.typeOf, homitted, hfinal, himplements]

/-- The member that a class declares for a property. -/
def ofDeclared (p : Plan) (e : Effective) : Member := ⟨e, p.typeOf e, true⟩

/-- The members that a class declares are made from the properties that it declares. -/
theorem declared_collect (p : Plan) (t : PropertyTable) :
    (collect p t).filter (·.declared) = (t.entries.filter p.Declares).map (ofDeclared p) := by
  unfold collect
  induction t.entries with
  | nil => rfl
  | cons e es ih =>
    rw [List.filterMap_cons, ofProperty?_eq]
    cases homitted : e.directives.isOmitted p.label p.defaultOmit <;>
      cases hfinal : e.directives.isFinal p.label <;> cases himplements : p.implementsModel <;>
      simp [Plan.HasMember, Plan.Declares, ofDeclared, homitted, hfinal, himplements, ih]

theorem mem_collect_iff {m : Member} : m ∈ collect p t ↔
    ∃ e ∈ t.entries, p.HasMember e ∧ ⟨e, p.typeOf e, !e.directives.isFinal p.label⟩ = m := by
  simp only [collect, List.mem_filterMap, ofProperty?_eq, Option.ite_none_right_eq_some,
    Option.some.injEq]

theorem find?_collect_eq_none_iff (key : SortKey) :
    (collect p t).find? (·.name = key.property) = none ↔ ¬ p.NamesMember t key := by
  have hnames : (∃ m ∈ collect p t, m.name = key.property) ↔ p.NamesMember t key := by
    constructor
    · rintro ⟨m, hm, hname⟩
      obtain ⟨e, he, hmember, rfl⟩ := mem_collect_iff.mp hm
      exact ⟨e, he, hname, hmember⟩
    · rintro ⟨e, he, hname, hmember⟩
      exact ⟨_, mem_collect_iff.mpr ⟨e, he, hmember, rfl⟩, hname⟩
  rw [← hnames]
  simp

end Member

namespace Body

variable {p : Plan} {t : PropertyTable}

/-- What the fault says if a key names no member. -/
def keyFault (p : Plan) (key : SortKey) : Fault :=
  .missingProperty p.model key.property ("compare order of " ++ p.label)

theorem keyed_of_namesMember {key : SortKey} (h : p.NamesMember t key) (keys : List SortKey)
    (done : Sequence) : ∃ done', keyed p t (Member.collect p t) (key :: keys) done =
      keyed p t (Member.collect p t) keys done' := by
  cases hfind : (Member.collect p t).find? (·.name = key.property) with
  | none => exact absurd h ((Member.find?_collect_eq_none_iff key).mp hfind)
  | some m =>
    obtain ⟨e, he, hname, -⟩ := h
    obtain ⟨e, hrequire⟩ := (PropertyTable.require_ok_iff t key.property
      ("compare order of " ++ p.label)).mpr (hname ▸ List.mem_map_of_mem he)
    simp only [keyed, hrequire, ok_bind, hfind]
    split
    · exact ⟨done, rfl⟩
    · exact ⟨done ++ [(m, key.descending)], rfl⟩

theorem keyed_of_not_namesMember (hmodel : t.model = p.model) {key : SortKey}
    (h : ¬ p.NamesMember t key) (keys : List SortKey) (done : Sequence) :
    keyed p t (Member.collect p t) (key :: keys) done = .error (keyFault p key) := by
  have hfind := (Member.find?_collect_eq_none_iff key).mpr h
  -- the table is asked first, with the same fault
  cases hget : t.get? key.property with
  | none =>
    simp only [keyed, PropertyTable.require, hget, hmodel]
    rfl
  | some e =>
    simp only [keyed, PropertyTable.require, hget, ok_bind, hfind]
    rfl

theorem exists_keyed {keys : List SortKey} (h : ∀ key ∈ keys, p.NamesMember t key)
    (done : Sequence) : ∃ order, keyed p t (Member.collect p t) keys done = .ok order := by
  induction keys generalizing done with
  | nil => exact ⟨done, rfl⟩
  | cons key keys ih =>
    rw [List.forall_mem_cons] at h
    obtain ⟨done', hstep⟩ := keyed_of_namesMember h.1 keys done
    rw [hstep]
    exact ih h.2 done'

theorem keyed_error_of_find? (hmodel : t.model = p.model) {keys : List SortKey} {key : SortKey}
    (h : keys.find? (¬ p.NamesMember t ·) = some key) (done : Sequence) :
    keyed p t (Member.collect p t) keys done = .error (keyFault p key) := by
  induction keys generalizing done with
  | nil => simp at h
  | cons first keys ih =>
    by_cases hfirst : p.NamesMember t first
    · rw [List.find?_cons_of_neg (by simpa using hfirst)] at h
      obtain ⟨done', hstep⟩ := keyed_of_namesMember hfirst keys done
      rw [hstep]
      exact ih h done'
    · rw [List.find?_cons_of_pos (by simpa using hfirst)] at h
      obtain rfl := Option.some.inj h
      exact keyed_of_not_namesMember hmodel hfirst keys done

theorem exists_sequence (h : ∀ key ∈ p.compareOrder, p.NamesMember t key) :
    ∃ order, sequence p t (Member.collect p t) = .ok order := by
  obtain ⟨order, horder⟩ := exists_keyed h []
  exact ⟨_, bind_ok_iff.mpr ⟨order, horder, rfl⟩⟩

theorem sequence_error (hmodel : t.model = p.model) {key : SortKey}
    (h : p.compareOrder.find? (¬ p.NamesMember t ·) = some key) :
    sequence p t (Member.collect p t) = .error (keyFault p key) := by
  rw [sequence, keyed_error_of_find? hmodel h]
  rfl

end Body

namespace Initial

theorem builtIn?_ne_null (c : Catalog) (t : Ty) : builtIn? c t ≠ some .null := by
  unfold builtIn?
  repeat' split
  all_goals simp

/-- Only nullable types start with null. -/
theorem ofType?_eq_null_iff (defaults : NameMap) (c : Catalog) (t : Ty) :
    ofType? defaults c t = some .null ↔ t.isNullable = true := by
  unfold ofType?
  split
  · simp_all
  · split <;> simp_all [builtIn?_ne_null]

end Initial

namespace ClassDesc

variable {c : Catalog} {settings : Settings} {s : Survey} {p : Plan} {t : PropertyTable}
  {e : Effective}

/-- What the fault says if a declared property has no first value. -/
def defaultFault (p : Plan) (e : Effective) : Fault :=
  .noDefaultValue p.model p.label e.name (p.typeOf e).display

section Parameter

/-- A directive about the first value comes first, and none of them gives null itself. -/
theorem defaultOf_of_initializes (h : e.directives.Initializes p.label) :
    ∃ default, defaultOf c settings p (.ofDeclared p e) = .ok default ∧
      default ≠ some .null := by
  rw [← Layers.isSome_initializer_iff] at h
  obtain ⟨i, hi⟩ := Option.isSome_iff_exists.mp h
  unfold defaultOf
  dsimp only [Member.ofDeclared]
  rw [hi]
  cases i with
  | expr source => exact ⟨_, rfl, by simp⟩
  | required => exact ⟨_, rfl, by simp⟩

/-- Without one there is the initial value of the type. -/
theorem defaultOf_of_not_initializes (h : ¬ e.directives.Initializes p.label) :
    defaultOf c settings p (.ofDeclared p e) =
      match Initial.ofType? settings.defaults c (p.typeOf e) with
      | some value => .ok (some value)
      | none => .error (defaultFault p e) := by
  rw [← Layers.isSome_initializer_iff, Option.not_isSome_iff_eq_none] at h
  unfold defaultOf
  dsimp only [Member.ofDeclared]
  rw [h]
  rfl

theorem parameter_of_provides (h : p.Provides c settings.defaults e) :
    ∃ q, parameter c settings p (.ofDeclared p e) = .ok q := by
  have hdefault : ∃ default, defaultOf c settings p (.ofDeclared p e) = .ok default := by
    by_cases hinitializes : e.directives.Initializes p.label
    · obtain ⟨default, hdefault, -⟩ := defaultOf_of_initializes hinitializes
      exact ⟨default, hdefault⟩
    · obtain ⟨value, hvalue⟩ := Option.isSome_iff_exists.mp (h.resolve_left hinitializes)
      exact ⟨some value, by rw [defaultOf_of_not_initializes hinitializes, hvalue]⟩
  obtain ⟨default, hdefault⟩ := hdefault
  exact ⟨_, map_ok_iff.mpr ⟨default, hdefault, rfl⟩⟩

theorem parameter_of_not_provides (h : ¬ p.Provides c settings.defaults e) :
    parameter c settings p (.ofDeclared p e) = .error (defaultFault p e) := by
  obtain ⟨hinitializes, htype⟩ := not_or.mp h
  rw [Option.not_isSome_iff_eq_none] at htype
  rw [parameter, defaultOf_of_not_initializes hinitializes, htype]
  rfl

theorem default_eq_null_iff {q : ConstructorParam}
    (h : parameter c settings p (.ofDeclared p e) = .ok q) : q.default = some .null ↔
      (p.typeOf e).isNullable = true ∧ ¬ e.directives.Initializes p.label := by
  obtain ⟨default, hdefault, rfl⟩ := map_ok_iff.mp h
  by_cases hinitializes : e.directives.Initializes p.label
  · obtain ⟨given, hgiven, hnull⟩ := defaultOf_of_initializes hinitializes
    obtain rfl : default = given := Except.ok.inj (hdefault.symm.trans hgiven)
    simp [hnull, hinitializes]
  · rw [defaultOf_of_not_initializes hinitializes] at hdefault
    rw [← Initial.ofType?_eq_null_iff settings.defaults c]
    cases htype : Initial.ofType? settings.defaults c (p.typeOf e) with
    | none => simp [htype] at hdefault
    | some value =>
      rw [htype] at hdefault
      rw [← Except.ok.inj hdefault]
      simp [hinitializes]

/-- The parameters of a class that lacks nothing. -/
theorem exists_parameters (h : t.entries.find? (p.Lacks c settings.defaults) = none) :
    ∃ params, ((Member.collect p t).filter (·.declared)).mapM (parameter c settings p) =
      .ok params := by
  rw [Member.declared_collect, exists_mapM_iff, List.forall_mem_map]
  intro e he
  obtain ⟨he, hdeclares⟩ := List.mem_filter.mp he
  exact parameter_of_provides (Plan.find?_lacks_eq_none_iff.mp h e he (of_decide_eq_true hdeclares))

/-- The first property that the class lacks a value for. -/
theorem parameters_error (h : t.entries.find? (p.Lacks c settings.defaults) = some e) :
    ((Member.collect p t).filter (·.declared)).mapM (parameter c settings p) =
      .error (defaultFault p e) := by
  have hlacks : ¬ p.Provides c settings.defaults e := by
    have hlacking := List.find?_some h
    exact (of_decide_eq_true hlacking).2
  have hfirst : ((t.entries.filter p.Declares).map (Member.ofDeclared p)).find?
      (fun m => !decide (p.Provides c settings.defaults m.property)) = some (.ofDeclared p e) := by
    rw [List.find?_map, List.find?_filter]
    have hsame : ∀ e, (decide (p.Declares e) = true ∧ (!decide
        (p.Provides c settings.defaults (Member.ofDeclared p e).property)) = true) ↔
          p.Lacks c settings.defaults e := fun e => by
      rw [decide_eq_true_iff, Bool.not_eq_true', decide_eq_false_iff_not]
      exact Iff.rfl
    simp only [Function.comp_apply, hsame, h, Option.map_some]
  rw [Member.declared_collect]
  refine mapM_error_of_find? hfirst ?_ (parameter_of_not_provides hlacks)
  rw [List.forall_mem_map]
  intro e he hprovides
  exact parameter_of_provides (of_decide_eq_true (by rwa [Bool.not_eq_false'] at hprovides))

end Parameter

section Answer

variable (htable : s.propertiesOf p.model = .ok t)

include htable

theorem ofPlan_of_lacks (h : t.entries.find? (p.Lacks c settings.defaults) = some e) :
    ofPlan c s settings p = .error (defaultFault p e) := by
  unfold ofPlan
  rw [htable, ok_bind]
  dsimp only
  rw [parameters_error h]
  rfl

variable (h : t.entries.find? (p.Lacks c settings.defaults) = none)

include h

theorem ofPlan_of_key (hmodel : t.model = p.model) (hcomparable : p.comparable = true)
    {key : SortKey} (hkey : p.compareOrder.find? (¬ p.NamesMember t ·) = some key) :
    ofPlan c s settings p = .error (Body.keyFault p key) := by
  obtain ⟨params, hparams⟩ := exists_parameters h
  unfold ofPlan
  rw [htable, ok_bind]
  dsimp only
  rw [hparams, ok_bind, if_pos hcomparable, Body.sequence_error hmodel hkey]
  rfl

theorem exists_ofPlan (hkeys : p.comparable = true → ∀ key ∈ p.compareOrder, p.NamesMember t key) :
    ∃ d, ofPlan c s settings p = .ok d := by
  obtain ⟨params, hparams⟩ := exists_parameters h
  unfold ofPlan
  rw [htable, ok_bind]
  dsimp only
  rw [hparams, ok_bind]
  split
  · rename_i hcomparable
    obtain ⟨order, horder⟩ := Body.exists_sequence (hkeys hcomparable)
    rw [horder, ok_bind]
    exact ⟨_, rfl⟩
  · exact ⟨_, rfl⟩

end Answer

/-- The ways in which describing a class may end. -/
inductive Ends (c : Catalog) (defaults : NameMap) (p : Plan) (t : PropertyTable) :
    Except Fault ClassDesc → Prop
  | lacking {e : Effective} (h : t.entries.find? (p.Lacks c defaults) = some e) :
    Ends c defaults p t (.error (defaultFault p e))
  | misnaming {key : SortKey} (h : t.entries.find? (p.Lacks c defaults) = none)
    (hcomparable : p.comparable = true)
    (hkey : p.compareOrder.find? (¬ p.NamesMember t ·) = some key) :
    Ends c defaults p t (.error (Body.keyFault p key))
  | described {d : ClassDesc} (h : t.entries.find? (p.Lacks c defaults) = none)
    (hkeys : p.comparable = true → ∀ key ∈ p.compareOrder, p.NamesMember t key) :
    Ends c defaults p t (.ok d)

theorem ends_ofPlan (htable : s.propertiesOf p.model = .ok t) (hmodel : t.model = p.model) :
    Ends c settings.defaults p t (ofPlan c s settings p) := by
  cases hlacks : t.entries.find? (p.Lacks c settings.defaults) with
  | some e =>
    rw [ofPlan_of_lacks htable hlacks]
    exact .lacking hlacks
  | none =>
    by_cases hkeys : p.comparable = true → ∀ key ∈ p.compareOrder, p.NamesMember t key
    · obtain ⟨d, hd⟩ := exists_ofPlan htable hlacks hkeys
      rw [hd]
      exact .described hlacks hkeys
    · obtain ⟨hcomparable, hkeys⟩ := Classical.not_imp.mp hkeys
      cases hkey : p.compareOrder.find? (¬ p.NamesMember t ·) with
      | some key =>
        rw [ofPlan_of_key htable hlacks hmodel hcomparable hkey]
        exact .misnaming hlacks hcomparable hkey
      | none =>
        exact absurd (fun key hmem => by simpa using List.find?_eq_none.mp hkey key hmem) hkeys

/-- The parameter that a constructor has for a declared property. It is null by default just if
the type is nullable and no directive is about the first value. -/
structure Starts (p : Plan) (e : Effective) (q : ConstructorParam) : Prop where
  name : q.name = e.name
  type : q.type = p.typeOf e
  null : q.default = some .null ↔
    (p.typeOf e).isNullable = true ∧ ¬ e.directives.Initializes p.label

theorem starts_ofPlan (htable : s.propertiesOf p.model = .ok t) {d : ClassDesc}
    (hd : ofPlan c s settings p = .ok d) :
    List.Forall₂ (Starts p) (t.entries.filter p.Declares)
      (d.constructor.filter (!·.isGuard)) := by
  obtain ⟨t', params, ht', hparams, hconstructor, -, -⟩ := ofPlan_parts hd
  obtain rfl : t = t' := Except.ok.inj (htable.symm.trans ht')
  rw [hconstructor, filter_withGuard (parameters_of_mapM hparams).2]
  rw [Member.declared_collect, mapM_ok_iff, List.forall₂_map_left_iff] at hparams
  refine hparams.imp fun e q hq => ?_
  have hnull := default_eq_null_iff hq
  obtain ⟨default, -, rfl⟩ := map_ok_iff.mp hq
  exact ⟨rfl, rfl, hnull⟩

theorem not_lacks_of_excused {defaults : NameMap} (h : e.directives.isFinal p.label = true ∨
    e.directives.initializer p.label = some .required) : ¬ p.Lacks c defaults e := by
  rintro ⟨⟨-, hfinal⟩, hprovides⟩
  rcases h with h | h
  · exact absurd (h.symm.trans hfinal) (by decide)
  · exact hprovides (Or.inl ((Layers.isSome_initializer_iff _ _).mp (by rw [h]; rfl)))

/-- When the description of a class succeeds and what its fault is otherwise. -/
structure Settled (c : Catalog) (defaults : NameMap) (p : Plan) (t : PropertyTable)
    (answer : Except Fault ClassDesc) : Prop where
  succeeds : (∃ d, answer = .ok d) ↔
    (∀ e ∈ t.entries, p.Declares e → p.Provides c defaults e) ∧
      (p.comparable = true → ∀ key ∈ p.compareOrder, p.NamesMember t key)
  /-- The first declared property without a first value is the fault. -/
  lacking : ∀ e, t.entries.find? (p.Lacks c defaults) = some e → answer = .error (defaultFault p e)
  /-- If there is none, the first key that names no member is. -/
  misnaming : (∀ e ∈ t.entries, p.Declares e → p.Provides c defaults e) → p.comparable = true →
    ∀ key, p.compareOrder.find? (¬ p.NamesMember t ·) = some key →
      answer = .error (Body.keyFault p key)
  known : ∀ model, answer ≠ .error (.unknownModel model)
  /-- Final properties and required ones are never the fault. -/
  excused : ∀ e ∈ t.entries, (e.directives.isFinal p.label = true ∨
    e.directives.initializer p.label = some .required) →
      ∀ model label type, answer ≠ .error (.noDefaultValue model label e.name type)
  defaults : ∀ d, answer = .ok d →
    List.Forall₂ (Starts p) (t.entries.filter p.Declares)
      (d.constructor.filter (!·.isGuard))

/-- Over a survey, the description of the class of each plan fails for a declared property that
has no first value or a key that names no member, and for nothing else. -/
theorem settled_ofPlan (hs : Survey.ofCatalog c settings = .ok s) (hp : p ∈ s.roster.plans)
    (emission : Settings) : ∃ t, PropertyTable.ofCatalog c p.model = .ok t ∧
      Settled c emission.defaults p t (ofPlan c s emission p) := by
  have hsurveyed := Catalog.surveyed_of_ofCatalog hs
  obtain ⟨model, hmodel, hname⟩ := hsurveyed.exists_model hp
  obtain ⟨t, hresolved⟩ := Catalog.exists_table hmodel
  have htable : s.propertiesOf p.model = .ok t := by
    rw [hname, hsurveyed.tables model hmodel, hresolved]
  rw [← hname] at hresolved
  have hends : Ends c emission.defaults p t (ofPlan c s emission p) :=
    ends_ofPlan htable (Catalog.model_of_ofCatalog hresolved)
  refine ⟨t, hresolved, ?_⟩
  exact {
    succeeds := by
      rw [← Plan.find?_lacks_eq_none_iff]
      refine ⟨?_, fun ⟨hlacks, hkeys⟩ => exists_ofPlan htable hlacks hkeys⟩
      rintro ⟨d, hd⟩
      rw [hd] at hends
      cases hends with
      | described hlacks hkeys => exact ⟨hlacks, hkeys⟩
    lacking := fun e he => ofPlan_of_lacks htable he
    misnaming := fun hprovides hcomparable key hkey =>
      ofPlan_of_key htable (Plan.find?_lacks_eq_none_iff.mpr hprovides)
        (Catalog.model_of_ofCatalog hresolved) hcomparable hkey
    known := by
      intro model hunknown
      rw [hunknown] at hends
      cases hends
    excused := by
      intro e he hexcused model label type hfault
      generalize ofPlan c s emission p = answer at hends hfault
      cases hends with
      | @lacking e' hlacks =>
        obtain ⟨-, -, hsame, -⟩ := Fault.noDefaultValue.inj (Except.error.inj hfault)
        obtain rfl : e' = e := List.inj_on_of_nodup_map
          (PropertyTable.nodup_names_ofCatalog hresolved) (List.mem_of_find?_eq_some hlacks) he
          hsame
        have hlacking := List.find?_some hlacks
        exact not_lacks_of_excused hexcused (of_decide_eq_true hlacking)
      | misnaming => exact absurd hfault nofun
      | described => exact absurd hfault nofun
    defaults := fun d hd => starts_ofPlan htable hd }

/-- Orders with a customer who is not declared. One target says nothing about the customer, and
the other requires one, but is ordered by a property that orders do not have. -/
def ledger : Catalog where
  decls := [
    { Decl.plain "shop.Order" .interface with
      supertypes := [.named "kotlin.Comparable" [.named "shop.Order" []]]
      properties := [.plain "total" (.scalar .double),
        { Property.plain "customer" (.named "shop.Customer" []) with
          directives := [.noInit (some "Sheet")] },
        .plain "remark" (.nullable (.scalar .string))]
      targets := [{ Target.dto "Row" with compareOrder := ["rank"] },
        { Target.dto "Sheet" with compareOrder := ["-total", "rank"] }] }]
  nodup := by decide

/-- The customer is the fault of the first target, though its order is at fault too. -/
theorem settled_ofPlan_ledger :
    ∃ s p q, Survey.ofCatalog ledger .standard = .ok s ∧ p ∈ s.roster.plans ∧
      q ∈ s.roster.plans ∧
      ofPlan ledger s .standard p =
        .error (.noDefaultValue "shop.Order" "Row" "customer" "Customer") ∧
      ofPlan ledger s .standard q =
        .error (.missingProperty "shop.Order" "rank" "compare order of Sheet") := by
  have hfirst : ∃ s p q e key, Survey.ofCatalog ledger .standard = .ok s ∧ p ∈ s.roster.plans ∧
      q ∈ s.roster.plans ∧ q.comparable = true ∧
      ((PropertyTable.ofCatalog ledger p.model).map fun t =>
        t.entries.find? (p.Lacks ledger Settings.standard.defaults)) = .ok (some e) ∧
      ((PropertyTable.ofCatalog ledger q.model).map fun t =>
        (t.entries.find? (q.Lacks ledger Settings.standard.defaults),
          q.compareOrder.find? (¬ q.NamesMember t ·))) = .ok (none, some key) ∧
      defaultFault p e = .noDefaultValue "shop.Order" "Row" "customer" "Customer" ∧
      Body.keyFault q key = .missingProperty "shop.Order" "rank" "compare order of Sheet" :=
    ⟨_, _, _, _, _, rfl, List.mem_cons_self, List.mem_cons_of_mem _ List.mem_cons_self, rfl, rfl,
      rfl, rfl, rfl⟩
  obtain ⟨s, p, q, e, key, hs, hp, hq, hcomparable, hlacks, hkeys, hdefault, hkey⟩ := hfirst
  obtain ⟨t, ht, hrow⟩ := settled_ofPlan hs hp .standard
  obtain ⟨t', ht', hsheet⟩ := settled_ofPlan hs hq .standard
  rw [ht] at hlacks
  rw [ht'] at hkeys
  obtain ⟨hprovides, hmissing⟩ := Prod.mk.inj (Except.ok.inj hkeys)
  refine ⟨s, p, q, hs, hp, hq, ?_, ?_⟩
  · rw [hrow.lacking e (Except.ok.inj hlacks), hdefault]
  · rw [hsheet.misnaming (Plan.find?_lacks_eq_none_iff.mp hprovides) hcomparable key hmissing, hkey]

end ClassDesc

end Scaffold
