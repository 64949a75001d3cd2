import Scaffold.Proofs.Naming
import Scaffold.Proofs.PropertyOrder
import Scaffold.Proofs.Touring

/-!
The properties that a definition exposes. An interface has a line for each property that its
declaration declares, and takes over those of the interfaces that its clause names. The table
of the declaration goes by all supertypes instead. The two agree where no clause is dropped: a
container, the top type, a scalar and an enum give no interface that could be extended.
-/
namespace Scaffold.Projection

open PropertyTable (declaredNames)

variable {x : Context} {ds : List Definition} {d e : Decl}

/-- The definition of the first declaration has a clause that names the second. -/
def Extended (x : Context) (d e : Decl) : Prop :=
  d.kind ≠ .enum ∧ ∃ t ∈ d.supertypes, isExtended x t ∧
    ∃ name, reference? x t.nonNull = some name ∧ x.catalog.get? name = some e

/-- The line of a property. -/
def Line (name line : String) : Prop := ∃ text, line = "    " ++ name ++ ": " ++ text ++ ";"

/-- The text of a supertype, which begins with the simple name of the declaration it names. -/
def Base (x : Context) (t : Ty) (base : String) : Prop :=
  ∀ name, reference? x t.nonNull = some name → ∃ rest, base = Dotted.simple name ++ rest

def header (d : Decl) (bases : List String) : String :=
  "interface " ++ d.simpleName ++
    (if d.typeParams.isEmpty then "" else "<" ++ ", ".intercalate d.typeParams ++ ">") ++
    (if bases.isEmpty then "" else " extends " ++ ", ".intercalate bases)

/-- The text is an interface whose clause has the supertypes that are extended and which has a
line for each property, in order. -/
def Declares (x : Context) (d : Decl) (source : String) : Prop :=
  ∃ bases lines, List.Forall₂ (Base x) (d.supertypes.filter (isExtended x)) bases ∧
    List.Forall₂ Line (declaredNames d) lines ∧
    source = x.settings.lead ++
      (if lines.isEmpty then header d bases ++ " \x7b\x7d"
      else "\n".intercalate ((header d bases ++ " \x7b") :: lines ++ ["\x7d"]))

/-- A definition of the declaration is there, and is an interface. -/
def Interface (x : Context) (ds : List Definition) (d : Decl) : Prop :=
  d.kind ≠ .enum ∧ ∃ t ∈ ds, t.name = d.name ∧ Declares x d t.source

/-- The name has a line in the definition or in one that it extends in any number of steps. -/
def Exposes (x : Context) (ds : List Definition) (d : Decl) (p : String) : Prop :=
  ∃ e, Relation.ReflTransGen (Extended x) d e ∧ Interface x ds e ∧ p ∈ declaredNames e

def isScalar (t : Ty) : Bool :=
  match t.nonNull with
  | .scalar _ => true
  | _ => false

/-- The clause that names the declaration is printed as one that extends an interface. -/
structure Structural (x : Context) (t : Ty) (e : Decl) : Prop where
  interface : e.kind ≠ .enum
  scalar : ¬ isScalar t
  collection : ¬ x.capabilities.has e.name .collection
  mapping : ¬ x.capabilities.has e.name .mapping
  top : ¬ x.capabilities.has e.name .top

instance (x : Context) (t : Ty) (e : Decl) : Decidable (Structural x t e) :=
  decidable_of_iff (e.kind ≠ .enum ∧ ¬ isScalar t ∧ ¬ x.capabilities.has e.name .collection ∧
      ¬ x.capabilities.has e.name .mapping ∧ ¬ x.capabilities.has e.name .top)
    ⟨fun ⟨interface, scalar, collection, mapping, top⟩ =>
        ⟨interface, scalar, collection, mapping, top⟩,
      fun h => ⟨h.interface, h.scalar, h.collection, h.mapping, h.top⟩⟩

/-- Optional or not, a supertype that names a declaration begins with its name. -/
theorem base_of_project {place : String} {n : Nat} {t : Ty} {u : Union} {name : String}
    (href : reference? x t.nonNull = some name) (h : (project x place n t).result = .ok u) :
    ∃ rest, u.render = Dotted.simple name ++ rest := by
  cases t with
  | scalar | param | array | named =>
    obtain ⟨-, rest, rfl⟩ := refers_of_project href h
    exact ⟨rest, String.intercalate_singleton⟩
  | nullable inner =>
    cases n with
    | zero => simp [project, Script.fail] at h
    | succ n =>
      rw [project_succ, form_nullable] at h
      obtain ⟨v, hv, h⟩ := Script.result_bind h
      obtain rfl := Except.ok.inj h
      obtain ⟨-, rest, rfl⟩ := refers_of_project href hv
      by_cases hmarker : x.settings.voidMarker = Dotted.simple name ++ rest
      · exact ⟨rest, by simp [Union.add, Union.single, Union.render, hmarker]⟩
      · refine ⟨rest ++ " | " ++ x.settings.voidMarker, ?_⟩
        simp [Union.add, Union.single, Union.render, hmarker, String.append_assoc]

theorem bases_of_extendsText {bases : String} (h : (extendsText x d).result = .ok bases) :
    ∃ texts, List.Forall₂ (Base x) (d.supertypes.filter (isExtended x)) texts ∧
      bases = (if texts.isEmpty then "" else " extends " ++ ", ".intercalate texts) := by
  obtain ⟨texts, htexts, h⟩ := Script.result_bind h
  refine ⟨texts, (Script.result_mapM htexts).imp ?_, (Except.ok.inj h).symm⟩
  intro t base hbase name href
  obtain ⟨u, hu, rfl⟩ := Script.result_map hbase
  exact base_of_project href hu

theorem line_of_propertyLine {p : Property} {line : String}
    (h : (propertyLine x d p).result = .ok line) : Line p.name line := by
  obtain ⟨u, -, h⟩ := Script.result_bind h
  exact ⟨u.render, (Except.ok.inj h).symm⟩

/-- The script of what is no enum writes an interface. -/
theorem declares_of_script {source : String} (henum : d.kind ≠ .enum)
    (h : (script x d).result = .ok source) : Declares x d source := by
  rw [script, if_neg henum] at h
  obtain ⟨body, hbody, h⟩ := Script.result_bind h
  obtain ⟨_, hbases, hbody⟩ := Script.result_bind hbody
  obtain ⟨lines, hlines, hbody⟩ := Script.result_bind hbody
  obtain ⟨bases, hforms, rfl⟩ := bases_of_extendsText hbases
  have hnamed : List.Forall₂ Line (declaredNames d) lines := by
    rw [declaredNames, List.forall₂_map_left_iff]
    exact (Script.result_mapM hlines).imp fun _ _ => line_of_propertyLine
  exact ⟨bases, lines, hforms, hnamed, (Except.ok.inj h).symm.trans
    (congrArg (x.settings.lead ++ ·) (Except.ok.inj hbody).symm)⟩

/-- What a definition extends it refers to. -/
theorem mem_refs_of_extended {source : String} (hextended : Extended x d e)
    (h : (script x d).result = .ok source) : e.name ∈ (script x d).refs := by
  obtain ⟨henum, t, ht, hkept, name, href, hget⟩ := hextended
  obtain ⟨-, rfl⟩ := Catalog.get?_eq_some_iff.mp hget
  have htypes : t ∈ types x d := by
    rw [types, if_neg henum]
    exact List.mem_append_left _ (List.mem_filter.mpr ⟨ht, hkept⟩)
  exact mem_refs_of_names ⟨t, htypes, t.nonNull, within_nonNull t, href⟩ h

/-- All that a definition extends, in any number of steps, is defined as well. -/
theorem interface_of_extended (h : projectTypes x = .ok ds) {t : Definition} (ht : t ∈ ds)
    (hget : x.catalog.get? t.name = some d) (hreach : Relation.ReflTransGen (Extended x) d e)
    (henum : e.kind ≠ .enum) : Interface x ds e := by
  have hdefined : ∃ t' ∈ ds, x.catalog.get? t'.name = some e := by
    clear henum
    induction hreach with
    | refl => exact ⟨t, ht, hget⟩
    | @tail mid e _ hstep ih =>
      -- a definition is walked for its references as well, so what it extends is defined
      obtain ⟨s, hs, hmid⟩ := ih
      obtain ⟨_, hget', hresult⟩ := source_of_projectTypes h hs
      obtain rfl := Option.some.inj (hmid.symm.trans hget')
      obtain ⟨t', ht', hname⟩ :=
        List.mem_map.mp (refs_of_projectTypes h hs hmid _ (mem_refs_of_extended hstep hresult))
      obtain ⟨-, u, -, -, name, -, he⟩ := hstep
      obtain ⟨-, rfl⟩ := Catalog.get?_eq_some_iff.mp he
      exact ⟨t', ht', hname ▸ he⟩
  obtain ⟨t', ht', hget'⟩ := hdefined
  obtain ⟨_, hget'', hresult⟩ := source_of_projectTypes h ht'
  obtain rfl := Option.some.inj (hget'.symm.trans hget'')
  exact ⟨henum, t', ht', (Catalog.get?_eq_some_iff.mp hget').2.symm,
    declares_of_script henum hresult⟩

theorem named_of_reference {t : Ty} {name : String} (h : reference? x t = some name) :
    ∃ args, t = .named name args := by
  cases t with
  | scalar | param | nullable | array => simp [reference?] at h
  | named n args =>
    simp only [reference?] at h
    split at h
    · simp at h
    · exact ⟨args, congrArg (Ty.named · args) (Option.some.inj h)⟩

theorem Extended.extends (h : Extended x d e) : x.catalog.Extends d e := by
  obtain ⟨-, t, ht, -, name, href, hget⟩ := h
  obtain ⟨args, hnamed⟩ := named_of_reference href
  exact Catalog.extends_iff.mpr ⟨t, ht, name, by rw [Ty.head?, hnamed], hget⟩

theorem reaches_of_extended (h : Relation.ReflTransGen (Extended x) d e) :
    x.catalog.Reaches d e := by
  induction h with
  | refl => exact .refl
  | tail _ hstep ih => exact ih.tail hstep.extends

/-- A clause that can be printed as one is extended, where no mapping and no ignored name
stands in its way. -/
theorem Structural.extended {t : Ty} (h : Structural x t e) (henum : d.kind ≠ .enum)
    (ht : t ∈ d.supertypes) (hhead : t.head? = some e.name)
    (hget : x.catalog.get? e.name = some e)
    (hmappings : x.settings.mappings = .empty)
    (hignored : ∀ name ∈ x.settings.ignoredSupertypes, x.catalog.get? name = none) :
    Extended x d e := by
  obtain ⟨args, hnamed⟩ : ∃ args, t.nonNull = .named e.name args := by
    have hscalar := h.scalar
    unfold isScalar at hscalar
    unfold Ty.head? at hhead
    cases hbare : t.nonNull <;> simp_all
  have hkept : e.name ∉ x.settings.ignoredSupertypes := fun hmem =>
    absurd (hget.symm.trans (hignored _ hmem)) (by simp)
  have hunmapped : mapped? x.settings (.named e.name args) = none := by
    simp [mapped?, hmappings, NameMap.get?, NameMap.empty]
  refine ⟨henum, t, ht, ?_, e.name, ?_, hget⟩
  · simp [isExtended, Ty.head?, hnamed, hkept, h.collection, h.mapping]
  · simp [reference?, hnamed, hunmapped, h.top, h.collection, h.mapping]

/-- Two ways lead from an order to what every entity has. -/
def orderCatalog : Catalog where
  decls := [
    { Decl.plain "a.Entity" .interface with
      properties := [.plain "id" (.scalar .long)] },
    { Decl.plain "a.Dated" .interface with
      typeParams := ["T"]
      supertypes := [.named "a.Entity" []]
      properties := [.plain "date" (.param "T")] },
    { Decl.plain "a.Order" .interface with
      supertypes := [.named "a.Dated" [.scalar .string], .named "java.io.Serializable" [],
        .nullable (.named "a.Entity" [])]
      properties := [.plain "items" (.named "kotlin.collections.List" [.scalar .string])] }]
  nodup := by decide

def orders : Context where
  catalog := orderCatalog
  capabilities := .ofCatalog orderCatalog
  settings := { Settings.TypeScript.standard with roots := ["a.Order"] }

def orderDefinitions : List Definition := (projectTypes orders).toOption.getD []

/-- A basket that is a bag of strings, and that extends a colour, the top type and a scalar. -/
def basketCatalog : Catalog where
  decls := [
    { Decl.plain "a.Bag" .interface with
      supertypes := [.named "kotlin.collections.List" [.scalar .string]]
      properties := [.plain "total" (.scalar .int)] },
    { Decl.plain "a.Colour" .enum with
      properties := [.plain "hue" (.scalar .int)]
      enumEntries := ["RED", "GREEN"] },
    { Decl.plain "kotlin.Any" .interface with
      properties := [.plain "hash" (.scalar .int)] },
    { Decl.plain "kotlin.Int" .classType with
      properties := [.plain "bits" (.scalar .int)] },
    { Decl.plain "a.Basket" .interface with
      supertypes := [.named "a.Bag" [], .named "a.Colour" [], .named "kotlin.Any" [], .scalar .int]
      properties := [.plain "owner" (.scalar .string)] }]
  nodup := by decide

def baskets : Context where
  catalog := basketCatalog
  capabilities := .ofCatalog basketCatalog
  settings := { Settings.TypeScript.standard with
    roots := ["a.Basket"]
    ignoredSupertypes := [] }

end Scaffold.Projection
