import Scaffold.Proofs.Forms
import Scaffold.Proofs.Touring

/-!
The names that definitions introduce and are referred to by. A definition and every reference
to it go by the simple name of the declaration, while declarations are told apart by their
qualified names. So the names introduced are distinct just if no two of the declarations that
are defined share a simple name, and the projection does not see to that.
-/
namespace Scaffold.Projection

variable {x : Context}

/-- What a reader of a definition takes for a name: the text up to a blank or to the bracket
before type parameters. -/
def word (text : List Char) : String := String.ofList (text.takeWhile fun c => c ≠ ' ' && c ≠ '<')

/-- The name that a definition introduces, which is the word behind its keyword. -/
def identifier (lead source : String) : String :=
  word (((source.toList.drop lead.toList.length).dropWhile (· ≠ ' ')).drop 1)

/-- What stands behind a name ends it. -/
def Parts (tail : List Char) : Prop := ∃ c rest, tail = c :: rest ∧ (c = ' ' ∨ c = '<')

theorem word_append {tail : List Char} (htail : Parts tail) (text : List Char) :
    word (text ++ tail) = word text := by
  obtain ⟨c, rest, rfl, hc⟩ := htail
  unfold word
  congr 1
  induction text with
  | nil => rcases hc with rfl | rfl <;> rfl
  | cons a text ih =>
    rw [List.cons_append, List.takeWhile_cons, List.takeWhile_cons, ih]

theorem identifier_append {lead keyword name tail : String} (hkeyword : ' ' ∉ keyword.toList)
    (htail : Parts tail.toList) :
    identifier lead (lead ++ (keyword ++ " " ++ name ++ tail)) = word name.toList := by
  have hblank : (keyword.toList ++ ' ' :: (name.toList ++ tail.toList)).dropWhile (· ≠ ' ') =
      ' ' :: (name.toList ++ tail.toList) := by
    rw [List.dropWhile_append_of_pos]
    · rfl
    · intro c hc
      have hne : c ≠ ' ' := fun h => hkeyword (h ▸ hc)
      simpa using hne
  have hsource : (lead ++ (keyword ++ " " ++ name ++ tail)).toList.drop lead.toList.length =
      keyword.toList ++ ' ' :: (name.toList ++ tail.toList) := by
    simp [String.toList_append]
  unfold identifier
  rw [hsource, hblank, List.drop_one, List.tail_cons, word_append htail]

theorem extendsText_form {d : Decl} {bases : String} (h : (extendsText x d).result = .ok bases) :
    bases = "" ∨ ∃ inside, bases = " extends " ++ inside := by
  obtain ⟨texts, -, hbases⟩ := Script.result_bind h
  obtain rfl := Except.ok.inj hbases
  by_cases hempty : texts.isEmpty
  · exact Or.inl (if_pos hempty)
  · exact Or.inr ⟨_, if_neg hempty⟩

/-- The parameters and supertypes of an interface, and the brace behind them. -/
theorem parts_header {params bases : String} (rest : String)
    (hparams : params = "" ∨ ∃ inside, params = "<" ++ inside)
    (hbases : bases = "" ∨ ∃ inside, bases = " extends " ++ inside) :
    Parts (params ++ bases ++ (" " ++ rest)).toList := by
  rcases hparams with rfl | ⟨inside, rfl⟩
  · rcases hbases with rfl | ⟨inside, rfl⟩
    · exact ⟨' ', rest.toList, by simp, Or.inl rfl⟩
    · exact ⟨' ', "extends ".toList ++ inside.toList ++ ' ' :: rest.toList, by simp, Or.inl rfl⟩
  · exact ⟨'<', inside.toList ++ bases.toList ++ ' ' :: rest.toList, by simp, Or.inr rfl⟩

/-- A definition is a keyword and the simple name of its declaration, and then something that
ends the name. -/
def Introduces (body : String) (d : Decl) : Prop :=
  ∃ keyword tail, ' ' ∉ keyword.toList ∧ Parts tail.toList ∧
    body = keyword ++ " " ++ d.simpleName ++ tail

theorem introduces_enumText (d : Decl) : Introduces (enumText d) d := by
  unfold enumText
  generalize (if d.enumEntries.isEmpty then "never" else _) = literals
  refine ⟨"type", " = " ++ literals ++ ";", by decide, ?_, by simp [String.append_assoc]⟩
  exact ⟨' ', "= ".toList ++ literals.toList ++ [';'], by simp, Or.inl rfl⟩

theorem introduces_interfaceText {d : Decl} {body : String}
    (h : (interfaceText x d).result = .ok body) : Introduces body d := by
  obtain ⟨bases, hbases, h⟩ := Script.result_bind h
  obtain ⟨lines, -, h⟩ := Script.result_bind h
  have hbody := Except.ok.inj h
  have hforms := extendsText_form hbases
  have hparams : (if d.typeParams.isEmpty then "" else
      "<" ++ ", ".intercalate d.typeParams ++ ">") = "" ∨ ∃ inside,
      (if d.typeParams.isEmpty then "" else
        "<" ++ ", ".intercalate d.typeParams ++ ">") = "<" ++ inside := by
    by_cases hempty : d.typeParams.isEmpty
    · exact Or.inl (if_pos hempty)
    · exact Or.inr ⟨_, (if_neg hempty).trans (String.append_assoc ..)⟩
  generalize (if d.typeParams.isEmpty then "" else _) = params at hbody hparams
  by_cases hempty : lines.isEmpty
  · rw [if_pos hempty] at hbody
    refine ⟨"interface", _, by decide, parts_header "\x7b\x7d" hparams hforms, ?_⟩
    rw [← hbody]
    simp [String.append_assoc]
  · have hrest : lines ++ ["\x7d"] ≠ [] := by simp
    rw [if_neg hempty, List.cons_append, String.intercalate_cons_of_ne_nil hrest] at hbody
    refine ⟨"interface", _, by decide,
      parts_header ("\x7b\n" ++ "\n".intercalate (lines ++ ["\x7d"])) hparams hforms, ?_⟩
    rw [← hbody]
    apply String.toList_inj.mp
    simp

/-- A definition introduces the simple name of its declaration. -/
theorem identifier_of_script {d : Decl} {source : String}
    (h : (script x d).result = .ok source) :
    identifier x.settings.lead source = word d.simpleName.toList := by
  have hbody : ∃ body, Introduces body d ∧ source = x.settings.lead ++ body := by
    unfold script at h
    by_cases henum : d.kind = .enum
    · rw [if_pos henum] at h
      exact ⟨enumText d, introduces_enumText d, (Except.ok.inj h).symm⟩
    · rw [if_neg henum] at h
      obtain ⟨body, hbody, h⟩ := Script.result_bind h
      exact ⟨body, introduces_interfaceText hbody, (Except.ok.inj h).symm⟩
  obtain ⟨_, ⟨keyword, tail, hkeyword, htail, rfl⟩, rfl⟩ := hbody
  exact identifier_append hkeyword htail

/-- The definition goes by the simple name of the declaration. -/
def GoesBy (x : Context) (t : Definition) (name : String) : Prop :=
  identifier x.settings.lead t.source = word (Dotted.simple name).toList

/-- Simple names that a reader cannot tell apart. -/
def Alike (name name' : String) : Prop :=
  word (Dotted.simple name).toList = word (Dotted.simple name').toList

instance (name name' : String) : Decidable (Alike name name') :=
  inferInstanceAs (Decidable (_ = _))

/-- Each definition introduces a name of its own just if no two declarations that are defined
have simple names alike. What a definition refers to is defined under the name that stands
there, and is all that goes by this name just if no other has a simple name like it. -/
theorem identifiers_nodup_iff_simple_names_distinct (x : Context) (ds : List Definition)
    (h : projectTypes x = .ok ds) :
    (∀ t ∈ ds, GoesBy x t t.name) ∧
    ((ds.map fun t => identifier x.settings.lead t.source).Nodup ↔
      ∀ t ∈ ds, ∀ t' ∈ ds, Alike t.name t'.name → t = t') ∧
    ∀ t ∈ ds, ∀ d, x.catalog.get? t.name = some d → ∀ name ∈ (script x d).refs,
      ∃ t' ∈ ds, t'.name = name ∧ GoesBy x t' name ∧
        ((∀ other ∈ ds, GoesBy x other name → other = t') ↔
          ∀ other ∈ ds, Alike other.name name → other = t') := by
  have hgoes : ∀ t ∈ ds, GoesBy x t t.name := by
    intro t ht
    obtain ⟨d, hget, hresult⟩ := source_of_projectTypes h ht
    obtain ⟨-, hname⟩ := Catalog.get?_eq_some_iff.mp hget
    rw [GoesBy, identifier_of_script hresult, Decl.simpleName, hname]
  have halike : ∀ t ∈ ds, ∀ name, GoesBy x t name ↔ Alike t.name name := by
    intro t ht name
    rw [GoesBy, hgoes t ht, Alike]
  refine ⟨hgoes, ?_, ?_⟩
  · have hnodup : ds.Nodup := (nodup_of_projectTypes h).of_map _
    rw [List.nodup_map_iff_inj_on hnodup]
    constructor
    · intro hinj t ht t' ht' hsame
      exact hinj t ht t' ht' ((hgoes t ht).trans (hsame.trans (hgoes t' ht').symm))
    · intro hdistinct t ht t' ht' hsame
      exact hdistinct t ht t' ht' ((hgoes t ht).symm.trans (hsame.trans (hgoes t' ht')))
  · intro t ht d hget name hname
    obtain ⟨t', ht', rfl⟩ := List.mem_map.mp (refs_of_projectTypes h ht hget name hname)
    refine ⟨t', ht', rfl, hgoes t' ht', ?_⟩
    exact forall₂_congr fun other hother => by rw [halike other hother]

/-- Two member types of one simple name. -/
def linesCatalog : Catalog where
  decls := [
    { Decl.plain "a.Order" .interface with
      properties := [.plain "line" (.named "a.Order.Line" [])] },
    { Decl.plain "a.Order.Line" .interface with
      nesting := .member "a.Order"
      properties := [.plain "sku" (.scalar .string)] },
    { Decl.plain "a.Invoice" .interface with
      properties := [.plain "line" (.named "a.Invoice.Line" [])] },
    { Decl.plain "a.Invoice.Line" .interface with
      nesting := .member "a.Invoice"
      properties := [.plain "amount" (.scalar .double)] }]
  nodup := by decide

/-- A projection of the catalog from these roots. -/
def lines (roots : List String) : Context where
  catalog := linesCatalog
  capabilities := .ofCatalog linesCatalog
  settings := { Settings.TypeScript.standard with roots := roots }

/-- What the projection from these roots defines. -/
def lineDefinitions (roots : List String) : List Definition :=
  (projectTypes (lines roots)).toOption.getD []

theorem identifiers_nodup_iff_simple_names_distinct_order :
    projectTypes (lines ["a.Order"]) = .ok (lineDefinitions ["a.Order"]) ∧
      ((lineDefinitions ["a.Order"]).map fun t =>
        identifier (lines ["a.Order"]).settings.lead t.source).Nodup := by
  have hok : projectTypes (lines ["a.Order"]) = .ok (lineDefinitions ["a.Order"]) := rfl
  have hdistinct : ∀ t ∈ lineDefinitions ["a.Order"], ∀ t' ∈ lineDefinitions ["a.Order"],
      Alike t.name t'.name → t = t' := by decide
  have h := identifiers_nodup_iff_simple_names_distinct _ _ hok
  exact ⟨hok, h.2.1.mpr hdistinct⟩

/-- Orders and invoices both have lines, so one name is introduced twice. -/
theorem identifiers_collide :
    projectTypes (lines ["a.Order", "a.Invoice"]) =
        .ok (lineDefinitions ["a.Order", "a.Invoice"]) ∧
      (lineDefinitions ["a.Order", "a.Invoice"]).map Definition.name =
        ["a.Order", "a.Order.Line", "a.Invoice", "a.Invoice.Line"] ∧
      ¬ ((lineDefinitions ["a.Order", "a.Invoice"]).map fun t =>
        identifier (lines ["a.Order", "a.Invoice"]).settings.lead t.source).Nodup := by
  refine ⟨rfl, rfl, ?_⟩
  decide

end Scaffold.Projection
