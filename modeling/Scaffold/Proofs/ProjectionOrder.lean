import Scaffold.Proofs.Rendering
import Scaffold.Proofs.Touring

/-!
The projection as a traversal. A tour takes its slots in the order of a traversal, and what is
sound has a definition that refers to what is sound. So a projection succeeds just if all that
it reaches is resolvable, and then defines what it reaches, in pre-order.
-/
namespace Scaffold.Projection

variable {x : Context}

/-- A tour takes its slots in the order of a traversal. -/
theorem Tour.traversal (hacyclic : ∀ n, ¬ Relation.TransGen (Unfolds x) n n)
    {names : List String} {w w' : Walk} (h : Tour x names w w') :
    Traversal x (names.map .root) w.names w'.names := by
  induction h with
  | done => exact .done
  | pass hmet _ ih =>
    refine .pass ?_ ih
    intro m hm
    obtain rfl := Option.some.inj hm
    exact hmet
  | @take name source rest d w mid w' hnew hget hresult _ _ ihrefs ih =>
    obtain ⟨hd, rfl⟩ := Catalog.get?_eq_some_iff.mp hget
    rw [Walk.names_reserve] at ihrefs
    rw [Walk.names_fill] at ih
    have hitems := (renders_script hacyclic hd).follows ⟨source, hresult⟩ _ _ ihrefs
    refine .take rfl hnew hget ?_
    rw [Item.below, List.append_nil]
    exact hitems.append ih

/-- The definitions stand in the order of a traversal. -/
theorem traversal_of_projectTypes (hacyclic : ∀ n, ¬ Relation.TransGen (Unfolds x) n n)
    {ds : List Definition} (h : projectTypes x = .ok ds) :
    Traversal x (startItems x) [] (ds.map Definition.name) := by
  obtain ⟨w, rfl, htour⟩ := tour_of_projectTypes h
  rw [Walk.names_definitions htour.unfilled]
  exact htour.traversal hacyclic

/-- What is needed is sound if all that is reached is resolvable, and so it has a definition. -/
theorem exists_projectTypes (hacyclic : ∀ n, ¬ Relation.TransGen (Unfolds x) n n)
    (hsound : ∀ i, Reached x i → Resolvable x i) : ∃ ds, projectTypes x = .ok ds := by
  have hscript : ∀ name, Sound x (.root name) → ∃ d, x.catalog.get? name = some d ∧
      (∀ ref ∈ (script x d).refs, Sound x (.root ref)) ∧
      ∃ source, (script x d).result = .ok source := by
    intro name hname
    obtain ⟨d, hget⟩ := hname.declared rfl
    have hd := (Catalog.get?_eq_some_iff.mp hget).1
    exact ⟨d, hget, (renders_script hacyclic hd).succeeds fun i hi => hname.items rfl hget hi⟩
  rw [exists_projectTypes_iff]
  rintro name ⟨r, hr, hreach⟩
  have hneeded : Sound x (.root name) := by
    induction hreach with
    | refl => exact fun i hi => hsound i ⟨.root r, List.mem_map_of_mem hr, hi⟩
    | tail _ hstep ih =>
      obtain ⟨d, hget, href⟩ := hstep
      obtain ⟨e, hget', hrefs, -⟩ := hscript _ ih
      obtain rfl := Option.some.inj (hget.symm.trans hget')
      exact hrefs _ href
  obtain ⟨d, hget, -, source, hresult⟩ := hscript name hneeded
  exact ⟨source, d, hget, hresult⟩

/-- Where no declared container unfolds into itself, a projection succeeds just if every root
and every type it reaches is resolvable. It then defines the declarations it reaches, each
once, in pre-order and with the text of its script. -/
theorem projectTypes_closed_preorder (x : Context)
    (hacyclic : ∀ name, ¬ Relation.TransGen (Unfolds x) name name) :
    ((∃ ds, projectTypes x = .ok ds) ↔ ∀ i, Reached x i → Resolvable x i) ∧
    ∀ ds, projectTypes x = .ok ds →
      (ds.map Definition.name).Nodup ∧
      (∀ name, name ∈ ds.map Definition.name ↔
        ∃ i, Reached x i ∧ i.target? x = some name) ∧
      (∀ out, Traversal x (startItems x) [] out ↔ out = ds.map Definition.name) ∧
      ∀ t ∈ ds, ∃ d, x.catalog.get? t.name = some d ∧ (script x d).result = .ok t.source := by
  refine ⟨⟨?_, exists_projectTypes hacyclic⟩, ?_⟩
  · rintro ⟨ds, hds⟩ i ⟨r, hr, hmeets⟩ name hname
    exact ((traversal_of_projectTypes hacyclic hds).complete hr hmeets name hname).2
  · intro ds hds
    have h := traversal_of_projectTypes hacyclic hds
    refine ⟨h.nodup List.nodup_nil, ?_, ?_, fun t => source_of_projectTypes hds⟩
    · intro name
      constructor
      · intro hname
        rcases h.sound name hname with hseen | ⟨r, hr, i, hmeets, hi⟩
        · exact absurd hseen List.not_mem_nil
        · exact ⟨i, ⟨r, hr, hmeets⟩, hi⟩
      · rintro ⟨i, ⟨r, hr, hmeets⟩, hi⟩
        exact (h.complete hr hmeets name hi).1
    · intro out
      constructor
      · intro hout
        exact hout.functional h
      · rintro rfl
        exact h

/-- A list of bags of books, and books that lead back to the library. -/
def libraryCatalog : Catalog where
  decls := [
    { Decl.plain "Person" .interface with
      properties := [.plain "name" (.scalar .string)] },
    { Decl.plain "Bag" .interface with
      typeParams := ["T"]
      supertypes := [.named "java.util.List" [.param "T"]] },
    { Decl.plain "Shelf" .interface with
      supertypes := [.named "java.util.List" [.named "Bag" [.named "Book" []]]] },
    { Decl.plain "Book" .interface with
      properties := [.plain "place" (.nullable (.named "Library" [])),
        .plain "author" (.named "Person" [])] },
    { Decl.plain "Library" .interface with
      properties := [.plain "owners" (.array (.named "Person" [])),
        .plain "books" (.named "Shelf" [])] }]
  nodup := by decide

def library : Context where
  catalog := libraryCatalog
  capabilities := .ofCatalog libraryCatalog
  settings := { Settings.TypeScript.standard with roots := ["Library"] }

theorem unfolds_library {outer name : String} (h : Unfolds library outer name) :
    outer = "Shelf" ∧ name = "Bag" := by
  have hall : ∀ d ∈ library.catalog.decls, ∀ n ∈ unfoldings library d,
      d.name = "Shelf" ∧ n = "Bag" := by decide
  obtain ⟨d, hget, hmem⟩ := unfolds_iff.mp h
  obtain ⟨hd, rfl⟩ := Catalog.get?_eq_some_iff.mp hget
  exact hall d hd name hmem

theorem projectTypes_closed_preorder_library :
    (∀ name, ¬ Relation.TransGen (Unfolds library) name name) ∧
      ∃ ds, projectTypes library = .ok ds ∧
        ∀ out, Traversal library (startItems library) [] out ↔
          out = ["Library", "Person", "Book"] := by
  have hacyclic : ∀ name, ¬ Relation.TransGen (Unfolds library) name name := by
    intro name hcycle
    obtain ⟨_, hfirst, -⟩ := Relation.TransGen.head'_iff.mp hcycle
    obtain ⟨_, -, hlast⟩ := Relation.TransGen.tail'_iff.mp hcycle
    have hshelf : name = "Shelf" := (unfolds_library hfirst).1
    have hbag : name = "Bag" := (unfolds_library hlast).2
    exact absurd (hshelf.symm.trans hbag) (by decide)
  refine ⟨hacyclic, _, rfl, ?_⟩
  exact ((projectTypes_closed_preorder library hacyclic).2 _ rfl).2.2.1

end Scaffold.Projection
