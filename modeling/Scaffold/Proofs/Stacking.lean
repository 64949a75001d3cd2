import Scaffold.Proofs.Halting
import Scaffold.Proofs.Merging

/-!
Stacked nullable layers and the projection. One level of a projection goes past all layers of a
type at once, so a type prints as the merged one does; the arguments that containers hand on may
be stacked anew by the clauses, but differ in nothing that is printed either. A catalog whose
property types are merged then has the same projection, fault for fault and text for text.
-/
namespace Scaffold

section Unstacked

def Property.unstacked (p : Property) : Property := { p with type := p.type.merged }

/-- The declaration with its property types merged. -/
def Decl.unstacked (d : Decl) : Decl := { d with properties := d.properties.map .unstacked }

/-- The catalog with all property types merged. -/
def Catalog.unstacked (c : Catalog) : Catalog where
  decls := c.decls.map .unstacked
  nodup := by
    rw [List.map_map]
    exact c.nodup

namespace Catalog

variable (c : Catalog)

theorem get?_unstacked (name : String) :
    c.unstacked.get? name = (c.get? name).map Decl.unstacked := by
  rw [get?, get?, unstacked, List.find?_map]
  rfl

theorem size_unstacked : c.unstacked.size = c.size := List.length_map _

theorem names_models_unstacked :
    c.unstacked.models.map Decl.name = c.models.map Decl.name := by
  rw [models, models, unstacked, List.filter_map, List.map_map]
  rfl

end Catalog

namespace Capabilities

theorem derive_unstacked (c : Catalog) (n : Nat) (path : List String) (found : Found)
    (name : String) : derive c.unstacked n path found name = derive c n path found name := by
  induction n generalizing path found name with
  | zero => rfl
  | succ n ih =>
    unfold derive
    rw [c.get?_unstacked]
    cases c.get? name with
    | none => rfl
    | some d =>
      simp only [Option.map_some, ih]
      rfl

/-- What values can do depends on the clauses, not on the properties. -/
theorem ofCatalog_unstacked (c : Catalog) : ofCatalog c.unstacked = ofCatalog c := by
  have hfold : c.unstacked.decls.foldl (fun found d =>
      (derive c.unstacked (c.unstacked.size + 1) [] found d.name).2) [] =
      c.decls.foldl (fun found d => (derive c (c.size + 1) [] found d.name).2) [] := by
    rw [Catalog.unstacked, List.foldl_map]
    exact congrArg (fun step => c.decls.foldl step []) (funext₂ fun found d => by
      rw [← Catalog.unstacked, derive_unstacked, c.size_unstacked]
      rfl)
  exact congrArg Capabilities.mk hfold

end Capabilities

end Unstacked

namespace Projection

variable {x : Context}

section Merged

theorem mapped?_merged (s : Settings.TypeScript) (t : Ty) : mapped? s t.merged = mapped? s t := by
  rw [mapped?, mapped?, Ty.isNullable_merged, Ty.head?_merged]

/-- Arguments that differ in stacked layers are handed on as arguments that do. -/
theorem map_merged_carriedFrom (c : Catalog) (k : Capabilities) (q : Capability) (n : Nat)
    (seen : List String) (name : String) {args args' : List Ty}
    (h : args'.map Ty.merged = args.map Ty.merged) :
    (carriedFrom c k q n seen name args').map Ty.merged =
      (carriedFrom c k q n seen name args).map Ty.merged := by
  induction n generalizing seen name args args' with
  | zero => exact h
  | succ n ih =>
    unfold carriedFrom
    cases c.get? name with
    | none => exact h
    | some d =>
      dsimp only
      by_cases hseen : name ∈ seen
      · rw [if_pos hseen, if_pos hseen]
        exact h
      rw [if_neg hseen, if_neg hseen]
      cases hcarrier : carrier? k q d with
      | none => exact h
      | some clause =>
        cases clause with
        | named parent clauseArgs =>
          have hbindings : ∀ param, (bindings d.typeParams args' param).map Ty.merged =
              (bindings d.typeParams args param).map Ty.merged := fun param => by
            rw [map_bindings, map_bindings, h]
          have hargs := Ty.mergedAll_substAll_congr hbindings clauseArgs
          rw [Ty.mergedAll_eq_map, Ty.mergedAll_eq_map] at hargs
          exact ih _ _ hargs
        | param param =>
          have hhead := List.find?_some hcarrier
          simp [Ty.head?, Ty.nonNull] at hhead
        | scalar | array | nullable => exact h

/-- The form with the types inside of it merged. -/
def Form.merged : Form → Form
  | .found text => .found text
  | .optional u => .optional u.merged
  | .array element => .array (element.map Ty.merged)
  | .index key value => .index (key.map Ty.merged) (value.map Ty.merged)
  | .reference name args => .reference name (args.map Ty.merged)

/-- Merging before a type is printed changes the types inside by layers only. -/
theorem form_merged (t : Ty) : (form x t.merged).merged = (form x t).merged := by
  have hagain : ∀ args : List Ty, (args.map Ty.merged).map Ty.merged = args.map Ty.merged := by
    intro args
    rw [List.map_map]
    exact List.map_congr_left fun t _ => Ty.merged_merged t
  have hcarried : ∀ q name args (i : Nat),
      ((carriedArgs x.catalog x.capabilities q name (args.map Ty.merged))[i]?).map Ty.merged =
        ((carriedArgs x.catalog x.capabilities q name args)[i]?).map Ty.merged := by
    intro q name args i
    rw [← List.getElem?_map, ← List.getElem?_map]
    exact congrArg (fun l : List Ty => l[i]?) (map_merged_carriedFrom _ _ _ _ _ _ (hagain args))
  unfold form
  rw [mapped?_merged]
  cases mapped? x.settings t with
  | some text => rfl
  | none =>
    cases t with
    | scalar | param => rfl
    | array element => simp only [Ty.merged, Form.merged, Option.map_some, Ty.merged_merged]
    | nullable inner =>
      obtain ⟨u, hu, hnonNull⟩ := Ty.exists_merged_nullable inner
      rw [hu]
      simp only [Form.merged, hnonNull, Ty.merged_merged]
    | named name args =>
      rw [Ty.merged_named]
      dsimp only
      by_cases htop : x.capabilities.has name .top
      · rw [if_pos htop, if_pos htop]
      rw [if_neg htop, if_neg htop]
      by_cases hcollection : x.capabilities.has name .collection
      · rw [if_pos hcollection, if_pos hcollection, Form.merged, Form.merged, hcarried]
      rw [if_neg hcollection, if_neg hcollection]
      by_cases hmapping : x.capabilities.has name .mapping
      · rw [if_pos hmapping, if_pos hmapping, Form.merged, Form.merged, hcarried, hcarried]
      rw [if_neg hmapping, if_neg hmapping, Form.merged, Form.merged, hagain]

theorem Form.script_merged {place : String} {inside : Ty → Script Union}
    (h : ∀ u, inside u.merged = inside u) (F : Form) :
    F.merged.script x place inside = F.script x place inside := by
  cases F with
  | found text => rfl
  | optional u => simp only [merged, script, h]
  | array element => cases element <;> simp [merged, script, h]
  | index key value => cases key <;> cases value <;> simp [merged, script, h]
  | reference name args =>
    have hdisplay : (Ty.named name (args.map Ty.merged)).display =
        (Ty.named name args).display := by
      rw [← Ty.merged_named, Ty.display_merged]
    have htexts : ((args.map Ty.merged).mapM fun a => Union.render <$> inside a) =
        args.mapM fun a => Union.render <$> inside a := by
      rw [List.mapM_map]
      exact mapM_congr fun a _ => congrArg (Union.render <$> ·) (h a)
    simp only [merged, script, hdisplay, htexts, List.isEmpty_map]

/-- A type prints as the merged one does. -/
theorem project_merged (place : String) (n : Nat) (t : Ty) :
    project x place n t.merged = project x place n t := by
  induction n generalizing t with
  | zero => rw [project, project, Ty.display_merged]
  | succ n ih =>
    rw [project_succ, project_succ, ← Form.script_merged ih, form_merged, Form.script_merged ih]

end Merged

/-- The context of a projection with all property types merged. -/
def Context.unstacked (x : Context) : Context := { x with catalog := x.catalog.unstacked }

section Unstacked

theorem sameClauses_unstacked (x : Context) : x.SameClauses x.unstacked where
  clauses name := by
    change (x.catalog.unstacked.get? name).map _ = _
    rw [Catalog.get?_unstacked, Option.map_map]
    rfl
  size := x.catalog.size_unstacked
  has _ _ := rfl
  settings := rfl

theorem unfolds_unstacked (x : Context) : Unfolds x.unstacked = Unfolds x := by
  funext outer name
  have hget : x.unstacked.catalog.get? outer = (x.catalog.get? outer).map Decl.unstacked :=
    x.catalog.get?_unstacked outer
  unfold Unfolds
  rw [hget, (sameClauses_unstacked x).contains_eq]
  cases x.catalog.get? outer with
  | none => simp
  | some d =>
    simp only [Option.map_some, Option.some.injEq, exists_eq_left']
    rfl

variable (hacyclic : ∀ name, ¬ Relation.TransGen (Unfolds x) name name)

include hacyclic

/-- The bounds on levels differ, but neither cuts off a type that is written in a declaration. -/
theorem project_unstacked {d : Decl} (hd : d ∈ x.catalog.decls) (place : String) {t u : Ty}
    (ht : t ∈ d.supertypes ∨ t ∈ d.properties.map Property.type)
    (hu : u ∈ d.unstacked.supertypes ∨ u ∈ d.unstacked.properties.map Property.type)
    (hmerged : u.merged = t.merged) :
    project x.unstacked place (levels x.unstacked.catalog) u =
      project x place (levels x.catalog) t := by
  have hacyclic' : ∀ name, ¬ Relation.TransGen (Unfolds x.unstacked) name name := by
    rw [unfolds_unstacked]
    exact hacyclic
  have hd' : d.unstacked ∈ x.unstacked.catalog.decls := List.mem_map_of_mem hd
  have hends := (halts_of_acyclic x hacyclic).written d hd place t ht
  have hends' := (halts_of_acyclic x.unstacked hacyclic').written d.unstacked hd' place u hu
  rw [← hends.stable _ (le_max_left _ (levels x.unstacked.catalog)),
    ← hends'.stable _ (le_max_right (levels x.catalog) _),
    (sameClauses_unstacked x).project_eq, ← project_merged, hmerged, project_merged]

theorem script_unstacked {d : Decl} (hd : d ∈ x.catalog.decls) :
    script x.unstacked d.unstacked = script x d := by
  have hextends : extendsText x.unstacked d.unstacked = extendsText x d := by
    have htexts : ∀ place, ((d.supertypes.filter (isExtended x)).mapM fun t =>
        Union.render <$> project x.unstacked place (levels x.unstacked.catalog) t) =
        (d.supertypes.filter (isExtended x)).mapM fun t =>
          Union.render <$> project x place (levels x.catalog) t := by
      intro place
      refine mapM_congr fun t ht => congrArg (Union.render <$> ·) ?_
      have hwritten := List.mem_of_mem_filter ht
      exact project_unstacked hacyclic hd place (Or.inl hwritten) (Or.inl hwritten) rfl
    unfold extendsText
    simp only [← htexts]
    rfl
  have hlines : d.unstacked.properties.mapM (propertyLine x.unstacked d.unstacked) =
      d.properties.mapM (propertyLine x d) := by
    rw [Decl.unstacked, List.mapM_map]
    refine mapM_congr fun p hp => ?_
    have hwritten : p.type ∈ d.properties.map Property.type := List.mem_map_of_mem hp
    have hmerged : p.type.merged ∈ d.unstacked.properties.map Property.type := by
      rw [Decl.unstacked, List.map_map]
      exact List.mem_map.mpr ⟨p, hp, rfl⟩
    have hline : ∀ place, project x.unstacked place (levels x.unstacked.catalog) p.type.merged =
        project x place (levels x.catalog) p.type := fun place =>
      project_unstacked hacyclic hd place (Or.inr hwritten) (Or.inr hmerged) p.type.merged_merged
    unfold propertyLine
    simp only [← hline]
    rfl
  unfold script interfaceText
  rw [hextends, hlines]
  rfl

theorem visitWithin_unstacked (n : Nat) (name : String) (w : Walk) :
    visitWithin x.unstacked n name w = visitWithin x n name w := by
  induction n generalizing name w with
  | zero => rfl
  | succ n ih =>
    have hget : x.unstacked.catalog.get? name = (x.catalog.get? name).map Decl.unstacked :=
      x.catalog.get?_unstacked name
    have hvisit : visitWithin x.unstacked n = visitWithin x n := funext₂ ih
    unfold visitWithin
    rw [hget, hvisit]
    cases hdecl : x.catalog.get? name with
    | none => rfl
    | some d =>
      have hd := (Catalog.get?_eq_some_iff.mp hdecl).1
      simp only [Option.map_some, script_unstacked hacyclic hd]

theorem projectTypes_context_unstacked : projectTypes x.unstacked = projectTypes x := by
  have hvisit : visit x.unstacked = visit x := by
    funext name w
    unfold visit
    rw [(sameClauses_unstacked x).size]
    exact visitWithin_unstacked hacyclic _ name w
  have hstart : startNames x.unstacked = startNames x := by
    unfold startNames
    rw [← Catalog.names_models_unstacked x.catalog]
    rfl
  unfold projectTypes
  rw [hvisit, hstart]

end Unstacked

/-- Where no declared container unfolds into itself, merging the stacked nullable layers of all
property types changes nothing about the projection of a catalog. -/
theorem projectTypes_unstacked (c : Catalog) (settings : Settings.TypeScript)
    (hacyclic : ∀ name,
      ¬ Relation.TransGen (Unfolds ⟨c, .ofCatalog c, settings⟩) name name) :
    projectTypes ⟨c.unstacked, .ofCatalog c.unstacked, settings⟩ =
      projectTypes ⟨c, .ofCatalog c, settings⟩ := by
  rw [Capabilities.ofCatalog_unstacked]
  exact projectTypes_context_unstacked hacyclic

/-- A shelf is a list in which places may be empty, so a shelf of optional readers stacks layers
once it is followed to the list; its arguments and the type of `pins` are stacked as written. -/
def lendings : Catalog where
  decls := [
    { Decl.plain "lib.Shelf" .interface with
      typeParams := ["T"]
      supertypes := [.named "java.util.List" [.nullable (.param "T")]] },
    { Decl.plain "lib.Reader" .interface with
      properties := [
        .plain "loans" (.nullable (.nullable
          (.named "lib.Shelf" [.nullable (.nullable (.named "lib.Reader" []))]))),
        .plain "pins" (.array (.nullable (.nullable (.scalar .int))))] }]
  nodup := by decide

def lendingSettings : Settings.TypeScript :=
  { Settings.TypeScript.standard with roots := ["lib.Reader"] }

theorem projectTypes_unstacked_lendings :
    (∀ name, ¬ Relation.TransGen
      (Unfolds ⟨lendings, .ofCatalog lendings, lendingSettings⟩) name name) ∧
      lendings.unstacked.decls[1].properties.map Property.type =
        [.nullable (.named "lib.Shelf" [.nullable (.named "lib.Reader" [])]),
          .array (.nullable (.scalar .int))] ∧
      projectTypes ⟨lendings.unstacked, .ofCatalog lendings.unstacked, lendingSettings⟩ =
        .ok [⟨"lib.Reader", "export interface Reader \x7b\n" ++
          "    loans: (Reader | undefined)[] | undefined;\n" ++
          "    pins: (number | undefined)[];\n\x7d"⟩] := by
  have hacyclic : ∀ name, ¬ Relation.TransGen
      (Unfolds ⟨lendings, .ofCatalog lendings, lendingSettings⟩) name name :=
    acyclic_of_rank (fun _ => 0) (by decide)
  refine ⟨hacyclic, rfl, ?_⟩
  rw [projectTypes_unstacked lendings lendingSettings hacyclic]
  rfl

end Projection

end Scaffold
