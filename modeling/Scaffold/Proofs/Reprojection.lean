import Scaffold.Proofs.Enrolling
import Scaffold.Proofs.Forms
import Scaffold.Proofs.Touring

/-!
The projection of a catalog in another order. The script of a declaration comes out the same, so
the same definitions are needed, and a projection that goes over them in another order defines
the same.
-/
namespace Scaffold.Projection

/-- The contexts differ in the order of the catalog only. -/
structure Context.Agrees (x x' : Context) (targets : String → List Target) : Prop where
  catalog : x.catalog.Agrees x'.catalog targets
  volume : volume x'.catalog = volume x.catalog
  has : ∀ name k, x'.capabilities.has name k = x.capabilities.has name k
  settings : x'.settings = x.settings

theorem volume_eq_of_perm {c c' : Catalog} {targets : String → List Target}
    (h : c'.decls.Perm (c.decls.map (Decl.retarget targets))) : volume c' = volume c := by
  have hcomm : LeftCommutative fun (d : Decl) (n : Nat) =>
      Ty.sizeAll d.supertypes + Ty.sizeAll (d.properties.map Property.type) + n :=
    ⟨fun _ _ _ => Nat.add_left_comm _ _ _⟩
  unfold volume
  rw [h.foldr_eq, List.foldr_map]
  rfl

namespace Context.Agrees

variable {x x' : Context} {targets : String → List Target} (h : x.Agrees x' targets)

include h

theorem levels_eq : levels x'.catalog = levels x.catalog := by
  unfold levels
  rw [h.volume, h.catalog.size]

theorem sameClauses : x.SameClauses x' where
  clauses name := by
    rw [h.catalog.get, Option.map_map]
    rfl
  size := h.catalog.size
  has := h.has
  settings := h.settings

theorem script_eq (d : Decl) : script x' (d.retarget targets) = script x d := by
  have hproject : ∀ place, project x' place (levels x'.catalog) =
      project x place (levels x.catalog) := by
    intro place
    rw [h.levels_eq]
    exact funext (h.sameClauses.project_eq place _)
  have hextended : isExtended x' = isExtended x := by
    funext t
    simp only [isExtended, h.settings, h.has]
  have hextends : extendsText x' (d.retarget targets) = extendsText x d := by
    unfold extendsText
    simp only [hextended, hproject]
    rfl
  have hline : propertyLine x' (d.retarget targets) = propertyLine x d := by
    funext p
    unfold propertyLine
    simp only [hproject]
    rfl
  unfold script interfaceText
  rw [hextends, hline, h.settings]
  rfl

theorem refers_eq : Refers x' = Refers x := by
  funext name ref
  unfold Refers
  rw [h.catalog.get]
  cases x.catalog.get? name with
  | none => simp
  | some d => simp [h.script_eq]

theorem scripted_eq : Scripted x' = Scripted x := by
  funext name source
  unfold Scripted
  rw [h.catalog.get]
  cases x.catalog.get? name with
  | none => simp
  | some d => simp [h.script_eq]

end Context.Agrees

/-- The contexts of a pass over a catalog and over one in another order. -/
theorem agrees_of_perm {c c' : Catalog} {targets : String → List Target} {k k' : Capabilities}
    (settings : Settings.TypeScript) (hperm : c'.decls.Perm (c.decls.map (Decl.retarget targets)))
    (hhas : ∀ name q, k'.has name q = k.has name q) :
    Context.Agrees ⟨c, k, settings⟩ ⟨c', k', settings⟩ targets where
  catalog := Catalog.agrees_of_perm hperm
  volume := volume_eq_of_perm hperm
  has := hhas
  settings := rfl

section Reordered

variable {c c' : Catalog} {k k' : Capabilities} {settings : Settings.TypeScript}
  (h : c.Reordered c') (hhas : ∀ name q, k'.has name q = k.has name q)

include h hhas

theorem needed_iff (name : String) :
    Needed ⟨c', k', settings⟩ name ↔ Needed ⟨c, k, settings⟩ name := by
  obtain ⟨targets, htargets, hperm⟩ := h
  have hrefers := (agrees_of_perm settings hperm hhas).refers_eq
  have hstart : ∀ r, r ∈ startNames ⟨c', k', settings⟩ ↔ r ∈ startNames ⟨c, k, settings⟩ := by
    intro r
    unfold startNames
    by_cases hroots : settings.roots.isEmpty
    · rw [if_pos hroots, if_pos hroots]
      have hmodels := (Catalog.models_perm htargets hperm).map Decl.name
      rw [List.map_map] at hmodels
      exact hmodels.mem_iff
    · rw [if_neg hroots, if_neg hroots]
  unfold Needed
  rw [hrefers]
  exact exists_congr fun r => and_congr_left fun _ => hstart r

theorem scripted_eq_of_reordered :
    Scripted ⟨c', k', settings⟩ = Scripted ⟨c, k, settings⟩ := by
  obtain ⟨targets, -, hperm⟩ := h
  exact (agrees_of_perm settings hperm hhas).scripted_eq

theorem exists_projectTypes_iff_of_reordered :
    (∃ ds, projectTypes ⟨c', k', settings⟩ = .ok ds) ↔
      ∃ ds, projectTypes ⟨c, k, settings⟩ = .ok ds := by
  rw [exists_projectTypes_iff, exists_projectTypes_iff]
  simp only [needed_iff h hhas, scripted_eq_of_reordered h hhas]

/-- A projection in another order gives the same definitions in another order. -/
theorem perm_of_projectTypes {ds ds' : List Definition}
    (hds : projectTypes ⟨c, k, settings⟩ = .ok ds)
    (hds' : projectTypes ⟨c', k', settings⟩ = .ok ds') : ds'.Perm ds := by
  have hnodup : ds.Nodup := (nodup_of_projectTypes hds).of_map _
  have hnodup' : ds'.Nodup := (nodup_of_projectTypes hds').of_map _
  rw [List.perm_ext_iff_of_nodup hnodup' hnodup]
  intro t
  rw [mem_projectTypes_iff hds', mem_projectTypes_iff hds, needed_iff h hhas,
    scripted_eq_of_reordered h hhas]

end Reordered

end Scaffold.Projection
