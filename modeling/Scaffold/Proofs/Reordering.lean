import Scaffold.Plan
import Scaffold.Proofs.Checking
import Scaffold.Proofs.Entitlement

/-!
Catalogs in another order. The declarations of a catalog may come in any order and each may have
its targets in any order. A lookup then finds the same declaration with its targets reordered,
and nothing that is derived from lookups reads targets, so the check and the capabilities come
out the same.
-/
namespace Scaffold

/-- The declaration with the targets that are given for its name. -/
def Decl.retarget (targets : String → List Target) (d : Decl) : Decl :=
  { d with targets := targets d.name }

namespace Decl

variable (targets : String → List Target) (d : Decl)

@[simp] theorem retarget_name : (d.retarget targets).name = d.name := rfl

@[simp] theorem retarget_nesting : (d.retarget targets).nesting = d.nesting := rfl

@[simp] theorem retarget_simpleName : (d.retarget targets).simpleName = d.simpleName := rfl

end Decl

namespace Catalog

/-- The second catalog has the declarations of the first, both the declarations and the targets
of each in some order. -/
def Reordered (c c' : Catalog) : Prop :=
  ∃ targets : String → List Target, (∀ d ∈ c.decls, (targets d.name).Perm d.targets) ∧
    c'.decls.Perm (c.decls.map (Decl.retarget targets))

/-- Lookups in the second catalog find what lookups in the first find, apart from targets. -/
structure Agrees (c c' : Catalog) (targets : String → List Target) : Prop where
  get : ∀ name, c'.get? name = (c.get? name).map (Decl.retarget targets)
  size : c'.size = c.size

variable {c c' : Catalog} {targets : String → List Target}

theorem agrees_of_perm (h : c'.decls.Perm (c.decls.map (Decl.retarget targets))) :
    c.Agrees c' targets := by
  refine ⟨?_, h.length_eq.trans (List.length_map _)⟩
  intro name
  apply Option.ext
  intro d'
  rw [get?_eq_some_iff, h.mem_iff, List.mem_map, Option.map_eq_some_iff]
  constructor
  · rintro ⟨⟨d, hd, rfl⟩, hname⟩
    exact ⟨d, get?_eq_some_iff.mpr ⟨hd, hname⟩, rfl⟩
  · rintro ⟨d, hget, rfl⟩
    obtain ⟨hd, hname⟩ := get?_eq_some_iff.mp hget
    exact ⟨⟨d, hd, rfl⟩, hname⟩

theorem Reordered.symm (h : c.Reordered c') : c'.Reordered c := by
  obtain ⟨targets, htargets, hperm⟩ := h
  have hagrees := agrees_of_perm hperm
  refine ⟨fun name => ((c.get? name).map Decl.targets).getD [], ?_, ?_⟩
  · intro d' hd'
    obtain ⟨d, hd, rfl⟩ := List.mem_map.mp (hperm.mem_iff.mp hd')
    have hget : c.get? d.name = some d := get?_eq_some_iff.mpr ⟨hd, rfl⟩
    change (((c.get? d.name).map Decl.targets).getD []).Perm (targets d.name)
    rw [hget]
    exact (htargets d hd).symm
  · have hback := hperm.map (Decl.retarget fun name => ((c.get? name).map Decl.targets).getD [])
    rw [List.map_map] at hback
    have hsame : c.decls.map (Decl.retarget (fun name => ((c.get? name).map Decl.targets).getD [])
        ∘ Decl.retarget targets) = c.decls := by
      refine (List.map_congr_left fun d hd => ?_).trans (List.map_id _)
      have hget : c.get? d.name = some d := get?_eq_some_iff.mpr ⟨hd, rfl⟩
      simp [Decl.retarget, hget]
    rw [hsame] at hback
    exact hback.symm

namespace Agrees

variable (h : c.Agrees c' targets)

include h

theorem parents_eq (d : Decl) :
    c'.parents (d.retarget targets) = (c.parents d).map (Decl.retarget targets) := by
  unfold parents
  rw [List.map_filterMap]
  refine List.filterMap_congr fun t _ => ?_
  cases t.head? with
  | none => rfl
  | some name => exact h.get name

theorem inherits {d e : Decl} (hinherits : c.Inherits d e) :
    c'.Inherits (d.retarget targets) (e.retarget targets) := by
  have hstep : ∀ a b, c.Extends a b → c'.Extends (a.retarget targets) (b.retarget targets) := by
    intro a b hab
    unfold Extends
    rw [h.parents_eq]
    exact List.mem_map_of_mem hab
  exact hinherits.lift _ hstep

theorem checkEnclosing_eq (start : String) (n : Nat) (seen : List String) (d : Decl) :
    c'.checkEnclosing start n seen (d.retarget targets) = c.checkEnclosing start n seen d := by
  induction n generalizing seen d with
  | zero => rfl
  | succ n ih =>
    simp only [checkEnclosing, Decl.retarget_nesting, Decl.retarget_name, h.get]
    cases d.nesting with
    | topLevel | «local» | anonymous => rfl
    | member enclosing =>
      dsimp only
      cases c.get? enclosing with
      | none => rfl
      | some outer => simp only [Option.map_some, ih]

theorem enclosingNames_eq (model : String) (n : Nat) (passed : String) (d : Decl) :
    c'.enclosingNames model n passed (d.retarget targets) =
      c.enclosingNames model n passed d := by
  induction n generalizing passed d with
  | zero =>
    unfold enclosingNames
    simp only [Decl.retarget_nesting, Decl.retarget_name, h.get]
    cases d.nesting with
    | topLevel | «local» | anonymous => rfl
    | member enclosing =>
      dsimp only
      cases c.get? enclosing <;> rfl
  | succ n ih =>
    unfold enclosingNames
    simp only [Decl.retarget_nesting, Decl.retarget_name, h.get]
    cases d.nesting with
    | topLevel | «local» | anonymous => rfl
    | member enclosing =>
      dsimp only
      cases c.get? enclosing with
      | none => rfl
      | some outer => simp only [Option.map_some, Decl.retarget_simpleName, ih]

theorem outermost?_eq (n : Nat) (d : Decl) :
    c'.outermost? n (d.retarget targets) = (c.outermost? n d).map (Decl.retarget targets) := by
  induction n generalizing d with
  | zero => rfl
  | succ n ih =>
    simp only [outermost?, Decl.retarget_nesting, Decl.retarget_name, h.get]
    cases d.nesting with
    | topLevel | «local» | anonymous => rfl
    | member enclosing =>
      dsimp only
      cases c.get? enclosing with
      | none => rfl
      | some outer =>
        simp only [Option.map_some, Decl.retarget_name, ih]
        split <;> rfl

theorem packageOf?_eq (d : Decl) : c'.packageOf? (d.retarget targets) = c.packageOf? d := by
  unfold packageOf?
  rw [h.size, h.outermost?_eq, Option.map_map]
  rfl

theorem hasClause_eq : c'.HasClause = c.HasClause := by
  funext name above
  unfold HasClause
  rw [h.get]
  cases c.get? name with
  | none => simp
  | some d => simp [Decl.retarget]

theorem entitled_eq : Capabilities.Entitled c' = Capabilities.Entitled c := by
  have hcarries : Capabilities.Carries c' = Capabilities.Carries c := by
    funext name k
    unfold Capabilities.Carries
    rw [h.get]
    cases c.get? name with
    | none => simp
    | some d => simp [Decl.retarget]
  funext name k
  unfold Capabilities.Entitled
  rw [hcarries, h.hasClause_eq]

end Agrees

theorem Reordered.agrees (h : c.Reordered c') : ∃ targets, c.Agrees c' targets := by
  obtain ⟨targets, -, hperm⟩ := h
  exact ⟨targets, agrees_of_perm hperm⟩

/-- A catalog in another order is accepted just as well. -/
theorem Reordered.check_ok (h : c.Reordered c') (hcheck : c.check = .ok ()) :
    c'.check = .ok () := by
  obtain ⟨targets', hagrees'⟩ := h.symm.agrees
  obtain ⟨targets, htargets, hperm⟩ := h
  have hagrees := agrees_of_perm hperm
  have hmem : ∀ d' ∈ c'.decls, ∃ d ∈ c.decls, d.retarget targets = d' :=
    fun d' hd' => List.mem_map.mp (hperm.mem_iff.mp hd')
  obtain ⟨henclosing, hnesting, hinheritance⟩ := check_ok_iff_parts.mp hcheck
  rw [forM_ok_iff] at henclosing
  rw [models_ok_iff] at hnesting
  refine check_ok_iff_parts.mpr ⟨?_, ?_, ?_⟩
  · rw [forM_ok_iff]
    intro d' hd'
    obtain ⟨d, hd, rfl⟩ := hmem d' hd'
    rw [hagrees.checkEnclosing_eq, hagrees.size]
    exact henclosing d hd
  · rw [models_ok_iff]
    intro d' hd' hmodel
    obtain ⟨d, hd, rfl⟩ := hmem d' hd'
    apply hnesting d hd
    intro hempty
    have hperm' := htargets d hd
    rw [hempty] at hperm'
    exact hmodel hperm'.eq_nil
  · rw [checkInheritance_ok_iff]
    intro d' _ hcircle
    exact not_inherits_self (wellFounded_of_checkInheritance hinheritance) _
      (hagrees'.inherits hcircle)

/-- In a checked catalog the capabilities do not depend on the order. -/
theorem Reordered.has_eq (h : c.Reordered c') (hcheck : c.check = .ok ()) (name : String)
    (k : Capability) :
    (Capabilities.ofCatalog c').has name k = (Capabilities.ofCatalog c).has name k := by
  obtain ⟨targets, hagrees⟩ := h.agrees
  have hacyclic := not_inherits_self (wellFounded_of_check hcheck)
  have hacyclic' := not_inherits_self (wellFounded_of_check (h.check_ok hcheck))
  rw [Bool.eq_iff_iff, Capabilities.has_iff_entitled hacyclic',
    Capabilities.has_iff_entitled hacyclic, hagrees.entitled_eq]

end Catalog

end Scaffold
