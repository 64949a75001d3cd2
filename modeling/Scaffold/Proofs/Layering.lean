import Scaffold.Proofs.Redeclaration

/-!
What layered directives say about a label. A slot holds the last directive that was written for
it, and a directive that names the label is looked up before one for all targets. So along a
chain of single inheritance the most derived type that names the label has the say, and only if
none does the most derived type that writes for all targets.
-/
namespace Scaffold

theorem findSome?_of_find? {α β : Type} {g : α → Option β} {l : List α} {a : α}
    (h : l.find? (fun b => (g b).isSome) = some a) : l.findSome? g = g a := by
  obtain ⟨hsome, before, behind, rfl, hbefore⟩ := List.find?_eq_some_iff_append.mp h
  obtain ⟨b, hb⟩ := Option.isSome_iff_exists.mp hsome
  rw [hb, List.findSome?_eq_some_iff]
  exact ⟨before, a, behind, rfl, hb, by simpa using hbefore⟩

namespace Layers

section Slot

variable {β : Type} {g : Directive → Option β} {slot : Slot}
  (hslot : ∀ d, (g d).isSome ↔ d.slot = slot)

include hslot

/-- A directive that is placed has the say for its slot and for no other. -/
theorem findSome?_place (d : Directive) (es : List Directive) :
    (place d es).findSome? g = (g d).or (es.findSome? g) := by
  induction es with
  | nil => cases hd : g d <;> simp [place, hd]
  | cons e es ih =>
    rw [place, List.findSome?_cons]
    by_cases hsame : e.slot = d.slot
    · rw [if_pos hsame, List.findSome?_cons]
      cases hd : g d with
      | some b => rfl
      | none =>
        have he : g e = none := by
          rw [← Option.not_isSome_iff_eq_none, hslot, hsame, ← hslot, hd]
          simp
        rw [he, Option.none_or]
    · rw [if_neg hsame, List.findSome?_cons, ih]
      cases he : g e with
      | none => rfl
      | some b =>
        have hd : g d = none := by
          have htaken : e.slot = slot := (hslot e).mp (by simp [he])
          rw [← Option.not_isSome_iff_eq_none, hslot, ← htaken]
          exact Ne.symm hsame
        rw [hd]
        rfl

/-- What is read off one slot comes from the last directive that was written for it. -/
theorem findSome?_layer_empty (ds : List Directive) :
    (empty.layer ds).entries.findSome? g = (ds.filterMap g).getLast? := by
  induction ds using List.reverseRecOn with
  | nil => rfl
  | append_singleton ds d ih =>
    rw [layer_concat, findSome?_place hslot, ih, List.filterMap_append, List.getLast?_append]
    cases hd : g d <;> simp [hd]

end Slot

end Layers

/-- The choice of a directive that is written for just this target. -/
def Directive.choice? {α : Type} (pick : Directive → Option (Option String × α))
    (target : Option String) (d : Directive) : Option α :=
  (pick d).bind fun p => if p.1 = target then some p.2 else none

/-- A family of directives: what is picked from them are choices, and those with a choice for a
target are those of one slot. -/
structure Family (α : Type) where
  pick : Directive → Option (Option String × α)
  slot : Option String → Slot
  slotted : ∀ (d : Directive) target, (d.choice? pick target).isSome ↔ d.slot = slot target

namespace Family

/-- Whether a property is left out. -/
def visibility : Family Bool where
  pick := Directive.visibility?
  slot := .visibility
  slotted := by
    intro d target
    cases d <;> simp [Directive.choice?, Directive.visibility?, Directive.slot]

/-- How a property gets its first value. -/
def initializer : Family Initializer where
  pick := Directive.initializer?
  slot := .initializer
  slotted := by
    intro d target
    cases d <;> simp [Directive.choice?, Directive.initializer?, Directive.slot]

variable {α : Type} (F : Family α)

/-- The layers hold the last choice for each target. -/
theorem findSome?_layer (target : Option String) (ds : List Directive) :
    (Layers.empty.layer ds).entries.findSome? (Directive.choice? F.pick target) =
      (ds.filterMap (Directive.choice? F.pick target)).getLast? :=
  Layers.findSome?_layer_empty (fun d => F.slotted d target) ds

/-- A choice for the label comes before one for all targets. -/
theorem lookup_eq (label : String) (l : Layers) : l.lookup label F.pick =
    (l.entries.findSome? (Directive.choice? F.pick (some label))).or
      (l.entries.findSome? (Directive.choice? F.pick none)) := by
  have hpicked : ∀ (target : Option String) (ds : List Directive),
      ((ds.filterMap F.pick).find? fun p => p.1 = target).map (·.2) =
        ds.findSome? (Directive.choice? F.pick target) := by
    intro target ds
    induction ds with
    | nil => rfl
    | cons d ds ih =>
      rw [List.filterMap_cons, List.findSome?_cons]
      cases hd : F.pick d with
      | none => simpa [Directive.choice?, hd] using ih
      | some p =>
        by_cases hp : p.1 = target
        · simp [Directive.choice?, hd, hp]
        · have hnone : d.choice? F.pick target = none := by simp [Directive.choice?, hd, hp]
          rw [hnone, List.find?_cons_of_neg (by simpa using hp)]
          exact ih
  unfold Layers.lookup
  rw [← hpicked, ← hpicked]
  dsimp only
  cases (l.entries.filterMap F.pick).find? fun p => p.1 = some label <;> simp

end Family

namespace PropertyTable

variable {c : Catalog} {α : Type}

/-- The last choice that a declaration writes on a property for just this target. -/
def written (F : Family α) (p : String) (target : Option String) (d : Decl) : Option α :=
  ((writes p d).filterMap (Directive.choice? F.pick target)).getLast?

/-- What a declaration says about a label: a choice that names it, else one for all targets. -/
def said (F : Family α) (p label : String) (d : Decl) : Option α :=
  (written F p (some label) d).or (written F p none d)

/-- A chain of single inheritance, the most derived type first: each type but the last has the
next one as its only declared supertype, and nothing above the last declares the property. -/
inductive Chain (c : Catalog) (p : String) : Decl → List Decl → Prop
  | top {d : Decl} (habove : ∀ e, c.Inherits d e → p ∉ declaredNames e) : Chain c p d [d]
  | cons {d e : Decl} {chain : List Decl} (honly : ∀ f, c.Extends d f ↔ f = e)
    (hchain : Chain c p e chain) : Chain c p d (d :: chain)

theorem written_eq_none (F : Family α) {p : String} (target : Option String) {d : Decl}
    (h : p ∉ declaredNames d) : written F p target d = none := by
  have hnone : d.properties.filter (·.name = p) = [] :=
    List.filter_eq_nil_iff.mpr fun q hq hname =>
      h (of_decide_eq_true hname ▸ List.mem_map_of_mem hq)
  rw [written, writes, hnone]
  rfl

namespace Chain

variable {p : String} {chain : List Decl} (h : WellFounded fun e d => c.Extends d e)

theorem reaches {d s : Decl} (hchain : Chain c p d chain) (hs : s ∈ chain) : c.Reaches d s := by
  induction hchain with
  | top =>
    obtain rfl := List.mem_singleton.mp hs
    exact .refl
  | cons honly _ ih =>
    rcases List.mem_cons.mp hs with rfl | hs
    · exact .refl
    · exact .head ((honly _).mpr rfl) (ih hs)

/-- A declaration with one parent has the parent's lineage below it. -/
theorem lineage_of_only {d e : Decl} (honly : ∀ f, c.Extends d f ↔ f = e) :
    Catalog.lineage h d = Catalog.lineage h e ++ [d] := by
  have hparents : (c.parents d).eraseDups = [e] := by
    have hperm : (c.parents d).eraseDups.Perm [e] := by
      rw [List.perm_ext_iff_of_nodup (Distinct.nodup_eraseDups _) (List.nodup_singleton e)]
      intro f
      rw [List.mem_eraseDups, List.mem_singleton]
      exact honly f
    exact List.perm_singleton.mp hperm
  rw [Catalog.lineage_eq, ← Distinct.eraseDups_flatMap_eraseDups, hparents, List.flatMap_singleton,
    Distinct.eraseDups_of_nodup (Catalog.nodup_lineage h e)]

/-- Only the types of the chain have a say. -/
theorem findSome?_lineage {d : Decl} (hchain : Chain c p d chain) (F : Family α)
    (target : Option String) :
    (Catalog.lineage h d).reverse.findSome? (written F p target) =
      chain.findSome? (written F p target) := by
  induction hchain with
  | @top d habove =>
    have hnone : (((c.parents d).flatMap (Catalog.lineage h)).eraseDups).reverse.findSome?
        (written F p target) = none := by
      rw [List.findSome?_eq_none_iff]
      intro e he
      rw [List.mem_reverse, List.mem_eraseDups] at he
      obtain ⟨f, hf, hmem⟩ := List.mem_flatMap.mp he
      exact written_eq_none F target
        (habove e (Relation.TransGen.head' hf ((Catalog.mem_lineage h).mp hmem)))
    rw [Catalog.lineage_eq, List.reverse_append, List.reverse_singleton, List.singleton_append,
      List.findSome?_cons, hnone]
    rfl
  | @cons d e chain honly _ ih =>
    rw [lineage_of_only h honly, List.reverse_append, List.reverse_singleton,
      List.singleton_append, List.findSome?_cons, ih]
    rfl

end Chain

/-- What is looked up for a label on a chain. -/
theorem lookup_of_chain (h : WellFounded fun e d => c.Extends d e) {d : Decl} {p label : String}
    {chain : List Decl} {e : Effective} (hchain : Chain c p d chain)
    (he : e ∈ declareAll [] (Catalog.lineage h d)) (hname : e.name = p) (F : Family α) :
    e.directives.lookup label F.pick = (chain.findSome? (written F p (some label))).or
      (chain.findSome? (written F p none)) := by
  have hlast : ∀ target, e.directives.entries.findSome? (Directive.choice? F.pick target) =
      chain.findSome? (written F p target) := by
    intro target
    rw [layers_of_mem he, F.findSome?_layer, hname, List.filterMap_flatMap, List.getLast?_flatMap]
    exact hchain.findSome?_lineage h F target
  rw [F.lookup_eq, hlast, hlast]

/-- What is chosen for a label on a chain: types that name the label have the say before those
that do not, and among them the more derived one. -/
structure Decides (F : Family α) (p label : String) (chain : List Decl) (chosen : Option α) :
    Prop where
  /-- The most derived type that says something has its way if it names the label or none does. -/
  derived : ∀ T, chain.find? (fun d => (said F p label d).isSome) = some T →
    ((written F p (some label) T).isSome ∨ ∀ d ∈ chain, written F p (some label) d = none) →
    chosen = said F p label T
  /-- Otherwise the most derived one that names the label. -/
  targeted : ∀ T, chain.find? (fun d => (written F p (some label) d).isSome) = some T →
    chosen = written F p (some label) T
  silent : (∀ d ∈ chain, said F p label d = none) → chosen = none

theorem said_eq_none_iff {F : Family α} {p label : String} {d : Decl} :
    said F p label d = none ↔ written F p (some label) d = none ∧ written F p none d = none :=
  Option.or_eq_none_iff

theorem decides_findSome? (F : Family α) (p label : String) (chain : List Decl) :
    Decides F p label chain ((chain.findSome? (written F p (some label))).or
      (chain.findSome? (written F p none))) := by
  have htargeted : ∀ T, chain.find? (fun d => (written F p (some label) d).isSome) = some T →
      (chain.findSome? (written F p (some label))).or (chain.findSome? (written F p none)) =
        written F p (some label) T := by
    intro T hT
    have hnames := List.find?_some hT
    rw [findSome?_of_find? hT, Option.or_of_isSome hnames]
  have hsilent : ∀ target, (∀ d ∈ chain, written F p target d = none) →
      chain.findSome? (written F p target) = none := fun target =>
    List.findSome?_eq_none_iff.mpr
  refine ⟨?_, htargeted, ?_⟩
  · intro T hT hvoice
    obtain ⟨hspeaks, before, behind, rfl, hbefore⟩ := List.find?_eq_some_iff_append.mp hT
    have hfirst : ∀ target, (written F p target T).isSome →
        (∀ d ∈ before, written F p target d = none) →
        (before ++ T :: behind).find? (fun d => (written F p target d).isSome) = some T := by
      intro target hwrites hnone
      refine List.find?_eq_some_iff_append.mpr ⟨hwrites, before, behind, rfl, fun d hd => ?_⟩
      simp [hnone d hd]
    have hmute : ∀ d ∈ before, said F p label d = none := fun d hd => by
      simpa using hbefore d hd
    rcases hvoice with hnames | hnone
    · rw [htargeted T (hfirst _ hnames fun d hd => (said_eq_none_iff.mp (hmute d hd)).1), said,
        Option.or_of_isSome hnames]
    · have hT : written F p (some label) T = none := hnone T (by simp)
      have hall : (written F p none T).isSome := by simpa [said, hT] using hspeaks
      rw [hsilent _ hnone, Option.none_or,
        findSome?_of_find? (hfirst _ hall fun d hd => (said_eq_none_iff.mp (hmute d hd)).2), said,
        hT, Option.none_or]
  · intro hnone
    rw [hsilent _ fun d hd => (said_eq_none_iff.mp (hnone d hd)).1,
      hsilent _ fun d hd => (said_eq_none_iff.mp (hnone d hd)).2]
    rfl

theorem mem_of_get? {t : PropertyTable} {p : String} {e : Effective} (h : t.get? p = some e) :
    e ∈ t.entries ∧ e.name = p :=
  ⟨List.mem_of_find?_eq_some h, by simpa using List.find?_some h⟩

/-- Along the chain of a property of a declared type of a checked catalog, for whether the
property is left out and for its first value alike: what the most derived type says that says
anything for a label is what counts, if it names the label or no type does. Otherwise a less
derived type that names the label has the say. -/
theorem targeted_then_most_derived (c : Catalog) (model p label : String) (d : Decl)
    (chain : List Decl) (hcheck : c.check = .ok ()) (hget : c.get? model = some d)
    (hchain : Chain c p d chain) (hdeclared : ∃ s ∈ chain, p ∈ declaredNames s) :
    ∃ t e, ofCatalog c model = .ok t ∧ t.get? p = some e ∧
      (∃ chosen, Decides .visibility p label chain chosen ∧
        ∀ byDefault, e.directives.isOmitted label byDefault = chosen.getD byDefault) ∧
      Decides .initializer p label chain (e.directives.initializer label) := by
  have h := Catalog.wellFounded_of_check hcheck
  obtain ⟨s, hs, hp⟩ := hdeclared
  have hmem := (mem_names_lineage h d p).mpr ⟨s, hchain.reaches hs, hp⟩
  obtain ⟨e, he⟩ := Option.isSome_iff_exists.mp ((isSome_get?_iff ⟨model, _⟩ p).mpr hmem)
  obtain ⟨hentry, hname⟩ := mem_of_get? he
  have hlookup : ∀ {α : Type} (F : Family α), Decides F p label chain
      (e.directives.lookup label F.pick) := by
    intro α F
    rw [lookup_of_chain h hchain hentry hname F]
    exact decides_findSome? F p label chain
  exact ⟨_, e, ofCatalog_eq h hget, he, ⟨_, hlookup .visibility, fun _ => rfl⟩,
    hlookup .initializer⟩

/-- A base type that leaves its property out of one target and gives it a value there, and a
derived type that keeps the property everywhere and makes it required. -/
def summary : Catalog where
  decls := [
    { Decl.plain "a.Named" .interface with
      properties := [⟨"name", .scalar .string, false,
        [.omit (some "Update"), .init "\"anonymous\"" (some "Update")]⟩] },
    { Decl.plain "a.Person" .interface with
      supertypes := [.named "a.Named" []]
      properties := [⟨"name", .scalar .string, false, [.include none, .noInit none]⟩] }]
  nodup := by decide

theorem chain_summary :
    Chain summary "name" summary.decls[1] [summary.decls[1], summary.decls[0]] := by
  refine .cons (fun f => ?_) (.top fun e he => ?_)
  · have hparents : summary.parents summary.decls[1] = [summary.decls[0]] := rfl
    rw [Catalog.Extends, hparents, List.mem_singleton]
  · have hparents : summary.parents summary.decls[0] = [] := rfl
    obtain ⟨f, hf, -⟩ := Relation.TransGen.head'_iff.mp he
    rw [Catalog.Extends, hparents] at hf
    exact absurd hf List.not_mem_nil

/-- Its base type decides for the target that it names, its derived type for all others. -/
theorem targeted_then_most_derived_summary :
    summary.check = .ok () ∧ summary.get? "a.Person" = some summary.decls[1] ∧
      Chain summary "name" summary.decls[1] [summary.decls[1], summary.decls[0]] ∧
      (∃ t e, ofCatalog summary "a.Person" = .ok t ∧ t.get? "name" = some e ∧
        e.directives.isOmitted "Update" false = true ∧
        e.directives.initializer "Update" = some (.expr "\"anonymous\"")) ∧
      ∃ t e, ofCatalog summary "a.Person" = .ok t ∧ t.get? "name" = some e ∧
        e.directives.isOmitted "Detail" true = false ∧
        e.directives.initializer "Detail" = some .required := by
  have hdeclared : ∃ s ∈ [summary.decls[1], summary.decls[0]], "name" ∈ declaredNames s :=
    ⟨summary.decls[0], by decide, by decide⟩
  refine ⟨rfl, rfl, chain_summary, ?_, ?_⟩
  · obtain ⟨t, e, ht, he, ⟨chosen, hvisible, homitted⟩, hinitial⟩ :=
      targeted_then_most_derived summary "a.Person" "name" "Update" summary.decls[1] _ rfl rfl
        chain_summary hdeclared
    refine ⟨t, e, ht, he, ?_, hinitial.targeted summary.decls[0] rfl⟩
    rw [homitted, hvisible.targeted summary.decls[0] rfl]
    rfl
  · obtain ⟨t, e, ht, he, ⟨chosen, hvisible, homitted⟩, hinitial⟩ :=
      targeted_then_most_derived summary "a.Person" "name" "Detail" summary.decls[1] _ rfl rfl
        chain_summary hdeclared
    refine ⟨t, e, ht, he, ?_, hinitial.derived summary.decls[1] rfl (Or.inr (by decide))⟩
    rw [homitted, hvisible.derived summary.decls[1] rfl (Or.inr (by decide))]
    rfl

/-- The most derived type that says anything for a target may be overruled: here by a base type
that names the target, where the derived type writes for all targets. What counts is then none
of the choices that the derived type writes. -/
theorem base_overrules_derived :
    summary.check = .ok () ∧
      Chain summary "name" summary.decls[1] [summary.decls[1], summary.decls[0]] ∧
      [summary.decls[1], summary.decls[0]].find?
        (fun d => (said .visibility "name" "Update" d).isSome) = some summary.decls[1] ∧
      [summary.decls[1], summary.decls[0]].find?
        (fun d => (said .initializer "name" "Update" d).isSome) = some summary.decls[1] ∧
      ∃ t e, ofCatalog summary "a.Person" = .ok t ∧ t.get? "name" = some e ∧
        ∀ x ∈ writes "name" summary.decls[1], ∀ target,
          x.choice? Family.visibility.pick target ≠ some (e.directives.isOmitted "Update" false) ∧
          x.choice? Family.initializer.pick target ≠ e.directives.initializer "Update" := by
  have hcounts : ∃ t e, ofCatalog summary "a.Person" = .ok t ∧ t.get? "name" = some e ∧
      e.directives.isOmitted "Update" false = true ∧
      e.directives.initializer "Update" = some (.expr "\"anonymous\"") :=
    ⟨_, _, rfl, rfl, rfl, rfl⟩
  obtain ⟨t, e, ht, he, homitted, hinitial⟩ := hcounts
  refine ⟨rfl, chain_summary, rfl, rfl, t, e, ht, he, fun x hx target => ?_⟩
  have hwrites : writes "name" summary.decls[1] = [.include none, .noInit none] := rfl
  rw [hwrites, List.mem_cons, List.mem_singleton] at hx
  rw [homitted, hinitial]
  rcases hx with rfl | rfl <;> cases target <;>
    simp [Directive.choice?, Family.visibility, Family.initializer, Directive.visibility?,
      Directive.initializer?]

end PropertyTable

end Scaffold
