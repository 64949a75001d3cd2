import Scaffold.Proofs.Forms
import Scaffold.Proofs.ProjectionOrder
import Scaffold.Proofs.Touring

/-!
Projections of one catalog from other roots. The definitions that one projection leaves refer to
each other only, so a tour that comes behind it takes the slots that it would have taken alone,
without those that are taken already. What a definition says does not depend on the roots at
all.
-/
namespace Scaffold.Projection

variable {x : Context}

/-- The same projection from these roots. -/
def Context.withRoots (x : Context) (roots : List String) : Context :=
  { x with settings := { x.settings with roots := roots } }

namespace Context

variable (x) (roots : List String)

@[simp] theorem catalog_withRoots : (x.withRoots roots).catalog = x.catalog := rfl

theorem project_withRoots (place : String) (n : Nat) (t : Ty) :
    project (x.withRoots roots) place n t = project x place n t := by
  induction n generalizing t with
  | zero => rfl
  | succ n ih =>
    have hinside : project (x.withRoots roots) place n = project x place n := funext ih
    rw [project_succ, project_succ, hinside]
    rfl

theorem script_withRoots (d : Decl) : script (x.withRoots roots) d = script x d := by
  have hproject : ∀ place, project (x.withRoots roots) place (levels x.catalog) =
      project x place (levels x.catalog) := fun place =>
    funext (x.project_withRoots roots place _)
  have hextends : extendsText (x.withRoots roots) d = extendsText x d := by
    unfold extendsText
    simp only [catalog_withRoots, hproject]
    rfl
  have hline : propertyLine (x.withRoots roots) d = propertyLine x d := by
    funext p
    unfold propertyLine
    simp only [catalog_withRoots, hproject]
  unfold script interfaceText
  rw [hextends, hline]
  rfl

theorem refers_withRoots : Refers (x.withRoots roots) = Refers x := by
  funext name ref
  unfold Refers
  simp only [catalog_withRoots, script_withRoots]

theorem scripted_withRoots : Scripted (x.withRoots roots) = Scripted x := by
  funext name source
  unfold Scripted
  simp only [catalog_withRoots, script_withRoots]

theorem startNames_withRoots {roots : List String} (h : roots ≠ []) :
    startNames (x.withRoots roots) = roots := by
  have hempty : ¬ roots.isEmpty := by simpa using h
  exact if_neg hempty

end Context

theorem Tour.of_withRoots {roots names : List String} {w w' : Walk}
    (h : Tour (x.withRoots roots) names w w') : Tour x names w w' := by
  induction h with
  | done => exact .done
  | pass hmet _ ih => exact .pass hmet ih
  | take hnew hget hresult _ _ ihrefs ih =>
    rw [x.script_withRoots] at hresult ihrefs
    exact .take hnew hget hresult ihrefs ih

/-- Where a tour ends is settled by where it starts. -/
theorem Tour.functional {names : List String} {w w' w'' : Walk} (h : Tour x names w w')
    (h' : Tour x names w w'') : w' = w'' := by
  induction h generalizing w'' with
  | done =>
    cases h'
    rfl
  | pass hmet _ ih =>
    cases h' with
    | pass _ hrest => exact ih hrest
    | take hnew => exact absurd hmet hnew
  | take hnew hget hresult _ _ ihrefs ih =>
    cases h' with
    | pass hmet => exact absurd hmet hnew
    | take _ hget' hresult' hrefs hrest =>
      obtain rfl := Option.some.inj (hget.symm.trans hget')
      obtain rfl := Except.ok.inj (hresult.symm.trans hresult')
      obtain rfl := ihrefs hrefs
      exact ih hrest

namespace Walk

/-- The slots of a walk behind those of an earlier one, without those that the earlier one has
taken. -/
def behind (first w : Walk) : Walk :=
  ⟨first.slots ++ w.slots.filter fun s => s.1 ∉ first.names⟩

variable {first : Walk}

theorem mem_names_behind {w : Walk} {name : String} :
    name ∈ (first.behind w).names ↔ name ∈ first.names ∨ name ∈ w.names := by
  simp only [behind, names, List.map_append, List.mem_append, List.mem_map, List.mem_filter,
    decide_eq_true_eq]
  by_cases hfirst : ∃ s ∈ first.slots, s.1 = name
  · simp only [hfirst, true_or]
  · simp only [hfirst, false_or]
    refine exists_congr fun s => ⟨fun h => ⟨h.1.1, h.2⟩, fun h => ⟨⟨h.1, ?_⟩, h.2⟩⟩
    rwa [h.2]

theorem behind_reserve_of_mem {w : Walk} {name : String} (h : name ∈ first.names) :
    first.behind (w.reserve name) = first.behind w := by
  simp [behind, reserve, h]

theorem behind_reserve {w : Walk} {name : String} (h : name ∉ first.names) :
    first.behind (w.reserve name) = (first.behind w).reserve name := by
  simp [behind, reserve, h]

theorem behind_fill_of_mem {w : Walk} {name source : String} (h : name ∈ first.names) :
    first.behind (w.fill name source) = first.behind w := by
  obtain ⟨slots⟩ := w
  simp only [behind, fill, Walk.mk.injEq, List.append_cancel_left_eq]
  induction slots with
  | nil => rfl
  | cons s slots ih =>
    rw [List.map_cons, List.filter_cons, List.filter_cons, ih]
    by_cases hs : s.1 = name
    · simp [hs, h]
    · simp [hs]

theorem behind_fill {w : Walk} {name source : String} (h : name ∉ first.names) :
    first.behind (w.fill name source) = (first.behind w).fill name source := by
  have hfirst : first.slots.map (fun s => if s.1 = name then (name, some source) else s) =
      first.slots := by
    refine (List.map_congr_left fun s hs => if_neg fun hname => h ?_).trans (List.map_id _)
    exact hname ▸ List.mem_map_of_mem hs
  simp only [behind, fill, List.map_append, hfirst, List.filter_map]
  congr 3
  refine List.filter_congr fun s _ => ?_
  by_cases hs : s.1 = name <;> simp [hs]

theorem definitions_behind (w : Walk) : (first.behind w).definitions =
    first.definitions ++ w.definitions.filter fun t => t.name ∉ first.names := by
  simp only [definitions, behind, List.filterMap_append, List.append_cancel_left_eq]
  rw [List.filter_filterMap, List.filterMap_filter]
  refine List.filterMap_congr fun s _ => ?_
  cases s.2 <;> simp [Option.filter_some]

end Walk

namespace Tour

variable {first w w' : Walk} {names : List String}

/-- Behind a closed walk a tour over what it has met takes nothing. -/
theorem behind_eq (hclosed : first.Closed x) (h : Tour x names w w')
    (hmet : ∀ name ∈ names, name ∈ first.names) : first.behind w' = first.behind w := by
  induction h with
  | done => rfl
  | pass _ _ ih => exact ih (List.forall_mem_cons.mp hmet).2
  | @take name source rest d w mid w' _ hget _ _ _ ihrefs ih =>
    obtain ⟨hname, hrest⟩ := List.forall_mem_cons.mp hmet
    have hrefs : ∀ ref ∈ (script x d).refs, ref ∈ first.names := fun ref href =>
      hclosed name hname ref ⟨d, hget, href⟩
    calc first.behind w'
      _ = first.behind (mid.fill name source) := ih hrest
      _ = first.behind mid := Walk.behind_fill_of_mem hname
      _ = first.behind (w.reserve name) := ihrefs hrefs
      _ = first.behind w := Walk.behind_reserve_of_mem hname

/-- A tour goes on behind a closed walk as it went, but passes over what that walk has met. -/
theorem behind (hclosed : first.Closed x) (h : Tour x names w w') :
    Tour x names (first.behind w) (first.behind w') := by
  induction h with
  | done => exact .done
  | pass hmet _ ih => exact .pass (Walk.mem_names_behind.mpr (Or.inr hmet)) ih
  | @take name source rest d w mid w' hnew hget hresult hrefs _ ihrefs ih =>
    by_cases hname : name ∈ first.names
    · have hsame := behind_eq hclosed (.take hnew hget hresult hrefs .done)
        (List.forall_mem_singleton.mpr hname)
      rw [hsame] at ih
      exact .pass (Walk.mem_names_behind.mpr (Or.inl hname)) ih
    · rw [Walk.behind_reserve hname] at ihrefs
      rw [Walk.behind_fill hname] at ih
      refine .take ?_ hget hresult ihrefs ih
      rw [Walk.mem_names_behind]
      exact fun hmet => hmet.elim hname hnew

end Tour

section Roots

variable {first second : List String}

theorem needed_withRoots_append (hfirst : first ≠ []) (hsecond : second ≠ []) (name : String) :
    Needed (x.withRoots (first ++ second)) name ↔
      Needed (x.withRoots first) name ∨ Needed (x.withRoots second) name := by
  have hboth : first ++ second ≠ [] := List.append_ne_nil_of_left_ne_nil hfirst second
  unfold Needed
  simp only [x.refers_withRoots, x.startNames_withRoots hfirst, x.startNames_withRoots hsecond,
    x.startNames_withRoots hboth, List.mem_append, or_and_right, exists_or]

theorem exists_projectTypes_append (hfirst : first ≠ []) (hsecond : second ≠ []) :
    (∃ ds, projectTypes (x.withRoots (first ++ second)) = .ok ds) ↔
      (∃ ds, projectTypes (x.withRoots first) = .ok ds) ∧
        ∃ ds, projectTypes (x.withRoots second) = .ok ds := by
  simp only [exists_projectTypes_iff, needed_withRoots_append hfirst hsecond,
    x.scripted_withRoots, or_imp, forall_and]

theorem tour_of_withRoots {roots : List String} {ds : List Definition} (hroots : roots ≠ [])
    (h : projectTypes (x.withRoots roots) = .ok ds) :
    ∃ w, w.definitions = ds ∧ ds.map Definition.name = w.names ∧ Tour x roots .empty w := by
  obtain ⟨w, rfl, htour⟩ := tour_of_projectTypes h
  rw [x.startNames_withRoots hroots] at htour
  exact ⟨w, rfl, Walk.names_definitions htour.unfilled, htour.of_withRoots⟩

/-- A projection from two lists of roots succeeds just if it does from each alone. It then
gives what the first one gives and, behind it, what the second one gives besides. Whatever the
roots are, a definition has the text of its script, which only knows the declaration, the
catalog and the settings other than the roots. -/
theorem projectTypes_append (x : Context) (first second : List String) (hfirst : first ≠ [])
    (hsecond : second ≠ []) :
    ((∃ ds, projectTypes (x.withRoots (first ++ second)) = .ok ds) ↔
      (∃ ds, projectTypes (x.withRoots first) = .ok ds) ∧
        ∃ ds, projectTypes (x.withRoots second) = .ok ds) ∧
    (∀ ds ds', projectTypes (x.withRoots first) = .ok ds →
      projectTypes (x.withRoots second) = .ok ds' →
      projectTypes (x.withRoots (first ++ second)) =
        .ok (ds ++ ds'.filter fun t => t.name ∉ ds.map Definition.name)) ∧
    ∀ roots ds, projectTypes (x.withRoots roots) = .ok ds →
      ∀ t ∈ ds, Scripted x t.name t.source := by
  refine ⟨exists_projectTypes_append hfirst hsecond, ?_, ?_⟩
  · intro ds ds' h h'
    obtain ⟨both, hboth⟩ := (exists_projectTypes_append hfirst hsecond).mpr ⟨⟨ds, h⟩, ds', h'⟩
    obtain ⟨w, rfl, hnames, htour⟩ := tour_of_withRoots hfirst h
    obtain ⟨w', rfl, -, htour'⟩ := tour_of_withRoots hsecond h'
    obtain ⟨v, rfl, -, hall⟩ :=
      tour_of_withRoots (List.append_ne_nil_of_left_ne_nil hfirst second) hboth
    have hempty : w.behind .empty = w := by simp [Walk.behind, Walk.empty]
    have hbehind := htour'.behind htour.closed
    rw [hempty] at hbehind
    obtain rfl := hall.functional (htour.append hbehind)
    rw [hboth, Walk.definitions_behind, hnames]
  · intro roots ds h t ht
    have hscripted := source_of_projectTypes h ht
    rwa [x.scripted_withRoots] at hscripted

end Roots

/-- The library leads to the person that stands before it, and to itself through its books. -/
theorem projectTypes_append_library :
    ["Person"] ≠ [] ∧ ["Library"] ≠ [] ∧
      ∃ ds ds', projectTypes (library.withRoots ["Person"]) = .ok ds ∧
        projectTypes (library.withRoots ["Library"]) = .ok ds' ∧
        ds'.map Definition.name = ["Library", "Person", "Book"] ∧
        ∃ both, projectTypes (library.withRoots ["Person", "Library"]) = .ok both ∧
          both.map Definition.name = ["Person", "Library", "Book"] := by
  have hfirst : ["Person"] ≠ [] := by decide
  have hsecond : ["Library"] ≠ [] := by decide
  obtain ⟨-, happend, -⟩ := projectTypes_append library ["Person"] ["Library"] hfirst hsecond
  exact ⟨hfirst, hsecond, _, _, rfl, rfl, rfl, _, happend _ _ rfl rfl, by decide⟩

end Scaffold.Projection
