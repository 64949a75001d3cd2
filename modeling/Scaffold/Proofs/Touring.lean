import Scaffold.Proofs.Ancestry
import Scaffold.Projection.Walk

/-!
The walk of a projection without its bound on levels. A tour goes over names one after the
other. A name that was met is passed over; any other takes its slot, then all that its script
refers to is toured, and then the slot is filled. What a tour does to the slots is shown by
induction on it.
-/
namespace Scaffold.Projection

variable {x : Context}

namespace Walk

def names (w : Walk) : List String := w.slots.map Prod.fst

/-- The names whose slots are open. -/
def unfilled (w : Walk) : List String := (w.slots.filter (·.2.isNone)).map Prod.fst

theorem met_iff (w : Walk) (name : String) : w.met name ↔ name ∈ w.names := by
  simp [met, names]

theorem names_reserve (w : Walk) (name : String) :
    (w.reserve name).names = w.names ++ [name] := by
  simp [reserve, names]

theorem unfilled_reserve (w : Walk) (name : String) :
    (w.reserve name).unfilled = w.unfilled ++ [name] := by
  simp [reserve, unfilled]

theorem names_fill (w : Walk) (name source : String) : (w.fill name source).names = w.names := by
  simp only [fill, names, List.map_map]
  refine List.map_congr_left fun s _ => ?_
  by_cases hs : s.1 = name <;> simp [hs]

theorem unfilled_fill (w : Walk) (name source : String) :
    (w.fill name source).unfilled = w.unfilled.filter (· ≠ name) := by
  obtain ⟨slots⟩ := w
  simp only [fill, unfilled]
  induction slots with
  | nil => rfl
  | cons s slots ih =>
    rw [List.map_cons, List.filter_cons, List.filter_cons]
    by_cases hs : s.1 = name
    · cases hopen : s.2 <;> simpa [hs] using ih
    · cases hopen : s.2 <;> simpa [hs, hopen] using ih

theorem unfilled_subset (w : Walk) : ∀ name ∈ w.unfilled, name ∈ w.names := by
  intro name hname
  obtain ⟨s, hs, rfl⟩ := List.mem_map.mp hname
  exact List.mem_map_of_mem (List.mem_of_mem_filter hs)

theorem names_definitions {w : Walk} (h : w.unfilled = []) :
    w.definitions.map Definition.name = w.names := by
  obtain ⟨slots⟩ := w
  simp only [unfilled, definitions, names] at h ⊢
  induction slots with
  | nil => rfl
  | cons s slots ih =>
    obtain ⟨name, text⟩ := s
    cases text with
    | none => simp at h
    | some source =>
      rw [List.filter_cons_of_neg (by simp)] at h
      rw [List.filterMap_cons, List.map_cons]
      exact congrArg (name :: ·) (ih h)

theorem mem_definitions {w : Walk} {t : Definition} :
    t ∈ w.definitions ↔ (t.name, some t.source) ∈ w.slots := by
  simp only [definitions, List.mem_filterMap, Option.map_eq_some_iff]
  constructor
  · rintro ⟨s, hs, source, hsource, rfl⟩
    rwa [← hsource]
  · intro h
    exact ⟨_, h, t.source, rfl, rfl⟩

end Walk

/-- A tour over the names, from one walk to another. -/
inductive Tour (x : Context) : List String → Walk → Walk → Prop
  | done {w : Walk} : Tour x [] w w
  | pass {name : String} {rest : List String} {w w' : Walk} (hmet : name ∈ w.names)
      (hrest : Tour x rest w w') : Tour x (name :: rest) w w'
  | take {name source : String} {rest : List String} {d : Decl} {w mid w' : Walk}
      (hnew : name ∉ w.names) (hget : x.catalog.get? name = some d)
      (hresult : (script x d).result = .ok source)
      (hrefs : Tour x (script x d).refs (w.reserve name) mid)
      (hrest : Tour x rest (mid.fill name source) w') : Tour x (name :: rest) w w'

/-- The definition of the first name refers to the second. -/
def Refers (x : Context) (name ref : String) : Prop :=
  ∃ d, x.catalog.get? name = some d ∧ ref ∈ (script x d).refs

/-- The declaration of the name has this definition. -/
def Scripted (x : Context) (name source : String) : Prop :=
  ∃ d, x.catalog.get? name = some d ∧ (script x d).result = .ok source

/-- The name is one that a projection starts from, or is referred to in a number of steps. -/
def Needed (x : Context) (name : String) : Prop :=
  ∃ r ∈ startNames x, Relation.ReflTransGen (Refers x) r name

/-- All that definitions refer to has been met with them. -/
def Walk.Closed (x : Context) (w : Walk) : Prop :=
  ∀ name ∈ w.names, ∀ ref, Refers x name ref → ref ∈ w.names

/-- The levels suffice for the declarations that are left. -/
structure Fits (x : Context) (n : Nat) (w : Walk) : Prop where
  nodup : w.names.Nodup
  declared : ∀ name ∈ w.names, name ∈ x.catalog.names
  levels : x.catalog.size < w.names.length + n

/-- A visit takes a new declaration for one of its levels. -/
theorem Fits.reserve {n : Nat} {w : Walk} (hw : Fits x (n + 1) w) {d : Decl}
    (hd : d ∈ x.catalog.decls) (hnew : d.name ∉ w.names) : Fits x n (w.reserve d.name) := by
  refine ⟨?_, ?_, ?_⟩
  · rw [Walk.names_reserve]
    exact Distinct.nodup_concat hw.nodup hnew
  · rw [Walk.names_reserve]
    exact List.forall_mem_append.mpr
      ⟨hw.declared, List.forall_mem_singleton.mpr (Catalog.mem_names hd)⟩
  · have hlevels := hw.levels
    rw [Walk.names_reserve, List.length_append, List.length_singleton]
    omega

namespace Tour

variable {names : List String} {w w' : Walk}

theorem append {others : List String} {mid : Walk} (h : Tour x names w mid)
    (h' : Tour x others mid w') : Tour x (names ++ others) w w' := by
  induction h with
  | done => exact h'
  | pass hmet _ ih => exact .pass hmet (ih h')
  | take hnew hget hresult hrefs _ _ ih => exact .take hnew hget hresult hrefs (ih h')

/-- Slots are only added. -/
theorem names_prefix (h : Tour x names w w') : w.names <+: w'.names := by
  induction h with
  | done => exact List.prefix_refl _
  | pass _ _ ih => exact ih
  | @take name source rest d w mid w' _ _ _ _ _ ihrefs ih =>
    have hreserve : w.names <+: (w.reserve name).names := by
      rw [Walk.names_reserve]
      exact List.prefix_append _ _
    rw [Walk.names_fill] at ih
    exact (hreserve.trans ihrefs).trans ih

theorem nodup (h : Tour x names w w') (hw : w.names.Nodup) : w'.names.Nodup := by
  induction h with
  | done => exact hw
  | pass _ _ ih => exact ih hw
  | take hnew _ _ _ _ ihrefs ih =>
    rw [Walk.names_reserve] at ihrefs
    rw [Walk.names_fill] at ih
    exact ih (ihrefs (Distinct.nodup_concat hw hnew))

theorem declared (h : Tour x names w w') (hw : ∀ name ∈ w.names, name ∈ x.catalog.names) :
    ∀ name ∈ w'.names, name ∈ x.catalog.names := by
  induction h with
  | done => exact hw
  | pass _ _ ih => exact ih hw
  | take _ hget _ _ _ ihrefs ih =>
    obtain ⟨hd, rfl⟩ := Catalog.get?_eq_some_iff.mp hget
    rw [Walk.names_reserve] at ihrefs
    rw [Walk.names_fill] at ih
    apply ih
    apply ihrefs
    exact List.forall_mem_append.mpr
      ⟨hw, List.forall_mem_singleton.mpr (Catalog.mem_names hd)⟩

theorem fits {n : Nat} (h : Tour x names w w') (hw : Fits x n w) : Fits x n w' := by
  refine ⟨h.nodup hw.nodup, h.declared hw.declared, ?_⟩
  have hlength := h.names_prefix.length_le
  have hlevels := hw.levels
  omega

/-- All that is toured has been met. -/
theorem met (h : Tour x names w w') : ∀ name ∈ names, name ∈ w'.names := by
  induction h with
  | done => exact fun name hname => absurd hname List.not_mem_nil
  | @pass name rest w w' hmet hrest ih =>
    exact List.forall_mem_cons.mpr ⟨hrest.names_prefix.subset hmet, ih⟩
  | @take name source rest d w mid w' _ _ _ hrefs hrest _ ih =>
    have hreserved : name ∈ (w.reserve name).names := by
      rw [Walk.names_reserve]
      exact List.mem_append_right _ List.mem_cons_self
    have hfilled : name ∈ (mid.fill name source).names := by
      rw [Walk.names_fill]
      exact hrefs.names_prefix.subset hreserved
    exact List.forall_mem_cons.mpr ⟨hrest.names_prefix.subset hfilled, ih⟩

/-- What is met on a tour is referred to from what is toured. -/
theorem sound (h : Tour x names w w') : ∀ name ∈ w'.names, name ∈ w.names ∨
    ∃ r ∈ names, Relation.ReflTransGen (Refers x) r name := by
  induction h with
  | done => exact fun name hname => Or.inl hname
  | pass _ _ ih =>
    intro name hname
    rcases ih name hname with hold | ⟨r, hr, hreach⟩
    · exact Or.inl hold
    · exact Or.inr ⟨r, List.mem_cons_of_mem _ hr, hreach⟩
  | @take first source rest d w mid w' _ hget _ _ _ ihrefs ih =>
    intro name hname
    rcases ih name hname with hmid | ⟨r, hr, hreach⟩
    · rw [Walk.names_fill] at hmid
      rcases ihrefs name hmid with hreserved | ⟨r, hr, hreach⟩
      · rw [Walk.names_reserve, List.mem_append, List.mem_singleton] at hreserved
        rcases hreserved with hold | rfl
        · exact Or.inl hold
        · exact Or.inr ⟨name, List.mem_cons_self, .refl⟩
      · exact Or.inr ⟨first, List.mem_cons_self, .head ⟨d, hget, hr⟩ hreach⟩
    · exact Or.inr ⟨r, List.mem_cons_of_mem _ hr, hreach⟩

/-- Every slot that a tour takes it also fills. -/
theorem unfilled (h : Tour x names w w') : w'.unfilled = w.unfilled := by
  induction h with
  | done => rfl
  | pass _ _ ih => exact ih
  | @take name source rest d w mid w' hnew _ _ _ _ ihrefs ih =>
    rw [ih, Walk.unfilled_fill, ihrefs, Walk.unfilled_reserve, List.filter_append,
      List.filter_cons_of_neg (by simp), List.filter_nil, List.append_nil]
    refine List.filter_eq_self.mpr fun other hopen => ?_
    have hother : other ≠ name := fun hsame => hnew (hsame ▸ w.unfilled_subset other hopen)
    simpa using hother

/-- A slot is filled with the text of its declaration, and only when all that the text refers
to has been met. -/
theorem texts (h : Tour x names w w') : ∀ name source, (name, some source) ∈ w'.slots →
    (name, some source) ∈ w.slots ∨ ∃ d, x.catalog.get? name = some d ∧
      (script x d).result = .ok source ∧ ∀ ref ∈ (script x d).refs, ref ∈ w'.names := by
  induction h with
  | done => exact fun _ _ hslot => Or.inl hslot
  | pass _ _ ih => exact ih
  | @take name source rest d w mid w' _ hget hresult hrefs hrest ihrefs ih =>
    have hkept : ∀ ref ∈ mid.names, ref ∈ w'.names := by
      intro ref hmet
      apply hrest.names_prefix.subset
      rwa [Walk.names_fill]
    intro other text hslot
    rcases ih other text hslot with hfill | htext
    · obtain ⟨s, hs, hfilled⟩ := List.mem_map.mp hfill
      by_cases hname : s.1 = name
      · rw [if_pos hname] at hfilled
        obtain ⟨rfl, rfl⟩ : name = other ∧ source = text := by simpa using hfilled
        exact Or.inr ⟨d, hget, hresult, fun ref href => hkept ref (hrefs.met ref href)⟩
      · rw [if_neg hname] at hfilled
        rcases ihrefs other text (hfilled ▸ hs) with hreserved | ⟨e, he, htext, hmet⟩
        · rcases List.mem_append.mp hreserved with hold | hopen
          · exact Or.inl hold
          · simp at hopen
        · exact Or.inr ⟨e, he, htext, fun ref href => hkept ref (hmet ref href)⟩
    · exact Or.inr htext

/-- A tour with nothing met before leaves nothing out that is referred to. -/
theorem closed (h : Tour x names .empty w) : w.Closed x := by
  rintro name hname ref ⟨d, hget, href⟩
  rw [← Walk.names_definitions h.unfilled] at hname
  obtain ⟨t, ht, rfl⟩ := List.mem_map.mp hname
  rcases h.texts _ _ (Walk.mem_definitions.mp ht) with hempty | ⟨e, hget', -, hrefs⟩
  · exact absurd hempty List.not_mem_nil
  · obtain rfl := Option.some.inj (hget.symm.trans hget')
    exact hrefs ref href

end Tour

theorem visitAll_tour {visit : String → Walk → Outcome} {n : Nat} {names : List String}
    {w w' : Walk} (hw : Fits x n w)
    (hvisit : ∀ name w w', Fits x n w → visit name w = (w', none) → Tour x [name] w w')
    (h : visitAll visit names w = (w', none)) : Tour x names w w' := by
  induction names generalizing w with
  | nil =>
    obtain rfl : w = w' := congrArg Prod.fst h
    exact .done
  | cons name names ih =>
    unfold visitAll at h
    cases hstep : visit name w with
    | mk mid fault =>
      cases fault with
      | some f =>
        rw [hstep] at h
        exact absurd (congrArg Prod.snd h) (by simp)
      | none =>
        rw [hstep] at h
        have hhead := hvisit name w mid hw hstep
        exact hhead.append (ih (hhead.fits hw) h)

theorem visitWithin_tour (n : Nat) (name : String) (w w' : Walk) (hw : Fits x n w)
    (h : visitWithin x n name w = (w', none)) : Tour x [name] w w' := by
  induction n generalizing name w w' with
  | zero =>
    have hle := Catalog.length_le_size hw.nodup hw.declared
    have hlevels := hw.levels
    omega
  | succ n ih =>
    unfold visitWithin at h
    by_cases hmet : w.met name
    · obtain rfl : w = w' := by simpa [hmet] using h
      exact .pass ((w.met_iff name).mp hmet) .done
    rw [if_neg hmet] at h
    have hnew : name ∉ w.names := fun hmem => hmet ((w.met_iff name).mpr hmem)
    cases hget : x.catalog.get? name with
    | none =>
      rw [hget] at h
      exact absurd (congrArg Prod.snd h) (by simp)
    | some d =>
      obtain ⟨hd, rfl⟩ := Catalog.get?_eq_some_iff.mp hget
      simp only [hget] at h
      split at h
      · rename_i mid source hrefs hresult
        obtain rfl : mid.fill d.name source = w' := congrArg Prod.fst h
        have htour := visitAll_tour (hw.reserve hd hnew) (fun m v v' => ih m v v') hrefs
        exact .take hnew hget hresult htour .done
      · exact absurd (congrArg Prod.snd h) (by simp)
      · rename_i hnotOk hnotError
        cases hresult : (script x d).result with
        | ok source => exact (hnotOk w' source h hresult).elim
        | error f => exact (hnotError w' f h hresult).elim

theorem visitAll_sound {visit : String → Walk → Outcome} {names : List String} (w : Walk)
    (hvisit : ∀ name ∈ names, ∀ w, (visit name w).2 = none) :
    (visitAll visit names w).2 = none := by
  induction names generalizing w with
  | nil => rfl
  | cons name names ih =>
    have hhead := hvisit name List.mem_cons_self w
    unfold visitAll
    cases hstep : visit name w with
    | mk mid fault =>
      rw [hstep] at hhead
      obtain rfl : fault = none := hhead
      exact ih mid fun m hm => hvisit m (List.mem_cons_of_mem name hm)

theorem visitWithin_sound (n : Nat) (name : String) (w : Walk)
    (hscripted : ∀ m, Relation.ReflTransGen (Refers x) name m → ∃ source, Scripted x m source) :
    (visitWithin x n name w).2 = none := by
  induction n generalizing name w with
  | zero => rfl
  | succ n ih =>
    unfold visitWithin
    by_cases hmet : w.met name
    · rw [if_pos hmet]
    rw [if_neg hmet]
    obtain ⟨source, d, hget, hresult⟩ := hscripted name .refl
    have hall := visitAll_sound (w.reserve name) fun m hm v => ih m v fun m' hm' =>
      hscripted m' (.head ⟨d, hget, hm⟩ hm')
    cases hvisit : visitAll (visitWithin x n) (script x d).refs (w.reserve name) with
    | mk mid fault =>
      rw [hvisit] at hall
      obtain rfl : fault = none := hall
      simp only [hget, hvisit, hresult]

section Project

variable {ds : List Definition}

/-- A projection that ends has toured the names it starts from. -/
theorem tour_of_projectTypes (h : projectTypes x = .ok ds) :
    ∃ w, w.definitions = ds ∧ Tour x (startNames x) .empty w := by
  unfold projectTypes at h
  cases hvisit : visitAll (visit x) (startNames x) .empty with
  | mk w fault =>
    cases fault with
    | some f => simp [hvisit] at h
    | none =>
      rw [hvisit] at h
      have hfits : Fits x (x.catalog.size + 1) .empty :=
        ⟨List.nodup_nil, fun _ hname => absurd hname List.not_mem_nil,
          Nat.lt_add_left 0 (Nat.lt_succ_self _)⟩
      exact ⟨w, Except.ok.inj h, visitAll_tour hfits
        (fun name v v' => visitWithin_tour _ name v v') hvisit⟩

/-- A definition has the text that the script of its declaration gives, in whatever order the
declarations were met. -/
theorem source_of_projectTypes (h : projectTypes x = .ok ds) {t : Definition} (ht : t ∈ ds) :
    Scripted x t.name t.source := by
  obtain ⟨w, rfl, htour⟩ := tour_of_projectTypes h
  rcases htour.texts _ _ (Walk.mem_definitions.mp ht) with hempty | ⟨d, hget, hresult, -⟩
  · exact absurd hempty List.not_mem_nil
  · exact ⟨d, hget, hresult⟩

theorem nodup_of_projectTypes (h : projectTypes x = .ok ds) :
    (ds.map Definition.name).Nodup := by
  obtain ⟨w, rfl, htour⟩ := tour_of_projectTypes h
  rw [Walk.names_definitions htour.unfilled]
  exact htour.nodup List.nodup_nil

/-- What the script of a definition refers to is defined as well. -/
theorem refs_of_projectTypes (h : projectTypes x = .ok ds) {t : Definition} (ht : t ∈ ds)
    {d : Decl} (hget : x.catalog.get? t.name = some d) :
    ∀ ref ∈ (script x d).refs, ref ∈ ds.map Definition.name := by
  obtain ⟨w, rfl, htour⟩ := tour_of_projectTypes h
  have hname := List.mem_map_of_mem (f := Definition.name) ht
  rw [Walk.names_definitions htour.unfilled] at hname ⊢
  exact fun ref href => htour.closed t.name hname ref ⟨d, hget, href⟩

/-- A projection defines what it needs, and nothing else. -/
theorem mem_names_of_projectTypes (h : projectTypes x = .ok ds) (name : String) :
    name ∈ ds.map Definition.name ↔ Needed x name := by
  constructor
  · intro hname
    obtain ⟨w, rfl, htour⟩ := tour_of_projectTypes h
    rw [Walk.names_definitions htour.unfilled] at hname
    rcases htour.sound name hname with hempty | hneeded
    · exact absurd hempty List.not_mem_nil
    · exact hneeded
  · rintro ⟨r, hr, hreach⟩
    induction hreach with
    | refl =>
      obtain ⟨w, rfl, htour⟩ := tour_of_projectTypes h
      rw [Walk.names_definitions htour.unfilled]
      exact htour.met r hr
    | tail _ hstep ih =>
      obtain ⟨t, ht, rfl⟩ := List.mem_map.mp ih
      obtain ⟨d, hget, href⟩ := hstep
      exact refs_of_projectTypes h ht hget _ href

theorem mem_projectTypes_iff (h : projectTypes x = .ok ds) (t : Definition) :
    t ∈ ds ↔ Needed x t.name ∧ Scripted x t.name t.source := by
  rw [← mem_names_of_projectTypes h]
  constructor
  · intro ht
    exact ⟨List.mem_map_of_mem ht, source_of_projectTypes h ht⟩
  · rintro ⟨hname, d, hget, hresult⟩
    obtain ⟨t', ht', hsame⟩ := List.mem_map.mp hname
    obtain ⟨d', hget', hresult'⟩ := source_of_projectTypes h ht'
    rw [hsame] at hget'
    obtain rfl := Option.some.inj (hget.symm.trans hget')
    have hsource : t'.source = t.source := Except.ok.inj (hresult'.symm.trans hresult)
    obtain rfl : t' = t := by
      cases t
      cases t'
      simp_all
    exact ht'

/-- A projection succeeds if all that it needs has a definition. -/
theorem exists_projectTypes_iff : (∃ ds, projectTypes x = .ok ds) ↔
    ∀ name, Needed x name → ∃ source, Scripted x name source := by
  constructor
  · rintro ⟨ds, h⟩ name hneeded
    obtain ⟨t, ht, rfl⟩ := List.mem_map.mp ((mem_names_of_projectTypes h name).mpr hneeded)
    exact ⟨t.source, source_of_projectTypes h ht⟩
  · intro hscripted
    have hnone := visitAll_sound .empty fun name hname v =>
      visitWithin_sound (x.catalog.size + 1) name v fun m hm => hscripted m ⟨name, hname, hm⟩
    change (visitAll (visit x) (startNames x) .empty).2 = none at hnone
    unfold projectTypes
    cases hvisit : visitAll (visit x) (startNames x) .empty with
    | mk w fault =>
      rw [hvisit] at hnone
      obtain rfl : fault = none := hnone
      exact ⟨w.definitions, rfl⟩

end Project

end Scaffold.Projection
