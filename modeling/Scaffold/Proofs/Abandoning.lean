import Scaffold.Proofs.Naming
import Scaffold.Proofs.Touring

/-!
A walk that is used on after faults. A visit that ends in a fault abandons the declarations it
is in the middle of: from the name it was made to down to the one whose script fails, each
refers to the next. Their slots stay open, and later visits pass them over like any that were
met. Every other slot is filled as in a walk without faults.
-/
namespace Scaffold.Projection

variable {x : Context}

namespace Walk

/-- Every slot that is filled has the text of its declaration, and all that the text refers to
has a slot. -/
structure Sincere (x : Context) (w : Walk) : Prop where
  nodup : w.names.Nodup
  declared : ∀ name ∈ w.names, name ∈ x.catalog.names
  texts : ∀ name source, (name, some source) ∈ w.slots → ∃ d, x.catalog.get? name = some d ∧
    (script x d).result = .ok source ∧ ∀ ref ∈ (script x d).refs, ref ∈ w.names

variable {w w' : Walk}

theorem sincere_empty : Sincere x empty :=
  ⟨List.nodup_nil, fun _ h => absurd h List.not_mem_nil, fun _ _ h => absurd h List.not_mem_nil⟩

theorem Sincere.fits (h : w.Sincere x) : Fits x (x.catalog.size + 1) w :=
  ⟨h.nodup, h.declared, by omega⟩

theorem Sincere.reserve (h : w.Sincere x) {name : String} {d : Decl} (hnew : name ∉ w.names)
    (hget : x.catalog.get? name = some d) : (w.reserve name).Sincere x := by
  obtain ⟨hd, rfl⟩ := Catalog.get?_eq_some_iff.mp hget
  refine ⟨?_, ?_, ?_⟩
  · rw [names_reserve]
    exact Distinct.nodup_concat h.nodup hnew
  · rw [names_reserve]
    exact List.forall_mem_append.mpr
      ⟨h.declared, List.forall_mem_singleton.mpr (Catalog.mem_names hd)⟩
  · intro name source hslot
    rcases List.mem_append.mp hslot with hold | hopen
    · obtain ⟨e, he, hresult, hrefs⟩ := h.texts name source hold
      refine ⟨e, he, hresult, fun ref href => ?_⟩
      rw [names_reserve]
      exact List.mem_append_left _ (hrefs ref href)
    · simp at hopen

/-- What has a slot that is not open is defined, and nothing is defined twice. -/
theorem count_definitions (hnodup : w.names.Nodup) (name : String) :
    (w.definitions.map Definition.name).count name = 1 ↔ name ∈ w.names ∧ name ∉ w.unfilled := by
  have hsublist : (w.definitions.map Definition.name).Sublist w.names := by
    refine Distinct.keys_filterMap_sublist (fun s t hst => ?_) w.slots
    obtain ⟨source, -, rfl⟩ := Option.map_eq_some_iff.mp hst
    rfl
  constructor
  · intro hcount
    obtain ⟨t, ht, rfl⟩ := List.mem_map.mp (List.count_pos_iff.mp (hcount ▸ Nat.one_pos))
    have hslot := mem_definitions.mp ht
    refine ⟨List.mem_map_of_mem hslot, fun hopen => ?_⟩
    obtain ⟨s, hs, hname⟩ := List.mem_map.mp hopen
    obtain ⟨hs, htext⟩ := List.mem_filter.mp hs
    obtain rfl := List.inj_on_of_nodup_map hnodup hs hslot hname
    simp at htext
  · rintro ⟨hmet, hopen⟩
    obtain ⟨⟨_, text⟩, hslot, rfl⟩ := List.mem_map.mp hmet
    cases text with
    | none => exact absurd (List.mem_map_of_mem (List.mem_filter.mpr ⟨hslot, rfl⟩)) hopen
    | some source =>
      refine List.count_eq_one_of_mem (hnodup.sublist hsublist) ?_
      exact List.mem_map_of_mem (mem_definitions (t := ⟨_, source⟩).mpr hslot)

end Walk

/-- A tour over the names that ends in the fault, and the declarations it is in the middle of
by then. -/
inductive Breaks (x : Context) : List String → Walk → Walk → Fault → List String → Prop
  | undeclared {name : String} {rest : List String} {w : Walk} (hnew : name ∉ w.names)
      (hget : x.catalog.get? name = none) :
      Breaks x (name :: rest) w w (.unresolvableType name "TypeScript root") []
  | script {name : String} {rest : List String} {d : Decl} {w mid : Walk} {f : Fault}
      (hnew : name ∉ w.names) (hget : x.catalog.get? name = some d)
      (hrefs : Tour x (script x d).refs (w.reserve name) mid)
      (hresult : (script x d).result = .error f) : Breaks x (name :: rest) w mid f [name]
  | inside {name : String} {rest : List String} {d : Decl} {w mid : Walk} {f : Fault}
      {trail : List String} (hnew : name ∉ w.names) (hget : x.catalog.get? name = some d)
      (hrefs : Breaks x (script x d).refs (w.reserve name) mid f trail) :
      Breaks x (name :: rest) w mid f (name :: trail)
  | later {name : String} {rest : List String} {w mid w' : Walk} {f : Fault}
      {trail : List String} (hhead : Tour x [name] w mid) (hrest : Breaks x rest mid w' f trail) :
      Breaks x (name :: rest) w w' f trail

/-- A visit to the name that ends in the fault abandons these declarations: the name itself and
on from it, each referring to the next, down to one whose script fails. -/
inductive Abandons (x : Context) : String → Fault → List String → Prop
  | undeclared {name : String} (hget : x.catalog.get? name = none) :
      Abandons x name (.unresolvableType name "TypeScript root") []
  | script {name : String} {d : Decl} {f : Fault} (hget : x.catalog.get? name = some d)
      (hresult : (script x d).result = .error f) : Abandons x name f [name]
  | inside {name ref : String} {f : Fault} {trail : List String} (hrefers : Refers x name ref)
      (hrest : Abandons x ref f trail) : Abandons x name f (name :: trail)

/-- Whatever is abandoned leads to a declaration that has no definition. -/
theorem Abandons.unscripted {name : String} {f : Fault} {trail : List String}
    (h : Abandons x name f trail) : (∃ m, Relation.ReflTransGen (Refers x) name m ∧
      ¬ ∃ source, Scripted x m source) ∧ ∀ n ∈ trail, ∃ m,
      Relation.ReflTransGen (Refers x) n m ∧ ¬ ∃ source, Scripted x m source := by
  induction h with
  | @undeclared name hget =>
    refine ⟨⟨name, .refl, ?_⟩, fun n hn => absurd hn List.not_mem_nil⟩
    rintro ⟨source, d, hget', -⟩
    exact absurd (hget.symm.trans hget') (by simp)
  | @script name d f hget hresult =>
    have hname : ∃ m, Relation.ReflTransGen (Refers x) name m ∧
        ¬ ∃ source, Scripted x m source := by
      refine ⟨name, .refl, ?_⟩
      rintro ⟨source, e, hget', hsource⟩
      obtain rfl := Option.some.inj (hget.symm.trans hget')
      exact absurd (hresult.symm.trans hsource) (by simp)
    exact ⟨hname, List.forall_mem_singleton.mpr hname⟩
  | @inside name ref f trail hrefers _ ih =>
    obtain ⟨⟨m, hreach, hm⟩, htrail⟩ := ih
    have hname : ∃ m, Relation.ReflTransGen (Refers x) name m ∧
        ¬ ∃ source, Scripted x m source := ⟨m, .head hrefers hreach, hm⟩
    exact ⟨hname, List.forall_mem_cons.mpr ⟨hname, htrail⟩⟩

theorem Tour.sincere {names : List String} {w w' : Walk} (h : Tour x names w w')
    (hw : w.Sincere x) : w'.Sincere x := by
  refine ⟨h.nodup hw.nodup, h.declared hw.declared, ?_⟩
  intro name source hslot
  rcases h.texts name source hslot with hold | hnew
  · obtain ⟨d, hget, hresult, hrefs⟩ := hw.texts name source hold
    exact ⟨d, hget, hresult, fun ref href => h.names_prefix.subset (hrefs ref href)⟩
  · exact hnew

namespace Breaks

variable {names : List String} {w w' : Walk} {f : Fault} {trail : List String}

theorem append (h : Breaks x names w w' f trail) (others : List String) :
    Breaks x (names ++ others) w w' f trail := by
  induction h with
  | undeclared hnew hget => exact .undeclared hnew hget
  | script hnew hget hrefs hresult => exact .script hnew hget hrefs hresult
  | inside hnew hget hrefs _ => exact .inside hnew hget hrefs
  | later hhead _ ih => exact .later hhead ih

theorem abandons (h : Breaks x names w w' f trail) : ∃ name ∈ names, Abandons x name f trail := by
  induction h with
  | @undeclared name _ _ _ hget => exact ⟨name, List.mem_cons_self, .undeclared hget⟩
  | @script name _ _ _ _ _ _ hget _ hresult =>
    exact ⟨name, List.mem_cons_self, .script hget hresult⟩
  | @inside name _ d _ _ _ _ _ hget _ ih =>
    obtain ⟨ref, href, hrest⟩ := ih
    exact ⟨name, List.mem_cons_self, .inside ⟨d, hget, href⟩ hrest⟩
  | later _ _ ih =>
    obtain ⟨name, hname, hrest⟩ := ih
    exact ⟨name, List.mem_cons_of_mem _ hname, hrest⟩

theorem names_prefix (h : Breaks x names w w' f trail) : w.names <+: w'.names := by
  have hreserve : ∀ (w : Walk) (name : String), w.names <+: (w.reserve name).names := by
    intro w name
    rw [Walk.names_reserve]
    exact List.prefix_append _ _
  induction h with
  | undeclared => exact List.prefix_refl _
  | script _ _ hrefs _ => exact (hreserve _ _).trans hrefs.names_prefix
  | inside _ _ _ ih => exact (hreserve _ _).trans ih
  | later hhead _ ih => exact hhead.names_prefix.trans ih

/-- What is abandoned keeps its slots, and they stay open. -/
theorem unfilled (h : Breaks x names w w' f trail) : w'.unfilled = w.unfilled ++ trail := by
  induction h with
  | undeclared => exact (List.append_nil _).symm
  | script _ _ hrefs _ => rw [hrefs.unfilled, Walk.unfilled_reserve]
  | inside _ _ _ ih => rw [ih, Walk.unfilled_reserve, List.append_assoc, List.singleton_append]
  | later hhead _ ih => rw [ih, hhead.unfilled]

theorem sincere (h : Breaks x names w w' f trail) (hw : w.Sincere x) : w'.Sincere x := by
  induction h with
  | undeclared => exact hw
  | script hnew hget hrefs _ => exact hrefs.sincere (hw.reserve hnew hget)
  | inside hnew hget _ ih => exact ih (hw.reserve hnew hget)
  | later hhead _ ih => exact ih (hhead.sincere hw)

end Breaks

theorem visitAll_breaks {visit : String → Walk → Outcome} {n : Nat} {names : List String}
    {w w' : Walk} {f : Fault} (hw : Fits x n w)
    (htour : ∀ name w w', Fits x n w → visit name w = (w', none) → Tour x [name] w w')
    (hbreaks : ∀ name w w' f, Fits x n w → visit name w = (w', some f) →
      ∃ trail, Breaks x [name] w w' f trail)
    (h : visitAll visit names w = (w', some f)) : ∃ trail, Breaks x names w w' f trail := by
  induction names generalizing w with
  | nil => exact absurd (congrArg Prod.snd h) (by simp [visitAll])
  | cons name names ih =>
    unfold visitAll at h
    cases hstep : visit name w with
    | mk mid fault =>
      rw [hstep] at h
      cases fault with
      | some g =>
        obtain ⟨rfl, hfault⟩ := Prod.mk.inj h
        obtain rfl := Option.some.inj hfault
        obtain ⟨trail, hbreak⟩ := hbreaks name w mid g hw hstep
        exact ⟨trail, hbreak.append names⟩
      | none =>
        have hhead := htour name w mid hw hstep
        obtain ⟨trail, hrest⟩ := ih (hhead.fits hw) h
        exact ⟨trail, .later hhead hrest⟩

theorem visitWithin_breaks (n : Nat) (name : String) (w w' : Walk) (f : Fault)
    (hw : Fits x n w) (h : visitWithin x n name w = (w', some f)) :
    ∃ trail, Breaks x [name] w w' f trail := by
  induction n generalizing name w w' f with
  | zero => exact absurd (congrArg Prod.snd h) (by simp [visitWithin])
  | succ n ih =>
    unfold visitWithin at h
    by_cases hmet : w.met name
    · simp [hmet] at h
    rw [if_neg hmet] at h
    have hnew : name ∉ w.names := fun hmem => hmet ((w.met_iff name).mpr hmem)
    cases hget : x.catalog.get? name with
    | none =>
      rw [hget] at h
      obtain ⟨rfl, hfault⟩ := Prod.mk.inj h
      obtain rfl := Option.some.inj hfault
      exact ⟨[], .undeclared hnew hget⟩
    | some d =>
      obtain ⟨hd, rfl⟩ := Catalog.get?_eq_some_iff.mp hget
      have hreserved := hw.reserve hd hnew
      simp only [hget] at h
      cases hrefs : visitAll (visitWithin x n) (script x d).refs (w.reserve d.name) with
      | mk mid fault =>
        rw [hrefs] at h
        cases fault with
        | some g =>
          obtain ⟨rfl, hfault⟩ := Prod.mk.inj h
          obtain rfl := Option.some.inj hfault
          obtain ⟨trail, hbreak⟩ := visitAll_breaks hreserved (visitWithin_tour n) ih hrefs
          exact ⟨d.name :: trail, .inside hnew hget hbreak⟩
        | none =>
          cases hresult : (script x d).result with
          | ok source => simp [hresult] at h
          | error g =>
            rw [hresult] at h
            obtain ⟨rfl, hfault⟩ := Prod.mk.inj h
            obtain rfl := Option.some.inj hfault
            exact ⟨[d.name], .script hnew hget
              (visitAll_tour hreserved (visitWithin_tour n) hrefs) hresult⟩

/-- Makes a visit to each of the names on one walk, whatever comes of those before: the walk
after them, and for each name the fault that ended its visit. -/
def visitEach (x : Context) : List String → Walk → Walk × List (String × Option Fault)
  | [], w => (w, [])
  | name :: rest, w =>
    let (mid, fault) := visit x name w
    let (w', answers) := visitEach x rest mid
    (w', (name, fault) :: answers)

/-- What is abandoned by a visit that gave this answer. -/
def AbandonedBy (x : Context) (answer : String × Option Fault) (trail : List String) : Prop :=
  match answer.2 with
  | none => trail = []
  | some f => Abandons x answer.1 f trail

/-- Visits leave open what those of them that failed have abandoned. -/
theorem visitEach_spec (names : List String) {w : Walk} (hw : w.Sincere x) :
    (visitEach x names w).1.Sincere x ∧ w.names <+: (visitEach x names w).1.names ∧
      (∀ name, (name, none) ∈ (visitEach x names w).2 → name ∈ (visitEach x names w).1.names) ∧
      ∃ trails, List.Forall₂ (AbandonedBy x) (visitEach x names w).2 trails ∧
        (visitEach x names w).1.unfilled = w.unfilled ++ trails.flatten := by
  induction names generalizing w with
  | nil =>
    refine ⟨hw, List.prefix_refl _, fun name hname => absurd hname List.not_mem_nil, [], .nil, ?_⟩
    exact (List.append_nil _).symm
  | cons name names ih =>
    unfold visitEach
    cases hvisit : visit x name w with
    | mk mid fault =>
      cases fault with
      | none =>
        have htour := visitWithin_tour _ name w mid hw.fits hvisit
        obtain ⟨hsincere, hprefix, hmet, trails, htrails, hunfilled⟩ := ih (htour.sincere hw)
        refine ⟨hsincere, htour.names_prefix.trans hprefix, ?_, [] :: trails, .cons rfl htrails, ?_⟩
        · intro other hother
          rcases List.mem_cons.mp hother with hsame | hother
          · obtain rfl : other = name := congrArg Prod.fst hsame
            exact hprefix.subset (htour.met other List.mem_cons_self)
          · exact hmet other hother
        · rw [hunfilled, htour.unfilled]
          rfl
      | some f =>
        obtain ⟨trail, hbreak⟩ := visitWithin_breaks _ name w mid f hw.fits hvisit
        obtain ⟨hsincere, hprefix, hmet, trails, htrails, hunfilled⟩ := ih (hbreak.sincere hw)
        obtain ⟨first, hfirst, habandons⟩ := hbreak.abandons
        obtain rfl := List.mem_singleton.mp hfirst
        refine ⟨hsincere, hbreak.names_prefix.trans hprefix, ?_, trail :: trails,
          .cons habandons htrails, ?_⟩
        · intro other hother
          rcases List.mem_cons.mp hother with hsame | hother
          · exact absurd (congrArg Prod.snd hsame) (by simp)
          · exact hmet other hother
        · rw [hunfilled, hbreak.unfilled, List.append_assoc]
          rfl

/-- A visit to what leads to definitions only does not fail. -/
theorem mem_visitEach_of_scripted {names : List String} {name : String} (hname : name ∈ names)
    (w : Walk) (hscripted : ∀ m, Relation.ReflTransGen (Refers x) name m →
      ∃ source, Scripted x m source) : (name, none) ∈ (visitEach x names w).2 := by
  induction names generalizing w with
  | nil => exact absurd hname List.not_mem_nil
  | cons first names ih =>
    unfold visitEach
    rcases List.mem_cons.mp hname with rfl | hname
    · have hnone : (visit x name w).2 = none := visitWithin_sound _ name w hscripted
      rw [← hnone]
      exact List.mem_cons_self
    · exact List.mem_cons_of_mem _ (ih hname _)

/-- There is one definition of the name, which has the text of its declaration, and one of each
declaration that the text names. -/
def Honest (x : Context) (ds : List Definition) (name : String) : Prop :=
  ∃ d source, x.catalog.get? name = some d ∧ (script x d).result = .ok source ∧
    ⟨name, source⟩ ∈ ds ∧ (ds.map Definition.name).count name = 1 ∧
    ∀ ref, Names x d ref → (ds.map Definition.name).count ref = 1

section Row

variable {names : List String} {name : String} {abandoned : List (List String)}

/-- What a failed visit has abandoned leads to a declaration without a definition. -/
theorem not_mem_abandoned {answers : List (String × Option Fault)}
    (h : List.Forall₂ (AbandonedBy x) answers abandoned)
    (hscripted : ∀ m, Relation.ReflTransGen (Refers x) name m → ∃ source, Scripted x m source) :
    name ∉ abandoned.flatten := by
  rw [List.mem_flatten]
  rintro ⟨trail, htrail, hname⟩
  induction h with
  | nil => exact absurd htrail List.not_mem_nil
  | @cons answer first answers trails hby _ ih =>
    rcases List.mem_cons.mp htrail with rfl | htrail
    · obtain ⟨visited, fault⟩ := answer
      cases fault with
      | none => exact absurd (hby ▸ hname) List.not_mem_nil
      | some f =>
        obtain ⟨m, hreach, hm⟩ := (Abandons.unscripted hby).2 name hname
        exact hm (hscripted m hreach)
    · exact ih htrail

/-- On a sincere walk what is met and not open is honest if that holds of all it names. -/
theorem honest_iff_not_unfilled {w : Walk} (hw : w.Sincere x) (hmet : name ∈ w.names) :
    Honest x w.definitions name ↔ name ∉ w.unfilled ∧
      ∀ d, x.catalog.get? name = some d → ∀ ref, Names x d ref → ref ∉ w.unfilled := by
  have hcount := Walk.count_definitions hw.nodup
  constructor
  · rintro ⟨d, source, hget, -, -, hone, hrefs⟩
    refine ⟨((hcount name).mp hone).2, fun e he ref href => ?_⟩
    obtain rfl := Option.some.inj (hget.symm.trans he)
    exact ((hcount ref).mp (hrefs ref href)).2
  · rintro ⟨hopen, hnames⟩
    have hone := (hcount name).mpr ⟨hmet, hopen⟩
    obtain ⟨t, ht, rfl⟩ := List.mem_map.mp (List.count_pos_iff.mp (hone ▸ Nat.one_pos))
    obtain ⟨d, hget, hresult, hrefs⟩ := hw.texts _ _ (Walk.mem_definitions.mp ht)
    refine ⟨d, t.source, hget, hresult, ht, hone, fun ref href => (hcount ref).mpr ⟨?_, ?_⟩⟩
    · exact hrefs ref (mem_refs_of_names href hresult)
    · exact hnames d hget ref href

end Row

/-- On a walk that is used on after faults, a visit that succeeded is honest just if neither the
name nor any that its definition names was abandoned by a visit that failed. So it succeeds and
is honest if all that it leads to has a definition. -/
theorem honest_iff_not_abandoned (x : Context) (names : List String) :
    ∃ abandoned, List.Forall₂ (AbandonedBy x) (visitEach x names .empty).2 abandoned ∧
      (∀ name, (name, none) ∈ (visitEach x names .empty).2 →
        (Honest x (visitEach x names .empty).1.definitions name ↔ name ∉ abandoned.flatten ∧
          ∀ d, x.catalog.get? name = some d → ∀ ref, Names x d ref → ref ∉ abandoned.flatten)) ∧
      ∀ name ∈ names,
        (∀ m, Relation.ReflTransGen (Refers x) name m → ∃ source, Scripted x m source) →
        (name, none) ∈ (visitEach x names .empty).2 ∧
          Honest x (visitEach x names .empty).1.definitions name := by
  obtain ⟨hsincere, -, hmet, abandoned, htrails, hunfilled⟩ :=
    visitEach_spec names (Walk.sincere_empty (x := x))
  rw [show Walk.empty.unfilled = [] from rfl, List.nil_append] at hunfilled
  have hiff : ∀ name, (name, none) ∈ (visitEach x names .empty).2 →
      (Honest x (visitEach x names .empty).1.definitions name ↔ name ∉ abandoned.flatten ∧
        ∀ d, x.catalog.get? name = some d → ∀ ref, Names x d ref → ref ∉ abandoned.flatten) := by
    intro name hname
    rw [← hunfilled]
    exact honest_iff_not_unfilled hsincere (hmet name hname)
  refine ⟨abandoned, htrails, hiff, fun name hname hscripted => ?_⟩
  have hanswer := mem_visitEach_of_scripted hname .empty hscripted
  refine ⟨hanswer, (hiff name hanswer).mpr ⟨not_mem_abandoned htrails hscripted, ?_⟩⟩
  intro d hget ref href
  refine not_mem_abandoned htrails fun m hreach => ?_
  obtain ⟨source, e, hget', hresult⟩ := hscripted name .refl
  obtain rfl := Option.some.inj (hget.symm.trans hget')
  exact hscripted m (.head ⟨d, hget, mem_refs_of_names href hresult⟩ hreach)

def invoice : Decl :=
  { Decl.plain "Invoice" .interface with
    properties := [.plain "order" (.nullable (.named "Order" []))] }

/-- An order whose total has a type that is not declared, an invoice of it, and a customer. -/
def salesCatalog : Catalog where
  decls := [
    { Decl.plain "Order" .interface with
      properties := [.plain "customer" (.named "Customer" []),
        .plain "total" (.named "money.Amount" [])] },
    invoice,
    { Decl.plain "Customer" .interface with
      properties := [.plain "name" (.scalar .string),
        .plain "friends" (.array (.named "Customer" []))] }]
  nodup := by decide

def sales : Context where
  catalog := salesCatalog
  capabilities := .ofCatalog salesCatalog
  settings := .standard

/-- The customer is defined though the visit that met it failed. -/
theorem honest_iff_not_abandoned_sales :
    (∀ m, Relation.ReflTransGen (Refers sales) "Customer" m → ∃ source, Scripted sales m source) ∧
      ("Customer", none) ∈ (visitEach sales ["Order", "Customer", "Invoice"] .empty).2 ∧
      Honest sales (visitEach sales ["Order", "Customer", "Invoice"] .empty).1.definitions
        "Customer" := by
  have honly : ∀ ref, Refers sales "Customer" ref → ref = "Customer" := by
    rintro ref ⟨d, hget, href⟩
    obtain rfl := Option.some.inj hget
    revert ref
    decide
  have hscripted : ∀ m, Relation.ReflTransGen (Refers sales) "Customer" m →
      ∃ source, Scripted sales m source := by
    intro m hreach
    obtain rfl : m = "Customer" := by
      induction hreach with
      | refl => rfl
      | tail _ hstep ih =>
        subst ih
        exact honly _ hstep
    exact ⟨_, _, rfl, rfl⟩
  obtain ⟨_, -, -, h⟩ := honest_iff_not_abandoned sales ["Order", "Customer", "Invoice"]
  exact ⟨hscripted, h "Customer" (by decide) hscripted⟩

/-- The second visit to the order succeeds, as does that to the invoice which names it, but the
order has no definition. -/
theorem abandoned_visited_again :
    (visitEach sales ["Order", "Order", "Invoice"] .empty).2.map (fun a => (a.1, a.2.isNone)) =
        [("Order", false), ("Order", true), ("Invoice", true)] ∧
      (visitEach sales ["Order", "Order", "Invoice"] .empty).1.definitions.map Definition.name =
        ["Customer", "Invoice"] ∧
      ¬ Honest sales (visitEach sales ["Order", "Order", "Invoice"] .empty).1.definitions
        "Order" ∧
      ¬ Honest sales (visitEach sales ["Order", "Order", "Invoice"] .empty).1.definitions
        "Invoice" := by
  refine ⟨rfl, rfl, ?_, ?_⟩
  · rintro ⟨_, _, _, _, _, hcount, _⟩
    revert hcount
    decide
  · rintro ⟨d, _, hget, _, _, _, hnames⟩
    obtain rfl : invoice = d := Option.some.inj hget
    have horder : Names sales invoice "Order" :=
      ⟨.nullable (.named "Order" []), by decide, .named "Order" [], .single (by decide), by decide⟩
    have hcount := hnames "Order" horder
    revert hcount
    decide

end Scaffold.Projection
