import Scaffold.Proofs.PropertyOrder

/-!
Redeclared properties. What an entry of a table says comes from the last declaration merged
into it, and each of its directives from the last one written for the slot. The merge follows
a lineage, in which strict subtypes stand behind, so the last word is never that of a
declaration that another one with a say inherits from.
-/
namespace Scaffold

theorem findRev?_concat {α : Type} (q : α → Bool) (l : List α) (x : α) :
    (l ++ [x]).findRev? q = if q x then some x else l.findRev? q := by
  rw [List.findRev?_eq_find?_reverse, List.findRev?_eq_find?_reverse, List.reverse_append,
    List.reverse_singleton, List.singleton_append, List.find?_cons]
  cases q x <;> rfl

/-- The part of a list that gave its last element of a kind, and nothing of the kind behind. -/
theorem findRev?_flatMap_split {α β : Type} {q : β → Bool} {f : α → List β} {l : List α}
    {y : β} (h : (l.flatMap f).findRev? q = some y) :
    ∃ before a behind, l = before ++ a :: behind ∧ (f a).findRev? q = some y ∧
      ∀ b ∈ behind, ∀ z ∈ f b, q z = false := by
  induction l using List.reverseRecOn with
  | nil => simp at h
  | append_singleton l a ih =>
    rw [List.flatMap_append, List.flatMap_singleton, List.findRev?_eq_find?_reverse,
      List.reverse_append, List.find?_append] at h
    cases hlast : (f a).findRev? q with
    | some z =>
      rw [← List.findRev?_eq_find?_reverse, hlast, Option.some_or] at h
      exact ⟨l, a, [], rfl, hlast.trans h, by simp⟩
    | none =>
      rw [← List.findRev?_eq_find?_reverse, hlast, Option.none_or,
        ← List.findRev?_eq_find?_reverse] at h
      obtain ⟨before, b, behind, rfl, hb, hbehind⟩ := ih h
      refine ⟨before, b, behind ++ [a], by simp, hb, ?_⟩
      intro s hs z hz
      rcases List.mem_append.mp hs with hs | hs
      · exact hbehind s hs z hz
      · obtain rfl := List.mem_singleton.mp hs
        rw [List.findRev?_eq_find?_reverse, List.find?_eq_none] at hlast
        simpa using hlast z (List.mem_reverse.mpr hz)

namespace Layers

theorem layer_append (l : Layers) (ds es : List Directive) :
    l.layer (ds ++ es) = (l.layer ds).layer es := by
  simp only [layer, List.foldl_append]

theorem layer_concat (l : Layers) (ds : List Directive) (d : Directive) :
    (l.layer (ds ++ [d])).entries = place d (l.layer ds).entries := by
  rw [layer_append]
  rfl

theorem place_eq_renew (d : Directive) (es : List Directive) :
    place d es = Distinct.renew Directive.slot d.slot d (fun _ => d) es := by
  induction es with
  | nil => rfl
  | cons e es ih => rw [place, Distinct.renew, ih]

theorem slots_place (d : Directive) (es : List Directive) :
    (place d es).map Directive.slot =
      if d.slot ∈ es.map Directive.slot then es.map Directive.slot
      else es.map Directive.slot ++ [d.slot] := by
  rw [place_eq_renew]
  apply Distinct.keys_renew
  · rfl
  · exact fun _ _ => rfl

theorem slots_layer_empty (ds : List Directive) :
    (empty.layer ds).entries.map Directive.slot = (ds.map Directive.slot).eraseDups := by
  induction ds using List.reverseRecOn with
  | nil => rfl
  | append_singleton ds d ih =>
    rw [layer_concat, slots_place, ih, List.map_append, List.map_singleton,
      Distinct.eraseDups_concat]
    simp only [List.mem_eraseDups]

theorem nodup_slots_layer_empty (ds : List Directive) :
    ((empty.layer ds).entries.map Directive.slot).Nodup := by
  rw [slots_layer_empty]
  exact Distinct.nodup_eraseDups _

/-- A slot holds the last directive written for it. -/
theorem findRev?_of_mem_layer {ds : List Directive} {x : Directive}
    (hx : x ∈ (empty.layer ds).entries) : ds.findRev? (·.slot = x.slot) = some x := by
  induction ds using List.reverseRecOn with
  | nil => simp [empty, layer] at hx
  | append_singleton ds d ih =>
    rw [layer_concat, place_eq_renew] at hx
    rw [findRev?_concat]
    rcases Distinct.mem_renew (nodup_slots_layer_empty ds) hx with
      ⟨hmem, hslot⟩ | ⟨-, -, -, rfl⟩ | ⟨-, rfl⟩
    · rw [if_neg (by simpa using Ne.symm hslot)]
      exact ih hmem
    · simp
    · simp

/-- A slot that is written is held. -/
theorem exists_mem_layer {ds : List Directive} {y : Directive} (hy : y ∈ ds) :
    ∃ x ∈ (empty.layer ds).entries, x.slot = y.slot := by
  have hslot : y.slot ∈ (empty.layer ds).entries.map Directive.slot := by
    rw [slots_layer_empty, List.mem_eraseDups]
    exact List.mem_map_of_mem hy
  exact List.mem_map.mp hslot

end Layers

namespace PropertyTable

variable {c : Catalog}

/-- What declarations say about an entry: the last of its name gives type and mutability, and
all of its name give directives. -/
structure Merged (ws : List Declaration) (e : Effective) : Prop where
  last : ∃ p, ws.findRev? (·.2.name = e.name) = some (e.origin, p) ∧
    e.type = p.type ∧ e.isMutable = p.isMutable
  layers : e.directives =
    Layers.empty.layer ((ws.filter (·.2.name = e.name)).flatMap (·.2.directives))

theorem merged_of_mem {ws : List Declaration} {e : Effective} (he : e ∈ mergeAll ws) :
    Merged ws e := by
  induction ws using List.reverseRecOn generalizing e with
  | nil => simp [mergeAll] at he
  | append_singleton ws w ih =>
    have hnodup : ((mergeAll ws).map Effective.name).Nodup := by
      rw [names_mergeAll]
      exact Distinct.nodup_eraseDups _
    rw [mergeAll_concat, mergeInto_eq_renew] at he
    rcases Distinct.mem_renew hnodup he with ⟨hmem, hname⟩ | ⟨old, hold, hname, rfl⟩ | ⟨hnew, rfl⟩
    · obtain ⟨hlast, hlayers⟩ := ih hmem
      refine ⟨?_, ?_⟩
      · rw [findRev?_concat, if_neg (by simpa using Ne.symm hname)]
        exact hlast
      · rw [List.filter_append, List.filter_cons_of_neg (by simpa using Ne.symm hname),
          List.filter_nil, List.append_nil]
        exact hlayers
    · refine ⟨⟨w.2, ?_, rfl, rfl⟩, ?_⟩
      · rw [findRev?_concat, if_pos (by simp [Effective.redeclare, hname])]
        rfl
      · have hfilter : (ws ++ [w]).filter (·.2.name = old.name) =
            ws.filter (·.2.name = old.name) ++ [w] := by
          rw [List.filter_append, List.filter_cons_of_pos (by simp [hname]), List.filter_nil]
        change old.directives.layer w.2.directives =
          Layers.empty.layer (((ws ++ [w]).filter (·.2.name = old.name)).flatMap _)
        rw [hfilter, List.flatMap_append, List.flatMap_singleton, Layers.layer_append,
          ← (ih hold).layers]
    · have hnone : ws.filter (·.2.name = w.2.name) = [] := by
        rw [names_mergeAll, List.mem_eraseDups] at hnew
        refine List.filter_eq_nil_iff.mpr fun v hv => ?_
        have hne : v.2.name ≠ w.2.name := fun hname =>
          hnew (hname ▸ List.mem_map_of_mem (f := fun w : Declaration => w.2.name) hv)
        simpa using hne
      refine ⟨⟨w.2, ?_, rfl, rfl⟩, ?_⟩
      · rw [findRev?_concat, if_pos (by simp [Effective.ofProperty])]
        rfl
      · change Layers.empty.layer w.2.directives =
          Layers.empty.layer (((ws ++ [w]).filter (·.2.name = w.2.name)).flatMap _)
        rw [List.filter_append, hnone, List.filter_cons_of_pos (by simp), List.filter_nil,
          List.nil_append, List.flatMap_singleton]

/-- The directives a declaration writes on a property, in order. -/
def writes (p : String) (d : Decl) : List Directive :=
  (d.properties.filter (·.name = p)).flatMap Property.directives

theorem layers_of_mem {ds : List Decl} {e : Effective} (he : e ∈ declareAll [] ds) :
    e.directives = Layers.empty.layer (ds.flatMap (writes e.name)) := by
  rw [declareAll_eq_mergeAll] at he
  rw [(merged_of_mem he).layers, List.filter_flatMap, List.flatMap_assoc]
  simp only [declarations, List.filter_map, List.flatMap_map, Function.comp_def]
  rfl

theorem last_of_mem {d : Decl} {w : Declaration} {p : String}
    (h : (declarations d).findRev? (·.2.name = p) = some w) :
    w.1 = d.name ∧ d.properties.findRev? (·.name = p) = some w.2 := by
  rw [declarations, List.findRev?_eq_find?_reverse, ← List.map_reverse, List.find?_map] at h
  obtain ⟨q, hq, rfl⟩ := Option.map_eq_some_iff.mp h
  rw [List.findRev?_eq_find?_reverse]
  exact ⟨rfl, hq⟩

end PropertyTable

namespace Catalog

/-- Among all that a declaration reaches, this one has a say, and no strict subtype of it
does. -/
structure MostDerived (c : Catalog) (d : Decl) (hasSay : Decl → Prop) (o : Decl) : Prop where
  reached : c.Reaches d o
  voiced : hasSay o
  final : ∀ s, c.Reaches d s → c.Inherits s o → ¬ hasSay s

theorem mostDerived_of_split {c : Catalog} (h : WellFounded fun e d => c.Extends d e)
    {d o : Decl} {hasSay : Decl → Prop} {before behind : List Decl}
    (hsplit : lineage h d = before ++ o :: behind) (ho : hasSay o)
    (hbehind : ∀ s ∈ behind, ¬ hasSay s) : c.MostDerived d hasSay o := by
  have hmem : o ∈ lineage h d := by simp [hsplit]
  refine ⟨(mem_lineage h).mp hmem, ho, ?_⟩
  intro s hs hinherits
  exact hbehind s (mem_behind_of_inherits h hsplit hs hinherits)

end Catalog

namespace PropertyTable

variable {c : Catalog} (h : WellFounded fun e d => c.Extends d e)

theorem origin_mostDerived {d : Decl} {e : Effective}
    (he : e ∈ declareAll [] (Catalog.lineage h d)) :
    ∃ o p, c.MostDerived d (e.name ∈ declaredNames ·) o ∧ e.origin = o.name ∧
      o.properties.findRev? (·.name = e.name) = some p ∧
      e.type = p.type ∧ e.isMutable = p.isMutable := by
  rw [declareAll_eq_mergeAll] at he
  obtain ⟨p, hlast, htype, hmutable⟩ := (merged_of_mem he).last
  obtain ⟨before, o, behind, hsplit, ho, hbehind⟩ := findRev?_flatMap_split hlast
  obtain ⟨horigin, hp⟩ := last_of_mem ho
  have hdeclares : e.name ∈ declaredNames o := by
    have hmem := List.mem_of_find?_eq_some (List.findRev?_eq_find?_reverse ▸ hp)
    have hname := List.find?_some (List.findRev?_eq_find?_reverse ▸ hp)
    rw [decide_eq_true_eq] at hname
    exact hname ▸ List.mem_map_of_mem (List.mem_reverse.mp hmem)
  refine ⟨o, p, Catalog.mostDerived_of_split h hsplit hdeclares ?_, horigin, hp, htype,
    hmutable⟩
  intro s hs hdeclared
  obtain ⟨q, hq, hname⟩ := List.mem_map.mp hdeclared
  have hother := hbehind s hs (s.name, q) (List.mem_map_of_mem hq)
  simp [hname] at hother

theorem directive_mostDerived {d : Decl} {e : Effective} {x : Directive}
    (he : e ∈ declareAll [] (Catalog.lineage h d)) (hx : x ∈ e.directives.entries) :
    ∃ o, c.MostDerived d (fun s => ∃ y ∈ writes e.name s, y.slot = x.slot) o ∧
      (writes e.name o).findRev? (·.slot = x.slot) = some x := by
  rw [layers_of_mem he] at hx
  obtain ⟨before, o, behind, hsplit, ho, hbehind⟩ :=
    findRev?_flatMap_split (Layers.findRev?_of_mem_layer hx)
  have hwrites : x ∈ writes e.name o :=
    List.mem_reverse.mp (List.mem_of_find?_eq_some (List.findRev?_eq_find?_reverse ▸ ho))
  refine ⟨o, Catalog.mostDerived_of_split h hsplit ⟨x, hwrites, rfl⟩ ?_, ho⟩
  rintro s hs ⟨y, hy, hslot⟩
  have hother := hbehind s hs y hy
  simp [hslot] at hother

/-- In the table of a declared type of a checked catalog, origin, type and mutability of an
entry come from a most derived declaration of the property. The directives occupy a slot each:
one that is written at all, with the last directive of a most derived writer. -/
theorem most_derived_declaration_wins (c : Catalog) (model : String) (d : Decl)
    (hcheck : c.check = .ok ()) (hget : c.get? model = some d) :
    ∃ t, ofCatalog c model = .ok t ∧ ∀ e ∈ t.entries,
      (∃ o p, c.MostDerived d (e.name ∈ declaredNames ·) o ∧ e.origin = o.name ∧
        o.properties.findRev? (·.name = e.name) = some p ∧
        e.type = p.type ∧ e.isMutable = p.isMutable) ∧
      (e.directives.entries.map Directive.slot).Nodup ∧
      (∀ x ∈ e.directives.entries, ∃ o,
        c.MostDerived d (fun s => ∃ y ∈ writes e.name s, y.slot = x.slot) o ∧
        (writes e.name o).findRev? (·.slot = x.slot) = some x) ∧
      ∀ s, c.Reaches d s → ∀ y ∈ writes e.name s,
        ∃ x ∈ e.directives.entries, x.slot = y.slot := by
  have h := Catalog.wellFounded_of_check hcheck
  refine ⟨_, ofCatalog_eq h hget, fun e he => ?_⟩
  refine ⟨origin_mostDerived h he, ?_, fun x => directive_mostDerived h he, ?_⟩
  · rw [layers_of_mem he]
    exact Layers.nodup_slots_layer_empty _
  · intro s hs y hy
    rw [layers_of_mem he]
    exact Layers.exists_mem_layer (List.mem_flatMap.mpr ⟨s, (Catalog.mem_lineage h).mpr hs, hy⟩)

/-- The base type is reached again after the type that redeclares its property. -/
def reachedLate : Catalog where
  decls := [
    { Decl.plain "Base" .interface with
      properties := [⟨"size", .scalar .long, false, [.omit none, .noInit none]⟩] },
    { Decl.plain "Derived" .interface with
      supertypes := [.named "Base" []]
      properties := [⟨"size", .scalar .int, true, [.include none]⟩] },
    { Decl.plain "Model" .interface with
      supertypes := [.named "Derived" [], .named "Base" []] }]
  nodup := by decide

theorem most_derived_declaration_wins_reachedLate :
    reachedLate.check = .ok () ∧ reachedLate.get? "Model" = some reachedLate.decls[2] ∧
      ∃ t, ofCatalog reachedLate "Model" = .ok t ∧
        t.entries.map Effective.origin = ["Derived"] ∧
        ∀ e ∈ t.entries, ∃ o p,
          reachedLate.MostDerived reachedLate.decls[2] (e.name ∈ declaredNames ·) o ∧
          e.origin = o.name ∧ o.properties.findRev? (·.name = e.name) = some p ∧
          e.type = p.type ∧ e.isMutable = p.isMutable := by
  have hcheck : reachedLate.check = .ok () := rfl
  have hget : reachedLate.get? "Model" = some reachedLate.decls[2] := rfl
  obtain ⟨t, hok, hall⟩ :=
    most_derived_declaration_wins reachedLate "Model" reachedLate.decls[2] hcheck hget
  refine ⟨hcheck, hget, t, hok, ?_, fun e he => (hall e he).1⟩
  obtain rfl := Except.ok.inj hok
  decide

end PropertyTable

end Scaffold
