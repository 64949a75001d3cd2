import Scaffold.Inheritance
import Scaffold.Proofs.Ancestry
import Scaffold.Proofs.Distinct

/-!
The lineage of a declaration: the lineages of its parents one after the other, each declaration
at its first place, and the declaration itself at the end. It holds what the declaration
reaches, and no declaration in it inherits from a later one. The walk that collects properties
shares one list of met names over all parents; still it takes up exactly the lineage, because
what it has met contains all that lies above it.
-/
namespace Scaffold

namespace Catalog

variable {c : Catalog}

/-- In a catalog without cycles, where the recursion over parents ends. -/
noncomputable def lineage (h : WellFounded fun e d => c.Extends d e) : Decl → List Decl :=
  h.fix fun d above =>
    ((c.parents d).attach.flatMap fun e => above e.1 e.2).eraseDups ++ [d]

variable (h : WellFounded fun e d => c.Extends d e)

theorem lineage_eq (d : Decl) :
    lineage h d = ((c.parents d).flatMap (lineage h)).eraseDups ++ [d] := by
  conv_lhs => rw [lineage, h.fix_eq]
  rw [List.flatMap_subtype (g := lineage h) fun _ _ => rfl, List.unattach_attach]

theorem mem_lineage {d e : Decl} : e ∈ lineage h d ↔ c.Reaches d e := by
  induction d using h.induction with
  | _ d ih =>
    change e ∈ lineage h d ↔ Relation.ReflTransGen c.Extends d e
    rw [lineage_eq, List.mem_append, List.mem_eraseDups, List.mem_flatMap, List.mem_singleton,
      Relation.ReflTransGen.cases_head_iff]
    constructor
    · rintro (⟨p, hp, he⟩ | rfl)
      · exact Or.inr ⟨p, hp, (ih p hp).mp he⟩
      · exact Or.inl rfl
    · rintro (rfl | ⟨p, hp, he⟩)
      · exact Or.inr rfl
      · exact Or.inl ⟨p, hp, (ih p hp).mpr he⟩

/-- What is above a declaration does not hold the declaration. -/
private theorem not_mem_above (d : Decl) : d ∉ (c.parents d).flatMap (lineage h) := by
  intro hd
  obtain ⟨p, hp, hmem⟩ := List.mem_flatMap.mp hd
  exact not_inherits_self h d (Relation.TransGen.head' hp ((mem_lineage h).mp hmem))

theorem nodup_lineage (d : Decl) : (lineage h d).Nodup := by
  rw [lineage_eq]
  exact Distinct.nodup_concat (Distinct.nodup_eraseDups _) fun hd =>
    not_mem_above h d (List.mem_eraseDups.mp hd)

theorem lineage_declared {d e : Decl} (hd : d ∈ c.decls) (he : e ∈ lineage h d) :
    e ∈ c.decls :=
  Reaches.mem ((mem_lineage h).mp he) hd

/-- Nothing of the second list is above the first, so a later list adds only declarations that
the first list does not inherit from. -/
private theorem pairwise_flatMap (ds : List Decl)
    (hds : ∀ d ∈ ds, (lineage h d).Pairwise fun a b => ¬ c.Inherits a b) :
    ((ds.flatMap (lineage h)).eraseDups).Pairwise fun a b => ¬ c.Inherits a b := by
  induction ds with
  | nil => simp
  | cons d ds ih =>
    rw [List.flatMap_cons, Distinct.eraseDups_append_eq,
      Distinct.eraseDups_of_nodup (nodup_lineage h d)]
    have hrest := ih fun e he => hds e (List.mem_cons_of_mem d he)
    refine List.pairwise_append.mpr ⟨hds d List.mem_cons_self, hrest.filter _, ?_⟩
    intro a ha b hb hab
    have hreach : c.Reaches d b := ((mem_lineage h).mp ha).trans hab.to_reflTransGen
    have hfresh : b ∉ lineage h d := by simpa using (List.mem_filter.mp hb).2
    exact hfresh ((mem_lineage h).mpr hreach)

/-- No declaration of a lineage inherits from a later one. -/
theorem pairwise_lineage (d : Decl) :
    (lineage h d).Pairwise fun a b => ¬ c.Inherits a b := by
  induction d using h.induction with
  | _ d ih =>
    rw [lineage_eq]
    refine List.pairwise_append.mpr ⟨pairwise_flatMap h _ ih, by simp, ?_⟩
    intro a ha b hb hab
    obtain rfl := List.mem_singleton.mp hb
    obtain ⟨p, hp, hmem⟩ := List.mem_flatMap.mp (List.mem_eraseDups.mp ha)
    have hup : c.Inherits b a := Relation.TransGen.head' hp ((mem_lineage h).mp hmem)
    exact not_inherits_self h b (hup.trans hab)

/-- A strict subtype in a lineage stands behind the declaration. -/
theorem mem_behind_of_inherits {d a s : Decl} {before behind : List Decl}
    (hsplit : lineage h d = before ++ a :: behind) (hs : c.Reaches d s)
    (hinherits : c.Inherits s a) : s ∈ behind := by
  have hmem : s ∈ before ++ a :: behind := hsplit ▸ (mem_lineage h).mpr hs
  have hpairs := pairwise_lineage h d
  rw [hsplit] at hpairs
  rcases List.mem_append.mp hmem with hbefore | hrest
  · exact absurd hinherits
      ((List.pairwise_append.mp hpairs).2.2 s hbefore a List.mem_cons_self)
  · rcases List.mem_cons.mp hrest with rfl | hbehind
    · exact absurd hinherits (not_inherits_self h s)
    · exact hbehind

end Catalog

namespace PropertyTable

variable {c : Catalog}

/-- Takes up what several declarations declare, in order. -/
def declareAll (entries : List Effective) (ds : List Decl) : List Effective :=
  ds.foldl (fun es d => declare d es) entries

/-- The walk may go on to a declaration: what it has met is declared and met once, the levels
suffice for the rest of the catalog, and it has met whatever lies above a met declaration. -/
structure Ready (c : Catalog) (n : Nat) (w : Walk) (d : Decl) : Prop where
  nodup : w.met.Nodup
  declared : ∀ x ∈ w.met, x ∈ c.names
  levels : c.size < w.met.length + n
  above : ∀ e, c.Reaches d e → e.name ∈ w.met → ∀ p, c.Extends e p → p.name ∈ w.met

/-- What a walk over these declarations leaves: they are met, and those that were new are
taken up in order. -/
structure Walked (c : Catalog) (w w' : Walk) (ds : List Decl) : Prop where
  nodup : w'.met.Nodup
  declared : ∀ x ∈ w'.met, x ∈ c.names
  grows : w.met.length ≤ w'.met.length
  met : ∀ x, x ∈ w'.met ↔ x ∈ w.met ∨ ∃ e ∈ ds, e.name = x
  entries : w'.entries = declareAll w.entries (ds.filter fun e => e.name ∉ w.met)

variable (h : WellFounded fun e d => c.Extends d e)

theorem Ready.met_of_reaches {n : Nat} {w : Walk} {d e : Decl} (hw : Ready c n w d)
    (hd : d.name ∈ w.met) (he : c.Reaches d e) : e.name ∈ w.met := by
  induction he with
  | refl => exact hd
  | tail hreach hstep ih => exact hw.above _ hreach ih _ hstep

/-- A walk over one declaration leaves the walk ready for another one. -/
theorem Walked.ready {n : Nat} {w w' : Walk} {d p : Decl} (hd : d ∈ c.decls)
    (hp : p ∈ c.decls) (hw : Ready c n w p) (hstep : Walked c w w' (Catalog.lineage h d)) :
    Ready c n w' p := by
  refine ⟨hstep.nodup, hstep.declared, ?_, ?_⟩
  · have hlevels := hw.levels
    have hgrows := hstep.grows
    omega
  · intro e he hmet q hq
    rcases (hstep.met _).mp hmet with hold | ⟨e', he', hname⟩
    · exact (hstep.met _).mpr (Or.inl (hw.above e he hold q hq))
    · obtain rfl := Catalog.eq_of_name_eq (Catalog.lineage_declared h hd he')
        (Catalog.Reaches.mem he hp) hname
      have hreach : c.Reaches d q := ((Catalog.mem_lineage h).mp he').tail hq
      exact (hstep.met _).mpr (Or.inr ⟨q, (Catalog.mem_lineage h).mpr hreach, rfl⟩)

/-- Walks one after the other take up their lineages, each declaration at its first place. -/
private theorem walked_foldl (n : Nat) {ps : List Decl} {w : Walk}
    (hdeclared : ∀ p ∈ ps, p ∈ c.decls) (hnodup : w.met.Nodup)
    (hnames : ∀ x ∈ w.met, x ∈ c.names) (hready : ∀ p ∈ ps, Ready c n w p)
    (hwalk : ∀ p ∈ ps, ∀ w, Ready c n w p → Walked c w (walk c n w p) (Catalog.lineage h p)) :
    Walked c w (ps.foldl (walk c n) w) (ps.flatMap (Catalog.lineage h)).eraseDups := by
  induction ps generalizing w with
  | nil => exact ⟨hnodup, hnames, le_rfl, by simp, by simp [declareAll]⟩
  | cons p ps ih =>
    have hp : p ∈ c.decls := hdeclared p List.mem_cons_self
    have hhead := hwalk p List.mem_cons_self w (hready p List.mem_cons_self)
    have htail := ih (fun q hq => hdeclared q (List.mem_cons_of_mem p hq)) hhead.nodup
      hhead.declared
      (fun q hq => Walked.ready h hp (hdeclared q (List.mem_cons_of_mem p hq))
        (hready q (List.mem_cons_of_mem p hq)) hhead)
      (fun q hq => hwalk q (List.mem_cons_of_mem p hq))
    refine ⟨htail.nodup, htail.declared, hhead.grows.trans htail.grows, ?_, ?_⟩
    · intro x
      rw [List.foldl_cons, htail.met, hhead.met, List.flatMap_cons]
      simp only [List.mem_eraseDups, List.mem_append, or_and_right, exists_or, or_assoc]
    · have hnew : ∀ e ∈ (ps.flatMap (Catalog.lineage h)).eraseDups,
          (e.name ∉ (walk c n w p).met ↔ e.name ∉ w.met ∧ e ∉ Catalog.lineage h p) := by
        intro e he
        obtain ⟨q, hq, heq⟩ := List.mem_flatMap.mp (List.mem_eraseDups.mp he)
        have hedecl : e ∈ c.decls := Catalog.lineage_declared h
          (hdeclared q (List.mem_cons_of_mem p hq)) heq
        rw [hhead.met, not_or]
        refine and_congr_right fun _ => not_congr ⟨?_, fun hmem => ⟨e, hmem, rfl⟩⟩
        rintro ⟨e', he', hname⟩
        obtain rfl := Catalog.eq_of_name_eq (Catalog.lineage_declared h hp he') hedecl hname
        exact he'
      rw [List.foldl_cons, htail.entries, hhead.entries, List.flatMap_cons,
        Distinct.eraseDups_append_eq,
        Distinct.eraseDups_of_nodup (Catalog.nodup_lineage h p), List.filter_append,
        List.filter_filter, declareAll, declareAll, declareAll, List.foldl_append]
      congr 1
      refine List.filter_congr fun e he => ?_
      rw [← Bool.decide_and, decide_eq_decide]
      exact hnew e he

/-- Nothing is new above a met declaration. -/
theorem Ready.walked_of_met {n : Nat} {w : Walk} {d : Decl} (hw : Ready c n w d)
    (hmet : d.name ∈ w.met) : Walked c w w (Catalog.lineage h d) := by
  have hall : ∀ e ∈ Catalog.lineage h d, e.name ∈ w.met :=
    fun e he => hw.met_of_reaches hmet ((Catalog.mem_lineage h).mp he)
  refine ⟨hw.nodup, hw.declared, le_rfl, ?_, ?_⟩
  · intro x
    refine ⟨Or.inl, ?_⟩
    rintro (hx | ⟨e, he, rfl⟩)
    · exact hx
    · exact hall e he
  · have hnone : (Catalog.lineage h d).filter (fun e => e.name ∉ w.met) = [] :=
      List.filter_eq_nil_iff.mpr fun e he => by simpa using hall e he
    rw [hnone, declareAll, List.foldl_nil]

include h in
/-- While a declaration is open the walk is ready for its parents: none leads back to it. -/
theorem Ready.parent {n : Nat} {w : Walk} {d p : Decl} (hw : Ready c (n + 1) w d)
    (hd : d ∈ c.decls) (hnew : d.name ∉ w.met) (hp : c.Extends d p) :
    Ready c n ⟨d.name :: w.met, w.entries⟩ p := by
  refine ⟨List.nodup_cons.mpr ⟨hnew, hw.nodup⟩,
    List.forall_mem_cons.mpr ⟨Catalog.mem_names hd, hw.declared⟩, ?_, ?_⟩
  · have hlevels := hw.levels
    rw [List.length_cons]
    omega
  · intro e he hmem q hq
    rcases List.mem_cons.mp hmem with hname | hold
    · obtain rfl := Catalog.eq_of_name_eq (Catalog.Reaches.mem he hp.mem) hd hname
      exact absurd (Relation.TransGen.head' hp he) (Catalog.not_inherits_self h e)
    · exact List.mem_cons_of_mem _ (hw.above e (Relation.ReflTransGen.head hp he) hold q hq)

/-- A declaration is taken up after what lies above it. -/
theorem Walked.declare {w w' : Walk} {d : Decl} (hd : d ∈ c.decls) (hnew : d.name ∉ w.met)
    (hw : Walked c ⟨d.name :: w.met, w.entries⟩ w'
      ((c.parents d).flatMap (Catalog.lineage h)).eraseDups) :
    Walked c w ⟨w'.met, declare d w'.entries⟩ (Catalog.lineage h d) := by
  refine ⟨hw.nodup, hw.declared, ?_, ?_, ?_⟩
  · have hgrows := hw.grows
    rw [List.length_cons] at hgrows
    exact (Nat.le_succ _).trans hgrows
  · intro x
    rw [hw.met, Catalog.lineage_eq]
    simp only [List.mem_cons, List.mem_append, List.not_mem_nil, or_false, or_and_right,
      exists_or, exists_eq_left, eq_comm (a := x)]
    rw [or_comm (a := d.name = x), or_assoc, or_comm (a := d.name = x)]
  · have hother : ∀ e ∈ ((c.parents d).flatMap (Catalog.lineage h)).eraseDups,
        e.name ≠ d.name := by
      intro e he hname
      obtain ⟨p, hp, hmem⟩ := List.mem_flatMap.mp (List.mem_eraseDups.mp he)
      have hreach := (Catalog.mem_lineage h).mp hmem
      obtain rfl := Catalog.eq_of_name_eq
        (Catalog.Reaches.mem hreach (Catalog.Extends.mem hp)) hd hname
      exact Catalog.not_inherits_self h e (Relation.TransGen.head' hp hreach)
    dsimp only
    rw [hw.entries, Catalog.lineage_eq, List.filter_append,
      List.filter_cons_of_pos (by simpa using hnew), List.filter_nil, declareAll, declareAll,
      List.foldl_append, List.foldl_cons, List.foldl_nil]
    congr 2
    refine List.filter_congr fun e he => ?_
    simp [hother e he]

theorem walk_walked (n : Nat) (w : Walk) (d : Decl) (hd : d ∈ c.decls)
    (hw : Ready c n w d) : Walked c w (walk c n w d) (Catalog.lineage h d) := by
  induction n generalizing w d with
  | zero =>
    have hle := Catalog.length_le_size hw.nodup hw.declared
    have hlevels := hw.levels
    omega
  | succ n ih =>
    unfold walk
    by_cases hmet : d.name ∈ w.met
    · rw [if_pos hmet]
      exact hw.walked_of_met h hmet
    · rw [if_neg hmet]
      refine Walked.declare h hd hmet ?_
      exact walked_foldl h n (fun p hp => Catalog.Extends.mem hp)
        (List.nodup_cons.mpr ⟨hmet, hw.nodup⟩)
        (List.forall_mem_cons.mpr ⟨Catalog.mem_names hd, hw.declared⟩)
        (fun p hp => hw.parent h hd hmet hp)
        (fun p hp w hw => ih w p (Catalog.Extends.mem hp) hw)

/-- The table of a declared type comes from its lineage. -/
theorem ofCatalog_eq {model : String} {d : Decl} (hget : c.get? model = some d) :
    ofCatalog c model = .ok ⟨model, declareAll [] (Catalog.lineage h d)⟩ := by
  have hd := (Catalog.get?_eq_some_iff.mp hget).1
  have hready : Ready c (c.size + 1) ⟨[], []⟩ d :=
    ⟨List.nodup_nil, by simp, by simp, by simp⟩
  have hentries := (walk_walked h (c.size + 1) ⟨[], []⟩ d hd hready).entries
  simp only [List.not_mem_nil, not_false_eq_true, decide_true, List.filter_true] at hentries
  simp only [ofCatalog, hget, hentries]

end PropertyTable

end Scaffold
