import Scaffold.Capability
import Scaffold.Proofs.Ancestry
import Scaffold.Proofs.Distinct

/-!
Which names have which capabilities. A name carries what it is well known for, and that of an
enum the capabilities of enums; over and above that it is entitled to what is carried by the
names above it, as far as subtypes share it. The derivation remembers what it found. It gives a
partial answer only for a name that is still open, and such a name is never met again where
inheritance runs in no circle, so all that it remembers is right.
-/
namespace Scaffold

namespace Catalog

variable {c : Catalog}

/-- The declared type of the first name has a supertype clause with the second, which need not
be declared itself. -/
def HasClause (c : Catalog) (name above : String) : Prop :=
  ∃ d, c.get? name = some d ∧ ∃ t ∈ d.supertypes, t.head? = some above

theorem hasClause_iff {name above : String} {d : Decl} (hget : c.get? name = some d) :
    c.HasClause name above ↔ above ∈ d.supertypes.filterMap Ty.head? := by
  simp [HasClause, hget]

theorem get?_eq_of_perm {c' : Catalog} (h : c'.decls.Perm c.decls) (name : String) :
    c'.get? name = c.get? name := by
  apply Option.ext
  intro d
  rw [get?_eq_some_iff, get?_eq_some_iff, h.mem_iff]

theorem extends_eq_of_perm {c' : Catalog} (h : c'.decls.Perm c.decls) :
    c'.Extends = c.Extends := by
  funext d e
  rw [eq_iff_iff, extends_iff, extends_iff]
  simp only [get?_eq_of_perm h]

theorem hasClause_eq_of_perm {c' : Catalog} (h : c'.decls.Perm c.decls) :
    c'.HasClause = c.HasClause := by
  funext name above
  simp only [HasClause, get?_eq_of_perm h]

end Catalog

namespace Capability

theorem mem_wellKnown {name : String} {k : Capability} :
    k ∈ wellKnown name ↔ name ∈ k.carriers := by
  have hall : k ∈ all := by cases k <;> decide
  simp [wellKnown, hall]

theorem mem_union {a b : List Capability} {k : Capability} : k ∈ union a b ↔ k ∈ a ∨ k ∈ b := by
  rw [union, List.mem_append, List.mem_filter, decide_eq_true_eq]
  constructor
  · rintro (ha | ⟨hb, -⟩)
    · exact Or.inl ha
    · exact Or.inr hb
  · rintro (ha | hb)
    · exact Or.inl ha
    · by_cases ha : k ∈ a
      · exact Or.inl ha
      · exact Or.inr ⟨hb, ha⟩

theorem isInherited_iff {k : Capability} : k.isInherited = true ↔ k ≠ .top ∧ k ≠ .enum := by
  cases k <;> decide

end Capability

namespace Capabilities

variable {c : Catalog}

/-- The name is well known for the capability, or that of an enum, which has two. -/
def Carries (c : Catalog) (name : String) (k : Capability) : Prop :=
  name ∈ k.carriers ∨
    ∃ d, c.get? name = some d ∧ d.kind = .enum ∧ (k = .enum ∨ k = .ordering)

/-- The name carries the capability itself, or one that subtypes share is carried above it. -/
def Entitled (c : Catalog) (name : String) (k : Capability) : Prop :=
  Carries c name k ∨ (k ≠ .top ∧ k ≠ .enum) ∧
    ∃ above, Relation.TransGen c.HasClause name above ∧ Carries c above k

theorem mem_own {name : String} {d : Decl} (hget : c.get? name = some d) (k : Capability) :
    k ∈ Capability.own d ↔ Carries c name k := by
  obtain rfl : d.name = name := (Catalog.get?_eq_some_iff.mp hget).2
  unfold Capability.own Carries
  rw [List.mem_append, Capability.mem_wellKnown, hget]
  by_cases hkind : d.kind = .enum <;> simp [hkind]

theorem entitled_of_none {name : String} (hget : c.get? name = none) (k : Capability) :
    Entitled c name k ↔ k ∈ Capability.wellKnown name := by
  rw [Capability.mem_wellKnown]
  constructor
  · rintro ((hcarrier | ⟨d, hd, -⟩) | ⟨-, above, habove, -⟩)
    · exact hcarrier
    · simp [hget] at hd
    · obtain ⟨next, ⟨d, hd, -⟩, -⟩ := Relation.TransGen.head'_iff.mp habove
      simp [hget] at hd
  · intro hcarrier
    exact Or.inl (Or.inl hcarrier)

/-- One step up: what a declared name does not carry it has from one of its clauses. -/
theorem entitled_of_some {name : String} {d : Decl} (hget : c.get? name = some d)
    (k : Capability) :
    Entitled c name k ↔ k ∈ Capability.own d ∨ k.isInherited = true ∧
      ∃ above ∈ d.supertypes.filterMap Ty.head?, Entitled c above k := by
  rw [mem_own hget, Capability.isInherited_iff, Entitled]
  refine or_congr_right (and_congr_right fun hshared => ?_)
  constructor
  · rintro ⟨above, habove, hcarries⟩
    obtain ⟨next, hnext, hrest⟩ := Relation.TransGen.head'_iff.mp habove
    refine ⟨next, (Catalog.hasClause_iff hget).mp hnext, ?_⟩
    rcases Relation.reflTransGen_iff_eq_or_transGen.mp hrest with rfl | hsteps
    · exact Or.inl hcarries
    · exact Or.inr ⟨hshared, above, hsteps, hcarries⟩
  · rintro ⟨next, hmem, hentitled⟩
    have hnext : c.HasClause name next := (Catalog.hasClause_iff hget).mpr hmem
    rcases hentitled with hcarries | ⟨-, above, habove, hcarries⟩
    · exact ⟨next, .single hnext, hcarries⟩
    · exact ⟨above, .head hnext habove, hcarries⟩

/-- The list holds what the name is entitled to. -/
def Answers (c : Catalog) (name : String) (ks : List Capability) : Prop :=
  ∀ k, k ∈ ks ↔ Entitled c name k

def Known (c : Catalog) (found : Found) : Prop :=
  ∀ name ks, found.lookup name = some ks → Answers c name ks

/-- What a derivation of names does to what was found. -/
structure Found.Grows (c : Catalog) (found found' : Found) (names : List String) : Prop where
  known : Known c found'
  keeps : ∀ x, (found.lookup x).isSome → (found'.lookup x).isSome
  recorded : ∀ x ∈ names, c.contains x → (found'.lookup x).isSome

theorem Found.Grows.append {found mid found' : Found} {names names' : List String}
    (h : Grows c found mid names) (h' : Grows c mid found' names') :
    Grows c found found' (names ++ names') := by
  refine ⟨h'.known, fun x hx => h'.keeps x (h.keeps x hx), ?_⟩
  intro x hx hcontains
  rcases List.mem_append.mp hx with hx | hx
  · exact h'.keeps x (h.recorded x hx hcontains)
  · exact h'.recorded x hx hcontains

/-- The answer for a name that was not found before is remembered. -/
theorem Found.Grows.record {found found' : Found} {names : List String} {name : String}
    {ks : List Capability} (h : Grows c found found' names) (hanswers : Answers c name ks) :
    Grows c found ((name, ks) :: found') [name] := by
  refine ⟨?_, ?_, ?_⟩
  · intro x ks' hx
    rw [Distinct.lookup_cons_ite] at hx
    by_cases hname : x = name
    · obtain rfl : ks = ks' := by simpa [hname] using hx
      rwa [hname]
    · exact h.known x ks' (by simpa [hname] using hx)
  · intro x hx
    rw [Distinct.lookup_cons_ite]
    by_cases hname : x = name
    · simp [hname]
    · rw [if_neg hname]
      exact h.keeps x hx
  · intro x hx _
    rw [List.mem_singleton.mp hx, List.lookup_cons_self]
    rfl

/-- The capabilities of the names in turn, as far as subtypes share them, joined to those there
are. -/
def gather (derive : Found → String → List Capability × Found) (names : List String)
    (state : List Capability × Found) : List Capability × Found :=
  names.foldl
    (fun state name =>
      (Capability.union state.1 ((derive state.2 name).1.filter Capability.isInherited),
        (derive state.2 name).2)) state

theorem derive_of_new {n : Nat} {path : List String} {found : Found} {name : String} {d : Decl}
    (hlookup : found.lookup name = none) (hget : c.get? name = some d) (hopen : name ∉ path) :
    derive c (n + 1) path found name =
      let gathered := gather (derive c n (name :: path)) (d.supertypes.filterMap Ty.head?)
        (Capability.own d, found)
      (gathered.1, (name, gathered.1) :: gathered.2) := by
  rw [derive, hlookup, hget]
  dsimp only
  rw [if_neg hopen]
  rfl

theorem gather_spec {derive : Found → String → List Capability × Found} {names : List String}
    (state : List Capability × Found) (hknown : Known c state.2)
    (hderive : ∀ name ∈ names, ∀ found, Known c found →
      Answers c name (derive found name).1 ∧
        Found.Grows c found (derive found name).2 [name]) :
    (∀ k, k ∈ (gather derive names state).1 ↔ k ∈ state.1 ∨ k.isInherited = true ∧
      ∃ above ∈ names, Entitled c above k) ∧
    Found.Grows c state.2 (gather derive names state).2 names := by
  induction names generalizing state with
  | nil =>
    refine ⟨by simp [gather], hknown, fun _ hx => hx, by simp⟩
  | cons name names ih =>
    obtain ⟨hanswers, hgrows⟩ := hderive name List.mem_cons_self state.2 hknown
    obtain ⟨hmem, hrest⟩ := ih (Capability.union state.1
      ((derive state.2 name).1.filter Capability.isInherited), (derive state.2 name).2)
      hgrows.known (fun x hx => hderive x (List.mem_cons_of_mem name hx))
    refine ⟨?_, hgrows.append hrest⟩
    intro k
    refine (hmem k).trans ?_
    rw [Capability.mem_union, List.mem_filter, hanswers k]
    simp only [List.mem_cons, exists_eq_or_imp, and_or_left, or_assoc,
      and_comm (a := Entitled c name k)]

/-- A derivation gives the right answer and remembers right answers. The open names lead to the
name at hand, so where inheritance runs in no circle it is none of them. -/
theorem derive_spec (hacyclic : ∀ d, ¬ c.Inherits d d) (n : Nat) (path : List String)
    (found : Found) (name : String) (hroom : c.Room n path)
    (htrail : ∀ d, c.get? name = some d → c.Trail c.Extends path d) (hknown : Known c found) :
    Answers c name (derive c n path found name).1 ∧
      Found.Grows c found (derive c n path found name).2 [name] := by
  induction n generalizing path found name with
  | zero => exact absurd hroom.pos (Nat.lt_irrefl 0)
  | succ n ih =>
    cases hlookup : found.lookup name with
    | some ks =>
      simp only [derive, hlookup]
      refine ⟨hknown name ks hlookup, hknown, fun _ hx => hx, ?_⟩
      intro x hx _
      rw [List.mem_singleton.mp hx, hlookup]
      rfl
    | none =>
      cases hget : c.get? name with
      | none =>
        simp only [derive, hlookup, hget]
        refine ⟨fun k => (entitled_of_none hget k).symm, hknown, fun _ hx => hx, ?_⟩
        intro x hx hcontains
        rw [List.mem_singleton.mp hx, Catalog.contains, hget] at hcontains
        simp at hcontains
      | some d =>
        obtain ⟨hd, rfl⟩ := Catalog.get?_eq_some_iff.mp hget
        have hopen : d.name ∉ path := fun hmem =>
          hacyclic d ((htrail d hget).circle hd hmem)
        have hparents : ∀ above ∈ d.supertypes.filterMap Ty.head?, ∀ found, Known c found →
            Answers c above (derive c n (d.name :: path) found above).1 ∧
              Found.Grows c found (derive c n (d.name :: path) found above).2 [above] := by
          intro above habove found hknown
          obtain ⟨t, ht, hhead⟩ := List.mem_filterMap.mp habove
          apply ih (d.name :: path) found above (hroom.push hd hopen) _ hknown
          intro e he
          exact (htrail d hget).push hd (Catalog.extends_iff.mpr ⟨t, ht, above, hhead, he⟩)
        obtain ⟨hmem, hgrows⟩ := gather_spec (Capability.own d, found) hknown hparents
        have hanswers : Answers c d.name (gather (derive c n (d.name :: path))
            (d.supertypes.filterMap Ty.head?) (Capability.own d, found)).1 := by
          intro k
          rw [hmem, entitled_of_some hget]
        rw [derive_of_new hlookup hget hopen]
        exact ⟨hanswers, hgrows.record hanswers⟩

theorem grows_foldl (hacyclic : ∀ d, ¬ c.Inherits d d) (ds : List Decl) (found : Found)
    (hknown : Known c found) :
    Found.Grows c found
      (ds.foldl (fun found d => (derive c (c.size + 1) [] found d.name).2) found)
      (ds.map Decl.name) := by
  induction ds generalizing found with
  | nil => exact ⟨hknown, fun _ hx => hx, by simp⟩
  | cons d ds ih =>
    have hroom : c.Room (c.size + 1) [] := .initial (Nat.lt_succ_self _)
    have htrail : ∀ e, c.get? d.name = some e → c.Trail c.Extends [] e := by
      simp [Catalog.Trail]
    have hfirst := (derive_spec hacyclic (c.size + 1) [] found d.name hroom htrail hknown).2
    exact hfirst.append (ih _ hfirst.known)

theorem grows_ofCatalog (hacyclic : ∀ d, ¬ c.Inherits d d) :
    Found.Grows c [] (ofCatalog c).derived c.names :=
  grows_foldl hacyclic c.decls [] (by simp [Known])

theorem has_iff_entitled (hacyclic : ∀ d, ¬ c.Inherits d d) (name : String) (k : Capability) :
    (ofCatalog c).has name k = true ↔ Entitled c name k := by
  have hgrows := grows_ofCatalog hacyclic
  rw [has, decide_eq_true_eq, of]
  cases hlookup : (ofCatalog c).derived.lookup name with
  | some ks => exact hgrows.known name ks hlookup k
  | none =>
    have hget : c.get? name = none := by
      rw [Catalog.get?_eq_none_iff]
      intro hmem
      obtain ⟨d, hd, rfl⟩ := List.mem_map.mp hmem
      have hcontains : c.contains d.name := by
        rw [Catalog.contains, Catalog.get?_eq_some_iff.mpr ⟨hd, rfl⟩]
        rfl
      have hrecorded := hgrows.recorded d.name (Catalog.mem_names hd) hcontains
      simp [hlookup] at hrecorded
    exact (entitled_of_none hget k).symm

theorem entitled_eq_of_perm {c' : Catalog} (h : c'.decls.Perm c.decls) :
    Entitled c' = Entitled c := by
  funext name k
  simp only [Entitled, Carries, Catalog.hasClause_eq_of_perm h, Catalog.get?_eq_of_perm h]

/-- In a checked catalog a name has the capabilities it carries itself and those carried above
it, the top type's and the enums' apart. The order of the declarations does not matter, and
what a name is well known for it has whether it is declared or not. -/
theorem has_iff_carried_or_inherited (c : Catalog) (hcheck : c.check = .ok ()) :
    (∀ name k, (ofCatalog c).has name k = true ↔
      Carries c name k ∨ (k ≠ .top ∧ k ≠ .enum) ∧
        ∃ above, Relation.TransGen c.HasClause name above ∧ Carries c above k) ∧
    (∀ c' : Catalog, c'.decls.Perm c.decls →
      ∀ name k, (ofCatalog c').has name k = (ofCatalog c).has name k) ∧
    ∀ (name : String) (k : Capability), name ∈ k.carriers →
      (ofCatalog c).has name k = true := by
  have hacyclic := Catalog.not_inherits_self (Catalog.wellFounded_of_check hcheck)
  refine ⟨has_iff_entitled hacyclic, ?_, ?_⟩
  · intro c' hperm name k
    have hacyclic' : ∀ d, ¬ c'.Inherits d d := by
      simpa only [Catalog.Inherits, Catalog.extends_eq_of_perm hperm] using hacyclic
    rw [Bool.eq_iff_iff, has_iff_entitled hacyclic', has_iff_entitled hacyclic,
      entitled_eq_of_perm hperm]
  · intro name k hcarrier
    exact (has_iff_entitled hacyclic name k).mpr (Or.inl (Or.inl hcarrier))

/-- Ordered types in a row over a well-known name, above one that is declared itself. -/
def shelf : Catalog where
  decls := [
    { Decl.plain "Document" .interface with
      supertypes := [.nullable (.named "Versioned" []), .named "kotlin.Cloneable" []] },
    { Decl.plain "Versioned" .interface with
      supertypes := [.named "kotlin.Comparable" [.named "Versioned" []]] },
    { Decl.plain "kotlin.Comparable" .interface with supertypes := [.named "kotlin.Any" []] },
    .plain "Status" .enum]
  nodup := by decide

theorem has_iff_carried_or_inherited_shelf :
    shelf.check = .ok () ∧ (ofCatalog shelf).has "Document" .ordering = true ∧
      (ofCatalog shelf).has "kotlin.Comparable" .ordering = true ∧
      (ofCatalog ⟨shelf.decls.reverse, by decide⟩).has "Document" .ordering = true ∧
      ¬ (ofCatalog shelf).has "Document" .top = true := by
  have hcheck : shelf.check = .ok () := rfl
  obtain ⟨hiff, hperm, hcarriers⟩ := has_iff_carried_or_inherited shelf hcheck
  have hdocument : shelf.HasClause "Document" "Versioned" :=
    ⟨shelf.decls[0], rfl, _, List.mem_cons_self, rfl⟩
  have hversioned : shelf.HasClause "Versioned" "kotlin.Comparable" :=
    ⟨shelf.decls[1], rfl, _, List.mem_cons_self, rfl⟩
  have hordering : (ofCatalog shelf).has "Document" .ordering = true := by
    rw [hiff]
    exact Or.inr ⟨by decide, "kotlin.Comparable", .tail (.single hdocument) hversioned,
      Or.inl (by decide)⟩
  refine ⟨hcheck, hordering, hcarriers _ _ (by decide), ?_, ?_⟩
  · rw [hperm _ shelf.decls.reverse_perm]
    exact hordering
  · rw [hiff]
    rintro ((hcarrier | ⟨d, -, -, hkind⟩) | ⟨hshared, -⟩)
    · exact absurd hcarrier (by decide)
    · simp at hkind
    · exact hshared.1 rfl

end Capabilities

end Scaffold
