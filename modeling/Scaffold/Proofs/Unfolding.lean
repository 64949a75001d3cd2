import Scaffold.Proofs.Traversal
import Mathlib.Algebra.Group.Nat.Defs

/-!
How deep a projection descends into a type. A declared container stands for the arguments that
its clause passes on, so a type that names containers unfolds into types that may name others.
The cost of a type counts its layers and a weight for each name on the way down, and a
container weighs at least what its clauses cost. A weight of this kind exists if no container
unfolds into itself, and it keeps within the levels that a projection is given.
-/
namespace Scaffold

namespace Ty

mutual

/-- The names of the named types in a type. -/
def mentioned : Ty → List String
  | .named name args => name :: mentionedAll args
  | .array element => mentioned element
  | .nullable u => mentioned u
  | .scalar _ | .param _ => []

def mentionedAll : List Ty → List String
  | [] => []
  | t :: rest => mentioned t ++ mentionedAll rest

end

mutual

/-- A bound on the layers of a type and of what it unfolds into, where a name weighs so
much. -/
def cost (weight : String → Nat) : Ty → Nat
  | .named name args => weight name + costAll weight args
  | .array element => 1 + cost weight element
  | .nullable u => 1 + cost weight u
  | .scalar _ | .param _ => 1

def costAll (weight : String → Nat) : List Ty → Nat
  | [] => 0
  | t :: rest => max (cost weight t) (costAll weight rest)

end

variable {weight : String → Nat}

theorem cost_le_costAll {t : Ty} {ts : List Ty} (ht : t ∈ ts) :
    cost weight t ≤ costAll weight ts := by
  induction ts with
  | nil => simp at ht
  | cons u ts ih =>
    rw [costAll]
    rcases List.mem_cons.mp ht with rfl | ht
    · exact le_max_left _ _
    · exact (ih ht).trans (le_max_right _ _)

theorem cost_pos (hweight : ∀ name, 0 < weight name) (t : Ty) : 0 < cost weight t := by
  cases t with
  | named name args => exact Nat.add_pos_left (hweight name) _
  | array | nullable => exact Nat.add_pos_left Nat.one_pos _
  | scalar | param => exact Nat.one_pos

theorem cost_nonNull_le (t : Ty) : cost weight t.nonNull ≤ cost weight t := by
  induction t using nonNull.induct with
  | case1 u ih =>
    rw [nonNull, cost]
    exact ih.trans (Nat.le_add_left _ _)
  | case2 t h =>
    have hsame : t.nonNull = t := by cases t <;> simp_all [nonNull]
    rw [hsame]

section Subst

variable {σ : String → Option Ty} {m : Nat}

mutual

theorem cost_subst_le (hσ : ∀ name u, σ name = some u → cost weight u ≤ m) (t : Ty) :
    cost weight (t.subst σ) ≤ cost weight t + m := by
  cases t with
  | named name args =>
    have hargs := costAll_subst_le hσ args
    simp only [subst, cost]
    omega
  | array element =>
    have helement := cost_subst_le hσ element
    simp only [subst, cost]
    omega
  | nullable u =>
    have hu := cost_subst_le hσ u
    simp only [subst, cost]
    omega
  | scalar s => exact Nat.le_add_right _ _
  | param name =>
    cases hname : σ name with
    | none => simp only [subst, hname, Option.getD_none, Nat.le_add_right]
    | some u =>
      have hu := hσ name u hname
      simp only [subst, hname, Option.getD_some, cost]
      omega

theorem costAll_subst_le (hσ : ∀ name u, σ name = some u → cost weight u ≤ m)
    (ts : List Ty) : costAll weight (substAll σ ts) ≤ costAll weight ts + m := by
  cases ts with
  | nil => exact Nat.zero_le _
  | cons t rest =>
    have ht := cost_subst_le hσ t
    have hrest := costAll_subst_le hσ rest
    simp only [substAll, costAll]
    omega

end

end Subst

mutual

/-- Where no name weighs more than a bound, a type costs no more than its nodes at that
bound. -/
theorem cost_le_size_mul {b : Nat} (hb : 0 < b) (t : Ty)
    (hweight : ∀ name ∈ t.mentioned, weight name ≤ b) : cost weight t ≤ t.size * b := by
  cases t with
  | named name args =>
    have hname := hweight name List.mem_cons_self
    have hargs := costAll_le_sizeAll_mul hb args fun n hn =>
      hweight n (List.mem_cons_of_mem name hn)
    rw [cost, size, Nat.add_mul, Nat.one_mul]
    exact Nat.add_le_add hname hargs
  | array element =>
    have helement := cost_le_size_mul hb element hweight
    rw [cost, size, Nat.add_mul, Nat.one_mul]
    exact Nat.add_le_add hb helement
  | nullable u =>
    have hu := cost_le_size_mul hb u hweight
    rw [cost, size, Nat.add_mul, Nat.one_mul]
    exact Nat.add_le_add hb hu
  | scalar s =>
    rw [cost, size, Nat.one_mul]
    exact hb
  | param name =>
    rw [cost, size, Nat.one_mul]
    exact hb

theorem costAll_le_sizeAll_mul {b : Nat} (hb : 0 < b) (ts : List Ty)
    (hweight : ∀ name ∈ mentionedAll ts, weight name ≤ b) :
    costAll weight ts ≤ sizeAll ts * b := by
  cases ts with
  | nil => exact Nat.zero_le _
  | cons t rest =>
    have ht := cost_le_size_mul hb t fun n hn => hweight n (List.mem_append_left _ hn)
    have hrest := costAll_le_sizeAll_mul hb rest fun n hn =>
      hweight n (List.mem_append_right _ hn)
    rw [costAll, sizeAll, Nat.add_mul]
    omega

end

theorem size_le_sizeAll {t : Ty} {ts : List Ty} (ht : t ∈ ts) : t.size ≤ sizeAll ts := by
  induction ts with
  | nil => simp at ht
  | cons u ts ih =>
    rw [sizeAll]
    rcases List.mem_cons.mp ht with rfl | ht
    · exact Nat.le_add_right _ _
    · exact (ih ht).trans (Nat.le_add_left _ _)

end Ty

namespace Projection

variable {x : Context}

/-- Values of the type of this name are collections or maps. -/
def isContainer (x : Context) (name : String) : Bool :=
  x.capabilities.has name .collection || x.capabilities.has name .mapping

/-- A container clause of a declared container mentions a declared container. -/
def Unfolds (x : Context) (outer name : String) : Prop :=
  isContainer x outer ∧ isContainer x name ∧ x.catalog.contains name ∧
    ∃ d, x.catalog.get? outer = some d ∧
      ∃ t ∈ d.supertypes, t.head?.any (isContainer x) ∧ name ∈ t.mentioned

/-- The declared containers that the container clauses of a declared container mention. -/
def unfoldings (x : Context) (d : Decl) : List String :=
  if isContainer x d.name then
    ((d.supertypes.filter fun t => t.head?.any (isContainer x)).flatMap Ty.mentioned).filter
      fun name => isContainer x name && x.catalog.contains name
  else []

theorem unfolds_iff {outer name : String} : Unfolds x outer name ↔
    ∃ d, x.catalog.get? outer = some d ∧ name ∈ unfoldings x d := by
  constructor
  · rintro ⟨houter, hname, hdeclared, d, hget, t, ht, hhead, hmentioned⟩
    obtain ⟨-, rfl⟩ := Catalog.get?_eq_some_iff.mp hget
    refine ⟨d, hget, ?_⟩
    rw [unfoldings, if_pos houter]
    refine List.mem_filter.mpr ⟨List.mem_flatMap.mpr ⟨t, ?_, hmentioned⟩, by simp_all⟩
    exact List.mem_filter.mpr ⟨ht, hhead⟩
  · rintro ⟨d, hget, hmem⟩
    obtain ⟨-, rfl⟩ := Catalog.get?_eq_some_iff.mp hget
    unfold unfoldings at hmem
    by_cases houter : isContainer x d.name
    · rw [if_pos houter] at hmem
      obtain ⟨hclause, hname⟩ := List.mem_filter.mp hmem
      obtain ⟨t, ht, hmentioned⟩ := List.mem_flatMap.mp hclause
      obtain ⟨ht, hhead⟩ := List.mem_filter.mp ht
      rw [Bool.and_eq_true] at hname
      exact ⟨houter, hname.1, hname.2, d, hget, t, ht, hhead, hmentioned⟩
    · rw [if_neg houter] at hmem
      exact absurd hmem List.not_mem_nil

/-- Containers that can be ranked do not unfold into themselves. -/
theorem acyclic_of_rank (rank : String → Nat)
    (h : ∀ d ∈ x.catalog.decls, ∀ name ∈ unfoldings x d, rank name < rank d.name)
    (name : String) : ¬ Relation.TransGen (Unfolds x) name name := by
  have hstep : ∀ outer inner, Unfolds x outer inner → rank inner < rank outer := by
    intro outer inner hunfolds
    obtain ⟨d, hget, hmem⟩ := unfolds_iff.mp hunfolds
    obtain ⟨hd, rfl⟩ := Catalog.get?_eq_some_iff.mp hget
    exact h d hd inner hmem
  have hrun : ∀ inner, Relation.TransGen (Unfolds x) name inner → rank inner < rank name := by
    intro inner hsteps
    induction hsteps with
    | single hunfolds => exact hstep _ _ hunfolds
    | tail _ hunfolds ih => exact (hstep _ _ hunfolds).trans ih
  exact fun hcycle => Nat.lt_irrefl _ (hrun name hcycle)

/-- A weight under which a container weighs what its clauses cost. -/
structure Weighs (x : Context) (weight : String → Nat) : Prop where
  pos : ∀ name, 0 < weight name
  clause : ∀ name d, x.catalog.get? name = some d → isContainer x name →
    ∀ t ∈ d.supertypes, t.head?.any (isContainer x) → t.cost weight ≤ weight name

theorem mem_of_bindings {params : List String} {args : List Ty} {name : String} {u : Ty}
    (h : bindings params args name = some u) : u ∈ args := by
  obtain ⟨before, behind, hsplit, -⟩ := List.lookup_eq_some_iff.mp h
  have hpair : (name, u) ∈ params.zip args := by
    rw [← List.mem_reverse, hsplit]
    exact List.mem_append_right _ List.mem_cons_self
  exact (List.of_mem_zip hpair).2

/-- Only a clause that is a named type itself hands arguments on. -/
theorem named_of_subst_named {k : Capabilities} {capability : Capability} {d : Decl} {t : Ty}
    {σ : String → Option Ty} {parent : String} {parentArgs : List Ty}
    (hcarrier : carrier? k capability d = some t)
    (hsubst : t.subst σ = .named parent parentArgs) :
    ∃ args, t = .named parent args ∧ parentArgs = Ty.substAll σ args ∧
      t ∈ d.supertypes ∧ k.has parent capability := by
  have hmem : t ∈ d.supertypes := List.mem_of_find?_eq_some hcarrier
  have hhead := List.find?_some hcarrier
  cases t with
  | named name args =>
    rw [Ty.subst] at hsubst
    obtain ⟨rfl, rfl⟩ := Ty.named.inj hsubst
    exact ⟨args, rfl, rfl, hmem, by simpa [Ty.head?, Ty.nonNull] using hhead⟩
  | param name => simp [Ty.head?, Ty.nonNull] at hhead
  | array element => simp [Ty.subst] at hsubst
  | nullable u => simp [Ty.subst] at hsubst
  | scalar s => simp [Ty.subst] at hsubst

theorem cost_lt_of_mem_args {weight : String → Nat} (hw : Weighs x weight) (name : String)
    {args : List Ty} {a : Ty} (ha : a ∈ args) :
    a.cost weight < weight name + Ty.costAll weight args := by
  have hpos := hw.pos name
  have hle : a.cost weight ≤ Ty.costAll weight args := Ty.cost_le_costAll ha
  omega

/-- An argument that a container hands on costs less than the container over its arguments. -/
theorem cost_lt_of_mem_carriedFrom {weight : String → Nat} (hw : Weighs x weight)
    {capability : Capability}
    (hcap : ∀ name, x.capabilities.has name capability → isContainer x name) (n : Nat)
    (seen : List String) (name : String) (args : List Ty) (hname : isContainer x name) {a : Ty}
    (ha : a ∈ carriedFrom x.catalog x.capabilities capability n seen name args) :
    a.cost weight < weight name + Ty.costAll weight args := by
  induction n generalizing seen name args with
  | zero => exact cost_lt_of_mem_args hw name ha
  | succ n ih =>
    unfold carriedFrom at ha
    cases hget : x.catalog.get? name with
    | none =>
      rw [hget] at ha
      exact cost_lt_of_mem_args hw name ha
    | some d =>
      simp only [hget] at ha
      by_cases hseen : name ∈ seen
      · rw [if_pos hseen] at ha
        exact cost_lt_of_mem_args hw name ha
      rw [if_neg hseen] at ha
      split at ha
      · rename_i parent parentArgs hclause
        obtain ⟨t, hcarrier, hsubst⟩ := Option.map_eq_some_iff.mp hclause
        obtain ⟨clauseArgs, rfl, rfl, hmem, hparent⟩ := named_of_subst_named hcarrier hsubst
        have hcontainer := hcap parent hparent
        have hclauseCost := hw.clause name d hget hname _ hmem
          (by simpa [Ty.head?, Ty.nonNull] using hcontainer)
        have hbound : ∀ n u, bindings d.typeParams args n = some u →
            u.cost weight ≤ Ty.costAll weight args :=
          fun _ _ hu => Ty.cost_le_costAll (mem_of_bindings hu)
        have hargs := Ty.costAll_subst_le hbound clauseArgs
        have hlt := ih _ parent _ hcontainer ha
        rw [Ty.cost] at hclauseCost
        omega
      · exact cost_lt_of_mem_args hw name ha

theorem cost_lt_of_mem_carriedArgs {weight : String → Nat} (hw : Weighs x weight)
    {capability : Capability}
    (hcap : ∀ name, x.capabilities.has name capability → isContainer x name)
    {name : String} (hname : x.capabilities.has name capability) {args : List Ty} {a : Ty}
    (ha : a ∈ carriedArgs x.catalog x.capabilities capability name args) :
    a.cost weight < weight name + Ty.costAll weight args :=
  cost_lt_of_mem_carriedFrom hw hcap _ [] name args (hcap name hname) ha

/-- Descending into a type makes it cheaper. -/
theorem cost_lt_of_mem_inner {weight : String → Nat} (hw : Weighs x weight) {t u : Ty}
    (hu : u ∈ inner x t) : u.cost weight < t.cost weight := by
  unfold inner at hu
  by_cases hmapped : (mapped? x.settings t).isSome
  · simp [hmapped] at hu
  rw [if_neg hmapped] at hu
  cases t with
  | scalar | param => simp at hu
  | nullable v =>
    obtain rfl := List.mem_singleton.mp hu
    have hle : v.nonNull.cost weight ≤ v.cost weight := Ty.cost_nonNull_le v
    rw [Ty.cost]
    omega
  | array element =>
    obtain rfl := List.mem_singleton.mp hu
    rw [Ty.cost]
    omega
  | named name args =>
    dsimp only at hu
    rw [Ty.cost]
    by_cases htop : x.capabilities.has name .top
    · simp [htop] at hu
    rw [if_neg htop] at hu
    by_cases hcollection : x.capabilities.has name .collection
    · rw [if_pos hcollection] at hu
      exact cost_lt_of_mem_carriedArgs hw (fun n hn => by simp [isContainer, hn]) hcollection
        (List.mem_of_mem_take hu)
    rw [if_neg hcollection] at hu
    by_cases hmapping : x.capabilities.has name .mapping
    · rw [if_pos hmapping] at hu
      exact cost_lt_of_mem_carriedArgs hw (fun n hn => by simp [isContainer, hn]) hmapping
        (List.mem_of_mem_take hu)
    · rw [if_neg hmapping] at hu
      exact cost_lt_of_mem_args hw name hu

section Weight

open Classical in
/-- The declared containers into which a name unfolds in any number of steps. -/
noncomputable def inside (x : Context) (name : String) : List String :=
  x.catalog.names.filter fun n => Relation.TransGen (Unfolds x) name n

theorem mem_inside {name n : String} :
    n ∈ inside x name ↔ n ∈ x.catalog.names ∧ Relation.TransGen (Unfolds x) name n := by
  simp [inside]

theorem mem_names_of_contains {name : String} (h : x.catalog.contains name) :
    name ∈ x.catalog.names := by
  obtain ⟨d, hget⟩ := Option.isSome_iff_exists.mp h
  obtain ⟨hd, rfl⟩ := Catalog.get?_eq_some_iff.mp hget
  exact Catalog.mem_names hd

/-- How many declared containers there are below a name. -/
noncomputable def rank (x : Context) (name : String) : Nat := (inside x name).length

theorem rank_le_size (name : String) : rank x name ≤ x.catalog.size := by
  rw [← Catalog.length_names]
  exact List.length_filter_le _ _

theorem rank_lt_of_unfolds (hacyclic : ∀ n, ¬ Relation.TransGen (Unfolds x) n n)
    {outer name : String} (h : Unfolds x outer name) : rank x name < rank x outer := by
  have hfresh : name ∉ inside x name := fun hmem => hacyclic name (mem_inside.mp hmem).2
  have hnodup : (name :: inside x name).Nodup :=
    List.nodup_cons.mpr ⟨hfresh, x.catalog.nodup.filter _⟩
  have hsub : name :: inside x name ⊆ inside x outer := by
    intro n hn
    rcases List.mem_cons.mp hn with rfl | hn
    · exact mem_inside.mpr ⟨mem_names_of_contains h.2.2.1, .single h⟩
    · have hbelow := mem_inside.mp hn
      exact mem_inside.mpr ⟨hbelow.1, .head h hbelow.2⟩
  have hle := (List.subperm_of_subset hnodup hsub).length_le
  rwa [List.length_cons] at hle

/-- A declared container weighs more the more containers are below it. -/
noncomputable def containerWeight (x : Context) (name : String) : Nat :=
  if isContainer x name && x.catalog.contains name then
    (volume x.catalog + 2) ^ (rank x name + 1)
  else 1

theorem containerWeight_le {name : String} {k : Nat}
    (h : isContainer x name → x.catalog.contains name → rank x name < k) :
    containerWeight x name ≤ (volume x.catalog + 2) ^ k := by
  unfold containerWeight
  by_cases hname : (isContainer x name && x.catalog.contains name) = true
  · rw [if_pos hname]
    obtain ⟨hcontainer, hdeclared⟩ := Bool.and_eq_true_iff.mp hname
    exact Nat.pow_le_pow_right (by omega) (h hcontainer hdeclared)
  · rw [if_neg hname]
    exact Nat.one_le_pow _ _ (by omega)

/-- The types written in a declaration are part of the volume. -/
theorem size_le_volume {c : Catalog} {d : Decl} (hd : d ∈ c.decls) {t : Ty}
    (ht : t ∈ d.supertypes ∨ t ∈ d.properties.map Property.type) : t.size ≤ volume c := by
  have hown : t.size ≤ Ty.sizeAll d.supertypes + Ty.sizeAll (d.properties.map Property.type) := by
    rcases ht with ht | ht
    · exact (Ty.size_le_sizeAll ht).trans (Nat.le_add_right _ _)
    · exact (Ty.size_le_sizeAll ht).trans (Nat.le_add_left _ _)
  refine hown.trans ?_
  unfold volume
  generalize c.decls = ds at hd
  induction ds with
  | nil => simp at hd
  | cons e es ih =>
    rw [List.foldr_cons]
    rcases List.mem_cons.mp hd with rfl | hd
    · exact Nat.le_add_right _ _
    · exact (ih hd).trans (Nat.le_add_left _ _)

theorem weighs_containerWeight (hacyclic : ∀ n, ¬ Relation.TransGen (Unfolds x) n n) :
    Weighs x (containerWeight x) := by
  refine ⟨?_, ?_⟩
  · intro name
    unfold containerWeight
    split
    · exact Nat.pow_pos (by omega)
    · exact Nat.one_pos
  · intro name d hget hname t ht hhead
    have hd := (Catalog.get?_eq_some_iff.mp hget).1
    have hweight : ∀ n ∈ t.mentioned,
        containerWeight x n ≤ (volume x.catalog + 2) ^ rank x name := by
      intro n hn
      refine containerWeight_le fun hcontainer hdeclared => ?_
      exact rank_lt_of_unfolds hacyclic ⟨hname, hcontainer, hdeclared, d, hget, t, ht, hhead, hn⟩
    have hcost := Ty.cost_le_size_mul (Nat.pow_pos (by omega)) t hweight
    have hsize : t.size ≤ volume x.catalog + 2 :=
      (size_le_volume hd (Or.inl ht)).trans (Nat.le_add_right _ _)
    have hdeclared : x.catalog.contains name := by simp [Catalog.contains, hget]
    rw [containerWeight, if_pos (by simp [hname, hdeclared]), Nat.pow_succ, Nat.mul_comm]
    exact hcost.trans (Nat.mul_le_mul_right _ hsize)

/-- The types written in a declaration unfold within the levels. -/
theorem cost_le_levels {d : Decl} (hd : d ∈ x.catalog.decls) {t : Ty}
    (ht : t ∈ d.supertypes ∨ t ∈ d.properties.map Property.type) :
    t.cost (containerWeight x) ≤ levels x.catalog := by
  have hweight : ∀ n ∈ t.mentioned,
      containerWeight x n ≤ (volume x.catalog + 2) ^ (x.catalog.size + 1) :=
    fun n _ => containerWeight_le fun _ _ => Nat.lt_succ_of_le (rank_le_size n)
  have hcost := Ty.cost_le_size_mul (Nat.pow_pos (by omega)) t hweight
  have hsize : t.size ≤ volume x.catalog + 2 :=
    (size_le_volume hd ht).trans (Nat.le_add_right _ _)
  calc t.cost (containerWeight x)
      ≤ t.size * (volume x.catalog + 2) ^ (x.catalog.size + 1) := hcost
    _ ≤ (volume x.catalog + 2) * (volume x.catalog + 2) ^ (x.catalog.size + 1) :=
      Nat.mul_le_mul_right _ hsize
    _ = (volume x.catalog + 2) ^ (x.catalog.size + 2) := by
      rw [Nat.mul_comm, ← Nat.pow_succ]
    _ ≤ levels x.catalog := Nat.pow_le_pow_right (by omega) (by omega)

end Weight

end Projection

end Scaffold
