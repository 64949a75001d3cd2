import Scaffold.Projection.Container

/-!
Types without stacked nullable layers. Merging puts one layer where a type has several on top of
each other, at any depth. It changes nothing that is asked of what stands under the layers, and
the types that are put in for variables may be merged before or after.
-/
namespace Scaffold

namespace Ty

mutual

/-- The type with every run of nullable layers merged into one, at any depth. -/
def merged : Ty → Ty
  | .scalar s => .scalar s
  | .named name args => .named name (mergedAll args)
  | .array element => .array (merged element)
  | .nullable inner => (merged inner).orNull
  | .param name => .param name

def mergedAll : List Ty → List Ty
  | [] => []
  | t :: rest => merged t :: mergedAll rest

end

theorem mergedAll_eq_map (ts : List Ty) : mergedAll ts = ts.map merged := by
  induction ts with
  | nil => rfl
  | cons t rest ih => rw [mergedAll, ih, List.map_cons]

theorem merged_named (name : String) (args : List Ty) :
    (named name args).merged = named name (args.map merged) := by
  rw [merged, mergedAll_eq_map]

theorem isNullable_merged (t : Ty) : t.merged.isNullable = t.isNullable := by
  cases t with
  | nullable inner => exact isNullable_orNull inner.merged
  | _ => rfl

theorem merged_orNull (t : Ty) : t.orNull.merged = t.merged.orNull := by
  cases t with
  | nullable inner =>
    have hnullable : inner.merged.orNull.isNullable = true := isNullable_orNull _
    change inner.merged.orNull = inner.merged.orNull.orNull
    rw [orNull.eq_1 inner.merged.orNull, if_pos hnullable]
  | _ => rfl

mutual

theorem merged_merged (t : Ty) : t.merged.merged = t.merged := by
  cases t with
  | named name args => rw [merged, merged, mergedAll_mergedAll args]
  | array element => rw [merged, merged, merged_merged element]
  | nullable inner => rw [merged, merged_orNull, merged_merged inner]
  | scalar | param => rfl

theorem mergedAll_mergedAll (ts : List Ty) : mergedAll (mergedAll ts) = mergedAll ts := by
  cases ts with
  | nil => rfl
  | cons t rest => rw [mergedAll, mergedAll, merged_merged t, mergedAll_mergedAll rest]

end

theorem nonNull_merged (t : Ty) : t.merged.nonNull = t.nonNull.merged := by
  induction t using nonNull.induct with
  | case1 inner ih => rw [merged, nonNull_orNull, ih, nonNull]
  | case2 t h => cases t <;> first | rfl | exact absurd rfl (h _)

/-- A nullable type keeps one layer. -/
theorem exists_merged_nullable (inner : Ty) :
    ∃ u, (nullable inner).merged = .nullable u ∧ u.nonNull = inner.nonNull.merged := by
  have hlayer : ∃ u, inner.merged.orNull = .nullable u := by
    cases inner.merged <;> exact ⟨_, rfl⟩
  obtain ⟨u, hu⟩ := hlayer
  have hnonNull := nonNull_merged (nullable inner)
  rw [merged, hu] at hnonNull
  exact ⟨u, hu, hnonNull⟩

theorem head?_merged (t : Ty) : t.merged.head? = t.head? := by
  have hlayers := isNullable_nonNull t
  unfold head?
  rw [nonNull_merged]
  cases hbase : t.nonNull with
  | nullable inner => simp [hbase, isNullable] at hlayers
  | _ => rfl

theorem mark_merged (t : Ty) : t.merged.mark = t.mark := by
  rw [mark, isNullable_merged, mark]

theorem bare_orNull (t : Ty) : t.orNull.bare = t.bare := by
  unfold orNull
  split
  · rfl
  · rw [bare]

mutual

theorem bare_merged (t : Ty) : t.merged.bare = t.bare := by
  cases t with
  | named name args =>
    cases args with
    | nil => rfl
    | cons a args =>
      have hargs := displayAll_mergedAll (a :: args)
      rw [mergedAll] at hargs
      rw [merged, mergedAll, bare, bare, hargs] <;> simp
  | array element => rw [merged, bare, bare, bare_merged element, mark_merged]
  | nullable inner => rw [merged, bare_orNull, bare_merged inner, bare]
  | scalar | param => rfl

theorem displayAll_mergedAll (ts : List Ty) : displayAll (mergedAll ts) = displayAll ts := by
  cases ts with
  | nil => rfl
  | cons t rest =>
    rw [mergedAll, displayAll, displayAll, bare_merged t, mark_merged, displayAll_mergedAll rest]

end

/-- Messages show any number of layers as one. -/
theorem display_merged (t : Ty) : t.merged.display = t.display := by
  rw [display, bare_merged, mark_merged, display]

section Subst

variable {σ τ : String → Option Ty}

mutual

/-- Stacks that only arise when types are put in for variables are merged as well. -/
theorem merged_subst_congr (h : ∀ name, (σ name).map merged = (τ name).map merged) (t : Ty) :
    (t.subst σ).merged = (t.subst τ).merged := by
  cases t with
  | named name args => simp only [subst, merged, mergedAll_substAll_congr h args]
  | array element => simp only [subst, merged, merged_subst_congr h element]
  | nullable inner => simp only [subst, merged, merged_subst_congr h inner]
  | scalar s => rfl
  | param name =>
    have hname := h name
    simp only [subst]
    cases hσ : σ name <;> cases hτ : τ name <;> simp_all

theorem mergedAll_substAll_congr (h : ∀ name, (σ name).map merged = (τ name).map merged)
    (ts : List Ty) : mergedAll (substAll σ ts) = mergedAll (substAll τ ts) := by
  cases ts with
  | nil => rfl
  | cons t rest =>
    simp only [substAll, mergedAll, merged_subst_congr h t, mergedAll_substAll_congr h rest]

end

end Subst

end Ty

namespace Projection

/-- What a parameter stands for is merged with the arguments. -/
theorem map_bindings (f : Ty → Ty) (params : List String) (args : List Ty) (name : String) :
    (bindings params args name).map f = bindings params (args.map f) name := by
  have hlookup : ∀ pairs : List (String × Ty),
      (pairs.lookup name).map f = (pairs.map (Prod.map id f)).lookup name := by
    intro pairs
    induction pairs with
    | nil => rfl
    | cons pair pairs ih =>
      rw [List.map_cons, List.lookup_cons, List.lookup_cons]
      cases hname : name == pair.1 with
      | true => simp [hname]
      | false => simp [hname, ih]
  rw [bindings, bindings, hlookup, List.map_reverse, List.zip_map_right]

end Projection

end Scaffold
