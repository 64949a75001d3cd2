import Scaffold.Tree
import Mathlib.Data.Option.Basic
import Mathlib.Data.List.Forall2

/-!
Trees as values. Whoever reads a tree finds the entries of a table by their keys, so two trees
are the same value if they differ in the order of entries only. A way to write separates if
things that are written as one value are one thing; lists, options and fields that may be left
out separate if what they hold does.
-/
namespace Scaffold

namespace Tree

/-- The trees are one value. The order of the entries of a table says nothing. -/
inductive Same : Tree → Tree → Prop
  | null : Same .null .null
  | flag (b : Bool) : Same (.flag b) (.flag b)
  | int (z : Int) : Same (.int z) (.int z)
  | real (spelling : String) : Same (.real spelling) (.real spelling)
  | text (s : String) : Same (.text s) (.text s)
  | unreadable : Same .unreadable .unreadable
  | list {ts us : List Tree} (h : List.Forall₂ Same ts us) : Same (.list ts) (.list us)
  | table {es fs : List (String × Tree)}
    (h : ∀ key, Option.Rel Same (es.lookup key) (fs.lookup key)) : Same (.table es) (.table fs)

mutual

theorem Same.refl : ∀ t : Tree, Same t t
  | .null => .null
  | .flag b => .flag b
  | .int z => .int z
  | .real spelling => .real spelling
  | .text s => .text s
  | .unreadable => .unreadable
  | .list items => .list (reflItems items)
  | .table entries => .table (reflEntries entries)

theorem Same.reflItems : ∀ ts : List Tree, List.Forall₂ Same ts ts
  | [] => .nil
  | t :: rest => .cons (refl t) (reflItems rest)

theorem Same.reflEntries : ∀ (es : List (String × Tree)) (key : String),
    Option.Rel Same (es.lookup key) (es.lookup key)
  | [], _ => .none
  | (k, t) :: rest, key => by
    rw [List.lookup_cons]
    split
    · exact .some (refl t)
    · exact reflEntries rest key

end

@[simp] theorem same_text {s s' : String} : Same (.text s) (.text s') ↔ s = s' :=
  ⟨fun h => by cases h; rfl, fun h => h ▸ .text s⟩

@[simp] theorem same_flag {b b' : Bool} : Same (.flag b) (.flag b') ↔ b = b' :=
  ⟨fun h => by cases h; rfl, fun h => h ▸ .flag b⟩

@[simp] theorem same_int {z z' : Int} : Same (.int z) (.int z') ↔ z = z' :=
  ⟨fun h => by cases h; rfl, fun h => h ▸ .int z⟩

@[simp] theorem same_list {ts us : List Tree} :
    Same (.list ts) (.list us) ↔ List.Forall₂ Same ts us :=
  ⟨fun h => by cases h; assumption, .list⟩

theorem same_table {es fs : List (String × Tree)} :
    Same (.table es) (.table fs) ↔ ∀ key, Option.Rel Same (es.lookup key) (fs.lookup key) :=
  ⟨fun h => by cases h; assumption, .table⟩

section Entries

variable {key : String} {t u : Tree} {es fs : List (String × Tree)}

theorem lookup_of_fresh (h : key ∉ es.map Prod.fst) : es.lookup key = none := by
  rw [List.lookup_eq_none_iff]
  intro e he
  have hne : key ≠ e.1 := fun hkey => h (hkey ▸ List.mem_map_of_mem he)
  simpa using hne

@[simp] theorem same_nil : Same (.table []) (.table []) := .refl _

/-- A key that occurs once in each of two tables can be taken out of both. -/
@[simp] theorem same_table_cons (hes : key ∉ es.map Prod.fst) (hfs : key ∉ fs.map Prod.fst) :
    Same (.table ((key, t) :: es)) (.table ((key, u) :: fs)) ↔
      Same t u ∧ Same (.table es) (.table fs) := by
  simp only [same_table]
  constructor
  · intro h
    refine ⟨by simpa using h key, fun k => ?_⟩
    by_cases hk : k = key
    · rw [hk, lookup_of_fresh hes, lookup_of_fresh hfs]
      exact .none
    · have hother : (k == key) = false := by simpa using hk
      simpa only [List.lookup_cons, hother] using h k
  · rintro ⟨htree, hrest⟩ k
    by_cases hk : k = key
    · simpa [hk] using htree
    · have hother : (k == key) = false := by simpa using hk
      simpa only [List.lookup_cons, hother] using hrest k

theorem eq_of_same_tagged {tag tag' : String}
    (h : Same (.table ((key, .text tag) :: es)) (.table ((key, .text tag') :: fs))) :
    tag = tag' := by
  simpa using same_table.mp h key

end Entries

section Fields

variable {key : String} {o o' : Option Tree} {es fs : List (String × Option Tree)}

@[simp] theorem same_tableOf_nil : Same (tableOf []) (tableOf []) := .refl _

theorem tableOf_none : tableOf ((key, none) :: es) = tableOf es := rfl

theorem tableOf_some {t : Tree} : tableOf ((key, some t) :: es) =
    .table ((key, t) :: es.filterMap fun e => e.2.map fun t => (e.1, t)) := rfl

theorem fresh_of_fresh (h : key ∉ es.map Prod.fst) :
    key ∉ (es.filterMap fun e => e.2.map fun t => (e.1, t)).map Prod.fst := by
  intro hmem
  obtain ⟨⟨k, t⟩, hentry, rfl⟩ := List.mem_map.mp hmem
  obtain ⟨⟨k', o⟩, he, ho⟩ := List.mem_filterMap.mp hentry
  obtain ⟨t', -, hpair⟩ := Option.map_eq_some_iff.mp ho
  obtain ⟨rfl, -⟩ := Prod.mk.inj hpair
  exact h (List.mem_map_of_mem he)

/-- A field is there in both tables or in none, and then has one value. -/
@[simp] theorem same_tableOf_cons (hes : key ∉ es.map Prod.fst) (hfs : key ∉ fs.map Prod.fst) :
    Same (tableOf ((key, o) :: es)) (tableOf ((key, o') :: fs)) ↔
      Option.Rel Same o o' ∧ Same (tableOf es) (tableOf fs) := by
  have hes' := fresh_of_fresh hes
  have hfs' := fresh_of_fresh hfs
  cases o with
  | none =>
    cases o' with
    | none => simp [tableOf_none]
    | some u =>
      have hno : ¬ Same (tableOf es) (tableOf ((key, some u) :: fs)) := fun h => by
        have hkey := same_table.mp h key
        rw [lookup_of_fresh hes'] at hkey
        simp at hkey
      simp [tableOf_none, hno]
  | some t =>
    cases o' with
    | none =>
      have hno : ¬ Same (tableOf ((key, some t) :: es)) (tableOf fs) := fun h => by
        have hkey := same_table.mp h key
        rw [lookup_of_fresh hfs'] at hkey
        simp at hkey
      simp [tableOf_none, hno]
    | some u =>
      rw [tableOf_some, tableOf_some, same_table_cons hes' hfs', Option.rel_some_some]
      rfl

end Fields

/-- A list that is left out because it is empty is told from every other. -/
theorem rows_of_someList {α β : Type} {write : α → Tree} {write' : β → Tree} {as : List α}
    {bs : List β} (h : Option.Rel Same (someList write as) (someList write' bs)) :
    List.Forall₂ Same (as.map write) (bs.map write') := by
  cases as with
  | nil =>
    cases bs with
    | nil => exact .nil
    | cons => cases h
  | cons =>
    cases bs with
    | nil => cases h
    | cons => exact same_list.mp (Option.rel_some_some.mp h)

/-- What is written differently is a different value. -/
def Separates {α : Type} (write : α → Tree) : Prop := ∀ a b, Same (write a) (write b) → a = b

namespace Separates

variable {α : Type} {write : α → Tree}

theorem text : Separates Tree.text := fun _ _ => same_text.mp

theorem rows (h : Separates write) {as bs : List α}
    (hrows : List.Forall₂ Same (as.map write) (bs.map write)) : as = bs := by
  rw [List.forall₂_map_left_iff, List.forall₂_map_right_iff] at hrows
  rw [← List.forall₂_eq_eq_eq]
  exact hrows.imp h

theorem ofList (h : Separates write) : Separates (Tree.ofList write) :=
  fun _ _ hlists => h.rows (same_list.mp hlists)

theorem someList (h : Separates write) {as bs : List α}
    (hlists : Option.Rel Same (Tree.someList write as) (Tree.someList write bs)) : as = bs :=
  h.rows (rows_of_someList hlists)

theorem option (h : Separates write) {o o' : Option α}
    (hoptions : Option.Rel Same (o.map write) (o'.map write)) : o = o' := by
  cases o <;> cases o' <;> simp at hoptions
  · rfl
  · rw [h _ _ hoptions]

end Separates

end Tree

end Scaffold
