import Scaffold.Proofs.Distinct
import Scaffold.Proofs.Faults
import Scaffold.Proofs.Lexing
import Scaffold.Tree.Record

/-!
Records and tagged values are read back from the tables they are written as. The entries stand
in the order of the fields, so they fill the record one by one, and the tag comes first.
-/
namespace Scaffold

namespace Tree

mutual

/-- How deep lists and tables nest. -/
def depth : Tree → Nat
  | .list items => 1 + depthOfItems items
  | .table entries => 1 + depthOfEntries entries
  | _ => 0

def depthOfItems : List Tree → Nat
  | [] => 0
  | t :: rest => max (depth t) (depthOfItems rest)

def depthOfEntries : List (String × Tree) → Nat
  | [] => 0
  | (_, t) :: rest => max (depth t) (depthOfEntries rest)

end

theorem depth_lt_of_mem_items {items : List Tree} {t : Tree} (h : t ∈ items) :
    t.depth < (Tree.list items).depth := by
  have hle : t.depth ≤ depthOfItems items := by
    induction items with
    | nil => cases h
    | cons u items ih =>
      rw [depthOfItems]
      rcases List.mem_cons.mp h with rfl | h
      · exact le_max_left _ _
      · exact (ih h).trans (le_max_right _ _)
  rw [depth]
  omega

theorem depth_lt_of_mem_entries {entries : List (String × Tree)} {e : String × Tree}
    (h : e ∈ entries) : e.2.depth < (Tree.table entries).depth := by
  have hle : e.2.depth ≤ depthOfEntries entries := by
    induction entries with
    | nil => cases h
    | cons e' entries ih =>
      rw [depthOfEntries]
      rcases List.mem_cons.mp h with rfl | h
      · exact le_max_left _ _
      · exact (ih h).trans (le_max_right _ _)
  rw [depth]
  omega

/-- There is a level for a table, and its parts have those below. -/
theorem exists_below_table {entries : List (String × Tree)} {levels : Nat}
    (h : (Tree.table entries).depth ≤ levels) :
    ∃ below, levels = below + 1 ∧ ∀ e ∈ entries, e.2.depth ≤ below := by
  have hpos : 0 < (Tree.table entries).depth := by
    rw [depth]
    omega
  refine ⟨levels - 1, by omega, fun e he => ?_⟩
  have := depth_lt_of_mem_entries he
  omega

theorem exists_below_list {items : List Tree} {levels : Nat}
    (h : (Tree.list items).depth ≤ levels) :
    ∃ below, levels = below + 1 ∧ ∀ t ∈ items, t.depth ≤ below := by
  have hpos : 0 < (Tree.list items).depth := by
    rw [depth]
    omega
  refine ⟨levels - 1, by omega, fun t ht => ?_⟩
  have := depth_lt_of_mem_items ht
  omega

theorem readable_list {levels : Nat} {items : List Tree}
    (h : ∀ t ∈ items, t.readable levels = true) :
    (Tree.list items).readable (levels + 1) = true := by
  have hitems : readableItems levels items = true := by
    induction items with
    | nil => rfl
    | cons t items ih =>
      rw [List.forall_mem_cons] at h
      rw [readableItems, h.1, ih h.2, Bool.true_and]
  rw [readable, Nat.add_sub_cancel, hitems, Bool.and_true, decide_eq_true (Nat.succ_pos levels)]

theorem readable_table {levels : Nat} {entries : List (String × Tree)}
    (h : ∀ e ∈ entries, e.2.readable levels = true) :
    (Tree.table entries).readable (levels + 1) = true := by
  have hentries : readableEntries levels entries = true := by
    induction entries with
    | nil => rfl
    | cons e entries ih =>
      rw [List.forall_mem_cons] at h
      rw [readableEntries, h.1, ih h.2, Bool.true_and]
  rw [readable, Nat.add_sub_cancel, hentries, Bool.and_true, decide_eq_true (Nat.succ_pos levels)]

theorem Faithful.readable {t : Tree} (h : t.Faithful) {levels : Nat} (hdepth : t.depth ≤ levels) :
    t.readable levels = true := by
  induction h generalizing levels with
  | null | flag | size | text => rfl
  | list _ ih =>
    obtain ⟨below, rfl, hbelow⟩ := exists_below_list hdepth
    exact readable_list fun t ht => ih t ht (hbelow t ht)
  | table _ ih =>
    obtain ⟨below, rfl, hbelow⟩ := exists_below_table hdepth
    exact readable_table fun e he => ih e he (hbelow e he)

end Tree

namespace Reader

variable {α : Type} {read : Reader α} {write : α → Tree}

theorem optional_ofOption {levels : Nat} {o : Option α} (hnull : ∀ a, write a ≠ .null)
    (h : ∀ a ∈ o, read levels (write a) = .ok a) :
    optional read levels (Tree.ofOption write o) = .ok o := by
  cases o with
  | none => rfl
  | some a =>
    have hread : optional read levels (write a) = (read levels (write a)).map some := by
      unfold optional
      split
      · rename_i hwrite
        exact absurd hwrite (hnull a)
      · rfl
    rw [Tree.ofOption, hread, h a rfl]
    rfl

theorem list_ofList {levels : Nat} {as : List α}
    (h : ∀ a ∈ as, read levels (write a) = .ok a) :
    list read (levels + 1) (Tree.ofList write as) = .ok as := by
  change (as.map write).mapM (read levels) = .ok as
  rw [mapM_ok_iff, List.forall₂_map_left_iff, List.forall₂_same]
  exact h

end Reader

namespace Record

variable {σ : Type} {levels : Nat}

/-- Entries for all fields, in the order of the fields, turn one record into another. -/
inductive Fills (levels : Nat) : List (Field σ) → List (String × Tree) → σ → σ → Prop
  | nil {s : σ} : Fills levels [] [] s s
  | entry {f : Field σ} {t : Tree} {fields : List (Field σ)} {entries : List (String × Tree)}
    {s s' s'' : σ} (h : f.set levels t s = .ok s') (rest : Fills levels fields entries s' s'') :
    Fills levels (f :: fields) ((f.name, t) :: entries) s s''

theorem Fills.of {α : Type} {name : String} {read : Reader α} {put : α → σ → σ} {a : α} {t : Tree}
    {fields : List (Field σ)} {entries : List (String × Tree)} {s s' : σ}
    (h : read levels t = .ok a) (rest : Fills levels fields entries (put a s) s') :
    Fills levels (.of name read put :: fields) ((name, t) :: entries) s s' :=
  .entry (f := .of name read put) (map_ok_iff.mpr ⟨a, h, rfl⟩) rest

theorem Fills.must {α : Type} {name : String} {read : Reader α} {put : α → σ → σ} {a : α}
    {t : Tree} {fields : List (Field σ)} {entries : List (String × Tree)} {s s' : σ}
    (h : read levels t = .ok a) (rest : Fills levels fields entries (put a s) s') :
    Fills levels (.must name read put :: fields) ((name, t) :: entries) s s' :=
  .entry (f := .must name read put) (map_ok_iff.mpr ⟨a, h, rfl⟩) rest

theorem fill_of_fills {all fields : List (Field σ)} {entries : List (String × Tree)} {s s' : σ}
    (hnodup : (all.map Field.name).Nodup) (h : Fills levels fields entries s s')
    (hfields : fields.Sublist all) {seen : List String} (hseen : ∀ f ∈ fields, f.name ∉ seen) :
    fill all levels entries seen s = .ok ((fields.map Field.name).reverse ++ seen, s') := by
  induction h generalizing seen with
  | nil => rfl
  | @entry f t fields entries s s' s'' hset _ ih =>
    have hfind : all.find? (·.name = f.name) = some f :=
      (Distinct.find?_eq_some_iff hnodup fun _ hy => of_decide_eq_true hy).mpr
        ⟨hfields.subset List.mem_cons_self, decide_eq_true rfl⟩
    have hnames : (f.name :: fields.map Field.name).Nodup :=
      hnodup.sublist (hfields.map Field.name)
    rw [List.forall_mem_cons] at hseen
    -- no name occurs twice, so the later fields are still to be seen
    have hlater : ∀ f' ∈ fields, f'.name ∉ f.name :: seen := by
      intro f' hf' hmem
      rcases List.mem_cons.mp hmem with hsame | hmem
      · exact (List.nodup_cons.mp hnames).1 (hsame ▸ List.mem_map_of_mem hf')
      · exact hseen.2 f' hf' hmem
    rw [fill, hfind]
    simp only [hseen.1, if_false, hset, ok_bind]
    rw [ih ((List.sublist_cons_self f fields).trans hfields) hlater]
    simp

theorem ofEntries_of_fills {fields : List (Field σ)} {entries : List (String × Tree)} {s s' : σ}
    (hnodup : (fields.map Field.name).Nodup) (h : Fills levels fields entries s s') :
    ofEntries fields levels entries s = .ok s' := by
  have hnone : fields.find? (fun f => f.required ∧ f.name ∉ (fields.map Field.name).reverse) =
      none := by
    rw [List.find?_eq_none]
    intro f hf
    simp [List.mem_map_of_mem hf]
  rw [ofEntries, fill_of_fills hnodup h (List.Sublist.refl _) fun _ _ => List.not_mem_nil, ok_bind,
    List.append_nil]
  simp only []
  rw [hnone]
  rfl

/-- A record is read back from a table that fills it, with the levels below the table. -/
theorem read_table {title : String} {fields : List (Field σ)} {entries : List (String × Tree)}
    {s s' : σ} (hnodup : (fields.map Field.name).Nodup)
    (hdepth : (Tree.table entries).depth ≤ levels)
    (h : ∀ below, (∀ e ∈ entries, e.2.depth ≤ below) → Fills below fields entries s s') :
    read title fields s levels (.table entries) = .ok s' := by
  obtain ⟨below, rfl, hbelow⟩ := Tree.exists_below_table hdepth
  exact ofEntries_of_fills hnodup (h below hbelow)

end Record

namespace Tagging

variable {g : Tagging} {held : Bool} {name : String} {others : List (String × Tree)}

theorem extract_of_untagged (h : ∀ e ∈ others, e.1 ≠ g.tag) (found : String) :
    g.extract held others (some found) = .ok (some found, others) := by
  induction others with
  | nil => rfl
  | cons e others ih =>
    obtain ⟨key, t⟩ := e
    rw [List.forall_mem_cons] at h
    rw [extract, if_neg h.1, ih h.2]
    rfl

/-- A table that starts with its tag and has no other. -/
theorem split_table (hname : name ∈ g.variants) (h : ∀ e ∈ others, e.1 ≠ g.tag) :
    g.split held (.table ((g.tag, .text name) :: others)) = .ok (name, .entries others) := by
  have hident : g.ident held (.text name) = .ok name := if_pos hname
  have hextract : g.extract held ((g.tag, .text name) :: others) none =
      .ok (some name, others) := by
    rw [extract, if_pos rfl, hident]
    exact extract_of_untagged h name
  rw [split, hextract]
  rfl

theorem whole_eq {α : Type} {read : Reader α} {t : Tree} {levels : Nat} (h : t.Faithful)
    (hdepth : t.depth ≤ levels) : whole read levels t = read levels t :=
  if_pos (h.readable hdepth)

end Tagging

end Scaffold
