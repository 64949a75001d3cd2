import Scaffold.Proofs.ComparisonOrder
import Scaffold.Proofs.Equality

/-!
What the generated compareTo computes. Values of one kind have a linear order with null in
front, and the cascade is their lexicographic product along the order of the plan. So compareTo
is a total preorder, and it finds no difference where equals finds none.
-/
namespace Scaffold.Eval

open Body

/-- The kinds of scalars, the values of each of which can be compared. -/
inductive ScalarKind where
  | bool
  | int
  | str
deriving DecidableEq, Repr

namespace ScalarKind

/-- Null is admitted in every kind. -/
def Admits : ScalarKind → Value → Prop
  | _, .null | .bool, .bool _ | .int, .int _ | .str, .str _ => True
  | _, _ => False

def boolOf? : Value → Option Bool
  | .bool b => some b
  | _ => none

def intOf? : Value → Option Int64
  | .int n => some n
  | _ => none

def strOf? : Value → Option String
  | .str t => some t
  | _ => none

/-- The order of the kind, with what is no scalar of the kind in front. -/
def cmp : ScalarKind → Value → Value → Ordering
  | .bool => compareOn boolOf?
  | .int => compareOn intOf?
  | .str => compareOn strOf?

instance (k : ScalarKind) : Std.TransCmp k.cmp := by
  cases k <;> unfold cmp <;> infer_instance

theorem compareValues?_eq {k : ScalarKind} {x y : Value} (hx : k.Admits x) (hy : k.Admits y) :
    compareValues? x y = some (ofOrdering (k.cmp x y)) := by
  cases k with
  | bool =>
    cases x <;> cases y <;> simp only [Admits] at hx hy <;> try rfl
    rename_i b c
    cases b <;> cases c <;> rfl
  | int => cases x <;> cases y <;> simp only [Admits] at hx hy <;> rfl
  | str => cases x <;> cases y <;> simp only [Admits] at hx hy <;> rfl

/-- Scalars are equal only to themselves, whatever the mode. -/
theorem eq_of_equal {s : Store} {mode : Comparison} {k : ScalarKind} {x y : Value}
    (hx : k.Admits x) (h : equal s mode x y = true) : x = y := by
  cases x with
  | null | bool | int | str => simpa [equal, equalWithin] using h
  | ref r => cases k <;> simp only [Admits] at hx

end ScalarKind

section Verdict

/-- How two objects compare on an entry of the order. They change sides on a descending one. -/
def difference? (s : Store) (a b : Value) (e : Member × Bool) : Option Int64 :=
  if e.2 then compareValues? (s.valueOf b e.1) (s.valueOf a e.1)
  else compareValues? (s.valueOf a e.1) (s.valueOf b e.1)

/-- The first comparison along the order that decides, or zero if none does. -/
def verdict (s : Store) (order : Sequence) (a b : Value) : Int64 :=
  ((order.filterMap (difference? s a b)).find? (· ≠ 0)).getD 0

/-- An object has, for every entry of the order, null or a scalar of the kind of the member. -/
def Orderable (s : Store) (kind : Member → ScalarKind) (order : Sequence) (v : Value) : Prop :=
  ∀ e ∈ order, ∃ x, s.field? v e.1.name = some x ∧ (kind e.1).Admits x

variable {s : Store} {kind : Member → ScalarKind} {order : Sequence} {a b c : Value}

theorem Orderable.tail {e : Member × Bool} (h : Orderable s kind (e :: order) a) :
    Orderable s kind order a := fun e' he' => h e' (List.mem_cons_of_mem e he')

theorem Orderable.field?_eq {e : Member × Bool} (h : Orderable s kind order a) (he : e ∈ order) :
    s.field? a e.1.name = some (s.valueOf a e.1) := by
  obtain ⟨x, hx, -⟩ := h e he
  exact Store.field?_eq_valueOf hx

theorem Orderable.admits {e : Member × Bool} (h : Orderable s kind order a) (he : e ∈ order) :
    (kind e.1).Admits (s.valueOf a e.1) := by
  obtain ⟨x, hx, hadmits⟩ := h e he
  rwa [Store.valueOf, hx]

theorem verdict_cons {e : Member × Bool} {n : Int64} (h : difference? s a b e = some n) :
    verdict s (e :: order) a b = if n ≠ 0 then n else verdict s order a b := by
  unfold verdict
  rw [List.filterMap_cons_some h]
  by_cases hn : n = 0 <;> simp [hn]

/-- The order of two objects by one entry. -/
def entryCmp (s : Store) (kind : Member → ScalarKind) (e : Member × Bool) (a b : Value) :
    Ordering :=
  if e.2 then (kind e.1).cmp (s.valueOf b e.1) (s.valueOf a e.1)
  else (kind e.1).cmp (s.valueOf a e.1) (s.valueOf b e.1)

instance (e : Member × Bool) : Std.TransCmp (entryCmp s kind e) where
  eq_swap := by
    intro a b
    unfold entryCmp
    split <;> exact Std.OrientedCmp.eq_swap
  isLE_trans := by
    intro a b c hab hbc
    unfold entryCmp at hab hbc ⊢
    by_cases hdescending : e.2 = true
    · simp only [if_pos hdescending] at hab hbc ⊢
      exact Std.TransCmp.isLE_trans hbc hab
    · simp only [if_neg hdescending] at hab hbc ⊢
      exact Std.TransCmp.isLE_trans hab hbc

/-- The lexicographic order of two objects along a sequence. -/
def sequenceCmp (s : Store) (kind : Member → ScalarKind) : Sequence → Value → Value → Ordering
  | [] => fun _ _ => .eq
  | e :: order => compareLex (entryCmp s kind e) (sequenceCmp s kind order)

instance : Std.TransCmp (sequenceCmp s kind order) := by
  induction order with
  | nil => exact { eq_swap := rfl, isLE_trans := fun _ _ => rfl }
  | cons e order ih =>
    unfold sequenceCmp
    infer_instance

theorem ofOrdering_swap (o : Ordering) : ofOrdering o.swap = -ofOrdering o := by
  cases o <;> rfl

theorem ofOrdering_le_zero_iff (o : Ordering) : ofOrdering o ≤ 0 ↔ o.isLE = true := by
  cases o <;> decide

theorem ofOrdering_mem (o : Ordering) : ofOrdering o ∈ [-1, 0, 1] := by
  cases o <;> decide

theorem difference?_eq {e : Member × Bool} (ha : Orderable s kind (e :: order) a)
    (hb : Orderable s kind (e :: order) b) :
    difference? s a b e = some (ofOrdering (entryCmp s kind e a b)) := by
  unfold difference? entryCmp
  split
  · exact ScalarKind.compareValues?_eq (hb.admits List.mem_cons_self) (ha.admits List.mem_cons_self)
  · exact ScalarKind.compareValues?_eq (ha.admits List.mem_cons_self) (hb.admits List.mem_cons_self)

theorem verdict_eq (ha : Orderable s kind order a) (hb : Orderable s kind order b) :
    verdict s order a b = ofOrdering (sequenceCmp s kind order a b) := by
  induction order with
  | nil => rfl
  | cons e order ih =>
    rw [verdict_cons (difference?_eq ha hb), ih ha.tail hb.tail, sequenceCmp, compareLex]
    cases entryCmp s kind e a b <;> rfl

theorem verdict_swap (ha : Orderable s kind order a) (hb : Orderable s kind order b) :
    verdict s order b a = -verdict s order a b := by
  rw [verdict_eq ha hb, verdict_eq hb ha, ← ofOrdering_swap]
  exact congrArg ofOrdering Std.OrientedCmp.eq_swap

theorem verdict_trans (ha : Orderable s kind order a) (hb : Orderable s kind order b)
    (hc : Orderable s kind order c) (hab : verdict s order a b ≤ 0)
    (hbc : verdict s order b c ≤ 0) : verdict s order a c ≤ 0 := by
  rw [verdict_eq ha hb, ofOrdering_le_zero_iff] at hab
  rw [verdict_eq hb hc, ofOrdering_le_zero_iff] at hbc
  rw [verdict_eq ha hc, ofOrdering_le_zero_iff]
  exact Std.TransCmp.isLE_trans hab hbc

theorem sequenceCmp_eq (h : ∀ e ∈ order, s.valueOf a e.1 = s.valueOf b e.1) :
    sequenceCmp s kind order a b = .eq := by
  induction order with
  | nil => rfl
  | cons e order ih =>
    have hentry : entryCmp s kind e a b = .eq := by
      unfold entryCmp
      rw [h e List.mem_cons_self]
      split <;> exact Std.ReflCmp.compare_self
    rw [sequenceCmp, compareLex, hentry, ih fun e' he' => h e' (List.mem_cons_of_mem e he')]
    rfl

end Verdict

section CompareTo

variable {m : Machine} {s : Store} {kind : Member → ScalarKind} {capabilities : Capabilities}
  {order : Sequence} {a b : Value}

/-- A step writes down how the objects compare on the member, and leaves if that decides. -/
private theorem execAll_compareStep {f : Frame} {e : Member × Bool} {n : Int64}
    (hthis : f.this = a) (hother : f.locals.lookup other = some b)
    (ha : s.field? a e.1.name = some (s.valueOf a e.1))
    (hb : s.field? b e.1.name = some (s.valueOf b e.1)) (hn : difference? s a b e = some n)
    (hordered : hasOrder capabilities e.1 = true) (rest : List Stmt) :
    execAll m f (compareStep capabilities e ++ rest) s =
      if n ≠ 0 then (.ok (some (.int n), f.set result (.int n)), s)
      else execAll m (f.set result (.int n)) rest s := by
  have hmine : eval m f (.thisField e.1.name) s = (.ok (s.valueOf a e.1), s) :=
    eval_thisField (by rwa [hthis])
  have htheirs : eval m f (.field (.ident other) e.1.name) s = (.ok (s.valueOf b e.1), s) :=
    eval_field (eval_ident hother) hb
  have hcompare : eval m f
      (if e.2 then .compare (.field (.ident other) e.1.name) (.thisField e.1.name)
        else .compare (.thisField e.1.name) (.field (.ident other) e.1.name)) s =
      (.ok (.int n), s) := by
    unfold difference? at hn
    by_cases hdescending : e.2 = true
    · rw [if_pos hdescending] at hn ⊢
      exact eval_compare htheirs hmine hn
    · rw [if_neg hdescending] at hn ⊢
      exact eval_compare hmine htheirs hn
  have hassign : exec m f (.assign (.ident result)
      (if e.2 then .compare (.field (.ident other) e.1.name) (.thisField e.1.name)
        else .compare (.thisField e.1.name) (.field (.ident other) e.1.name))) s =
      (.ok (none, f.set result (.int n)), s) := exec_assignIdent hcompare
  have hresult : eval m (f.set result (.int n)) (.ident result) s = (.ok (.int n), s) :=
    eval_ident List.lookup_cons_self
  have hdecides : eval m (f.set result (.int n)) (.binary (.ident result) .notEq (.int 0)) s =
      (.ok (.bool (n ≠ 0)), s) := by
    rw [eval_notEq hresult (eval_int m _ s 0)]
    simp [equal, equalWithin]
  have hleave := exec_guard hdecides hresult
  rw [compareStep, if_pos hordered, List.cons_append, execAll_of_next _ hassign]
  by_cases hn : n = 0
  · simp only [hn, ne_eq, not_true_eq_false, decide_false, Bool.false_eq_true, if_false]
      at hleave ⊢
    exact execAll_of_next rest hleave
  · simp only [hn, ne_eq, not_false_eq_true, decide_true, if_true] at hleave ⊢
    exact execAll_of_return rest hleave

/-- The cascade gives the verdict along the entries that are not skipped. The frame changes with
every step, but only in the local that takes the comparisons. -/
private theorem execAll_compareSteps {f : Frame} (hthis : f.this = a)
    (hother : f.locals.lookup other = some b)
    (ha : Orderable s kind (ordered capabilities order) a)
    (hb : Orderable s kind (ordered capabilities order) b) :
    ∃ g, execAll m f (order.flatMap (compareStep capabilities) ++ [.ret (.int 0)]) s =
      (.ok (some (.int (verdict s (ordered capabilities order) a b)), g), s) := by
  induction order generalizing f with
  | nil => exact ⟨f, execAll_of_return [] (exec_ret (eval_int m f s 0))⟩
  | cons e order ih =>
    rw [List.flatMap_cons, List.append_assoc]
    by_cases hordered : hasOrder capabilities e.1 = true
    · have hcons : ordered capabilities (e :: order) = e :: ordered capabilities order :=
        List.filter_cons_of_pos hordered
      rw [hcons] at ha hb ⊢
      have hdifference := difference?_eq ha hb
      rw [execAll_compareStep hthis hother (ha.field?_eq List.mem_cons_self)
        (hb.field?_eq List.mem_cons_self) hdifference hordered, verdict_cons hdifference]
      by_cases hn : ofOrdering (entryCmp s kind e a b) = 0
      · rw [if_neg (not_not.mpr hn), if_neg (not_not.mpr hn)]
        exact ih hthis hother ha.tail hb.tail
      · rw [if_pos hn, if_pos hn]
        exact ⟨_, rfl⟩
    · have hcons : ordered capabilities (e :: order) = ordered capabilities order :=
        List.filter_cons_of_neg hordered
      rw [hcons] at ha hb ⊢
      rw [compareStep, if_neg hordered, List.cons_append,
        execAll_of_next _ (exec_comment (skipNote e.1))]
      exact ih hthis hother ha hb

/-- The generated compareTo, run on two objects that can be ordered. -/
theorem call_compareTo (program : Program) (depth : Nat) (p : Plan)
    (ha : Orderable s kind (ordered capabilities order) a)
    (hb : Orderable s kind (ordered capabilities order) b) :
    program.call depth (compareTo p capabilities order) a [b] s =
      (.ok (.int (verdict s (ordered capabilities order) a b)), s) := by
  have hsteps : ∀ f : Frame, f.this = a → f.locals.lookup other = some b → _ :=
    fun f hthis hother =>
      execAll_compareSteps (m := program.machine depth) (f := f) hthis hother ha hb
  by_cases hany : (order.any fun e => hasOrder capabilities e.1) = true
  · have hlet : exec (program.machine depth) ⟨a, [(other, b)]⟩ (.let result true (.int 0)) s =
        (.ok (none, Frame.set ⟨a, [(other, b)]⟩ result (.int 0)), s) :=
      exec_let (eval_int _ _ s 0)
    obtain ⟨g, hrun⟩ := hsteps (Frame.set ⟨a, [(other, b)]⟩ result (.int 0)) rfl rfl
    apply call_of_return (g := g)
    change execAll _ ⟨a, [(other, b)]⟩ (compareBody capabilities order) s = _
    rw [compareBody, if_pos hany, List.append_assoc, List.singleton_append,
      execAll_of_next _ hlet, hrun]
  · obtain ⟨g, hrun⟩ := hsteps ⟨a, [(other, b)]⟩ rfl List.lookup_cons_self
    apply call_of_return (g := g)
    change execAll _ ⟨a, [(other, b)]⟩ (compareBody capabilities order) s = _
    rw [compareBody, if_neg hany, List.nil_append, hrun]

/-- Values that the generated equals takes for equal are the same where they are scalars. -/
theorem verdict_eq_zero_of_call_equals {p : Plan} {members : List Member} (program : Program)
    (depth : Nat) (hmembers : ∀ e ∈ order, e.1 ∈ members) (ha : Orderable s kind order a)
    (hb : Orderable s kind order b)
    (h : (program.call depth (equals p members) a [b] s).1 = .ok (.bool true)) :
    verdict s order a b = 0 := by
  have hsame : ∀ e ∈ order, s.valueOf a e.1 = s.valueOf b e.1 := by
    intro e he
    rcases agree_of_call_equals program depth h with rfl | hall
    · rfl
    · have hagree : agree s p a b e.1 = true := List.all_eq_true.mp hall e.1 (hmembers e he)
      exact ScalarKind.eq_of_equal (ha.admits he) hagree
  rw [verdict_eq ha hb, sequenceCmp_eq hsame]
  rfl

end CompareTo

/-- A score that descends, a name that may be null, and tags that have no order. -/
def player : Decl :=
  { Decl.plain "a.Player" .interface with
    properties := [.plain "name" (.nullable (.scalar .string)),
      .plain "tags" (.array (.scalar .string)), .plain "score" (.scalar .int)] }

def players : Catalog := ⟨[player], by decide⟩

def playerPlan : Plan :=
  (Plan.ofTarget players (.ofCatalog players) .standard player
    { Target.ofKind .immutable with compareOrder := ["-score", "score"] }).toOption.getD default

def playerTable : PropertyTable :=
  (PropertyTable.ofCatalog players "a.Player").toOption.getD default

def playerMembers : List Member := Member.collect playerPlan playerTable

/-- Three of one score, the first without a name and the others alike, and one of a lower
score. -/
def scores : Store :=
  ⟨[.array [], .object "a.ImmutablePlayer" [("name", .null), ("tags", .ref 0), ("score", .int 7)],
    .object "a.ImmutablePlayer" [("name", .str "x"), ("tags", .ref 0), ("score", .int 7)],
    .object "a.ImmutablePlayer" [("name", .str "x"), ("tags", .ref 0), ("score", .int 7)],
    .object "a.ImmutablePlayer" [("name", .str "x"), ("tags", .ref 0), ("score", .int 4)]]⟩

def playerKind (m : Member) : ScalarKind := if m.name = "name" then .str else .int

end Scaffold.Eval
