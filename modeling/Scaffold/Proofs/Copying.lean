import Scaffold.Body.Copying
import Scaffold.Proofs.Distinct
import Scaffold.Proofs.Equating

/-!
What clone and copy make. Both end in one construction of the class from the declared members;
they differ in what the members are read from. For copy it is a frame that holds for every
parameter what was given under its name or else what the object has, since the default of a
parameter reads the object and no other parameter. The store only gains a cell, so the object
and what lies below it can be compared with the copy afterwards.
-/
namespace Scaffold.Eval

open Body

/-- The value a copy has for a member: what was given under its name, or else what the object
has. -/
def copiedValue (s : Store) (o : Value) (given : List (String × Value)) (m : Member) : Value :=
  (given.lookup m.name).getD (s.valueOf o m)

def copiedFields (s : Store) (o : Value) (given : List (String × Value)) (members : List Member) :
    List (String × Value) :=
  (members.filter (·.declared)).map fun m => (m.name, copiedValue s o given m)

/-- The store has gained an object of the class at a new reference and is otherwise as it was. -/
structure Constructed (s s' : Store) (r : Ref) (className : String)
    (fields : List (String × Value)) : Prop where
  fresh : s.cell? r = none
  made : s'.cell? r = some (.object className fields)
  kept : ∀ r', r' ≠ r → s'.cell? r' = s.cell? r'

section Values

variable {s : Store} {o : Value} {given : List (String × Value)} {m m' : Member}

theorem copiedValue_nil (s : Store) (o : Value) (m : Member) :
    copiedValue s o [] m = s.valueOf o m := rfl

theorem copiedValue_single (s : Store) (o v : Value) (m m' : Member) :
    copiedValue s o [(m.name, v)] m' = if m'.name = m.name then v else s.valueOf o m' := by
  rw [copiedValue, Distinct.lookup_cons_ite]
  split <;> rfl

/-- Members of one name have one value. -/
theorem copiedValue_congr (h : m.name = m'.name) :
    copiedValue s o given m = copiedValue s o given m' := by
  simp only [copiedValue, Store.valueOf, h]

theorem lookup_copiedFields {members : List Member} (hm : m ∈ members)
    (hdeclared : m.declared = true) :
    (copiedFields s o given members).lookup m.name = some (copiedValue s o given m) := by
  induction members with
  | nil => simp at hm
  | cons first members ih =>
    have hrest : m ∈ members → (copiedFields s o given members).lookup m.name =
        some (copiedValue s o given m) := ih
    cases hfirst : first.declared with
    | false =>
      have hne : m ≠ first := fun h => by simp [h, hfirst] at hdeclared
      rw [copiedFields, List.filter_cons_of_neg (by simp [hfirst])]
      exact hrest ((List.mem_cons.mp hm).resolve_left hne)
    | true =>
      rw [copiedFields, List.filter_cons_of_pos hfirst, List.map_cons, Distinct.lookup_cons_ite]
      by_cases hname : m.name = first.name
      · rw [if_pos hname, copiedValue_congr hname]
      · rw [if_neg hname]
        exact hrest ((List.mem_cons.mp hm).resolve_left fun h => hname (congrArg Member.name h))

end Values

section Construct

variable {k : Machine} {f : Frame} {s : Store} {p : Plan} {members : List Member}

theorem evalArgs_members {e : String → Expr} {value : Member → Value}
    (h : ∀ m ∈ members, eval k f (e m.name) s = (.ok (value m), s)) :
    evalArgs k f (members.map fun m => (m.name, e m.name)) s =
      (.ok (members.map fun m => (m.name, value m)), s) := by
  induction members with
  | nil => rfl
  | cons m members ih =>
    obtain ⟨hm, hmembers⟩ := List.forall_mem_cons.mp h
    change (eval k f (e m.name) >>= _) s = _
    rw [bind_ok hm, bind_ok (ih hmembers)]
    rfl

/-- A body that constructs the class gives the new object. -/
theorem runBody_construct {e : String → Expr} {value : Member → Value}
    (h : ∀ m ∈ members, m.declared = true → eval k f (e m.name) s = (.ok (value m), s)) :
    runBody k f [.ret (construct p members e)] s =
      Run.alloc (.object p.qualifiedName
        ((members.filter (·.declared)).map fun m => (m.name, value m))) s := by
  have hdeclared : ∀ m ∈ members.filter (·.declared), eval k f (e m.name) s = (.ok (value m), s) :=
    fun m hm => h m (List.mem_of_mem_filter hm) (List.of_mem_filter hm)
  have hargs := evalArgs_members hdeclared
  have heval : eval k f (construct p members e) s = Run.alloc (.object p.qualifiedName _) s :=
    bind_ok hargs
  exact runBody_of_return (execAll_of_return [] (exec_ret heval))

theorem bindNamed_given {given : List (String × Value)} {param : Param} {v : Value}
    (program : Program) (depth : Nat) (rest : List Param)
    (h : given.lookup param.name = some v) :
    program.bindNamed depth given (param :: rest) f s =
      program.bindNamed depth given rest (f.set param.name v) s := by
  rw [Program.bindNamed, h]
  rfl

theorem bindNamed_default {given : List (String × Value)} {param : Param} {e : Expr} {v : Value}
    (program : Program) (depth : Nat) (rest : List Param)
    (h : given.lookup param.name = none) (hdefault : param.default = some e)
    (heval : eval (program.machine depth) f e s = (.ok v, s)) :
    program.bindNamed depth given (param :: rest) f s =
      program.bindNamed depth given rest (f.set param.name v) s := by
  rw [Program.bindNamed, h, hdefault]
  exact bind_ok heval

/-- The induction is on the parameters. A frame that has the values of a copy for some members
keeps them when it takes in another, because members of one name have one value. -/
theorem bindNamed_copyParams {o : Value} (program : Program) (depth : Nat)
    (given : List (String × Value)) (hthis : f.this = o)
    (hfield : ∀ m ∈ members, s.field? o m.name = some (s.valueOf o m)) :
    ∃ g, program.bindNamed depth given (members.map copyParam) f s = (.ok g, s) ∧
      ∀ m : Member,
        m ∈ members ∨ f.locals.lookup m.name = some (copiedValue s o given m) →
        g.locals.lookup m.name = some (copiedValue s o given m) := by
  induction members generalizing f with
  | nil => exact ⟨f, rfl, fun m hm => hm.resolve_left List.not_mem_nil⟩
  | cons first members ih =>
    obtain ⟨hfirst, hrest⟩ := List.forall_mem_cons.mp hfield
    obtain ⟨g, hbind, hg⟩ := ih (f := f.set first.name (copiedValue s o given first)) hthis hrest
    refine ⟨g, ?_, fun m hm => hg m ?_⟩
    · refine Eq.trans ?_ hbind
      cases hgiven : given.lookup first.name with
      | some v =>
        rw [copiedValue, hgiven]
        exact bindNamed_given program depth _ hgiven
      | none =>
        rw [copiedValue, hgiven]
        refine bindNamed_default program depth _ hgiven rfl (eval_thisField ?_)
        rw [hthis]
        exact hfirst
    · have hset : (f.set first.name (copiedValue s o given first)).locals.lookup m.name =
          if m.name = first.name then some (copiedValue s o given first)
          else f.locals.lookup m.name :=
        Distinct.lookup_cons_ite m.name first.name _ f.locals
      by_cases hname : m.name = first.name
      · exact Or.inr (by rw [hset, if_pos hname, copiedValue_congr hname])
      · rcases hm with hm | hm
        · exact Or.inl ((List.mem_cons.mp hm).resolve_left fun h => hname (congrArg Member.name h))
        · exact Or.inr (by rw [hset, if_neg hname, hm])

end Construct

section Calls

variable {p : Plan} {members : List Member} {s : Store} {o : Value}

/-- The generated copy, called by name on an object that has all declared members. -/
theorem callNamed_copy (program : Program) (depth : Nat) (given : List (String × Value))
    (ho : s.Holds members o) :
    program.callNamed depth (copy p members) o given s =
      Run.alloc (.object p.qualifiedName (copiedFields s o given members)) s := by
  have hdeclared : ∀ m ∈ members.filter (·.declared), s.field? o m.name = some (s.valueOf o m) :=
    fun m hm => ho.field?_eq (List.mem_of_mem_filter hm)
  obtain ⟨g, hbind, hg⟩ := bindNamed_copyParams (f := ⟨o, []⟩) program depth given rfl hdeclared
  unfold Program.callNamed
  rw [show (copy p members).params = (members.filter (·.declared)).map copyParam from rfl,
    bind_ok hbind]
  exact runBody_construct fun m hm hmdeclared =>
    eval_ident (hg m (Or.inl (List.mem_filter.mpr ⟨hm, hmdeclared⟩)))

/-- The generated clone reads from the object what copy takes when nothing is given. -/
theorem call_clone (program : Program) (depth : Nat) (ho : s.Holds members o) :
    program.call depth (clone p members) o [] s =
      Run.alloc (.object p.qualifiedName (copiedFields s o [] members)) s :=
  runBody_construct fun _ hm _ => eval_thisField (ho.field?_eq hm)

theorem constructed_alloc (s : Store) (className : String) (fields : List (String × Value)) :
    Constructed s (s.alloc (.object className fields)).2 (s.alloc (.object className fields)).1
      className fields where
  fresh := s.cell?_alloc_fresh _
  made := s.cell?_alloc_self _
  kept _ hr := Store.cell?_alloc_of_ne _ hr

end Calls

section Compare

variable {s s' : Store} {r : Ref} {className : String} {fields : List (String × Value)}
  {p : Plan} {members : List Member} {o : Value} {given : List (String × Value)}

namespace Constructed

/-- An object that was there is another than the new one and has kept its cell. -/
theorem kept_object (h : Constructed s s' r className fields) {c : String}
    (ho : s.className? o = some c) :
    o ≠ .ref r ∧ s'.className? o = s.className? o ∧ ∀ name, s'.field? o name = s.field? o name := by
  cases o with
  | null | bool | int | str => simp [Store.className?] at ho
  | ref r' =>
    have hne : r' ≠ r := by
      rintro rfl
      simp [Store.className?, h.fresh] at ho
    have hcell := h.kept r' hne
    refine ⟨fun heq => hne (Value.ref.inj heq), ?_, fun name => ?_⟩
    · simp only [Store.className?, hcell]
    · simp only [Store.field?, hcell]

theorem holds (h : Constructed s s' r className fields) (ho : s.Holds members o) :
    s'.Holds members o := by
  obtain ⟨c, hc⟩ := ho.isObject
  obtain ⟨-, hclass, hfield⟩ := h.kept_object hc
  refine ⟨⟨c, hclass.trans hc⟩, fun m hm => ?_⟩
  rw [hfield]
  exact ho.hasValue m hm

theorem valueOf_kept (h : Constructed s s' r className fields) (ho : s.Holds members o)
    (m : Member) : s'.valueOf o m = s.valueOf o m := by
  obtain ⟨c, hc⟩ := ho.isObject
  rw [Store.valueOf, Store.valueOf, (h.kept_object hc).2.2]

theorem className?_new (h : Constructed s s' r className fields) :
    s'.className? (.ref r) = some className := by
  simp only [Store.className?, h.made]

theorem oneClass (h : Constructed s s' r className fields)
    (ho : s.className? o = some className) : s'.className? o = s'.className? (.ref r) :=
  (h.kept_object ho).2.1.trans (ho.trans h.className?_new.symm)

section Declared

variable (h : Constructed s s' r className (copiedFields s o given members))
  (hall : ∀ m ∈ members, m.declared = true)

include h hall

theorem field?_new {m : Member} (hm : m ∈ members) :
    s'.field? (.ref r) m.name = some (copiedValue s o given m) := by
  simp only [Store.field?, h.made]
  exact lookup_copiedFields hm (hall m hm)

theorem holds_new : s'.Holds members (.ref r) :=
  ⟨⟨className, h.className?_new⟩, fun _ hm => ⟨_, h.field?_new hall hm⟩⟩

theorem valueOf_new {m : Member} (hm : m ∈ members) :
    s'.valueOf (.ref r) m = copiedValue s o given m := by
  rw [Store.valueOf, h.field?_new hall hm, Option.getD_some]

end Declared

end Constructed

section Pair

variable {a b : Value} (hvalue : ∀ m ∈ members, s.valueOf a m = s.valueOf b m)

include hvalue

theorem hashOfMembers_congr (identity : Ref → Int64) (start : Int64) :
    hashOfMembers s identity p a members start = hashOfMembers s identity p b members start := by
  unfold hashOfMembers
  apply List.foldl_ext
  intro total m hm
  rw [memberHash, memberHash, hvalue m hm]

/-- Objects of one class that hold the same values are equal, however arrays are compared. -/
theorem equates_of_valueOf_eq (program : Program) (depth : Nat) (ha : s.Holds members a)
    (hb : s.Holds members b) (hclass : s.className? a = s.className? b) :
    Equates program depth p members s a b := by
  have hagree : members.all (agree s p a b) = true := by
    refine List.all_eq_true.mpr fun m hm => ?_
    rw [agree, hvalue m hm]
    exact equalWithin_refl s _ _ _
  rw [Equates, call_equals program depth ha hb, decide_eq_true hclass, hagree, Bool.and_self,
    Bool.or_true]

end Pair

section Copy

variable (program : Program) (depth : Nat) (ho : s.Holds members o)
  (hclass : s.className? o = some p.qualifiedName) (hall : ∀ m ∈ members, m.declared = true)

include ho hclass hall

/-- An object is compared with its copy by the values that the copy was made from. -/
theorem equals_copy
    (h : Constructed s s' r p.qualifiedName (copiedFields s o given members)) :
    ∃ answer, program.call depth (equals p members) o [.ref r] s' = (.ok (.bool answer), s') ∧
      (answer = true ↔ ∀ m ∈ members, equal s' (Comparison.ofType m.type p.equalsArrays)
        (s.valueOf o m) (copiedValue s o given m) = true) := by
  have hne := (h.kept_object hclass).1
  refine ⟨_, call_equals program depth (h.holds ho) (h.holds_new hall), ?_⟩
  rw [decide_eq_false hne, decide_eq_true (h.oneClass hclass), Bool.false_or, Bool.true_and,
    List.all_eq_true]
  refine forall₂_congr fun m hm => ?_
  rw [agree, h.valueOf_kept ho, h.valueOf_new hall hm]

/-- What was not given cannot tell the copy from the object. -/
theorem equals_copy_single {m : Member} {v : Value} (hm : m ∈ members)
    (h : Constructed s s' r p.qualifiedName (copiedFields s o [(m.name, v)] members)) :
    ∃ answer, program.call depth (equals p members) o [.ref r] s' = (.ok (.bool answer), s') ∧
      (answer = true ↔ ∀ m' ∈ members, m'.name = m.name →
        equal s' (Comparison.ofType m'.type p.equalsArrays) (s.valueOf o m) v = true) ∧
      ((members.map Member.name).Nodup → (answer = true ↔
        equal s' (Comparison.ofType m.type p.equalsArrays) (s.valueOf o m) v = true)) := by
  obtain ⟨answer, hcall, hanswer⟩ := equals_copy program depth ho hclass hall h
  have hsingle : answer = true ↔ ∀ m' ∈ members, m'.name = m.name →
      equal s' (Comparison.ofType m'.type p.equalsArrays) (s.valueOf o m) v = true := by
    refine hanswer.trans (forall₂_congr fun m' _ => ?_)
    rw [copiedValue_single]
    by_cases hname : m'.name = m.name
    · simp only [hname, if_true, true_imp_iff, Store.valueOf]
    · simp only [hname, if_false, false_imp_iff, iff_true]
      exact equalWithin_refl s' _ _ _
  refine ⟨answer, hcall, hsingle, fun hnodup => ?_⟩
  refine hsingle.trans ⟨fun h => h m hm rfl, fun h m' hm' hname => ?_⟩
  rw [List.inj_on_of_nodup_map hnodup hm' hm hname]
  exact h

/-- A copy with nothing given holds the very values of the object. -/
theorem equates_clone (h : Constructed s s' r p.qualifiedName (copiedFields s o [] members)) :
    Equates program depth p members s' o (.ref r) ∧
      Equates program depth p members s' (.ref r) o ∧
      ∃ hash : Int64, program.call depth (hashCode p members) o [] s' = (.ok (.int hash), s') ∧
        program.call depth (hashCode p members) (.ref r) [] s' = (.ok (.int hash), s') := by
  have hkept := h.holds ho
  have hnew := h.holds_new hall
  have hone := h.oneClass hclass
  have hvalue : ∀ m ∈ members, s'.valueOf o m = s'.valueOf (.ref r) m := by
    intro m hm
    rw [h.valueOf_kept ho, h.valueOf_new hall hm, copiedValue_nil]
  refine ⟨equates_of_valueOf_eq hvalue program depth hkept hnew hone,
    equates_of_valueOf_eq (fun m hm => (hvalue m hm).symm) program depth hnew hkept hone.symm,
    _, call_hashCode program depth hkept, ?_⟩
  rw [hashOfMembers_congr hvalue]
  exact call_hashCode program depth hnew

end Copy

end Compare

/-- The generated copy makes a new object of the class from the declared members in their order,
each with what was given for it or else what the object has, and leaves all cells there were as
they are. The generated clone is a copy for which nothing is given. If every member is declared,
an object and its clone are equal and have one hash, however arrays are compared and hashed, and
a copy with one other value is equal exactly if that value is. -/
theorem clone_and_copy_construct (program : Program) (depth : Nat) (p : Plan)
    (members : List Member) (s : Store) (o : Value) (ho : s.Holds members o)
    (hclass : s.className? o = some p.qualifiedName) :
    (∀ given : List (String × Value), ∃ r s',
      program.callNamed depth (copy p members) o given s = (.ok (.ref r), s') ∧
      Constructed s s' r p.qualifiedName (copiedFields s o given members)) ∧
    program.call depth (clone p members) o [] s =
      program.callNamed depth (copy p members) o [] s ∧
    ((∀ m ∈ members, m.declared = true) →
      (∃ r s', program.call depth (clone p members) o [] s = (.ok (.ref r), s') ∧
        Equates program depth p members s' o (.ref r) ∧
        Equates program depth p members s' (.ref r) o ∧
        ∃ hash : Int64, program.call depth (hashCode p members) o [] s' = (.ok (.int hash), s') ∧
          program.call depth (hashCode p members) (.ref r) [] s' = (.ok (.int hash), s')) ∧
      ∀ m ∈ members, ∀ v : Value, ∃ r s' answer,
        program.callNamed depth (copy p members) o [(m.name, v)] s = (.ok (.ref r), s') ∧
        program.call depth (equals p members) o [.ref r] s' = (.ok (.bool answer), s') ∧
        (answer = true ↔ ∀ m' ∈ members, m'.name = m.name →
          equal s' (Comparison.ofType m'.type p.equalsArrays) (s.valueOf o m) v = true) ∧
        ((members.map Member.name).Nodup → (answer = true ↔
          equal s' (Comparison.ofType m.type p.equalsArrays) (s.valueOf o m) v = true))) := by
  have hcopy := fun given => callNamed_copy (p := p) program depth given ho
  have hmade := fun given =>
    constructed_alloc s p.qualifiedName (copiedFields s o given members)
  refine ⟨fun given => ⟨_, _, hcopy given, hmade given⟩, ?_, fun hall => ⟨?_, fun m hm v => ?_⟩⟩
  · exact (call_clone program depth ho).trans (hcopy []).symm
  · exact ⟨_, _, call_clone program depth ho,
      equates_clone program depth ho hclass hall (hmade [])⟩
  · obtain ⟨answer, hequals⟩ := equals_copy_single program depth ho hclass hall hm
      (hmade [(m.name, v)])
    exact ⟨_, _, answer, hcopy _, hequals⟩

/-- The copy shares the array that was not given, and differs where null was given. -/
theorem clone_and_copy_construct_twins :
    ∃ p : Plan,
      Plan.ofTarget .empty (.ofCatalog .empty) .standard (.plain "a.Node" .interface)
        twinTarget = .ok p ∧
      twins.Holds twinMembers (.ref 5) ∧ twins.className? (.ref 5) = some p.qualifiedName ∧
      (∃ r s', Program.callNamed ⟨[], fun r => r.toInt64⟩ 1 (copy p twinMembers) (.ref 5)
          [("tag", .ref 4)] twins = (.ok (.ref r), s') ∧
        Constructed twins s' r "a.ImmutableNode" [("grid", .ref 1), ("tag", .ref 4)]) ∧
      (∃ r s', Program.call ⟨[], fun r => r.toInt64⟩ 1 (clone p twinMembers) (.ref 5) [] twins =
          (.ok (.ref r), s') ∧
        Equates ⟨[], fun r => r.toInt64⟩ 1 p twinMembers s' (.ref 5) (.ref r)) ∧
      ∃ r s', Program.callNamed ⟨[], fun r => r.toInt64⟩ 1 (copy p twinMembers) (.ref 5)
          [("tag", .null)] twins = (.ok (.ref r), s') ∧
        ¬ Equates ⟨[], fun r => r.toInt64⟩ 1 p twinMembers s' (.ref 5) (.ref r) := by
  have ho := holds_twins (r := 5) (Or.inl rfl)
  obtain ⟨p, hplan, hname⟩ : ∃ p, Plan.ofTarget .empty (.ofCatalog .empty) .standard
      (.plain "a.Node" .interface) twinTarget = .ok p ∧ p.qualifiedName = "a.ImmutableNode" :=
    ⟨_, rfl, rfl⟩
  have hclass : twins.className? (.ref 5) = some p.qualifiedName := by
    rw [hname]
    rfl
  obtain ⟨hcopy, -, hdeclared⟩ :=
    clone_and_copy_construct ⟨[], fun r => r.toInt64⟩ 1 p twinMembers twins (.ref 5) ho hclass
  obtain ⟨hclone, hsingle⟩ := hdeclared (by decide)
  refine ⟨p, hplan, ho, hclass, hname ▸ hcopy [("tag", .ref 4)], ?_, ?_⟩
  · obtain ⟨r, s', hcall, hequal, -⟩ := hclone
    exact ⟨r, s', hcall, hequal⟩
  · obtain ⟨r, s', answer, hcall, hequals, -, hanswer⟩ :=
      hsingle _ (List.mem_cons_of_mem _ List.mem_cons_self) .null
    refine ⟨r, s', hcall, fun h => ?_⟩
    obtain rfl : answer = true := by simpa [Equates, hequals] using h
    have hnull : equal s' .structural (.ref 3) .null = true := (hanswer (by decide)).mp rfl
    simp [equal_null] at hnull

end Scaffold.Eval
