import Scaffold.Body.Equality
import Scaffold.Proofs.Hashing
import Scaffold.Proofs.Running

/-!
What the generated equals and hashCode compute. Equality holds of one object with itself and of
two objects of one class that agree member by member; the hash is a polynomial in the hashes of
the members. A plan is made only if it hashes arrays at least as deep as it compares them, so
equal objects have one hash.
-/
namespace Scaffold.Eval

open Body

/-- Whether two objects agree on a member, arrays being compared by the mode of the plan. -/
def agree (s : Store) (p : Plan) (a b : Value) (m : Member) : Bool :=
  equal s (Comparison.ofType m.type p.equalsArrays) (s.valueOf a m) (s.valueOf b m)

/-- The hash of an object's value for a member, arrays being hashed by the mode of the plan. -/
def memberHash (s : Store) (identity : Ref → Int64) (p : Plan) (v : Value) (m : Member) : Int64 :=
  hash s identity (Comparison.ofType m.type p.hashArrays) (s.valueOf v m)

/-- The polynomial in the hashes of the members, thirty-one being the factor of each step. -/
def hashOfMembers (s : Store) (identity : Ref → Int64) (p : Plan) (v : Value)
    (members : List Member) (start : Int64) : Int64 :=
  members.foldl (fun h m => 31 * h + memberHash s identity p v m) start

section Equals

variable {m : Machine} {s : Store} {p : Plan} {members : List Member} {a b : Value}

private theorem exec_unequalGuard {f : Frame} {member : Member} (hthis : f.this = a)
    (hthat : f.locals.lookup that = some b)
    (ha : s.field? a member.name = some (s.valueOf a member))
    (hb : s.field? b member.name = some (s.valueOf b member)) :
    exec m f (unequalGuard p member) s =
      (.ok (if agree s p a b member then none else some (.bool false), f), s) := by
  have hleft : eval m f (.thisField member.name) s = (.ok (s.valueOf a member), s) :=
    eval_thisField (by rwa [hthis])
  have hright : eval m f (.field (.ident that) member.name) s =
      (.ok (s.valueOf b member), s) :=
    eval_field (eval_ident hthat) hb
  have hequal : eval m f (.equal (.thisField member.name) (.field (.ident that) member.name)
      (Comparison.ofType member.type p.equalsArrays)) s =
      (.ok (.bool (agree s p a b member)), s) := eval_equal hleft hright _
  have hguard := exec_guard (eval_not hequal) (eval_bool m f s false)
  cases h : agree s p a b member <;> simpa [unequalGuard, retBool, h] using hguard

/-- A guard that does not get stuck has found the member on both sides. -/
private theorem field?_of_unequalGuard {f : Frame} {member : Member} {s' : Store}
    {x : Option Value × Frame} (hthis : f.this = a) (hthat : f.locals.lookup that = some b)
    (h : exec m f (unequalGuard p member) s = (.ok x, s')) :
    s.field? a member.name = some (s.valueOf a member) ∧
      s.field? b member.name = some (s.valueOf b member) := by
  change (eval m f (.not _) >>= _) s = _ at h
  obtain ⟨_, _, hnot, -⟩ := bind_ok_inv h
  change (eval m f (.equal _ _ _) >>= _) s = _ at hnot
  obtain ⟨_, _, hequal, -⟩ := bind_ok_inv hnot
  change (eval m f (.thisField member.name) >>= _) s = _ at hequal
  obtain ⟨u, s₁, hleft, hrest⟩ := bind_ok_inv hequal
  obtain ⟨v, s₂, hright, -⟩ := bind_ok_inv hrest
  obtain ⟨ha, rfl⟩ := field?_of_eval (eval_this m f s) hleft
  obtain ⟨hb, rfl⟩ := field?_of_eval (eval_ident hthat) hright
  rw [hthis] at ha
  exact ⟨Store.field?_eq_valueOf ha, Store.field?_eq_valueOf hb⟩

private theorem execAll_guards {f : Frame} (hthis : f.this = a)
    (hthat : f.locals.lookup that = some b) (ha : s.Holds members a) (hb : s.Holds members b)
    (rest : List Stmt) :
    execAll m f (members.map (unequalGuard p) ++ rest) s =
      if members.all (agree s p a b) then execAll m f rest s
      else (.ok (some (.bool false), f), s) := by
  induction members with
  | nil => rfl
  | cons member members ih =>
    have hguard := exec_unequalGuard (m := m) (p := p) hthis hthat
      (ha.field?_eq List.mem_cons_self) (hb.field?_eq List.mem_cons_self)
    rw [List.map_cons, List.cons_append, List.all_cons]
    cases h : agree s p a b member with
    | true =>
      simp only [h, if_true] at hguard
      rw [execAll_of_next _ hguard, ih ha.tail hb.tail, Bool.true_and]
    | false =>
      simp only [h, Bool.false_eq_true, if_false] at hguard
      rw [execAll_of_return _ hguard]
      rfl

/-- The guards let a run through only if the objects agree on every member. -/
private theorem agree_of_guards {f g : Frame} {s' : Store} {rest : List Stmt}
    (hthis : f.this = a) (hthat : f.locals.lookup that = some b)
    (h : execAll m f (members.map (unequalGuard p) ++ rest) s =
      (.ok (some (.bool true), g), s')) :
    members.all (agree s p a b) = true := by
  induction members with
  | nil => rfl
  | cons member members ih =>
    rw [List.map_cons, List.cons_append] at h
    obtain ⟨x, s₁, hstep, -⟩ := bind_ok_inv
      (show (exec m f (unequalGuard p member) >>= _) s = _ from h)
    obtain ⟨ha, hb⟩ := field?_of_unequalGuard hthis hthat hstep
    have hguard := exec_unequalGuard (m := m) (p := p) hthis hthat ha hb
    rw [List.all_cons]
    cases hagree : agree s p a b member with
    | true =>
      simp only [hagree, if_true] at hguard
      rw [execAll_of_next _ hguard] at h
      rw [ih h, Bool.true_and]
    | false =>
      simp only [hagree, Bool.false_eq_true, if_false] at hguard
      rw [execAll_of_return _ hguard] at h
      simp at h

private theorem eval_sameObject {f : Frame} (hthis : f.this = a)
    (hother : f.locals.lookup other = some b) :
    eval m f (.binary .this .refEq (.ident other)) s = (.ok (.bool (a = b)), s) := by
  rw [eval_refEq (eval_this m f s) (eval_ident hother), hthis]

/-- Null is of no class, so the second guard is decided by the classes alone. -/
private theorem eval_otherClass {f : Frame} (hthis : f.this = a)
    (hother : f.locals.lookup other = some b) :
    eval m f (.binary (.binary (.ident other) .eq .null) .or
      (.not (.sameClass .this (.ident other)))) s = (.ok (.bool !(s.sameClass a b)), s) := by
  have hnull : eval m f (.binary (.ident other) .eq .null) s = (.ok (.bool (b = .null)), s) := by
    rw [eval_eq (eval_ident hother) (eval_null m f s), equal_null]
  have hclass : eval m f (.sameClass .this (.ident other)) s =
      (.ok (.bool (s.sameClass a b)), s) := by
    rw [eval_sameClass (eval_this m f s) (eval_ident hother), hthis]
  have hsame : (decide (b = .null) || !(s.sameClass a b)) = !(s.sameClass a b) := by
    by_cases hb : b = .null
    · rw [hb, Store.sameClass_null]
      rfl
    · rw [decide_eq_false hb, Bool.false_or]
  rw [eval_or hnull fun _ => eval_not hclass, hsame]

/-- The two guards at the head leave what differs from the object in class, and the members are
left to decide. -/
private theorem execAll_equalsBody {f : Frame} (hthis : f.this = a)
    (hother : f.locals.lookup other = some b) :
    execAll m f (equalsBody p members) s =
      if a = b then (.ok (some (.bool true), f), s)
      else if s.sameClass a b then
        execAll m (f.set that b) (members.map (unequalGuard p) ++ [retBool true]) s
      else (.ok (some (.bool false), f), s) := by
  have hsame := exec_guard (eval_sameObject hthis hother) (eval_bool m f s true)
  have hclass := exec_guard (eval_otherClass hthis hother) (eval_bool m f s false)
  by_cases hab : a = b
  · simp only [hab, decide_true, if_true] at hsame ⊢
    exact execAll_of_return _ hsame
  simp only [hab, decide_false, Bool.false_eq_true, if_false] at hsame
  rw [if_neg hab]
  cases hc : s.sameClass a b with
  | true =>
    have hcast : eval m f (.cast (.ident other) p.type) s = (.ok b, s) :=
      eval_cast (eval_ident hother)
    simp only [hc, Bool.not_true, Bool.false_eq_true, if_false] at hclass
    exact (execAll_of_next _ hsame).trans ((execAll_of_next _ hclass).trans
      (execAll_of_next _ (exec_let hcast)))
  | false =>
    simp only [hc, Bool.not_false, if_true] at hclass
    exact (execAll_of_next _ hsame).trans (execAll_of_return _ hclass)

/-- The generated equals, run on two objects that have all members. -/
theorem call_equals (program : Program) (depth : Nat) (ha : s.Holds members a)
    (hb : s.Holds members b) :
    program.call depth (equals p members) a [b] s =
      (.ok (.bool (a = b || (s.className? a = s.className? b && members.all (agree s p a b)))),
        s) := by
  obtain ⟨c, hc⟩ := ha.isObject
  obtain ⟨d, hd⟩ := hb.isObject
  have hbody : execAll (program.machine depth) ⟨a, [(other, b)]⟩ (equalsBody p members) s = _ :=
    execAll_equalsBody rfl List.lookup_cons_self
  by_cases hab : a = b
  · rw [if_pos hab] at hbody
    simp only [hab, decide_true, Bool.true_or] at hbody ⊢
    exact call_of_return hbody
  rw [if_neg hab] at hbody
  simp only [hab, hc, hd, decide_false, Bool.false_or, Option.some.injEq]
  simp only [Store.sameClass, hc, hd, decide_eq_true_eq] at hbody
  by_cases hcd : c = d
  · let g : Frame := Frame.set ⟨a, [(other, b)]⟩ that b
    have hguards := execAll_guards (m := program.machine depth) (p := p) (a := a) (f := g) rfl
      List.lookup_cons_self ha hb [retBool true]
    have hret : exec (program.machine depth) g (retBool true) s =
        (.ok (some (.bool true), g), s) := exec_ret (eval_bool _ g s true)
    rw [if_pos hcd] at hbody
    rw [decide_eq_true hcd, Bool.true_and]
    refine call_of_return (g := g) (hbody.trans (hguards.trans ?_))
    cases members.all (agree s p a b) with
    | true => exact execAll_of_return [] hret
    | false => rfl
  · rw [if_neg hcd] at hbody
    rw [decide_eq_false hcd, Bool.false_and]
    exact call_of_return hbody

/-- Nothing of another class is equal, and nothing that is no object. -/
theorem call_equals_of_otherClass (program : Program) (depth : Nat) (hab : a ≠ b)
    (hclass : s.sameClass a b = false) :
    program.call depth (equals p members) a [b] s = (.ok (.bool false), s) := by
  have hbody : execAll (program.machine depth) ⟨a, [(other, b)]⟩ (equalsBody p members) s = _ :=
    execAll_equalsBody rfl List.lookup_cons_self
  rw [if_neg hab, if_neg (by simp [hclass])] at hbody
  exact call_of_return hbody

/-- What the generated equals takes for equal agrees on every member, whatever the two are. -/
theorem agree_of_call_equals (program : Program) (depth : Nat)
    (h : (program.call depth (equals p members) a [b] s).1 = .ok (.bool true)) :
    a = b ∨ members.all (agree s p a b) = true := by
  obtain ⟨⟨v, f⟩, s', hrun, hvalue⟩ := bind_ok_inv (Prod.ext h rfl)
  have hv : v = some (.bool true) := by
    simp only [Run.pure_apply, Prod.mk.injEq, Except.ok.injEq] at hvalue
    cases v with
    | none => simp at hvalue
    | some v => rw [← hvalue.1]; rfl
  have hbody : execAll (program.machine depth) ⟨a, [(other, b)]⟩ (equalsBody p members) s = _ :=
    execAll_equalsBody rfl List.lookup_cons_self
  rw [hv] at hrun
  by_cases hab : a = b
  · exact Or.inl hab
  rw [if_neg hab] at hbody
  cases hc : s.sameClass a b with
  | true =>
    rw [if_pos hc] at hbody
    exact Or.inr (agree_of_guards rfl List.lookup_cons_self (hbody.symm.trans hrun))
  | false =>
    rw [if_neg (by simp [hc])] at hbody
    have hfalse := hbody.symm.trans hrun
    simp at hfalse

end Equals

section HashCode

variable {m : Machine} {s : Store} {p : Plan} {members : List Member} {v : Value} {h : Int64}

private theorem exec_hashStep {f : Frame} {member : Member} (hthis : f.this = v)
    (hresult : f.locals.lookup result = some (.int h)) (hv : s.Holds members v)
    (hm : member ∈ members) :
    exec m f (hashStep p member) s =
      (.ok (none, f.set result (.int (31 * h + memberHash s m.identity p v member))), s) := by
  have hmul : eval m f (.binary (.int 31) .mul (.ident result)) s = (.ok (.int (31 * h)), s) :=
    eval_mul (eval_int m f s 31) (eval_ident hresult)
  have hfield : eval m f (.thisField member.name) s = (.ok (s.valueOf v member), s) :=
    eval_thisField (by rw [hthis]; exact hv.field?_eq hm)
  have hhash : eval m f (.hashOf (.thisField member.name)
      (Comparison.ofType member.type p.hashArrays) member.type.isNullable) s =
      (.ok (.int (memberHash s m.identity p v member)), s) := eval_hashOf _ _ hfield
  exact exec_assignIdent (eval_add hmul hhash)

private theorem execAll_hashSteps {f : Frame} (hthis : f.this = v)
    (hresult : f.locals.lookup result = some (.int h)) (hv : s.Holds members v) :
    ∃ g, execAll m f (members.map (hashStep p) ++ [.ret (.ident result)]) s =
      (.ok (some (.int (hashOfMembers s m.identity p v members h)), g), s) := by
  induction members generalizing f h with
  | nil => exact ⟨f, execAll_of_return [] (exec_ret (eval_ident hresult))⟩
  | cons member members ih =>
    have hstep := exec_hashStep (m := m) (p := p) hthis hresult hv List.mem_cons_self
    obtain ⟨g, hrest⟩ := ih (f := f.set result _) hthis List.lookup_cons_self hv.tail
    exact ⟨g, (execAll_of_next _ hstep).trans hrest⟩

/-- The generated hashCode, run on an object that has all members. -/
theorem call_hashCode (program : Program) (depth : Nat) (hv : s.Holds members v) :
    program.call depth (hashCode p members) v [] s =
      (.ok (.int (hashOfMembers s program.identity p v members 0)), s) := by
  have hzero := eval_int (program.machine depth) ⟨v, []⟩ s 0
  cases members with
  | nil => exact call_of_return (execAll_of_return [] (exec_ret hzero))
  | cons member members =>
    have hlet : exec (program.machine depth) ⟨v, []⟩ (.let result true (.int 0)) s =
        (.ok (none, Frame.set ⟨v, []⟩ result (.int 0)), s) := exec_let hzero
    obtain ⟨g, hsteps⟩ := execAll_hashSteps (m := program.machine depth) (p := p)
      (f := Frame.set ⟨v, []⟩ result (.int 0)) rfl List.lookup_cons_self hv
    exact call_of_return ((execAll_of_next _ hlet).trans hsteps)

end HashCode

theorem hashOfMembers_eq_of_agree {s : Store} (identity : Ref → Int64) {p : Plan}
    (hp : p.equalsArrays.rank ≤ p.hashArrays.rank) {a b : Value} {members : List Member}
    (h : members.all (agree s p a b) = true) :
    hashOfMembers s identity p a members 0 = hashOfMembers s identity p b members 0 := by
  unfold hashOfMembers
  apply List.foldl_ext
  intro total m hm
  have hagree : agree s p a b m = true := List.all_eq_true.mp h m hm
  have hmember : memberHash s identity p a m = memberHash s identity p b m :=
    hash_eq_of_equal identity (Comparison.reach_ofType_mono hp m.type) hagree
  rw [hmember]

/-- A target is refused if it hashes arrays less deep than it compares them. -/
theorem rank_le_of_ofTarget {c : Catalog} {k : Capabilities} {settings : Settings} {model : Decl}
    {target : Target} {p : Plan} (h : Plan.ofTarget c k settings model target = .ok p)
    (hequals : p.equals = true) (hhash : p.hashCode = true) :
    p.equalsArrays.rank ≤ p.hashArrays.rank := by
  unfold Plan.ofTarget at h
  cases hnames : c.enclosingNames model.name (c.size + 1) "" model with
  | error e => simp [hnames, bind, Except.bind] at h
  | ok enclosing =>
    by_cases hranks : target.equals ∧ target.hashCode ∧
        target.hashArrays.rank < target.equalsArrays.rank
    · simp [hnames, hranks, bind, Except.bind, throw, throwThe, MonadExceptOf.throw] at h
    · simp only [hnames, hranks, bind, Except.bind, pure, Except.pure, if_false] at h
      obtain rfl := Except.ok.inj h
      by_contra hlt
      exact hranks ⟨hequals, hhash, Nat.lt_of_not_le hlt⟩

/-- Objects that the generated equals takes for equal have one hash code, whatever the arrays'
identity hashes are. Nothing is asked of the shape of the values. -/
theorem hashCode_eq_of_equals {c : Catalog} {k : Capabilities} {settings : Settings}
    {model : Decl} {target : Target} {p : Plan}
    (hplan : Plan.ofTarget c k settings model target = .ok p)
    (hequals : p.equals = true) (hhash : p.hashCode = true) (members : List Member)
    (program : Program) (depth : Nat) (s : Store) (a b : Value)
    (ha : s.Holds members a) (hb : s.Holds members b)
    (htrue : (program.call depth (equals p members) a [b] s).1 = .ok (.bool true)) :
    ∃ h : Int64, program.call depth (hashCode p members) a [] s = (.ok (.int h), s) ∧
      program.call depth (hashCode p members) b [] s = (.ok (.int h), s) := by
  have hranks := rank_le_of_ofTarget hplan hequals hhash
  refine ⟨hashOfMembers s program.identity p a members 0, call_hashCode program depth ha, ?_⟩
  rw [call_equals program depth ha hb] at htrue
  simp only [Except.ok.injEq, Value.bool.injEq, Bool.or_eq_true, decide_eq_true_eq,
    Bool.and_eq_true] at htrue
  rcases htrue with rfl | ⟨-, hall⟩
  · exact call_hashCode program depth ha
  · rw [hashOfMembers_eq_of_agree program.identity hranks hall]
    exact call_hashCode program depth hb

/-- Two objects with arrays of one nested array and with objects of equal text. -/
def twins : Store :=
  ⟨[.array [.int 1, .null], .array [.ref 0, .str "x"], .array [.ref 0, .str "x"],
    .object "a.Tag" [("text", .str "t")], .object "a.Tag" [("text", .str "t")],
    .object "a.ImmutableNode" [("grid", .ref 1), ("tag", .ref 3)],
    .object "a.ImmutableNode" [("grid", .ref 2), ("tag", .ref 4)]]⟩

def twinMembers : List Member :=
  [⟨.ofProperty "a.Node" (.plain "grid" (.array (.array (.scalar .int)))),
      .array (.array (.scalar .int)), true⟩,
    ⟨.ofProperty "a.Node" (.plain "tag" (.named "a.Tag" [])), .named "a.Tag" [], true⟩]

/-- Arrays are compared one level deep and hashed in full. -/
def twinTarget : Target := { Target.ofKind .immutable with hashArrays := .deep }

theorem holds_twins {r : Ref} (hr : r = 5 ∨ r = 6) : twins.Holds twinMembers (.ref r) := by
  rcases hr with rfl | rfl
  all_goals
    refine ⟨⟨_, rfl⟩, ?_⟩
    simp only [twinMembers, List.forall_mem_cons]
    exact ⟨⟨_, rfl⟩, ⟨_, rfl⟩, nofun⟩

theorem hashCode_eq_of_equals_twins :
    ∃ p : Plan,
      Plan.ofTarget .empty (.ofCatalog .empty) .standard (.plain "a.Node" .interface)
        twinTarget = .ok p ∧
      p.equals = true ∧ p.hashCode = true ∧
      twins.Holds twinMembers (.ref 5) ∧ twins.Holds twinMembers (.ref 6) ∧
      (Program.call ⟨[], fun r => r.toInt64⟩ 1 (equals p twinMembers) (.ref 5) [.ref 6] twins).1 =
        .ok (.bool true) ∧
      ∃ h : Int64,
        Program.call ⟨[], fun r => r.toInt64⟩ 1 (hashCode p twinMembers) (.ref 5) [] twins =
          (.ok (.int h), twins) ∧
        Program.call ⟨[], fun r => r.toInt64⟩ 1 (hashCode p twinMembers) (.ref 6) [] twins =
          (.ok (.int h), twins) := by
  have ha := holds_twins (r := 5) (Or.inl rfl)
  have hb := holds_twins (r := 6) (Or.inr rfl)
  have hplan : Plan.ofTarget .empty (.ofCatalog .empty) .standard (.plain "a.Node" .interface)
      twinTarget = .ok _ := rfl
  exact ⟨_, hplan, rfl, rfl, ha, hb, rfl,
    hashCode_eq_of_equals hplan rfl rfl twinMembers _ 1 twins _ _ ha hb rfl⟩

end Scaffold.Eval
