import Scaffold.Eval.Run
import Scaffold.Member
import Mathlib.Data.List.Basic

/-!
How bodies run. Code that only reads leaves the store as it is, so a run of it is told by the
value it gives. A row of statements stops at the first that returns.
-/
namespace Scaffold.Eval

variable {α β : Type}

theorem bind_ok {r : Run α} {f : α → Run β} {s s' : Store} {a : α} (h : r s = (.ok a, s')) :
    (r >>= f) s = f a s' := by
  simp only [Run.bind_apply, h]

theorem bind_error {r : Run α} {f : α → Run β} {s s' : Store} {e : Stuck}
    (h : r s = (.error e, s')) : (r >>= f) s = (.error e, s') := by
  simp only [Run.bind_apply, h]

theorem bind_ok_inv {r : Run α} {f : α → Run β} {s s' : Store} {b : β}
    (h : (r >>= f) s = (.ok b, s')) :
    ∃ a s₁, r s = (.ok a, s₁) ∧ f a s₁ = (.ok b, s') := by
  rw [Run.bind_apply] at h
  rcases hr : r s with ⟨_ | a, s₁⟩
  · simp [hr] at h
  · rw [hr] at h
    exact ⟨a, s₁, rfl, h⟩

theorem look_apply (f : Store → α) (s : Store) : Run.look f s = (.ok (f s), s) := rfl

/-- Whether both are objects, and of one class. -/
def Store.sameClass (s : Store) (a b : Value) : Bool :=
  match s.className? a, s.className? b with
  | some c, some d => c = d
  | _, _ => false

theorem Store.sameClass_null (s : Store) (a : Value) : s.sameClass a .null = false := by
  unfold sameClass
  cases s.className? a <;> rfl

theorem getField_apply {s : Store} {v x : Value} {name : String} (h : s.field? v name = some x) :
    getField v name s = (.ok x, s) := by
  unfold getField
  rw [bind_ok (look_apply _ s), h]
  rfl

section Expressions

variable {m : Machine} {f : Frame} {s : Store}

theorem eval_this (m : Machine) (f : Frame) (s : Store) : eval m f .this s = (.ok f.this, s) := rfl

theorem eval_null (m : Machine) (f : Frame) (s : Store) : eval m f .null s = (.ok .null, s) := rfl

theorem eval_bool (m : Machine) (f : Frame) (s : Store) (b : Bool) :
    eval m f (.bool b) s = (.ok (.bool b), s) := rfl

theorem eval_int (m : Machine) (f : Frame) (s : Store) (n : Int64) :
    eval m f (.int n) s = (.ok (.int n), s) := rfl

theorem eval_ident {name : String} {v : Value} (h : f.locals.lookup name = some v) :
    eval m f (.ident name) s = (.ok v, s) := by
  change Run.ofOption (.unboundName name) (f.locals.lookup name) s = _
  rw [h]
  rfl

theorem eval_field {receiver : Expr} {name : String} {v x : Value}
    (hv : eval m f receiver s = (.ok v, s)) (hx : s.field? v name = some x) :
    eval m f (.field receiver name) s = (.ok x, s) := by
  change (eval m f receiver >>= _) s = _
  rw [bind_ok hv]
  exact getField_apply hx

theorem field?_of_eval {receiver : Expr} {name : String} {v x : Value} {s' : Store}
    (hv : eval m f receiver s = (.ok v, s))
    (h : eval m f (.field receiver name) s = (.ok x, s')) :
    s.field? v name = some x ∧ s' = s := by
  change (eval m f receiver >>= _) s = _ at h
  rw [bind_ok hv, getField, bind_ok (look_apply _ s)] at h
  cases hx : s.field? v name with
  | none => simp [hx, Run.ofOption, Run.stuck] at h
  | some y =>
    simp only [hx, Run.ofOption, Run.pure_apply, Prod.mk.injEq, Except.ok.injEq] at h
    exact ⟨congrArg some h.1, h.2.symm⟩

theorem eval_thisField {name : String} {x : Value} (hx : s.field? f.this name = some x) :
    eval m f (.thisField name) s = (.ok x, s) :=
  eval_field (eval_this m f s) hx

theorem eval_cast {e : Expr} {type : Ty} {v : Value} (hv : eval m f e s = (.ok v, s)) :
    eval m f (.cast e type) s = (.ok v, s) := hv

theorem eval_not {e : Expr} {b : Bool} (hb : eval m f e s = (.ok (.bool b), s)) :
    eval m f (.not e) s = (.ok (.bool !b), s) := by
  change (eval m f e >>= _) s = _
  rw [bind_ok hb]
  rfl

theorem eval_hashOf {e : Expr} {v : Value} (mode : Comparison) (nullable : Bool)
    (hv : eval m f e s = (.ok v, s)) :
    eval m f (.hashOf e mode nullable) s = (.ok (.int (hash s m.identity mode v)), s) := by
  change (eval m f e >>= _) s = _
  rw [bind_ok hv]
  rfl

section Operands

variable {left right : Expr} {x y : Value} (hx : eval m f left s = (.ok x, s))
  (hy : eval m f right s = (.ok y, s))

include hx hy

theorem eval_equal (mode : Comparison) :
    eval m f (.equal left right mode) s = (.ok (.bool (equal s mode x y)), s) := by
  change (eval m f left >>= _) s = _
  rw [bind_ok hx, bind_ok hy]
  rfl

theorem eval_eq : eval m f (.binary left .eq right) s =
    (.ok (.bool (equal s .structural x y)), s) := by
  change (eval m f left >>= _) s = _
  rw [bind_ok hx, bind_ok hy]
  rfl

theorem eval_notEq : eval m f (.binary left .notEq right) s =
    (.ok (.bool !(equal s .structural x y)), s) := by
  change (eval m f left >>= _) s = _
  rw [bind_ok hx, bind_ok hy]
  rfl

theorem eval_refEq : eval m f (.binary left .refEq right) s = (.ok (.bool (x = y)), s) := by
  change (eval m f left >>= _) s = _
  rw [bind_ok hx, bind_ok hy]
  rfl

theorem eval_sameClass : eval m f (.sameClass left right) s =
    (.ok (.bool (s.sameClass x y)), s) := by
  change (eval m f left >>= _) s = _
  rw [bind_ok hx, bind_ok hy, look_apply, Store.sameClass]
  cases s.className? x <;> cases s.className? y <;> rfl

theorem eval_compare {n : Int64} (hn : compareValues? x y = some n) :
    eval m f (.compare left right) s = (.ok (.int n), s) := by
  change (eval m f left >>= _) s = _
  rw [bind_ok hx, bind_ok hy, hn]
  rfl

end Operands

theorem eval_callOn {receiver arg : Expr} {x y : Value} (method : String)
    (hx : eval m f receiver s = (.ok x, s)) (hy : eval m f arg s = (.ok y, s)) :
    eval m f (.call (some receiver) method [arg]) s = m.invoke x method [y] s := by
  have hargs : evalAll m f [arg] s = (.ok [y], s) := by
    change (eval m f arg >>= _) s = _
    rw [bind_ok hy]
    rfl
  change (eval m f receiver >>= _) s = _
  rw [bind_ok hx, bind_ok hargs]

/-- The right side of a disjunction is left alone if the left side holds. -/
theorem eval_or {left right : Expr} {b c : Bool} (hb : eval m f left s = (.ok (.bool b), s))
    (hc : b = false → eval m f right s = (.ok (.bool c), s)) :
    eval m f (.binary left .or right) s = (.ok (.bool (b || c)), s) := by
  change (eval m f left >>= _) s = _
  rw [bind_ok hb, bind_ok (show asBool (.bool b) s = (.ok b, s) from rfl)]
  cases b with
  | true => rfl
  | false =>
    rw [if_neg Bool.false_ne_true, bind_ok (hc rfl)]
    rfl

section Integers

variable {left right : Expr} {a b : Int64} (ha : eval m f left s = (.ok (.int a), s))
  (hb : eval m f right s = (.ok (.int b), s))

include ha hb

theorem eval_add : eval m f (.binary left .add right) s = (.ok (.int (a + b)), s) := by
  change (eval m f left >>= _) s = _
  rw [bind_ok ha, bind_ok (show asInt (.int a) s = (.ok a, s) from rfl), bind_ok hb]
  rfl

theorem eval_mul : eval m f (.binary left .mul right) s = (.ok (.int (a * b)), s) := by
  change (eval m f left >>= _) s = _
  rw [bind_ok ha, bind_ok (show asInt (.int a) s = (.ok a, s) from rfl), bind_ok hb]
  rfl

end Integers

theorem equal_null (s : Store) (v : Value) : equal s .structural v .null = decide (v = .null) := by
  cases v <;> simp [equal, equalWithin]

theorem eval_notNull {e : Expr} {v : Value} (hv : eval m f e s = (.ok v, s)) :
    eval m f (.binary e .notEq .null) s = (.ok (.bool (v ≠ .null)), s) := by
  rw [eval_notEq hv (eval_null m f s), equal_null, decide_not]

end Expressions

section Statements

variable {m : Machine} {f g : Frame} {s s' : Store} {value : Expr} {v : Value}

theorem execAll_of_next {st : Stmt} (rest : List Stmt)
    (h : exec m f st s = (.ok (none, g), s')) :
    execAll m f (st :: rest) s = execAll m g rest s' := by
  change (exec m f st >>= _) s = _
  rw [bind_ok h]

theorem execAll_of_return {st : Stmt} (rest : List Stmt)
    (h : exec m f st s = (.ok (some v, g), s')) :
    execAll m f (st :: rest) s = (.ok (some v, g), s') := by
  change (exec m f st >>= _) s = _
  rw [bind_ok h]
  rfl

theorem execAll_of_stuck {st : Stmt} {e : Stuck} (rest : List Stmt)
    (h : exec m f st s = (.error e, s')) : execAll m f (st :: rest) s = (.error e, s') := by
  change (exec m f st >>= _) s = _
  rw [bind_error h]

theorem execAll_single (st : Stmt) : execAll m f [st] s = exec m f st s := by
  change (exec m f st >>= _) s = _
  rw [Run.bind_apply]
  rcases exec m f st s with ⟨_ | ⟨_ | v, g⟩, s'⟩ <;> rfl

theorem exec_expr (hv : eval m f value s = (.ok v, s')) :
    exec m f (.expr value) s = (.ok (none, f), s') := by
  change (eval m f value >>= _) s = _
  rw [bind_ok hv]
  rfl

theorem exec_expr_of_stuck {e : Stuck} (hv : eval m f value s = (.error e, s')) :
    exec m f (.expr value) s = (.error e, s') := by
  change (eval m f value >>= _) s = _
  rw [bind_error hv]

theorem exec_comment (text : String) : exec m f (.comment text) s = (.ok (none, f), s) := rfl

theorem exec_ret (hv : eval m f value s = (.ok v, s')) :
    exec m f (.ret value) s = (.ok (some v, f), s') := by
  change (eval m f value >>= _) s = _
  rw [bind_ok hv]
  rfl

theorem exec_let {name : String} {isMutable : Bool} (hv : eval m f value s = (.ok v, s')) :
    exec m f (.let name isMutable value) s = (.ok (none, f.set name v), s') := by
  change (eval m f value >>= _) s = _
  rw [bind_ok hv]
  rfl

theorem exec_assignIdent {name : String} (hv : eval m f value s = (.ok v, s')) :
    exec m f (.assign (.ident name) value) s = (.ok (none, f.set name v), s') := by
  change (eval m f value >>= _) s = _
  rw [bind_ok hv]
  rfl

theorem exec_assignField {receiver : Expr} {r : Ref} {name className : String}
    (hv : eval m f value s = (.ok v, s)) (hr : eval m f receiver s = (.ok (.ref r), s))
    (hclass : s.className? (.ref r) = some className) :
    exec m f (.assign (.field receiver name) value) s =
      (.ok (none, f), s.assign r name v) := by
  have hset : setField (.ref r) name v s = (.ok (), s.assign r name v) := by
    unfold setField
    rw [bind_ok (look_apply _ s), hclass]
    rfl
  change (eval m f value >>= _) s = _
  rw [bind_ok hv]
  change (eval m f receiver >>= _) s = _
  rw [bind_ok hr, bind_ok hset]
  rfl

theorem exec_cond {condition : Expr} {b : Bool} (branch : List Stmt)
    (hb : eval m f condition s = (.ok (.bool b), s)) :
    exec m f (.cond condition branch none) s =
      if b then execAll m f branch s else (.ok (none, f), s) := by
  change (eval m f condition >>= _) s = _
  rw [bind_ok hb, bind_ok (show asBool (.bool b) s = (.ok b, s) from rfl)]
  cases b <;> rfl

/-- A guard with one return behind it either leaves with that value or is passed over. -/
theorem exec_guard {condition : Expr} {b : Bool}
    (hb : eval m f condition s = (.ok (.bool b), s)) (hv : eval m f value s = (.ok v, s)) :
    exec m f (.cond condition [.ret value] none) s =
      (.ok (if b then some v else none, f), s) := by
  rw [exec_cond _ hb]
  cases b with
  | false => rfl
  | true =>
    simp only [if_true]
    exact execAll_of_return [] (exec_ret hv)

end Statements

theorem runBody_of_return {m : Machine} {f g : Frame} {body : List Stmt} {v : Value}
    {s s' : Store} (h : execAll m f body s = (.ok (some v, g), s')) :
    runBody m f body s = (.ok v, s') := by
  unfold runBody
  rw [bind_ok h]
  rfl

theorem call_of_return {p : Program} {depth : Nat} {method : Method} {this v : Value}
    {args : List Value} {g : Frame} {s s' : Store}
    (h : execAll (p.machine depth) (Program.bindArgs this method.params args) method.body s =
      (.ok (some v, g), s')) :
    p.call depth method this args s = (.ok v, s') :=
  runBody_of_return h

theorem call_of_stuck {p : Program} {depth : Nat} {method : Method} {this : Value}
    {args : List Value} {e : Stuck} {s s' : Store}
    (h : execAll (p.machine depth) (Program.bindArgs this method.params args) method.body s =
      (.error e, s')) :
    p.call depth method this args s = (.error e, s') := by
  unfold Program.call runBody
  rw [bind_error h]

/-- Only objects have methods. -/
theorem invoke_of_not_object {p : Program} {s : Store} {x : Value} (depth : Nat) (name : String)
    (args : List Value) (h : s.className? x = none) :
    p.invoke (depth + 1) x name args s = (.error .notObject, s) := by
  unfold Program.invoke
  rw [bind_ok (look_apply _ s), h]
  rfl

namespace Store

/-- An object with a value for every member. -/
structure Holds (s : Store) (members : List Member) (v : Value) : Prop where
  isObject : ∃ className, s.className? v = some className
  hasValue : ∀ m ∈ members, ∃ x, s.field? v m.name = some x

/-- The value an object has for a member. -/
def valueOf (s : Store) (v : Value) (m : Member) : Value := (s.field? v m.name).getD .null

theorem field?_eq_valueOf {s : Store} {v x : Value} {m : Member}
    (h : s.field? v m.name = some x) : s.field? v m.name = some (s.valueOf v m) := by
  simp [valueOf, h]

theorem Holds.field?_eq {s : Store} {members : List Member} {v : Value} {m : Member}
    (h : s.Holds members v) (hm : m ∈ members) : s.field? v m.name = some (s.valueOf v m) := by
  obtain ⟨x, hx⟩ := h.hasValue m hm
  exact field?_eq_valueOf hx

theorem Holds.eq_ref {s : Store} {members : List Member} {v : Value} (h : s.Holds members v) :
    ∃ r, v = .ref r := by
  obtain ⟨className, hclass⟩ := h.isObject
  cases v with
  | null | bool | int | str => simp [className?] at hclass
  | ref r => exact ⟨r, rfl⟩

theorem Holds.tail {s : Store} {members : List Member} {v : Value} {m : Member}
    (h : s.Holds (m :: members) v) : s.Holds members v :=
  ⟨h.isObject, fun m' hm' => h.hasValue m' (List.mem_cons_of_mem m hm')⟩

end Store

end Scaffold.Eval
