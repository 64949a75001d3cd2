import Scaffold.Proofs.Running

/-!
What code reads and writes. An expression is read in a scope: the names of the parameters and of
all lets before it, where those of a branch are not visible behind the branch. A row of
statements returns if no path through it gets to its end; such a row always gives a value when
it is run.
-/
namespace Scaffold

namespace Expr

mutual

/-- The expression and all expressions inside of it. -/
@[simp] def parts : Expr → List Expr
  | .this => [.this]
  | .null => [.null]
  | .bool value => [.bool value]
  | .int value => [.int value]
  | .str value => [.str value]
  | .literal source => [.literal source]
  | .ident name => [.ident name]
  | .field receiver name => .field receiver name :: parts receiver
  | .call none method args => .call none method args :: partsAll args
  | .call (some receiver) method args =>
    .call (some receiver) method args :: (parts receiver ++ partsAll args)
  | .construct className args => .construct className args :: partsOfArgs args
  | .binary left op right => .binary left op right :: (parts left ++ parts right)
  | .not operand => .not operand :: parts operand
  | .cast value type => .cast value type :: parts value
  | .sameClass left right => .sameClass left right :: (parts left ++ parts right)
  | .equal left right comparison => .equal left right comparison :: (parts left ++ parts right)
  | .hashOf value comparison nullable => .hashOf value comparison nullable :: parts value
  | .compare left right => .compare left right :: (parts left ++ parts right)
  | .concat items => .concat items :: partsAll items

@[simp] def partsAll : List Expr → List Expr
  | [] => []
  | e :: rest => parts e ++ partsAll rest

@[simp] def partsOfArgs : List (String × Expr) → List Expr
  | [] => []
  | (_, e) :: rest => parts e ++ partsOfArgs rest

end

theorem partsAll_eq (items : List Expr) : partsAll items = items.flatMap parts := by
  induction items with
  | nil => rfl
  | cons e rest ih => rw [partsAll, ih, List.flatMap_cons]

theorem partsOfArgs_eq (args : List (String × Expr)) :
    partsOfArgs args = args.flatMap fun a => a.2.parts := by
  induction args with
  | nil => rfl
  | cons a rest ih => rw [partsOfArgs, ih, List.flatMap_cons]

/-- All parts of an expression, with the scope in which they are read. -/
@[simp] def readIn (scope : List String) (e : Expr) : List (List String × Expr) :=
  e.parts.map fun part => (scope, part)

end Expr

namespace Stmt

/-- The names that are in scope behind a statement and were not in front of it. -/
@[simp] def binds : Stmt → List String
  | .let name _ _ => [name]
  | _ => []

mutual

/-- All expressions that are read by a statement, with their scopes. An assignment to a field
reads the receiver; a name that is assigned to is not read. -/
@[simp] def reads (scope : List String) : Stmt → List (List String × Expr)
  | .let _ _ value => value.readIn scope
  | .assign (.field receiver _) value => value.readIn scope ++ receiver.readIn scope
  | .assign _ value => value.readIn scope
  | .cond condition thenBranch none => condition.readIn scope ++ readsAll scope thenBranch
  | .cond condition thenBranch (some elseBranch) =>
    condition.readIn scope ++ readsAll scope thenBranch ++ readsAll scope elseBranch
  | .ret value => value.readIn scope
  | .expr e => e.readIn scope
  | .comment _ => []

@[simp] def readsAll (scope : List String) : List Stmt → List (List String × Expr)
  | [] => []
  | s :: rest => reads scope s ++ readsAll (s.binds ++ scope) rest

end

mutual

/-- The targets of all assignments, with their scopes. -/
@[simp] def writes (scope : List String) : Stmt → List (List String × Expr)
  | .assign target _ => [(scope, target)]
  | .cond _ thenBranch none => writesAll scope thenBranch
  | .cond _ thenBranch (some elseBranch) => writesAll scope thenBranch ++ writesAll scope elseBranch
  | _ => []

@[simp] def writesAll (scope : List String) : List Stmt → List (List String × Expr)
  | [] => []
  | s :: rest => writes scope s ++ writesAll (s.binds ++ scope) rest

end

section Rows

variable {scope : List String} {steps rest : List Stmt} (h : ∀ s ∈ steps, s.binds = [])

include h

/-- Statements that bind nothing are read in the scope that is there before them. -/
theorem readsAll_append :
    readsAll scope (steps ++ rest) = steps.flatMap (reads scope) ++ readsAll scope rest := by
  induction steps with
  | nil => rfl
  | cons s steps ih =>
    rw [List.forall_mem_cons] at h
    rw [List.cons_append, readsAll, h.1, List.nil_append, ih h.2, List.flatMap_cons,
      List.append_assoc]

theorem writesAll_append :
    writesAll scope (steps ++ rest) = steps.flatMap (writes scope) ++ writesAll scope rest := by
  induction steps with
  | nil => rfl
  | cons s steps ih =>
    rw [List.forall_mem_cons] at h
    rw [List.cons_append, writesAll, h.1, List.nil_append, ih h.2, List.flatMap_cons,
      List.append_assoc]

end Rows

/-- Every path through the statements meets a return. -/
inductive Returns : List Stmt → Prop
  | ret {value : Expr} {rest : List Stmt} : Returns (.ret value :: rest)
  | cond {condition : Expr} {thenBranch elseBranch rest : List Stmt} (hthen : Returns thenBranch)
      (helse : Returns elseBranch) : Returns (.cond condition thenBranch (some elseBranch) :: rest)
  | later {s : Stmt} {rest : List Stmt} (h : Returns rest) : Returns (s :: rest)

theorem Returns.append {rest : List Stmt} (h : Returns rest) (steps : List Stmt) :
    Returns (steps ++ rest) := by
  induction steps with
  | nil => exact h
  | cons s steps ih => exact .later ih

end Stmt

namespace Eval

/-- Statements that return are never run to their end. -/
theorem isSome_of_execAll {m : Machine} {body : List Stmt} (hreturns : Stmt.Returns body)
    {f g : Frame} {s s' : Store} {v : Option Value}
    (h : execAll m f body s = (.ok (v, g), s')) : v.isSome = true := by
  induction hreturns generalizing f g s s' v with
  | ret =>
    obtain ⟨⟨w, f'⟩, s₁, hret, hrest⟩ := bind_ok_inv h
    obtain ⟨x, s₂, -, hpure⟩ := bind_ok_inv hret
    obtain ⟨hw, rfl⟩ := Prod.mk.inj hpure
    obtain ⟨rfl, rfl⟩ := Prod.mk.inj (Except.ok.inj hw)
    obtain ⟨hv, -⟩ := Prod.mk.inj hrest
    obtain ⟨rfl, -⟩ := Prod.mk.inj (Except.ok.inj hv)
    rfl
  | cond hthen helse ihthen ihelse =>
    obtain ⟨⟨w, f'⟩, s₁, hcond, hrest⟩ := bind_ok_inv h
    obtain ⟨x, s₂, -, hbranch⟩ := bind_ok_inv hcond
    obtain ⟨b, s₃, -, hbranch⟩ := bind_ok_inv hbranch
    have hw : w.isSome = true := by
      cases b with
      | true => exact ihthen hbranch
      | false => exact ihelse hbranch
    obtain ⟨y, rfl⟩ := Option.isSome_iff_exists.mp hw
    obtain ⟨hv, -⟩ := Prod.mk.inj hrest
    obtain ⟨rfl, -⟩ := Prod.mk.inj (Except.ok.inj hv)
    rfl
  | later _ ih =>
    obtain ⟨⟨w, f'⟩, s₁, -, hrest⟩ := bind_ok_inv h
    cases w with
    | none => exact ih hrest
    | some y =>
      obtain ⟨hv, -⟩ := Prod.mk.inj hrest
      obtain ⟨rfl, -⟩ := Prod.mk.inj (Except.ok.inj hv)
      rfl

end Eval

end Scaffold
