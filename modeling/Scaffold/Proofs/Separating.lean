import Scaffold.Code.Written
import Scaffold.Proofs.Values

/-!
Written code is told apart. Types, expressions and statements are written with the name of their
form, and two of one form are told apart by their fields; so are the parts of a class. Although
what is empty, absent or off is left out, two class descriptions that are one value are one
description.
-/
namespace Scaffold

open Scaffold.Tree (Same Separates tableOf someList rows_of_someList eq_of_same_tagged)

theorem Scalar.separates : Separates Scalar.toTree := by
  intro a b h
  cases a <;> cases b <;> simp_all [toTree]

namespace Ty

/-- The name of the form in which a type is written. -/
def formName : Ty → String
  | .scalar _ => "primitive"
  | .named _ _ => "named"
  | .array _ => "array"
  | .nullable _ => "nullable"
  | .param _ => "param"

theorem toTrees_eq_map (ts : List Ty) : toTrees ts = ts.map toTree := by
  induction ts with
  | nil => rfl
  | cons t ts ih => rw [toTrees, ih, List.map_cons]

theorem toTree_named (name : String) (args : List Ty) : (named name args).toTree =
    tableOf [("kind", some (.text "named")), ("name", some (.text name)),
      ("args", someList toTree args)] := by
  cases args with
  | nil => rfl
  | cons t ts =>
    rw [toTree, toTrees_eq_map]
    · rfl
    · exact List.cons_ne_nil t ts

theorem formName_eq_of_same {t u : Ty} (h : Same t.toTree u.toTree) : t.formName = u.formName := by
  have hform : ∀ t : Ty, ∃ es, t.toTree = .table (("kind", .text t.formName) :: es) := by
    intro t
    cases t with
    | named name args => exact ⟨_, toTree_named name args⟩
    | _ => exact ⟨_, rfl⟩
  obtain ⟨es, hes⟩ := hform t
  obtain ⟨fs, hfs⟩ := hform u
  rw [hes, hfs] at h
  exact eq_of_same_tagged h

mutual

theorem eq_of_same : ∀ t u : Ty, Same t.toTree u.toTree → t = u
  | .scalar s, u, h => by
    cases u with
    | scalar s' =>
      have hs : Same s.toTree s'.toTree := by simpa [toTree] using h
      rw [Scalar.separates _ _ hs]
    | _ => exact absurd (formName_eq_of_same h) (by simp [formName])
  | .named name args, u, h => by
    cases u with
    | named name' args' =>
      have hfields : name = name' ∧
          Option.Rel Same (someList toTree args) (someList toTree args') := by
        simpa [toTree_named] using h
      have hargs := rows_of_someList hfields.2
      rw [← toTrees_eq_map, ← toTrees_eq_map] at hargs
      rw [hfields.1, eq_of_sameAll args args' hargs]
    | _ => exact absurd (formName_eq_of_same h) (by simp [formName])
  | .array element, u, h => by
    cases u with
    | array element' =>
      have helement : Same element.toTree element'.toTree := by simpa [toTree] using h
      rw [eq_of_same _ _ helement]
    | _ => exact absurd (formName_eq_of_same h) (by simp [formName])
  | .nullable inner, u, h => by
    cases u with
    | nullable inner' =>
      have hinner : Same inner.toTree inner'.toTree := by simpa [toTree] using h
      rw [eq_of_same _ _ hinner]
    | _ => exact absurd (formName_eq_of_same h) (by simp [formName])
  | .param name, u, h => by
    cases u with
    | param name' =>
      have hname : name = name' := by simpa [toTree] using h
      rw [hname]
    | _ => exact absurd (formName_eq_of_same h) (by simp [formName])

theorem eq_of_sameAll : ∀ ts us : List Ty, List.Forall₂ Same (toTrees ts) (toTrees us) → ts = us
  | [], us, h => by
    cases us with
    | nil => rfl
    | cons => cases h
  | t :: ts, us, h => by
    cases us with
    | nil => cases h
    | cons u us =>
      obtain ⟨htype, hrest⟩ := List.forall₂_cons.mp h
      rw [eq_of_same t u htype, eq_of_sameAll ts us hrest]

end

end Ty

theorem Comparison.separates : Separates Comparison.toTree := by
  intro a b h
  cases a <;> cases b <;> simp_all [toTree]

theorem BinaryOp.separates : Separates BinaryOp.toTree := by
  intro a b h
  cases a <;> cases b <;> simp_all [toTree]

namespace Expr

/-- The name of the form in which an expression is written. -/
def formName : Expr → String
  | .this => "this"
  | .null => "null"
  | .bool _ => "bool"
  | .int _ => "int"
  | .str _ => "str"
  | .literal _ => "literal"
  | .ident _ => "ident"
  | .field _ _ => "field"
  | .call _ _ _ => "call"
  | .construct _ _ => "construct"
  | .binary _ _ _ => "binary"
  | .not _ => "not"
  | .cast _ _ => "cast"
  | .sameClass _ _ => "same_class"
  | .equal _ _ _ => "equal"
  | .hashOf _ _ _ => "hash_of"
  | .compare _ _ => "compare"
  | .concat _ => "concat"

theorem toTree_call (receiver : Option Expr) (method : String) (args : List Expr) :
    (call receiver method args).toTree =
      tableOf [("expr", some (.text "call")), ("receiver", receiver.map toTree),
        ("method", some (.text method)), ("args", some (.list (toTrees args)))] := by
  cases receiver <;> rfl

theorem formName_eq_of_same {e e' : Expr} (h : Same e.toTree e'.toTree) :
    e.formName = e'.formName := by
  have hform : ∀ e : Expr, ∃ es, e.toTree = .table (("expr", .text e.formName) :: es) := by
    intro e
    cases e with
    | call receiver method args => exact ⟨_, toTree_call receiver method args⟩
    | _ => exact ⟨_, rfl⟩
  obtain ⟨es, hes⟩ := hform e
  obtain ⟨fs, hfs⟩ := hform e'
  rw [hes, hfs] at h
  exact eq_of_same_tagged h

mutual

theorem eq_of_same : ∀ e e' : Expr, Same e.toTree e'.toTree → e = e'
  | .this, e', h => by
    cases e' with
    | this => rfl
    | _ => exact absurd (formName_eq_of_same h) (by simp [formName])
  | .null, e', h => by
    cases e' with
    | null => rfl
    | _ => exact absurd (formName_eq_of_same h) (by simp [formName])
  | .bool value, e', h => by
    cases e' with
    | bool value' =>
      have hvalue : value = value' := by simpa [toTree, tagged] using h
      rw [hvalue]
    | _ => exact absurd (formName_eq_of_same h) (by simp [formName])
  | .int value, e', h => by
    cases e' with
    | int value' =>
      have hvalue : value.toInt = value'.toInt := by simpa [toTree, tagged] using h
      rw [Int64.toInt_inj.mp hvalue]
    | _ => exact absurd (formName_eq_of_same h) (by simp [formName])
  | .str value, e', h => by
    cases e' with
    | str value' =>
      have hvalue : value = value' := by simpa [toTree, tagged] using h
      rw [hvalue]
    | _ => exact absurd (formName_eq_of_same h) (by simp [formName])
  | .literal source, e', h => by
    cases e' with
    | literal source' =>
      have hsource : source = source' := by simpa [toTree, tagged] using h
      rw [hsource]
    | _ => exact absurd (formName_eq_of_same h) (by simp [formName])
  | .ident name, e', h => by
    cases e' with
    | ident name' =>
      have hname : name = name' := by simpa [toTree, tagged] using h
      rw [hname]
    | _ => exact absurd (formName_eq_of_same h) (by simp [formName])
  | .field receiver name, e', h => by
    cases e' with
    | field receiver' name' =>
      have hfields : Same receiver.toTree receiver'.toTree ∧ name = name' := by
        simpa [toTree, tagged] using h
      rw [eq_of_same _ _ hfields.1, hfields.2]
    | _ => exact absurd (formName_eq_of_same h) (by simp [formName])
  | .call none method args, e', h => by
    cases e' with
    | call receiver' method' args' =>
      rw [toTree_call, toTree_call] at h
      cases receiver' with
      | none =>
        have hfields : method = method' ∧ List.Forall₂ Same (toTrees args) (toTrees args') := by
          simpa using h
        rw [hfields.1, eq_of_sameAll _ _ hfields.2]
      | some receiver' => simp at h
    | _ => exact absurd (formName_eq_of_same h) (by simp [formName])
  | .call (some receiver) method args, e', h => by
    cases e' with
    | call receiver' method' args' =>
      rw [toTree_call, toTree_call] at h
      cases receiver' with
      | none => simp at h
      | some receiver' =>
        have hfields : Same receiver.toTree receiver'.toTree ∧ method = method' ∧
            List.Forall₂ Same (toTrees args) (toTrees args') := by
          simpa using h
        rw [eq_of_same _ _ hfields.1, hfields.2.1, eq_of_sameAll _ _ hfields.2.2]
    | _ => exact absurd (formName_eq_of_same h) (by simp [formName])
  | .construct className args, e', h => by
    cases e' with
    | construct className' args' =>
      have hfields : className = className' ∧
          List.Forall₂ Same (argTrees args) (argTrees args') := by
        simpa [toTree, tagged] using h
      rw [hfields.1, eq_of_sameArgs _ _ hfields.2]
    | _ => exact absurd (formName_eq_of_same h) (by simp [formName])
  | .binary left op right, e', h => by
    cases e' with
    | binary left' op' right' =>
      have hfields : Same left.toTree left'.toTree ∧ Same op.toTree op'.toTree ∧
          Same right.toTree right'.toTree := by
        simpa [toTree, tagged] using h
      rw [eq_of_same _ _ hfields.1, BinaryOp.separates _ _ hfields.2.1,
        eq_of_same _ _ hfields.2.2]
    | _ => exact absurd (formName_eq_of_same h) (by simp [formName])
  | .not operand, e', h => by
    cases e' with
    | not operand' =>
      have hoperand : Same operand.toTree operand'.toTree := by simpa [toTree, tagged] using h
      rw [eq_of_same _ _ hoperand]
    | _ => exact absurd (formName_eq_of_same h) (by simp [formName])
  | .cast value type, e', h => by
    cases e' with
    | cast value' type' =>
      have hfields : Same value.toTree value'.toTree ∧ Same type.toTree type'.toTree := by
        simpa [toTree, tagged] using h
      rw [eq_of_same _ _ hfields.1, Ty.eq_of_same _ _ hfields.2]
    | _ => exact absurd (formName_eq_of_same h) (by simp [formName])
  | .sameClass left right, e', h => by
    cases e' with
    | sameClass left' right' =>
      have hfields : Same left.toTree left'.toTree ∧ Same right.toTree right'.toTree := by
        simpa [toTree, tagged] using h
      rw [eq_of_same _ _ hfields.1, eq_of_same _ _ hfields.2]
    | _ => exact absurd (formName_eq_of_same h) (by simp [formName])
  | .equal left right comparison, e', h => by
    cases e' with
    | equal left' right' comparison' =>
      have hfields : Same left.toTree left'.toTree ∧ Same right.toTree right'.toTree ∧
          Same comparison.toTree comparison'.toTree := by
        simpa [toTree, tagged] using h
      rw [eq_of_same _ _ hfields.1, eq_of_same _ _ hfields.2.1,
        Comparison.separates _ _ hfields.2.2]
    | _ => exact absurd (formName_eq_of_same h) (by simp [formName])
  | .hashOf value comparison nullable, e', h => by
    cases e' with
    | hashOf value' comparison' nullable' =>
      have hfields : Same value.toTree value'.toTree ∧
          Same comparison.toTree comparison'.toTree ∧ nullable = nullable' := by
        simpa [toTree, tagged] using h
      rw [eq_of_same _ _ hfields.1, Comparison.separates _ _ hfields.2.1, hfields.2.2]
    | _ => exact absurd (formName_eq_of_same h) (by simp [formName])
  | .compare left right, e', h => by
    cases e' with
    | compare left' right' =>
      have hfields : Same left.toTree left'.toTree ∧ Same right.toTree right'.toTree := by
        simpa [toTree, tagged] using h
      rw [eq_of_same _ _ hfields.1, eq_of_same _ _ hfields.2]
    | _ => exact absurd (formName_eq_of_same h) (by simp [formName])
  | .concat parts, e', h => by
    cases e' with
    | concat parts' =>
      have hparts : List.Forall₂ Same (toTrees parts) (toTrees parts') := by
        simpa [toTree, tagged] using h
      rw [eq_of_sameAll _ _ hparts]
    | _ => exact absurd (formName_eq_of_same h) (by simp [formName])

theorem eq_of_sameAll : ∀ es es' : List Expr,
    List.Forall₂ Same (toTrees es) (toTrees es') → es = es'
  | [], es', h => by
    cases es' with
    | nil => rfl
    | cons => cases h
  | e :: es, es', h => by
    cases es' with
    | nil => cases h
    | cons e' es' =>
      obtain ⟨hexpr, hrest⟩ := List.forall₂_cons.mp h
      rw [eq_of_same e e' hexpr, eq_of_sameAll es es' hrest]

theorem eq_of_sameArgs : ∀ args args' : List (String × Expr),
    List.Forall₂ Same (argTrees args) (argTrees args') → args = args'
  | [], args', h => by
    cases args' with
    | nil => rfl
    | cons => cases h
  | (name, e) :: args, args', h => by
    cases args' with
    | nil => cases h
    | cons arg' args' =>
      obtain ⟨name', e'⟩ := arg'
      obtain ⟨hentry, hrest⟩ := List.forall₂_cons.mp h
      have hfields : name = name' ∧ Same e.toTree e'.toTree := by simpa using hentry
      rw [hfields.1, eq_of_same e e' hfields.2, eq_of_sameArgs args args' hrest]

end

end Expr

namespace Stmt

/-- The name of the form in which a statement is written. -/
def formName : Stmt → String
  | .let _ _ _ => "let"
  | .assign _ _ => "assign"
  | .cond _ _ _ => "if"
  | .ret _ => "return"
  | .expr _ => "expr"
  | .comment _ => "comment"

theorem toTree_cond (condition : Expr) (thenBranch : List Stmt)
    (elseBranch : Option (List Stmt)) : (cond condition thenBranch elseBranch).toTree =
      tableOf [("stmt", some (.text "if")), ("condition", some condition.toTree),
        ("then_branch", some (.list (toTrees thenBranch))),
        ("else_branch", elseBranch.map fun branch => .list (toTrees branch))] := by
  cases elseBranch <;> rfl

theorem formName_eq_of_same {s s' : Stmt} (h : Same s.toTree s'.toTree) :
    s.formName = s'.formName := by
  have hform : ∀ s : Stmt, ∃ es, s.toTree = .table (("stmt", .text s.formName) :: es) := by
    intro s
    cases s with
    | cond condition thenBranch elseBranch =>
      exact ⟨_, toTree_cond condition thenBranch elseBranch⟩
    | _ => exact ⟨_, rfl⟩
  obtain ⟨es, hes⟩ := hform s
  obtain ⟨fs, hfs⟩ := hform s'
  rw [hes, hfs] at h
  exact eq_of_same_tagged h

mutual

theorem eq_of_same : ∀ s s' : Stmt, Same s.toTree s'.toTree → s = s'
  | .let name isMutable value, s', h => by
    cases s' with
    | «let» name' isMutable' value' =>
      have hfields : name = name' ∧ isMutable = isMutable' ∧
          Same value.toTree value'.toTree := by
        simpa [toTree, tagged] using h
      rw [hfields.1, hfields.2.1, Expr.eq_of_same _ _ hfields.2.2]
    | _ => exact absurd (formName_eq_of_same h) (by simp [formName])
  | .assign target value, s', h => by
    cases s' with
    | assign target' value' =>
      have hfields : Same target.toTree target'.toTree ∧ Same value.toTree value'.toTree := by
        simpa [toTree, tagged] using h
      rw [Expr.eq_of_same _ _ hfields.1, Expr.eq_of_same _ _ hfields.2]
    | _ => exact absurd (formName_eq_of_same h) (by simp [formName])
  | .cond condition thenBranch none, s', h => by
    cases s' with
    | cond condition' thenBranch' elseBranch' =>
      rw [toTree_cond, toTree_cond] at h
      cases elseBranch' with
      | none =>
        have hfields : Same condition.toTree condition'.toTree ∧
            List.Forall₂ Same (toTrees thenBranch) (toTrees thenBranch') := by
          simpa using h
        rw [Expr.eq_of_same _ _ hfields.1, eq_of_sameAll _ _ hfields.2]
      | some elseBranch' => simp at h
    | _ => exact absurd (formName_eq_of_same h) (by simp [formName])
  | .cond condition thenBranch (some elseBranch), s', h => by
    cases s' with
    | cond condition' thenBranch' elseBranch' =>
      rw [toTree_cond, toTree_cond] at h
      cases elseBranch' with
      | none => simp at h
      | some elseBranch' =>
        have hfields : Same condition.toTree condition'.toTree ∧
            List.Forall₂ Same (toTrees thenBranch) (toTrees thenBranch') ∧
            List.Forall₂ Same (toTrees elseBranch) (toTrees elseBranch') := by
          simpa using h
        rw [Expr.eq_of_same _ _ hfields.1, eq_of_sameAll _ _ hfields.2.1,
          eq_of_sameAll _ _ hfields.2.2]
    | _ => exact absurd (formName_eq_of_same h) (by simp [formName])
  | .ret value, s', h => by
    cases s' with
    | ret value' =>
      have hvalue : Same value.toTree value'.toTree := by simpa [toTree, tagged] using h
      rw [Expr.eq_of_same _ _ hvalue]
    | _ => exact absurd (formName_eq_of_same h) (by simp [formName])
  | .expr e, s', h => by
    cases s' with
    | expr e' =>
      have he : Same e.toTree e'.toTree := by simpa [toTree, tagged] using h
      rw [Expr.eq_of_same _ _ he]
    | _ => exact absurd (formName_eq_of_same h) (by simp [formName])
  | .comment text, s', h => by
    cases s' with
    | comment text' =>
      have htext : text = text' := by simpa [toTree, tagged] using h
      rw [htext]
    | _ => exact absurd (formName_eq_of_same h) (by simp [formName])

theorem eq_of_sameAll : ∀ ss ss' : List Stmt,
    List.Forall₂ Same (toTrees ss) (toTrees ss') → ss = ss'
  | [], ss', h => by
    cases ss' with
    | nil => rfl
    | cons => cases h
  | s :: ss, ss', h => by
    cases ss' with
    | nil => cases h
    | cons s' ss' =>
      obtain ⟨hstmt, hrest⟩ := List.forall₂_cons.mp h
      rw [eq_of_same s s' hstmt, eq_of_sameAll ss ss' hrest]

end

end Stmt

theorem Annotation.separates : Separates Annotation.toTree := by
  rintro ⟨name, args⟩ ⟨name', args'⟩ h
  have hfields : name = name' ∧
      Option.Rel Same (someList .text args) (someList .text args') := by
    simpa [toTree] using h
  rw [hfields.1, Separates.text.someList hfields.2]

theorem Method.Kind.separates : Separates Method.Kind.toTree := by
  intro a b h
  cases a <;> cases b <;> simp_all [toTree]

theorem Target.Kind.separates : Separates Target.Kind.toTree := by
  intro a b h
  cases a <;> cases b <;> simp_all [toTree]

theorem Param.separates : Separates Param.toTree := by
  rintro ⟨name, type, default⟩ ⟨name', type', default'⟩ h
  have hfields : name = name' ∧ Same type.toTree type'.toTree ∧
      Option.Rel Same (default.map Expr.toTree) (default'.map Expr.toTree) := by
    simpa [toTree] using h
  rw [hfields.1, Ty.eq_of_same _ _ hfields.2.1, Separates.option Expr.eq_of_same hfields.2.2]

theorem Method.separates : Separates Method.toTree := by
  rintro ⟨name, kind, overrides, params, returns, body⟩
    ⟨name', kind', overrides', params', returns', body'⟩ h
  have hfields : name = name' ∧ Same kind.toTree kind'.toTree ∧ overrides = overrides' ∧
      Same (Tree.ofList Param.toTree params) (Tree.ofList Param.toTree params') ∧
      Same returns.toTree returns'.toTree ∧
      Same (Tree.ofList Stmt.toTree body) (Tree.ofList Stmt.toTree body') := by
    simpa [toTree] using h
  obtain ⟨rfl, hkind, rfl, hparams, hreturns, hbody⟩ := hfields
  rw [Kind.separates _ _ hkind, Param.separates.ofList _ _ hparams, Ty.eq_of_same _ _ hreturns,
    Separates.ofList Stmt.eq_of_same _ _ hbody]

theorem ConstructorParam.separates : Separates ConstructorParam.toTree := by
  rintro ⟨name, type, default, isGuard⟩ ⟨name', type', default', isGuard'⟩ h
  have hfields : name = name' ∧ Same type.toTree type'.toTree ∧
      Option.Rel Same (default.map Expr.toTree) (default'.map Expr.toTree) ∧
      Option.Rel Same (if isGuard then some (.flag true) else none)
        (if isGuard' then some (.flag true) else none) := by
    simpa [toTree] using h
  obtain ⟨rfl, htype, hdefault, hguard⟩ := hfields
  have hguards : isGuard = isGuard' := by
    cases isGuard <;> cases isGuard' <;> simp_all
  rw [Ty.eq_of_same _ _ htype, Separates.option Expr.eq_of_same hdefault, hguards]

theorem PropertyDesc.separates : Separates PropertyDesc.toTree := by
  rintro ⟨name, type, isMutable, overrides, annotations⟩
    ⟨name', type', isMutable', overrides', annotations'⟩ h
  have hfields : name = name' ∧ Same type.toTree type'.toTree ∧ isMutable = isMutable' ∧
      overrides = overrides' ∧ Option.Rel Same (someList Annotation.toTree annotations)
        (someList Annotation.toTree annotations') := by
    simpa [toTree] using h
  obtain ⟨rfl, htype, rfl, rfl, hannotations⟩ := hfields
  rw [Ty.eq_of_same _ _ htype, Annotation.separates.someList hannotations]

/-- Class descriptions are one value as documents just if they are one description. -/
theorem ClassDesc.same_toTree_iff (c d : ClassDesc) : Same c.toTree d.toTree ↔ c = d := by
  constructor
  · intro h
    obtain ⟨package, name, model, target, kind, typeParams, superclass, superinterfaces,
      annotations, constructor, properties, methods, notes⟩ := c
    obtain ⟨package', name', model', target', kind', typeParams', superclass', superinterfaces',
      annotations', constructor', properties', methods', notes'⟩ := d
    have hfields : package = package' ∧ name = name' ∧ model = model' ∧ target = target' ∧
        Same kind.toTree kind'.toTree ∧
        Option.Rel Same (someList .text typeParams) (someList .text typeParams') ∧
        Option.Rel Same (superclass.map .text) (superclass'.map .text) ∧
        Same (Tree.ofList Ty.toTree superinterfaces) (Tree.ofList Ty.toTree superinterfaces') ∧
        Option.Rel Same (someList Annotation.toTree annotations)
          (someList Annotation.toTree annotations') ∧
        Same (Tree.ofList ConstructorParam.toTree constructor)
          (Tree.ofList ConstructorParam.toTree constructor') ∧
        Same (Tree.ofList PropertyDesc.toTree properties)
          (Tree.ofList PropertyDesc.toTree properties') ∧
        Same (Tree.ofList Method.toTree methods) (Tree.ofList Method.toTree methods') ∧
        Option.Rel Same (someList .text notes) (someList .text notes') := by
      simpa [toTree] using h
    obtain ⟨rfl, rfl, rfl, rfl, hkind, htypeParams, hsuperclass, hsuperinterfaces, hannotations,
      hconstructor, hproperties, hmethods, hnotes⟩ := hfields
    rw [Target.Kind.separates _ _ hkind, Separates.text.someList htypeParams,
      Separates.text.option hsuperclass,
      Separates.ofList Ty.eq_of_same _ _ hsuperinterfaces,
      Annotation.separates.someList hannotations,
      ConstructorParam.separates.ofList _ _ hconstructor,
      PropertyDesc.separates.ofList _ _ hproperties, Method.separates.ofList _ _ hmethods,
      Separates.text.someList hnotes]
  · rintro rfl
    exact .refl _

end Scaffold
