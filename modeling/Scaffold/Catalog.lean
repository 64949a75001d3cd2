import Scaffold.Decl
import Scaffold.Fault

/-!
The catalog of a pass: its declarations in the order they came, no two of one name.
-/
namespace Scaffold

structure Catalog where
  decls : List Decl
  nodup : (decls.map Decl.name).Nodup

namespace Catalog

def empty : Catalog := ⟨[], by simp⟩

instance : Inhabited Catalog := ⟨empty⟩

def get? (c : Catalog) (name : String) : Option Decl :=
  c.decls.find? (·.name = name)

def contains (c : Catalog) (name : String) : Bool := (c.get? name).isSome

theorem get?_eq_none_iff {c : Catalog} {name : String} :
    c.get? name = none ↔ name ∉ c.decls.map Decl.name := by
  simp [get?]

def insert (c : Catalog) (d : Decl) : Except Fault Catalog :=
  if h : c.get? d.name = none then
    .ok ⟨c.decls ++ [d], by
      have hfresh := get?_eq_none_iff.mp h
      simp only [List.map_append, List.map_cons, List.map_nil]
      exact List.nodup_append.mpr ⟨c.nodup, by simp, by
        intro a ha b hb hab
        rw [List.mem_singleton.mp hb] at hab
        exact hfresh (hab ▸ ha)⟩⟩
  else .error (.duplicateType d.name)

/-- Adds declarations in order; the first repeated name is the fault. -/
def insertAll (c : Catalog) : List Decl → Except Fault Catalog
  | [] => .ok c
  | d :: rest => do
    let c ← c.insert d
    c.insertAll rest

def ofDecls (decls : List Decl) : Except Fault Catalog := empty.insertAll decls

def size (c : Catalog) : Nat := c.decls.length

def names (c : Catalog) : List String := c.decls.map Decl.name

def models (c : Catalog) : List Decl := c.decls.filter Decl.isModel

/-- The declared types among the supertypes of a declaration, in order. -/
def parents (c : Catalog) (d : Decl) : List Decl :=
  d.supertypes.filterMap fun t => t.head?.bind c.get?

/-- The declaration whose enclosing chain is followed no further: it is no member, or a member
of an undeclared type or of itself. None if the chain runs in a circle. -/
def outermost? (c : Catalog) : Nat → Decl → Option Decl
  | 0, _ => none
  | n + 1, d =>
    match d.nesting with
    | .member enclosing =>
      match c.get? enclosing with
      | some outer => if outer.name = d.name then some d else c.outermost? n outer
      | none => some d
    | _ => some d

/-- The package of a declaration. Member types live where their outermost type does. -/
def packageOf? (c : Catalog) (d : Decl) : Option String :=
  (c.outermost? (c.size + 1) d).map fun outer => Dotted.packagePart outer.name

end Catalog

end Scaffold
