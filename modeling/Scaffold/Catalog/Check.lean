import Scaffold.Catalog

/-!
The check of a catalog before anything is derived from it. Enclosing types have to be declared
and may not enclose each other, models may be neither local nor anonymous, and no type may
inherit from itself. A checked catalog is what the later walks along supertypes rely on.
-/
namespace Scaffold.Catalog

def circular : String := "circular member nesting"

/-- Follows the enclosing types of `start`; `seen` are the members passed on the way. -/
def checkEnclosing (c : Catalog) (start : String) : Nat → List String → Decl → Except Fault Unit
  | 0, _, _ => .ok ()
  | n + 1, seen, d =>
    match d.nesting with
    | .member enclosing =>
      if d.name ∈ seen then .error (.unsupportedNesting start circular)
      else
        match c.get? enclosing with
        | none => .error (.unknownEnclosing d.name enclosing)
        | some outer => checkEnclosing c start n (d.name :: seen) outer
    | _ => .ok ()

/-- Only a top-level declaration or a member can be a model. -/
def checkNesting (d : Decl) : Except Fault Unit :=
  match d.nesting with
  | .topLevel | .member _ => .ok ()
  | nesting => .error (.unsupportedNesting d.name nesting.describe)

/-- Goes up the supertypes, depth first. On `path` are the declarations that are open, in
`done` those that are known to reach no cycle; the answer is the new `done`. -/
def climb (c : Catalog) : Nat → List String → List String → Decl → Except Fault (List String)
  | 0, _, done, _ => .ok done
  | n + 1, path, done, d =>
    if d.name ∈ done then .ok done
    else if d.name ∈ path then .error (.cyclicInheritance d.name)
    else do
      let done ← (c.parents d).foldlM (climb c n (d.name :: path)) done
      pure (d.name :: done)

/-- No path is longer than the catalog, so the levels given to `climb` never run out. -/
def checkInheritance (c : Catalog) : Except Fault Unit :=
  (c.decls.foldlM (climb c (c.size + 1) []) []).map fun _ => ()

def check (c : Catalog) : Except Fault Unit := do
  c.decls.forM fun d => c.checkEnclosing d.name (c.size + 2) [] d
  c.models.forM checkNesting
  c.checkInheritance

end Scaffold.Catalog
