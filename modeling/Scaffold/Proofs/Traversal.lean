import Scaffold.Proofs.Ancestry
import Scaffold.Proofs.Distinct
import Scaffold.Projection.Walk

/-!
What a projection should meet, apart from any text. The items are the roots and the types; an
item leads to the types directly inside it and, if it refers to a declaration, to the types of
that declaration. A traversal goes over items in pre-order: a declaration that is new is put
down at once, its types are gone through before the rest of the item, and that before all
items that were waiting. A traversal that reaches its end has met what the items lead to, and
nothing else.
-/
namespace Scaffold.Projection

/-- The types directly inside a type into which a projection descends. -/
def inner (x : Context) (t : Ty) : List Ty :=
  if (mapped? x.settings t).isSome then []
  else
    match t with
    | .nullable u => [u.nonNull]
    | .array element => [element]
    | .named name args =>
      if x.capabilities.has name .top then []
      else if x.capabilities.has name .collection then
        (carriedArgs x.catalog x.capabilities .collection name args).take 1
      else if x.capabilities.has name .mapping then
        (carriedArgs x.catalog x.capabilities .mapping name args).take 2
      else args
    | .scalar _ | .param _ => []

/-- The name for which a type needs a declaration: that of a named type to which neither a
mapping nor a capability gives a text. -/
def reference? (x : Context) (t : Ty) : Option String :=
  match t with
  | .named name _ =>
    if (mapped? x.settings t).isSome || x.capabilities.has name .top ||
      x.capabilities.has name .collection || x.capabilities.has name .mapping then none
    else some name
  | _ => none

/-- The types in the definition of a declaration: the supertypes it extends, then those of its
properties. -/
def types (x : Context) (d : Decl) : List Ty :=
  if d.kind = .enum then []
  else d.supertypes.filter (isExtended x) ++ d.properties.map Property.type

inductive Item where
  | root (name : String)
  | type (t : Ty)

namespace Item

def target? (x : Context) : Item → Option String
  | .root name => some name
  | .type t => reference? x t

def below (x : Context) : Item → List Item
  | .root _ => []
  | .type t => (inner x t).map .type

end Item

/-- The items in the definition of a declaration. -/
def items (x : Context) (d : Decl) : List Item := (types x d).map .type

/-- The declaration that an item refers to, if it refers to any, is there. -/
def Resolvable (x : Context) (i : Item) : Prop :=
  ∀ name, i.target? x = some name → ∃ d, x.catalog.get? name = some d

inductive Leads (x : Context) (i : Item) : Item → Prop
  | below {j : Item} (h : j ∈ i.below x) : Leads x i j
  | target {j : Item} {name : String} {d : Decl} (hname : i.target? x = some name)
      (hdecl : x.catalog.get? name = some d) (h : j ∈ items x d) : Leads x i j

/-- The first item leads to the second in any number of steps. -/
abbrev Meets (x : Context) : Item → Item → Prop := Relation.ReflTransGen (Leads x)

/-- The items from which a projection starts. -/
def startItems (x : Context) : List Item := (startNames x).map .root

/-- A start item leads to it. -/
def Reached (x : Context) (i : Item) : Prop := ∃ r ∈ startItems x, Meets x r i

/-- A traversal of the waiting items, with the names put down before and after it. -/
inductive Traversal (x : Context) : List Item → List String → List String → Prop
  | done {seen : List String} : Traversal x [] seen seen
  | pass {i : Item} {rest : List Item} {seen out : List String}
      (hold : ∀ name, i.target? x = some name → name ∈ seen)
      (hrest : Traversal x (i.below x ++ rest) seen out) : Traversal x (i :: rest) seen out
  | take {i : Item} {rest : List Item} {seen out : List String} {name : String} {d : Decl}
      (htarget : i.target? x = some name) (hnew : name ∉ seen)
      (hdecl : x.catalog.get? name = some d)
      (hrest : Traversal x (items x d ++ i.below x ++ rest) (seen ++ [name]) out) :
      Traversal x (i :: rest) seen out

namespace Traversal

variable {x : Context}

theorem append {is js : List Item} {seen mid out : List String}
    (h : Traversal x is seen mid) (h' : Traversal x js mid out) :
    Traversal x (is ++ js) seen out := by
  induction h with
  | done => exact h'
  | pass hold _ ih =>
    rw [List.cons_append]
    refine .pass hold ?_
    simpa only [List.append_assoc] using ih h'
  | take htarget hnew hdecl _ ih =>
    rw [List.cons_append]
    refine .take htarget hnew hdecl ?_
    simpa only [List.append_assoc] using ih h'

theorem of_append {is js : List Item} {seen out : List String}
    (h : Traversal x (is ++ js) seen out) :
    ∃ mid, Traversal x is seen mid ∧ Traversal x js mid out := by
  generalize hitems : is ++ js = pending at h
  induction h generalizing is with
  | done =>
    obtain ⟨rfl, rfl⟩ := List.append_eq_nil_iff.mp hitems
    exact ⟨_, .done, .done⟩
  | @pass i rest seen out hold hrest ih =>
    cases is with
    | nil =>
      rw [List.nil_append] at hitems
      exact ⟨seen, .done, hitems ▸ .pass hold hrest⟩
    | cons first is =>
      obtain ⟨rfl, rfl⟩ := List.cons_eq_cons.mp hitems
      obtain ⟨mid, hhead, htail⟩ := ih (List.append_assoc ..)
      exact ⟨mid, .pass hold hhead, htail⟩
  | @take i rest seen out name d htarget hnew hdecl hrest ih =>
    cases is with
    | nil =>
      rw [List.nil_append] at hitems
      exact ⟨seen, .done, hitems ▸ .take htarget hnew hdecl hrest⟩
    | cons first is =>
      obtain ⟨rfl, rfl⟩ := List.cons_eq_cons.mp hitems
      obtain ⟨mid, hhead, htail⟩ := ih (List.append_assoc ..)
      exact ⟨mid, .take htarget hnew hdecl hhead, htail⟩

/-- Items and names before settle the names after. -/
theorem functional {is : List Item} {seen out out' : List String}
    (h : Traversal x is seen out) (h' : Traversal x is seen out') : out = out' := by
  induction h with
  | done =>
    cases h' with
    | done => rfl
  | pass hold _ ih =>
    cases h' with
    | pass _ hrest => exact ih hrest
    | take htarget hnew _ _ => exact absurd (hold _ htarget) hnew
  | take htarget hnew hdecl _ ih =>
    cases h' with
    | pass hold _ => exact absurd (hold _ htarget) hnew
    | take htarget' _ hdecl' hrest =>
      obtain rfl := Option.some.inj (htarget.symm.trans htarget')
      obtain rfl := Option.some.inj (hdecl.symm.trans hdecl')
      exact ih hrest

theorem keeps {is : List Item} {seen out : List String} (h : Traversal x is seen out) :
    ∀ name ∈ seen, name ∈ out := by
  induction h with
  | done => exact fun name hname => hname
  | pass _ _ ih => exact ih
  | take _ _ _ _ ih => exact fun name hname => ih name (List.mem_append_left _ hname)

theorem nodup {is : List Item} {seen out : List String} (h : Traversal x is seen out)
    (hseen : seen.Nodup) : out.Nodup := by
  induction h with
  | done => exact hseen
  | pass _ _ ih => exact ih hseen
  | take _ hnew _ _ ih => exact ih (Distinct.nodup_concat hseen hnew)

/-- What is put down is the target of something that the items lead to. -/
theorem sound {is : List Item} {seen out : List String} (h : Traversal x is seen out) :
    ∀ name ∈ out, name ∈ seen ∨ ∃ i ∈ is, ∃ j, Meets x i j ∧ j.target? x = some name := by
  induction h with
  | done => exact fun name hname => Or.inl hname
  | @pass i rest seen out _ _ ih =>
    intro name hname
    rcases ih name hname with hseen | ⟨k, hk, j, hmeets, hj⟩
    · exact Or.inl hseen
    · rcases List.mem_append.mp hk with hbelow | hrest
      · exact Or.inr ⟨i, List.mem_cons_self, j, .head (.below hbelow) hmeets, hj⟩
      · exact Or.inr ⟨k, List.mem_cons_of_mem i hrest, j, hmeets, hj⟩
  | @take i rest seen out taken d htarget _ hdecl _ ih =>
    intro name hname
    rcases ih name hname with hseen | ⟨k, hk, j, hmeets, hj⟩
    · rcases List.mem_append.mp hseen with hseen | htaken
      · exact Or.inl hseen
      · obtain rfl := List.mem_singleton.mp htaken
        exact Or.inr ⟨i, List.mem_cons_self, i, .refl, htarget⟩
    · rcases List.mem_append.mp hk with hown | hrest
      · refine Or.inr ⟨i, List.mem_cons_self, j, .head ?_ hmeets, hj⟩
        rcases List.mem_append.mp hown with hitem | hbelow
        · exact .target htarget hdecl hitem
        · exact .below hbelow
      · exact Or.inr ⟨k, List.mem_cons_of_mem i hrest, j, hmeets, hj⟩

/-- Items gone through by a traversal that ended with these names: their targets are among
the names, what is below them was gone through too, and so were the items of the declarations
that were new. -/
structure Covers (x : Context) (seen out : List String) (covered : Item → Prop) : Prop where
  targets : ∀ i, covered i → ∀ name, i.target? x = some name → name ∈ out
  below : ∀ i, covered i → ∀ j ∈ i.below x, covered j
  declared : ∀ name ∈ out, name ∈ seen ∨
    ∃ d, x.catalog.get? name = some d ∧ ∀ j ∈ items x d, covered j

/-- An item whose target is put down and whose inside is covered may be covered too. -/
theorem Covers.insert {seen out : List String} {covered : Item → Prop}
    (h : Covers x seen out covered) {i : Item}
    (htarget : ∀ name, i.target? x = some name → name ∈ out)
    (hbelow : ∀ j ∈ i.below x, covered j) :
    Covers x seen out fun j => j = i ∨ covered j := by
  refine ⟨?_, ?_, ?_⟩
  · rintro j (rfl | hj)
    · exact htarget
    · exact h.targets j hj
  · rintro j (rfl | hj) k hk
    · exact Or.inr (hbelow k hk)
    · exact Or.inr (h.below j hj k hk)
  · intro name hname
    rcases h.declared name hname with hseen | ⟨d, hdecl, hitems⟩
    · exact Or.inl hseen
    · exact Or.inr ⟨d, hdecl, fun j hj => Or.inr (hitems j hj)⟩

/-- A name whose declaration is covered need not have been put down before. -/
theorem Covers.forget {seen out : List String} {covered : Item → Prop} {taken : String}
    {d : Decl} (h : Covers x (seen ++ [taken]) out covered)
    (hdecl : x.catalog.get? taken = some d) (hitems : ∀ j ∈ items x d, covered j) :
    Covers x seen out covered := by
  refine ⟨h.targets, h.below, ?_⟩
  intro name hname
  rcases h.declared name hname with hmem | hcovered
  · rcases List.mem_append.mp hmem with hseen | htaken
    · exact Or.inl hseen
    · obtain rfl := List.mem_singleton.mp htaken
      exact Or.inr ⟨d, hdecl, hitems⟩
  · exact Or.inr hcovered

theorem exists_covers {is : List Item} {seen out : List String}
    (h : Traversal x is seen out) :
    ∃ covered, Covers x seen out covered ∧ ∀ i ∈ is, covered i := by
  induction h with
  | done =>
    refine ⟨fun _ => False, ⟨?_, ?_, fun name hname => Or.inl hname⟩, by simp⟩
    · exact fun _ hfalse => hfalse.elim
    · exact fun _ hfalse => hfalse.elim
  | @pass i rest seen out hold hrest ih =>
    obtain ⟨covered, hcovers, hall⟩ := ih
    have htarget : ∀ name, i.target? x = some name → name ∈ out :=
      fun name hname => hrest.keeps name (hold name hname)
    refine ⟨_, hcovers.insert htarget fun j hj => hall j (List.mem_append_left _ hj), ?_⟩
    intro j hj
    rcases List.mem_cons.mp hj with rfl | hj
    · exact Or.inl rfl
    · exact Or.inr (hall j (List.mem_append_right _ hj))
  | @take i rest seen out taken d htaken hnew hdecl hrest ih =>
    obtain ⟨covered, hcovers, hall⟩ := ih
    have hitems : ∀ j ∈ items x d, covered j := fun j hj =>
      hall j (List.mem_append_left _ (List.mem_append_left _ hj))
    have htarget : ∀ name, i.target? x = some name → name ∈ out := by
      intro name hname
      obtain rfl := Option.some.inj (htaken.symm.trans hname)
      exact hrest.keeps taken (List.mem_append_right _ List.mem_cons_self)
    refine ⟨_, (hcovers.forget hdecl hitems).insert htarget fun j hj =>
      hall j (List.mem_append_left _ (List.mem_append_right _ hj)), ?_⟩
    intro j hj
    rcases List.mem_cons.mp hj with rfl | hj
    · exact Or.inl rfl
    · exact Or.inr (hall j (List.mem_append_right _ hj))

/-- A traversal from nothing has put down the target of all that its items lead to, and
each target is declared. -/
theorem complete {is : List Item} {out : List String} (h : Traversal x is [] out)
    {i j : Item} (hi : i ∈ is) (hmeets : Meets x i j) :
    ∀ name, j.target? x = some name → name ∈ out ∧ ∃ d, x.catalog.get? name = some d := by
  obtain ⟨covered, hcovers, hall⟩ := h.exists_covers
  have hdeclared : ∀ name ∈ out, ∃ d, x.catalog.get? name = some d ∧
      ∀ k ∈ items x d, covered k := by
    intro name hname
    rcases hcovers.declared name hname with hseen | hdecl
    · exact absurd hseen List.not_mem_nil
    · exact hdecl
  have hcovered : covered j := by
    induction hmeets with
    | refl => exact hall i hi
    | tail _ hstep ih =>
      cases hstep with
      | below hbelow => exact hcovers.below _ ih _ hbelow
      | target hname hdecl hitem =>
        obtain ⟨e, hget, hitems⟩ := hdeclared _ (hcovers.targets _ ih _ hname)
        obtain rfl := Option.some.inj (hdecl.symm.trans hget)
        exact hitems _ hitem
  intro name hname
  have hout := hcovers.targets j hcovered name hname
  obtain ⟨d, hdecl, -⟩ := hdeclared name hout
  exact ⟨hout, d, hdecl⟩

end Traversal

end Scaffold.Projection
