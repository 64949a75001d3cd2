import Scaffold.Proofs.Traversal
import Mathlib.Data.List.Forall2

/-!
The form in which a type is printed: a text that is found, a type joined with the marker, an
array, an index type, or a reference to a declaration. One level of a projection settles the
form and prints the types inside; the lemmas here are one for each thing a projection does with
a form, so that none of them has to go through mappings and capabilities again. What a form is
depends on the clauses of declarations, and not on the rest of a catalog.
-/
namespace Scaffold.Projection

variable {x : Context} {α β γ : Type}

inductive Form where
  /-- A text that stands as it was found: mapped, of a scalar or variable, or the top type. -/
  | found (text : String)
  /-- A type that is joined with the marker. -/
  | optional (inner : Ty)
  /-- An array of the element, or of the top type if no element is known. -/
  | array (element : Option Ty)
  | index (key value : Option Ty)
  | reference (name : String) (args : List Ty)

def form (x : Context) (t : Ty) : Form :=
  match mapped? x.settings t with
  | some text => .found text
  | none =>
    match t with
    | .nullable inner => .optional inner.nonNull
    | .scalar s => .found (scalarText x.settings s)
    | .param name => .found name
    | .array element => .array (some element)
    | .named name args =>
      if x.capabilities.has name .top then .found x.settings.topType
      else if x.capabilities.has name .collection then
        .array (carriedArgs x.catalog x.capabilities .collection name args)[0]?
      else if x.capabilities.has name .mapping then
        .index (carriedArgs x.catalog x.capabilities .mapping name args)[0]?
          (carriedArgs x.catalog x.capabilities .mapping name args)[1]?
      else .reference name args

namespace Form

/-- The types that are printed inside of a form. -/
def inner : Form → List Ty
  | .found _ => []
  | .optional u => [u]
  | .array element => element.toList
  | .index key value => key.toList ++ value.toList
  | .reference _ args => args

def reference? : Form → Option String
  | .reference name _ => some name
  | _ => none

/-- The script of a form, given those of the types inside. -/
def script (x : Context) (place : String) (inside : Ty → Script Union) : Form → Script Union
  | .found text => pure (.single text)
  | .optional u => do
    let u ← inside u
    pure (u.add x.settings.voidMarker)
  | .array none => pure (.single (x.settings.topType ++ "[]"))
  | .array (some element) => do
    let u ← inside element
    pure (.single (u.grouped ++ "[]"))
  | .index key value => do
    let key ← key.elim (pure "string") fun key => Union.render <$> inside key
    let value ← value.elim (pure x.settings.topType) fun value => Union.grouped <$> inside value
    pure (.single (Projection.index key value))
  | .reference name args =>
    if x.catalog.contains name then do
      Script.refer name
      let texts ← args.mapM fun a => Union.render <$> inside a
      let text := Dotted.simple name
      pure (.single
        (if args.isEmpty then text else text ++ "<" ++ ", ".intercalate texts ++ ">"))
    else .fail (.unresolvableType (Ty.named name args).display place)

end Form

theorem project_succ (place : String) (n : Nat) (t : Ty) :
    project x place (n + 1) t = (form x t).script x place (project x place n) := by
  unfold form
  cases hmapped : mapped? x.settings t with
  | some text => simp only [project, hmapped, Form.script]
  | none =>
    cases t with
    | scalar | param | nullable | array => simp only [project, hmapped, Form.script]
    | named name args =>
      simp only [project, hmapped]
      by_cases htop : x.capabilities.has name .top
      · simp only [htop, if_true, Form.script]
      by_cases hcollection : x.capabilities.has name .collection
      · simp only [htop, hcollection, if_true]
        cases (carriedArgs x.catalog x.capabilities .collection name args)[0]? <;> rfl
      by_cases hmapping : x.capabilities.has name .mapping
      · simp only [htop, hcollection, hmapping, if_true]
        cases (carriedArgs x.catalog x.capabilities .mapping name args)[0]? <;>
          cases (carriedArgs x.catalog x.capabilities .mapping name args)[1]? <;> rfl
      · simp only [htop, hcollection, hmapping]
        rfl

theorem inner_eq_form (t : Ty) : inner x t = (form x t).inner := by
  have htake : ∀ l : List Ty,
      l.take 1 = l[0]?.toList ∧ l.take 2 = l[0]?.toList ++ l[1]?.toList := by
    rintro (_ | ⟨first, _ | ⟨second, rest⟩⟩) <;> exact ⟨rfl, rfl⟩
  unfold inner form
  cases hmapped : mapped? x.settings t with
  | some text => rfl
  | none =>
    cases t with
    | scalar | param | nullable | array => rfl
    | named name args =>
      by_cases htop : x.capabilities.has name .top
      · simp [htop, Form.inner]
      by_cases hcollection : x.capabilities.has name .collection
      · simp [htop, hcollection, Form.inner, htake]
      by_cases hmapping : x.capabilities.has name .mapping
      · simp [htop, hcollection, hmapping, Form.inner, htake]
      · simp [htop, hcollection, hmapping, Form.inner]

theorem reference?_eq_form (t : Ty) : reference? x t = (form x t).reference? := by
  unfold reference? form
  cases hmapped : mapped? x.settings t with
  | some text => cases t <;> rfl
  | none =>
    cases t with
    | scalar | param | nullable | array => rfl
    | named name args =>
      by_cases htop : x.capabilities.has name .top
      · simp [htop, Form.reference?]
      by_cases hcollection : x.capabilities.has name .collection
      · simp [htop, hcollection, Form.reference?]
      by_cases hmapping : x.capabilities.has name .mapping
      · simp [htop, hcollection, hmapping, Form.reference?]
      · simp [htop, hcollection, hmapping, Form.reference?]

namespace Script

theorem result_bind {s : Script α} {f : α → Script β} {b : β} (h : (s >>= f).result = .ok b) :
    ∃ a, s.result = .ok a ∧ (f a).result = .ok b := by
  change (s.bind f).result = .ok b at h
  cases hs : s.result with
  | error e => simp [Script.bind, hs] at h
  | ok a =>
    simp only [Script.bind, hs] at h
    exact ⟨a, rfl, h⟩

theorem result_map {s : Script α} {f : α → β} {b : β} (h : (f <$> s).result = .ok b) :
    ∃ a, s.result = .ok a ∧ f a = b := by
  rw [map_eq_pure_bind] at h
  obtain ⟨a, ha, h⟩ := result_bind h
  exact ⟨a, ha, Except.ok.inj h⟩

theorem mem_refs_bind {s : Script α} {name : String} (h : name ∈ s.refs) (f : α → Script β) :
    name ∈ (s >>= f).refs := by
  change name ∈ (s.bind f).refs
  cases hs : s.result with
  | error e => simpa only [Script.bind, hs] using h
  | ok a =>
    simp only [Script.bind, hs]
    exact List.mem_append_left _ h

theorem mem_refs_bind_of_ok {s : Script α} {f : α → Script β} {a : α} {name : String}
    (ha : s.result = .ok a) (h : name ∈ (f a).refs) : name ∈ (s >>= f).refs := by
  change name ∈ (s.bind f).refs
  simp only [Script.bind, ha]
  exact List.mem_append_right _ h

theorem mem_refs_map {s : Script α} {name : String} (h : name ∈ s.refs) (f : α → β) :
    name ∈ (f <$> s).refs := by
  rw [map_eq_pure_bind]
  exact mem_refs_bind h _

theorem result_mapM {f : γ → Script α} {l : List γ} {as : List α}
    (h : (l.mapM f).result = .ok as) : List.Forall₂ (fun c a => (f c).result = .ok a) l as := by
  induction l generalizing as with
  | nil =>
    rw [List.mapM_nil] at h
    obtain rfl := Except.ok.inj h
    exact .nil
  | cons c l ih =>
    rw [List.mapM_cons] at h
    obtain ⟨a, ha, h⟩ := result_bind h
    obtain ⟨rest, hrest, h⟩ := result_bind h
    obtain rfl := Except.ok.inj h
    exact .cons ha (ih hrest)

theorem ok_of_mapM {f : γ → Script α} {l : List γ} {as : List α} {c : γ}
    (h : (l.mapM f).result = .ok as) (hc : c ∈ l) : ∃ a, (f c).result = .ok a := by
  have hall := result_mapM h
  clear h
  induction hall with
  | nil => exact absurd hc List.not_mem_nil
  | cons ha _ ih =>
    rcases List.mem_cons.mp hc with rfl | hc
    · exact ⟨_, ha⟩
    · exact ih hc

theorem mem_refs_mapM {f : γ → Script α} {l : List γ} {as : List α} {c : γ} {name : String}
    (h : (l.mapM f).result = .ok as) (hc : c ∈ l) (hname : name ∈ (f c).refs) :
    name ∈ (l.mapM f).refs := by
  induction l generalizing as with
  | nil => exact absurd hc List.not_mem_nil
  | cons first l ih =>
    rw [List.mapM_cons] at h ⊢
    obtain ⟨a, ha, h⟩ := result_bind h
    obtain ⟨rest, hrest, -⟩ := result_bind h
    rcases List.mem_cons.mp hc with rfl | hc
    · exact mem_refs_bind hname _
    · exact mem_refs_bind_of_ok ha (mem_refs_bind (ih hrest hc) _)

end Script

theorem mapM_congr {f g : γ → Script α} {l : List γ} (h : ∀ c ∈ l, f c = g c) :
    l.mapM f = l.mapM g := by
  induction l with
  | nil => rfl
  | cons c l ih =>
    rw [List.forall_mem_cons] at h
    rw [List.mapM_cons, List.mapM_cons, h.1, ih h.2]

/-- The script of a form depends on the types inside only. -/
theorem Form.script_congr {place : String} {f g : Ty → Script Union} (F : Form)
    (h : ∀ u ∈ F.inner, f u = g u) : F.script x place f = F.script x place g := by
  cases F with
  | found text => rfl
  | optional u =>
    have hu := h u List.mem_cons_self
    simp only [script, hu]
  | array element =>
    cases element with
    | none => rfl
    | some element =>
      have helement := h element List.mem_cons_self
      simp only [script, helement]
  | index key value =>
    have hkey : ∀ u ∈ key, f u = g u := fun u hu =>
      h u (List.mem_append_left _ (Option.mem_toList.mpr hu))
    have hvalue : ∀ u ∈ value, f u = g u := fun u hu =>
      h u (List.mem_append_right _ (Option.mem_toList.mpr hu))
    cases key <;> cases value <;> simp_all [script]
  | reference name args =>
    have hargs : (args.mapM fun a => Union.render <$> f a) =
        args.mapM fun a => Union.render <$> g a :=
      mapM_congr fun a ha => congrArg (Union.render <$> ·) (h a ha)
    simp only [script, hargs]

/-- What the projection of a type reads is the same: the clauses of declarations by name, and
not how the declarations are ordered or what else they hold. -/
structure Context.SameClauses (x x' : Context) : Prop where
  clauses : ∀ name, (x'.catalog.get? name).map (fun d => (d.typeParams, d.supertypes)) =
    (x.catalog.get? name).map fun d => (d.typeParams, d.supertypes)
  size : x'.catalog.size = x.catalog.size
  has : ∀ name k, x'.capabilities.has name k = x.capabilities.has name k
  settings : x'.settings = x.settings

namespace Context.SameClauses

variable {x' : Context} (h : x.SameClauses x')

include h

theorem contains_eq (name : String) : x'.catalog.contains name = x.catalog.contains name := by
  have hclauses := congrArg Option.isSome (h.clauses name)
  rwa [Option.isSome_map, Option.isSome_map] at hclauses

theorem carriedFrom_eq (q : Capability) (n : Nat) (seen : List String) (name : String)
    (args : List Ty) : carriedFrom x'.catalog x'.capabilities q n seen name args =
      carriedFrom x.catalog x.capabilities q n seen name args := by
  induction n generalizing seen name args with
  | zero => rfl
  | succ n ih =>
    have hclauses := h.clauses name
    unfold carriedFrom
    cases hget : x.catalog.get? name with
    | none =>
      rw [hget, Option.map_none, Option.map_eq_none_iff] at hclauses
      simp only [hclauses]
    | some d =>
      rw [hget, Option.map_some] at hclauses
      obtain ⟨d', hget', hsame⟩ := Option.map_eq_some_iff.mp hclauses
      obtain ⟨hparams, hsupertypes⟩ := Prod.mk.inj hsame
      have hcarrier : carrier? x'.capabilities q d' = carrier? x.capabilities q d := by
        simp only [carrier?, h.has, hsupertypes]
      simp only [hget', hparams, hcarrier, ih]

theorem form_eq (t : Ty) : form x' t = form x t := by
  unfold form carriedArgs
  simp only [h.settings, h.has, h.size, h.carriedFrom_eq]

theorem project_eq (place : String) (n : Nat) (t : Ty) :
    project x' place n t = project x place n t := by
  induction n generalizing t with
  | zero => rfl
  | succ n ih =>
    have hinside : project x' place n = project x place n := funext ih
    rw [project_succ, project_succ, h.form_eq, hinside]
    unfold Form.script
    simp only [h.settings, h.contains_eq]

end Context.SameClauses

end Scaffold.Projection
