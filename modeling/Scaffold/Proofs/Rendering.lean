import Scaffold.Proofs.Forms
import Scaffold.Proofs.Unfolding

/-!
Scripts against the items they render. A script renders items if its references stand for the
items in every traversal, and if it succeeds whenever nothing that the items lead to is
unresolvable. The rules follow the way scripts are put together; the fuel of a projection is
covered by the cost of its type.
-/
namespace Scaffold.Projection

variable {x : Context} {α β : Type}

/-- All that an item leads to is resolvable. -/
def Sound (x : Context) (i : Item) : Prop := ∀ j, Meets x i j → Resolvable x j

theorem Sound.below {i j : Item} (h : Sound x i) (hj : j ∈ i.below x) : Sound x j :=
  fun k hk => h k (.head (.below hj) hk)

theorem Sound.declared {i : Item} {name : String} (h : Sound x i)
    (hname : i.target? x = some name) : ∃ d, x.catalog.get? name = some d :=
  h i .refl name hname

theorem Sound.items {i j : Item} {name : String} {d : Decl} (h : Sound x i)
    (hname : i.target? x = some name) (hdecl : x.catalog.get? name = some d)
    (hj : j ∈ items x d) : Sound x j :=
  fun k hk => h k (.head (.target hname hdecl hj) hk)

/-- A root leads to what every item leads to that refers to it. -/
theorem Sound.root {i : Item} {name : String} (h : Sound x i)
    (hname : i.target? x = some name) : Sound x (.root name) := by
  intro j hj
  rcases Relation.ReflTransGen.cases_head_iff.mp hj with rfl | ⟨k, hstep, hk⟩
  · rintro n hn
    obtain rfl := Option.some.inj hn
    exact h.declared hname
  · cases hstep with
    | below hbelow => simp [Item.below] at hbelow
    | target htarget hdecl hitem =>
      obtain rfl := Option.some.inj htarget
      exact h.items hname hdecl hitem j hk

/-- The references of a script stand for these items. -/
structure Renders (x : Context) (s : Script α) (is : List Item) : Prop where
  follows : (∃ a, s.result = .ok a) → ∀ seen out,
    Traversal x (s.refs.map .root) seen out → Traversal x is seen out
  succeeds : (∀ i ∈ is, Sound x i) →
    (∀ name ∈ s.refs, Sound x (.root name)) ∧ ∃ a, s.result = .ok a

namespace Renders

theorem pure (a : α) : Renders x (Pure.pure a : Script α) [] where
  follows _ _ _ h := h
  succeeds _ := ⟨fun _ hname => absurd hname List.not_mem_nil, a, rfl⟩

theorem bind {s : Script α} {f : α → Script β} {is js : List Item} (hs : Renders x s is)
    (hf : ∀ a, Renders x (f a) js) : Renders x (s >>= f) (is ++ js) := by
  change Renders x (s.bind f) (is ++ js)
  cases hresult : s.result with
  | error e =>
    have hfail : s.bind f = ⟨s.refs, .error e⟩ := by simp only [Script.bind, hresult]
    rw [hfail]
    refine ⟨?_, ?_⟩
    · rintro ⟨b, hb⟩
      exact absurd hb (by simp)
    · intro hsound
      obtain ⟨-, a, ha⟩ := hs.succeeds fun i hi => hsound i (List.mem_append_left js hi)
      exact absurd (hresult.symm.trans ha) (by simp)
  | ok a =>
    have hrun : s.bind f = ⟨s.refs ++ (f a).refs, (f a).result⟩ := by
      simp only [Script.bind, hresult]
    rw [hrun]
    refine ⟨?_, ?_⟩
    · intro hok seen out h
      rw [List.map_append] at h
      obtain ⟨mid, hhead, htail⟩ := h.of_append
      exact (hs.follows ⟨a, hresult⟩ seen mid hhead).append ((hf a).follows hok mid out htail)
    · intro hsound
      obtain ⟨hrefs, -⟩ := hs.succeeds fun i hi => hsound i (List.mem_append_left js hi)
      obtain ⟨hrefs', hok⟩ := (hf a).succeeds fun i hi => hsound i (List.mem_append_right is hi)
      refine ⟨fun name hname => ?_, hok⟩
      rcases List.mem_append.mp hname with hname | hname
      · exact hrefs name hname
      · exact hrefs' name hname

theorem bind_pure {s : Script α} {is : List Item} (hs : Renders x s is) (f : α → β) :
    Renders x (s >>= fun a => Pure.pure (f a)) is := by
  have h := hs.bind fun a => pure (x := x) (f a)
  rwa [List.append_nil] at h

theorem map {s : Script α} {is : List Item} (hs : Renders x s is) (f : α → β) :
    Renders x (f <$> s) is := by
  rw [map_eq_pure_bind]
  exact hs.bind_pure f

theorem mapM {γ : Type} {f : γ → Script α} {g : γ → Item} {l : List γ}
    (h : ∀ c ∈ l, Renders x (f c) [g c]) : Renders x (l.mapM f) (l.map g) := by
  induction l with
  | nil =>
    rw [List.mapM_nil]
    exact pure []
  | cons c l ih =>
    have hrest := ih fun e he => h e (List.mem_cons_of_mem c he)
    rw [List.mapM_cons]
    exact (h c List.mem_cons_self).bind fun _ => hrest.bind_pure _

/-- A type without a reference of its own is rendered by what renders the types inside. -/
theorem of_inner {s : Script α} {t : Ty} (hreference : reference? x t = none)
    (hs : Renders x s ((inner x t).map .type)) : Renders x s [.type t] := by
  refine ⟨?_, ?_⟩
  · intro hok seen out h
    refine .pass ?_ ?_
    · intro name hname
      exact absurd (hreference.symm.trans hname) (by simp)
    · rw [List.append_nil]
      exact hs.follows hok seen out h
  · intro hsound
    have ht := hsound (.type t) List.mem_cons_self
    exact hs.succeeds fun i hi => ht.below hi

/-- A declared type is rendered by its reference and what renders the types inside. -/
theorem refer {s : Script α} {t : Ty} {name : String} (hreference : reference? x t = some name)
    (hs : Renders x s ((inner x t).map .type)) :
    Renders x (Script.refer name >>= fun _ => s) [.type t] := by
  change Renders x ⟨[name] ++ s.refs, s.result⟩ [.type t]
  refine ⟨?_, ?_⟩
  · intro hok seen out h
    rw [List.map_append, List.map_singleton, List.singleton_append] at h
    cases h with
    | pass hold hrest =>
      refine .pass ?_ ?_
      · intro n hn
        obtain rfl := Option.some.inj (hreference.symm.trans hn)
        exact hold name rfl
      · rw [List.append_nil]
        exact hs.follows hok seen out hrest
    | take htarget hnew hdecl hrest =>
      obtain rfl := Option.some.inj htarget
      refine .take hreference hnew hdecl ?_
      obtain ⟨mid, hitems, hrefs⟩ := hrest.of_append
      rw [List.append_nil]
      rw [Item.below, List.append_nil] at hitems
      exact hitems.append (hs.follows hok mid out hrefs)
  · intro hsound
    have ht := hsound (.type t) List.mem_cons_self
    obtain ⟨hrefs, hok⟩ := hs.succeeds fun i hi => ht.below hi
    refine ⟨fun n hn => ?_, hok⟩
    rcases List.mem_cons.mp hn with rfl | hn
    · exact ht.root hreference
    · exact hrefs n hn

/-- A script may fail at a type whose reference is not declared. -/
theorem fail {t : Ty} {name : String} (hreference : reference? x t = some name)
    (hundeclared : ¬ x.catalog.contains name) (f : Fault) :
    Renders x (Script.fail f : Script α) [.type t] := by
  refine ⟨?_, ?_⟩
  · rintro ⟨a, ha⟩
    exact absurd ha (by simp [Script.fail])
  · intro hsound
    obtain ⟨d, hdecl⟩ := (hsound (.type t) List.mem_cons_self).declared hreference
    exact absurd (by simp [Catalog.contains, hdecl]) hundeclared

end Renders

/-- The script of a form that is no reference renders the types inside. -/
theorem renders_form {place : String} {inside : Ty → Script Union} (F : Form)
    (hreference : F.reference? = none)
    (hinside : ∀ u ∈ F.inner, Renders x (inside u) [.type u]) :
    Renders x (F.script x place inside) (F.inner.map .type) := by
  cases F with
  | found text => exact .pure _
  | optional u => exact (hinside u List.mem_cons_self).bind_pure _
  | array element =>
    cases element with
    | none => exact .pure _
    | some element => exact (hinside element List.mem_cons_self).bind_pure _
  | index key value =>
    have hkey : Renders x
        (key.elim (pure "string") fun u => Union.render <$> inside u : Script String)
        (key.toList.map .type) := by
      cases key with
      | none => exact .pure _
      | some key => exact (hinside key List.mem_cons_self).map _
    have hvalue : Renders x
        (value.elim (pure x.settings.topType) fun u => Union.grouped <$> inside u : Script String)
        (value.toList.map .type) := by
      cases value with
      | none => exact .pure _
      | some value =>
        exact (hinside value (List.mem_append_right _ List.mem_cons_self)).map _
    rw [Form.inner, List.map_append]
    exact hkey.bind fun _ => hvalue.bind_pure _
  | reference name args => simp [Form.reference?] at hreference

/-- What the scripts of the types inside render is what the script of the type renders. -/
theorem renders_step {place : String} {n : Nat} (t : Ty)
    (hinner : ∀ u ∈ inner x t, Renders x (project x place n u) [.type u]) :
    Renders x (project x place (n + 1) t) [.type t] := by
  -- only a reference puts a name into the script, all other forms pass on what is inside
  have hreference : reference? x t = (form x t).reference? := reference?_eq_form t
  have hinside : inner x t = (form x t).inner := inner_eq_form t
  rw [project_succ]
  rw [hinside] at hinner
  cases hform : form x t with
  | found | optional | array | index =>
    rw [hform] at hinner hinside hreference
    refine .of_inner hreference ?_
    rw [hinside]
    exact renders_form _ rfl hinner
  | reference name args =>
    rw [hform] at hinner hinside hreference
    rw [Form.script]
    by_cases hdeclared : x.catalog.contains name
    · rw [if_pos hdeclared]
      refine .refer hreference ?_
      rw [hinside]
      exact (Renders.mapM fun a ha => (hinner a ha).map Union.render).bind_pure _
    · rw [if_neg hdeclared]
      exact .fail hreference hdeclared _

theorem renders_project {weight : String → Nat} (hw : Weighs x weight) (place : String)
    (n : Nat) (t : Ty) (hcost : t.cost weight ≤ n) :
    Renders x (project x place n t) [.type t] := by
  induction n generalizing t with
  | zero =>
    have hpos := Ty.cost_pos hw.pos t
    omega
  | succ n ih =>
    refine renders_step t fun u hu => ih u ?_
    have hlt := cost_lt_of_mem_inner hw hu
    omega

/-- The script of a declaration renders its items. -/
theorem renders_script (hacyclic : ∀ n, ¬ Relation.TransGen (Unfolds x) n n) {d : Decl}
    (hd : d ∈ x.catalog.decls) : Renders x (script x d) (items x d) := by
  have hproject : ∀ place t, t ∈ d.supertypes ∨ t ∈ d.properties.map Property.type →
      Renders x (project x place (levels x.catalog) t) [.type t] := fun place t ht =>
    renders_project (weighs_containerWeight hacyclic) place _ t (cost_le_levels hd ht)
  unfold script items types
  by_cases henum : d.kind = .enum
  · rw [if_pos henum, if_pos henum]
    exact .pure _
  rw [if_neg henum, if_neg henum, List.map_append]
  have hbases : Renders x (extendsText x d)
      ((d.supertypes.filter (isExtended x)).map .type) := by
    refine (Renders.mapM fun t ht => ?_).bind_pure _
    exact (hproject _ t (Or.inl (List.mem_of_mem_filter ht))).map Union.render
  have hlines : Renders x (d.properties.mapM (propertyLine x d))
      (d.properties.map fun p => .type p.type) := by
    refine Renders.mapM fun p hp => ?_
    exact (hproject _ p.type (Or.inr (List.mem_map_of_mem hp))).bind_pure _
  have hbody : Renders x (interfaceText x d) ((d.supertypes.filter (isExtended x)).map .type ++
      d.properties.map fun p => .type p.type) :=
    hbases.bind fun _ => hlines.bind_pure _
  rw [List.map_map]
  exact hbody.bind_pure _

end Scaffold.Projection
