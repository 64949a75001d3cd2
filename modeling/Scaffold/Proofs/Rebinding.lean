import Scaffold.Proofs.Merging
import Scaffold.Proofs.Unfolding

/-!
The arguments of a container, from a name up to the top of its chain of carriers. Each
declaration binds its own parameters to what it was given, all at once, and what it hands on is
bound anew by the next one, often under the same names. Where clauses speak of the parameters of
their declaration only, nothing but the first arguments shows in the last ones, so types may be
put in for variables before the chain is followed or after.
-/
namespace Scaffold

namespace Ty

mutual

/-- The type variables in a type. -/
def vars : Ty → List String
  | .scalar _ => []
  | .named _ args => varsAll args
  | .array element => vars element
  | .nullable inner => vars inner
  | .param name => [name]

def varsAll : List Ty → List String
  | [] => []
  | t :: rest => vars t ++ varsAll rest

end

theorem mem_varsAll {v : String} {ts : List Ty} : v ∈ varsAll ts ↔ ∃ t ∈ ts, v ∈ t.vars := by
  induction ts with
  | nil => simp [varsAll]
  | cons t rest ih => simp [varsAll, ih]

/-- What two substitutions in a row put in for a variable. -/
def composed (σ τ : String → Option Ty) (name : String) : Option Ty :=
  ((σ name).map (subst τ)).or (τ name)

mutual

theorem subst_subst (σ τ : String → Option Ty) (t : Ty) :
    (t.subst σ).subst τ = t.subst (composed σ τ) := by
  cases t with
  | named name args => rw [subst, subst, subst, substAll_substAll σ τ args]
  | array element => rw [subst, subst, subst, subst_subst σ τ element]
  | nullable inner => rw [subst, subst, subst, subst_subst σ τ inner]
  | scalar s => rfl
  | param name => cases hname : σ name <;> simp [subst, composed, hname]

theorem substAll_substAll (σ τ : String → Option Ty) (ts : List Ty) :
    substAll τ (substAll σ ts) = substAll (composed σ τ) ts := by
  cases ts with
  | nil => rfl
  | cons t rest => rw [substAll, substAll, substAll, subst_subst σ τ t, substAll_substAll σ τ rest]

end

section Vars

variable {σ τ : String → Option Ty}

mutual

/-- Of a substitution only what it puts in for the variables of a type matters. -/
theorem subst_congr (t : Ty) (h : ∀ v ∈ t.vars, σ v = τ v) : t.subst σ = t.subst τ := by
  cases t with
  | named name args => rw [subst, subst, substAll_congr args h]
  | array element => rw [subst, subst, subst_congr element h]
  | nullable inner => rw [subst, subst, subst_congr inner h]
  | scalar s => rfl
  | param name => rw [subst, subst, h name List.mem_cons_self]

theorem substAll_congr (ts : List Ty) (h : ∀ v ∈ varsAll ts, σ v = τ v) :
    substAll σ ts = substAll τ ts := by
  cases ts with
  | nil => rfl
  | cons t rest =>
    rw [varsAll, List.forall_mem_append] at h
    rw [substAll, substAll, subst_congr t h.1, substAll_congr rest h.2]

end

mutual

/-- A variable behind a substitution comes from what was put in for one. -/
theorem exists_of_mem_vars_subst {v : String} (t : Ty) (hv : v ∈ (t.subst σ).vars) :
    ∃ w ∈ t.vars, v ∈ ((σ w).getD (.param w)).vars := by
  cases t with
  | named name args => exact exists_of_mem_varsAll_substAll args hv
  | array element => exact exists_of_mem_vars_subst element hv
  | nullable inner => exact exists_of_mem_vars_subst inner hv
  | scalar s => exact absurd hv List.not_mem_nil
  | param name => exact ⟨name, List.mem_cons_self, hv⟩

theorem exists_of_mem_varsAll_substAll {v : String} (ts : List Ty)
    (hv : v ∈ varsAll (substAll σ ts)) :
    ∃ w ∈ varsAll ts, v ∈ ((σ w).getD (.param w)).vars := by
  cases ts with
  | nil => exact absurd hv List.not_mem_nil
  | cons t rest =>
    rw [substAll, varsAll, List.mem_append] at hv
    rw [varsAll]
    rcases hv with hv | hv
    · obtain ⟨w, hw, hmem⟩ := exists_of_mem_vars_subst t hv
      exact ⟨w, List.mem_append_left _ hw, hmem⟩
    · obtain ⟨w, hw, hmem⟩ := exists_of_mem_varsAll_substAll rest hv
      exact ⟨w, List.mem_append_right _ hw, hmem⟩

end

end Vars

end Ty

namespace Catalog

/-- A clause that is a declared named type gives it as many arguments as it has parameters. No
other clause hands arguments on. -/
def Saturates (c : Catalog) : Ty → Prop
  | .named parent args => ∀ e ∈ c.get? parent, args.length = e.typeParams.length
  | _ => True

instance (c : Catalog) : DecidablePred c.Saturates
  | .named parent args =>
    inferInstanceAs (Decidable (∀ e ∈ c.get? parent, args.length = e.typeParams.length))
  | .scalar _ | .array _ | .nullable _ | .param _ => .isTrue trivial

/-- The supertype clauses of a declaration speak of its own parameters only, and give each
declared type as many arguments as it takes. -/
structure ClosedClauses (c : Catalog) (d : Decl) : Prop where
  own : ∀ t ∈ d.supertypes, ∀ v ∈ t.vars, v ∈ d.typeParams
  full : ∀ t ∈ d.supertypes, c.Saturates t

instance (c : Catalog) : DecidablePred c.ClosedClauses := fun d =>
  decidable_of_iff ((∀ t ∈ d.supertypes, ∀ v ∈ t.vars, v ∈ d.typeParams) ∧
    ∀ t ∈ d.supertypes, c.Saturates t) ⟨fun h => ⟨h.1, h.2⟩, fun h => ⟨h.own, h.full⟩⟩

end Catalog

namespace Projection

/-- Given an argument for each, every parameter stands for one of them. -/
theorem exists_binding {params : List String} {args : List Ty} {name : String}
    (hlength : args.length = params.length) (hname : name ∈ params) :
    ∃ u ∈ args, bindings params args name = some u := by
  have hpaired : name ∈ (params.zip args).map Prod.fst := by
    rwa [List.map_fst_zip (Nat.le_of_eq hlength.symm)]
  obtain ⟨pair, hpair, rfl⟩ := List.mem_map.mp hpaired
  have hbound : (bindings params args pair.1).isSome := by
    rw [bindings, List.lookup_isSome_iff]
    exact ⟨pair, List.mem_reverse.mpr hpair, BEq.rfl⟩
  obtain ⟨u, hu⟩ := Option.isSome_iff_exists.mp hbound
  exact ⟨u, mem_of_bindings hu, hu⟩

section Clause

/-- What a declaration that was given these arguments hands on through the clause. -/
def handed (d : Decl) (args clause : List Ty) : List Ty :=
  Ty.substAll (bindings d.typeParams args) clause

variable {d : Decl} {args clause : List Ty}

theorem length_handed : (handed d args clause).length = clause.length := by
  rw [handed, Ty.substAll_eq_map, List.length_map]

variable (hlength : args.length = d.typeParams.length)
  (hown : ∀ v ∈ Ty.varsAll clause, v ∈ d.typeParams)

include hlength hown

theorem mem_varsAll_of_handed {v : String} (hv : v ∈ Ty.varsAll (handed d args clause)) :
    v ∈ Ty.varsAll args := by
  obtain ⟨w, hw, hmem⟩ := Ty.exists_of_mem_varsAll_substAll clause hv
  obtain ⟨u, hu, hbinding⟩ := exists_binding hlength (hown w hw)
  rw [hbinding, Option.getD_some] at hmem
  exact Ty.mem_varsAll.mpr ⟨u, hu, hmem⟩

/-- The variables of the arguments are not those of the clause, even if they have their names. -/
theorem handed_subst (σ : String → Option Ty) :
    handed d (args.map (Ty.subst σ)) clause = (handed d args clause).map (Ty.subst σ) := by
  have hbindings : ∀ v ∈ Ty.varsAll clause, bindings d.typeParams (args.map (Ty.subst σ)) v =
      Ty.composed (bindings d.typeParams args) σ v := by
    intro v hv
    obtain ⟨u, -, hbinding⟩ := exists_binding hlength (hown v hv)
    rw [← map_bindings, Ty.composed, hbinding]
    rfl
  calc handed d (args.map (Ty.subst σ)) clause
      = Ty.substAll (Ty.composed (bindings d.typeParams args) σ) clause :=
        Ty.substAll_congr clause hbindings
    _ = Ty.substAll σ (handed d args clause) := (Ty.substAll_substAll _ σ clause).symm
    _ = (handed d args clause).map (Ty.subst σ) := Ty.substAll_eq_map σ _

end Clause

section Chain

variable {c : Catalog} {k : Capabilities} {q : Capability}

/-- The chain of carriers leads from a name and its arguments to the last arguments: those of a
type that is not declared, or has no named type for a carrier. -/
inductive Carried (c : Catalog) (k : Capabilities) (q : Capability) :
    String → List Ty → List Ty → Prop
  | top {name : String} {args : List Ty}
      (htop : ∀ d, c.get? name = some d → ∀ parent clause,
        carrier? k q d ≠ some (.named parent clause)) : Carried c k q name args args
  | step {name : String} {args : List Ty} {d : Decl} {parent : String} {clause last : List Ty}
      (hget : c.get? name = some d) (hcarrier : carrier? k q d = some (.named parent clause))
      (hrest : Carried c k q parent (handed d args clause) last) : Carried c k q name args last

theorem Carried.unique {name : String} {args last last' : List Ty}
    (h : Carried c k q name args last) (h' : Carried c k q name args last') : last = last' := by
  induction h with
  | top htop =>
    cases h' with
    | top => rfl
    | step hget hcarrier => exact absurd hcarrier (htop _ hget _ _)
  | step hget hcarrier _ ih =>
    cases h' with
    | top htop => exact absurd hcarrier (htop _ hget _ _)
    | step hget' hcarrier' hrest' =>
      obtain rfl := Option.some.inj (hget.symm.trans hget')
      obtain ⟨rfl, rfl⟩ := Ty.named.inj (Option.some.inj (hcarrier.symm.trans hcarrier'))
      exact ih hrest'

/-- Where inheritance runs in no circle the chain is followed to its end. -/
theorem carried_carriedFrom (hacyclic : ∀ d, ¬ c.Inherits d d) (n : Nat) (seen : List String)
    (name : String) (args : List Ty) (hroom : c.Room n seen)
    (htrail : ∀ d, c.get? name = some d → c.Trail c.Extends seen d) :
    Carried c k q name args (carriedFrom c k q n seen name args) := by
  induction n generalizing seen name args with
  | zero => exact absurd hroom.pos (Nat.lt_irrefl 0)
  | succ n ih =>
    unfold carriedFrom
    cases hget : c.get? name with
    | none =>
      apply Carried.top
      intro d hd
      simp [hget] at hd
    | some d =>
      obtain ⟨hd, rfl⟩ := Catalog.get?_eq_some_iff.mp hget
      -- The names passed lead up to this one, so it is none of them.
      have hunseen : d.name ∉ seen := fun hmem => hacyclic d ((htrail d hget).circle hd hmem)
      dsimp only
      rw [if_neg hunseen]
      split
      · rename_i parent parentArgs hclause
        obtain ⟨t, hcarrier, hsubst⟩ := Option.map_eq_some_iff.mp hclause
        obtain ⟨clause, rfl, rfl, hmem, -⟩ := named_of_subst_named hcarrier hsubst
        apply Carried.step hget hcarrier
        apply ih (d.name :: seen) parent _ (hroom.push hd hunseen)
        intro e he
        exact (htrail d hget).push hd (Catalog.extends_iff.mpr ⟨_, hmem, parent, rfl, he⟩)
      · rename_i hstop
        apply Carried.top
        intro e he parent clause hcarrier
        obtain rfl := Option.some.inj (hget.symm.trans he)
        exact hstop parent (handed d args clause) (by rw [hcarrier]; rfl)

theorem carried_carriedArgs (hacyclic : ∀ d, ¬ c.Inherits d d) (name : String) (args : List Ty) :
    Carried c k q name args (carriedArgs c k q name args) :=
  carried_carriedFrom hacyclic (c.size + 1) [] name args (.initial (Nat.lt_succ_self _))
    (by simp [Catalog.Trail])

/-- A container and arguments that match its parameters, if it is declared. -/
structure Given (c : Catalog) (k : Capabilities) (q : Capability) (name : String)
    (args : List Ty) : Prop where
  has : k.has name q = true
  matching : ∀ d, c.get? name = some d → args.length = d.typeParams.length

variable (hclosed : ∀ d ∈ c.decls, k.has d.name q = true → c.ClosedClauses d)

include hclosed

/-- One step up the chain: the clause is closed, and what it hands on matches again. -/
theorem Given.parent {name parent : String} {args clause : List Ty} {d : Decl}
    (hgiven : Given c k q name args) (hget : c.get? name = some d)
    (hcarrier : carrier? k q d = some (.named parent clause)) :
    (∀ v ∈ Ty.varsAll clause, v ∈ d.typeParams) ∧ Given c k q parent (handed d args clause) := by
  obtain ⟨hd, rfl⟩ := Catalog.get?_eq_some_iff.mp hget
  have hclauses := hclosed d hd hgiven.has
  have hsubst : (Ty.named parent clause).subst (bindings d.typeParams args) =
      .named parent (handed d args clause) := rfl
  obtain ⟨-, -, -, hmem, hparent⟩ := named_of_subst_named hcarrier hsubst
  refine ⟨hclauses.own _ hmem, hparent, ?_⟩
  intro e he
  rw [length_handed]
  exact hclauses.full _ hmem e he

theorem Carried.mem_varsAll {name : String} {args last : List Ty}
    (h : Carried c k q name args last) (hgiven : Given c k q name args) {v : String}
    (hv : v ∈ Ty.varsAll last) : v ∈ Ty.varsAll args := by
  induction h with
  | top => exact hv
  | step hget hcarrier _ ih =>
    obtain ⟨hown, hparent⟩ := hgiven.parent hclosed hget hcarrier
    exact mem_varsAll_of_handed (hgiven.matching _ hget) hown (ih hparent hv)

theorem Carried.subst {name : String} {args last : List Ty} (h : Carried c k q name args last)
    (hgiven : Given c k q name args) (σ : String → Option Ty) :
    Carried c k q name (args.map (Ty.subst σ)) (last.map (Ty.subst σ)) := by
  induction h with
  | top htop => exact .top htop
  | step hget hcarrier _ ih =>
    obtain ⟨hown, hparent⟩ := hgiven.parent hclosed hget hcarrier
    -- The arguments do not choose the carrier, so the chain takes the same step.
    apply Carried.step hget hcarrier
    rw [handed_subst (hgiven.matching _ hget) hown]
    exact ih hparent

end Chain

/-- In a checked catalog whose containers have closed clauses, the arguments of a declared
container are those at the end of its chain. All their variables are variables of the arguments
that the container was given, and types may be put in for them before the chain is followed or
after. -/
theorem carriedArgs_without_capture (c : Catalog) (hcheck : c.check = .ok ())
    (hclosed : ∀ d ∈ c.decls, ((Capabilities.ofCatalog c).has d.name .collection = true ∨
      (Capabilities.ofCatalog c).has d.name .mapping = true) → c.ClosedClauses d)
    {d : Decl} (hd : d ∈ c.decls) {q : Capability} (hq : q = .collection ∨ q = .mapping)
    (hhas : (Capabilities.ofCatalog c).has d.name q = true) {args : List Ty}
    (hargs : args.length = d.typeParams.length) :
    Carried c (.ofCatalog c) q d.name args (carriedArgs c (.ofCatalog c) q d.name args) ∧
    (∀ v ∈ Ty.varsAll (carriedArgs c (.ofCatalog c) q d.name args), v ∈ Ty.varsAll args) ∧
    ∀ σ : String → Option Ty,
      carriedArgs c (.ofCatalog c) q d.name (args.map (Ty.subst σ)) =
        (carriedArgs c (.ofCatalog c) q d.name args).map (Ty.subst σ) := by
  have hacyclic := Catalog.not_inherits_self (Catalog.wellFounded_of_check hcheck)
  have hcontainers : ∀ e ∈ c.decls, (Capabilities.ofCatalog c).has e.name q = true →
      c.ClosedClauses e := by
    intro e he hcapable
    rcases hq with rfl | rfl
    · exact hclosed e he (Or.inl hcapable)
    · exact hclosed e he (Or.inr hcapable)
  have hgiven : Given c (.ofCatalog c) q d.name args := by
    refine ⟨hhas, ?_⟩
    intro e he
    rwa [← Option.some.inj ((Catalog.get?_eq_some_iff.mpr ⟨hd, rfl⟩).symm.trans he)]
  have hends : ∀ args, Carried c (.ofCatalog c) q d.name args
      (carriedArgs c (.ofCatalog c) q d.name args) := carried_carriedArgs hacyclic d.name
  refine ⟨hends args, fun v hv => (hends args).mem_varsAll hcontainers hgiven hv, ?_⟩
  intro σ
  exact (hends (args.map (Ty.subst σ))).unique ((hends args).subst hcontainers hgiven σ)

/-- Three containers above each other, two of them with parameters of the same names, which
trade places on the way. -/
def atlas : Catalog where
  decls := [
    { Decl.plain "Index" .interface with
      typeParams := ["K", "V"]
      supertypes := [.named "kotlin.collections.Map" [.param "K", .array (.param "V")]] },
    { Decl.plain "Flipped" .interface with
      typeParams := ["K", "V"]
      supertypes := [.named "kotlin.Comparable" [.param "V"],
        .named "Index" [.param "V", .param "K"]] },
    { Decl.plain "Gazetteer" .classType with
      typeParams := ["V"]
      supertypes := [.named "Flipped"
        [.nullable (.param "V"), .named "Index" [.param "V", .param "V"]]] }]
  nodup := by decide

/-- The argument is named as a parameter further up. -/
theorem carriedArgs_without_capture_atlas :
    atlas.check = .ok () ∧
    carriedArgs atlas (.ofCatalog atlas) .mapping "Gazetteer" [.param "K"] =
      [.named "Index" [.param "K", .param "K"], .array (.nullable (.param "K"))] ∧
    (∀ v ∈ Ty.varsAll (carriedArgs atlas (.ofCatalog atlas) .mapping "Gazetteer" [.param "K"]),
      v ∈ Ty.varsAll [.param "K"]) ∧
    ∀ t : Ty, carriedArgs atlas (.ofCatalog atlas) .mapping "Gazetteer" [t] =
      [.named "Index" [t, t], .array (.nullable t)] := by
  have hcheck : atlas.check = .ok () := rfl
  have hclosed : ∀ d ∈ atlas.decls, atlas.ClosedClauses d := by decide
  have hargs : carriedArgs atlas (.ofCatalog atlas) .mapping "Gazetteer" [.param "K"] =
      [.named "Index" [.param "K", .param "K"], .array (.nullable (.param "K"))] := by
    decide
  have hgazetteer : atlas.decls[2] ∈ atlas.decls := by simp
  obtain ⟨-, hvars, hsubst⟩ := carriedArgs_without_capture atlas hcheck
    (fun d hd _ => hclosed d hd) hgazetteer (Or.inr rfl) (by decide)
    (rfl : [Ty.param "K"].length = 1)
  refine ⟨hcheck, hargs, hvars, ?_⟩
  intro t
  have ht := hsubst fun _ => some t
  change carriedArgs atlas (.ofCatalog atlas) .mapping "Gazetteer" [t] = _ at ht
  rw [ht]
  exact congrArg (List.map _) hargs

end Projection

end Scaffold
