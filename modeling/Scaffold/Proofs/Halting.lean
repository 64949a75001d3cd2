import Scaffold.Proofs.Forms
import Scaffold.Proofs.ProjectionOrder

/-!
Projections come to an end. A run of calls takes the first pending item: one whose declaration
is new puts the types of the declaration in front, any other only what is inside of it. The
declarations that are left become fewer with the first kind of call, and the second kind only
ever leads to cheaper types, so no run goes on for ever. The bounds on levels are then never
what ends a projection: with more levels the answers are the same.
-/
namespace Scaffold.Projection

variable {x : Context} {α β γ : Type}

/-- One call: pending items and the names met, before and after it. -/
inductive Call (x : Context) : List Item × List String → List Item × List String → Prop
  | pass {i : Item} {rest : List Item} {seen : List String}
      (hold : ∀ name, i.target? x = some name → name ∈ seen) :
      Call x (i :: rest, seen) (i.below x ++ rest, seen)
  | take {i : Item} {rest : List Item} {seen : List String} {name : String} {d : Decl}
      (htarget : i.target? x = some name) (hnew : name ∉ seen)
      (hdecl : x.catalog.get? name = some d) :
      Call x (i :: rest, seen) (items x d ++ i.below x ++ rest, seen ++ [name])

/-- Nothing is pending, or the first item needs a declaration that is not there. -/
def Ended (x : Context) : List Item × List String → Prop
  | ([], _) => True
  | (i :: _, seen) =>
    ∃ name, i.target? x = some name ∧ name ∉ seen ∧ x.catalog.get? name = none

theorem ended_or_call (s : List Item × List String) : Ended x s ∨ ∃ s', Call x s s' := by
  obtain ⟨is, seen⟩ := s
  cases is with
  | nil => exact Or.inl trivial
  | cons i rest =>
    cases htarget : i.target? x with
    | none =>
      refine Or.inr ⟨_, .pass fun name hname => ?_⟩
      exact absurd (htarget.symm.trans hname) (by simp)
    | some name =>
      by_cases hseen : name ∈ seen
      · refine Or.inr ⟨_, .pass fun n hn => ?_⟩
        obtain rfl := Option.some.inj (htarget.symm.trans hn)
        exact hseen
      · cases hdecl : x.catalog.get? name with
        | none => exact Or.inl ⟨name, htarget, hseen, hdecl⟩
        | some d => exact Or.inr ⟨_, .take htarget hseen hdecl⟩

/-- A traversal is a run of calls after which nothing is pending. -/
theorem traversal_iff_calls {is : List Item} {seen out : List String} :
    Traversal x is seen out ↔ Relation.ReflTransGen (Call x) (is, seen) ([], out) := by
  constructor
  · intro h
    induction h with
    | done => exact .refl
    | pass hold _ ih => exact .head (.pass hold) ih
    | take htarget hnew hdecl _ ih => exact .head (.take htarget hnew hdecl) ih
  · intro h
    generalize hstart : (is, seen) = start at h
    induction h using Relation.ReflTransGen.head_induction_on generalizing is seen with
    | refl =>
      obtain ⟨rfl, rfl⟩ := Prod.mk.inj hstart
      exact .done
    | head hcall _ ih =>
      cases hcall with
      | pass hold =>
        obtain ⟨rfl, rfl⟩ := Prod.mk.inj hstart
        exact .pass hold (ih rfl)
      | take htarget hnew hdecl =>
        obtain ⟨rfl, rfl⟩ := Prod.mk.inj hstart
        exact .take htarget hnew hdecl (ih rfl)

/-- How many declarations are left. -/
def unmet (x : Context) (seen : List String) : Nat :=
  (x.catalog.names.filter (· ∉ seen)).length

theorem unmet_le_of_subset {seen later : List String} (h : seen ⊆ later) :
    unmet x later ≤ unmet x seen := by
  refine (List.monotone_filter_right _ fun name hname => ?_).length_le
  simp only [decide_eq_true_eq] at hname ⊢
  exact fun hmem => hname (h hmem)

theorem unmet_concat_lt {seen : List String} {name : String} {d : Decl}
    (hdecl : x.catalog.get? name = some d) (hnew : name ∉ seen) :
    unmet x (seen ++ [name]) < unmet x seen := by
  obtain ⟨hd, rfl⟩ := Catalog.get?_eq_some_iff.mp hdecl
  have hsplit : x.catalog.names.filter (· ∉ seen ++ [d.name]) =
      (x.catalog.names.filter (· ∉ seen)).filter (· ≠ d.name) := by
    rw [List.filter_filter]
    refine List.filter_congr fun n _ => ?_
    simp [and_comm]
  have hmem : d.name ∈ x.catalog.names.filter (· ∉ seen) :=
    List.mem_filter.mpr ⟨Catalog.mem_names hd, by simpa using hnew⟩
  rw [unmet, hsplit]
  exact List.length_filter_lt_length_iff_exists.mpr ⟨d.name, hmem, by simp⟩

theorem unmet_le_size (seen : List String) : unmet x seen ≤ x.catalog.size := by
  rw [← Catalog.length_names]
  exact List.length_filter_le _ _

section Calls

variable {weight : String → Nat}

/-- A root has nothing inside of it. -/
def Item.cost (weight : String → Nat) : Item → Nat
  | .root _ => 0
  | .type t => t.cost weight

theorem Item.cost_lt_of_mem_below (hw : Weighs x weight) {i j : Item} (hj : j ∈ i.below x) :
    j.cost weight < i.cost weight := by
  cases i with
  | root name => simp [Item.below] at hj
  | type t =>
    obtain ⟨u, hu, rfl⟩ := List.mem_map.mp hj
    exact cost_lt_of_mem_inner hw hu

/-- Every run of calls from here comes to an end. -/
abbrev Ending (x : Context) : List Item × List String → Prop :=
  Acc fun later earlier => Call x earlier later

theorem ending_append {is rest : List Item} {seen : List String}
    (hitem : ∀ i ∈ is, ∀ rest, Ending x (rest, seen) → Ending x (i :: rest, seen))
    (hrest : Ending x (rest, seen)) : Ending x (is ++ rest, seen) := by
  induction is with
  | nil => exact hrest
  | cons i is ih =>
    rw [List.forall_mem_cons] at hitem
    exact hitem.1 (is ++ rest) (ih hitem.2)

/-- One item more is pending. What is inside of it is cheaper, and once its declaration is
taken fewer are left. -/
theorem ending_cons (hw : Weighs x weight) {seen : List String}
    (hfewer : ∀ is later, unmet x later < unmet x seen → Ending x (is, later)) (i : Item)
    (rest : List Item) (hrest : Ending x (rest, seen)) : Ending x (i :: rest, seen) := by
  -- by the cost of the item alone: whatever is pending behind it ends by itself
  induction hcost : i.cost weight using Nat.strongRecOn generalizing i rest with
  | _ n ih =>
    refine Acc.intro _ fun later hcall => ?_
    cases hcall with
    | pass hold =>
      refine ending_append (fun j hj others hothers => ?_) hrest
      exact ih _ (hcost ▸ Item.cost_lt_of_mem_below hw hj) j others hothers rfl
    | take htarget hnew hdecl => exact hfewer _ _ (unmet_concat_lt hdecl hnew)

theorem wellFounded_call (hw : Weighs x weight) :
    WellFounded fun later earlier => Call x earlier later := by
  refine ⟨fun ⟨is, seen⟩ => ?_⟩
  induction hk : unmet x seen using Nat.strongRecOn generalizing is seen with
  | _ k ih =>
    have hfewer : ∀ is later, unmet x later < unmet x seen → Ending x (is, later) :=
      fun is later hlt => ih _ (hk ▸ hlt) is later rfl
    induction is with
    | nil =>
      refine Acc.intro _ fun later hcall => ?_
      cases hcall
    | cons i rest ihrest => exact ending_cons hw hfewer i rest ihrest

end Calls

/-- Where runs come to an end, each gets as far as it can. -/
theorem exists_ended (h : WellFounded fun later earlier => Call x earlier later)
    (s : List Item × List String) : ∃ s', Relation.ReflTransGen (Call x) s s' ∧ Ended x s' := by
  induction s using h.induction with
  | _ s ih =>
    rcases ended_or_call s with hended | ⟨next, hcall⟩
    · exact ⟨s, .refl, hended⟩
    · obtain ⟨s', hrun, hended⟩ := ih next hcall
      exact ⟨s', .head hcall hrun, hended⟩

/-- The calls of a projection run until nothing is pending just if the projection succeeds, and
have then met what it defines. -/
theorem calls_iff_projectTypes (hacyclic : ∀ n, ¬ Relation.TransGen (Unfolds x) n n)
    (out : List String) : Relation.ReflTransGen (Call x) (startItems x, []) ([], out) ↔
      ∃ ds, projectTypes x = .ok ds ∧ ds.map Definition.name = out := by
  rw [← traversal_iff_calls]
  constructor
  · intro h
    have hresolvable : ∀ i, Reached x i → Resolvable x i := by
      rintro i ⟨r, hr, hmeets⟩ name hname
      exact (h.complete hr hmeets name hname).2
    obtain ⟨ds, hds⟩ := exists_projectTypes hacyclic hresolvable
    exact ⟨ds, hds, (traversal_of_projectTypes hacyclic hds).functional h⟩
  · rintro ⟨ds, hds, rfl⟩
    exact traversal_of_projectTypes hacyclic hds

/-- The bound on levels did not cut the script off. -/
def Script.Whole (s : Script α) : Prop :=
  ∀ type place, s.result ≠ .error (.endlessType type place)

namespace Script.Whole

theorem pure (a : α) : (Pure.pure a : Script α).Whole :=
  fun _ _ h => absurd h (by simp [Pure.pure])

theorem bind {s : Script α} {f : α → Script β} (hs : s.Whole) (hf : ∀ a, (f a).Whole) :
    (s >>= f).Whole := by
  intro type place h
  change (s.bind f).result = _ at h
  cases hresult : s.result with
  | error e =>
    simp only [Script.bind, hresult] at h
    exact hs type place (hresult.trans (congrArg Except.error (Except.error.inj h)))
  | ok a =>
    simp only [Script.bind, hresult] at h
    exact hf a type place h

theorem map {s : Script α} (hs : s.Whole) (f : α → β) : (f <$> s).Whole := by
  rw [map_eq_pure_bind]
  exact hs.bind fun a => pure (f a)

theorem mapM {f : γ → Script α} {l : List γ} (h : ∀ c ∈ l, (f c).Whole) : (l.mapM f).Whole := by
  induction l with
  | nil =>
    rw [List.mapM_nil]
    exact pure []
  | cons c l ih =>
    rw [List.forall_mem_cons] at h
    rw [List.mapM_cons]
    exact h.1.bind fun a => (ih h.2).bind fun as => pure (a :: as)

end Script.Whole

/-- One level of a projection is not cut off if what is inside is not. -/
theorem Form.whole_script {place : String} {inside : Ty → Script Union} (F : Form)
    (h : ∀ u ∈ F.inner, (inside u).Whole) : (F.script x place inside).Whole := by
  cases F with
  | found text => exact .pure _
  | optional u => exact (h u List.mem_cons_self).bind fun _ => .pure _
  | array element =>
    cases element with
    | none => exact .pure _
    | some element => exact (h element List.mem_cons_self).bind fun _ => .pure _
  | index key value =>
    refine Script.Whole.bind ?_ fun _ => .bind ?_ fun _ => .pure _
    · cases key with
      | none => exact .pure _
      | some key => exact (h key List.mem_cons_self).map _
    · cases value with
      | none => exact .pure _
      | some value => exact (h value (List.mem_append_right _ List.mem_cons_self)).map _
  | reference name args =>
    rw [script]
    by_cases hdeclared : x.catalog.contains name
    · rw [if_pos hdeclared]
      refine Script.Whole.bind ?_ fun _ => .bind (.mapM fun a ha => (h a ha).map _) fun _ => .pure _
      exact fun _ _ hcut => absurd hcut (by simp [Script.refer])
    · rw [if_neg hdeclared]
      exact fun _ _ hcut => absurd hcut (by simp [Script.fail])

/-- With this many levels or more a type has the same script, which is not cut off. -/
structure Ends (x : Context) (place : String) (n : Nat) (t : Ty) : Prop where
  stable : ∀ m, n ≤ m → project x place m t = project x place n t
  whole : (project x place n t).Whole

/-- The levels that a type costs are enough. -/
theorem ends_of_cost_le {weight : String → Nat} (hw : Weighs x weight) (place : String) (n : Nat)
    (t : Ty) (hcost : t.cost weight ≤ n) : Ends x place n t := by
  induction n generalizing t with
  | zero =>
    have hpos := Ty.cost_pos hw.pos t
    omega
  | succ n ih =>
    have hinner : ∀ u ∈ (form x t).inner, Ends x place n u := by
      intro u hu
      rw [← inner_eq_form] at hu
      have hlt := cost_lt_of_mem_inner hw hu
      exact ih u (by omega)
    refine ⟨fun m hm => ?_, ?_⟩
    · obtain ⟨k, rfl⟩ : ∃ k, m = k + 1 := ⟨m - 1, by omega⟩
      rw [project_succ, project_succ]
      exact (form x t).script_congr fun u hu => (hinner u hu).stable k (by omega)
    · rw [project_succ]
      exact (form x t).whole_script fun u hu => (hinner u hu).whole

/-- A declaration whose types end has a script that is not cut off. -/
theorem whole_script_of_ends {d : Decl}
    (h : ∀ place t, t ∈ d.supertypes ∨ t ∈ d.properties.map Property.type →
      Ends x place (levels x.catalog) t) : (script x d).Whole := by
  unfold script
  by_cases henum : d.kind = .enum
  · rw [if_pos henum]
    exact .pure _
  rw [if_neg henum]
  refine Script.Whole.bind (.bind ?_ fun _ => .bind ?_ fun _ => .pure _) fun _ => .pure _
  · refine Script.Whole.bind (.mapM fun t ht => ?_) fun _ => .pure _
    exact (h _ t (Or.inl (List.mem_of_mem_filter ht))).whole.map _
  · refine .mapM fun p hp => ?_
    exact (h _ p.type (Or.inr (List.mem_map_of_mem hp))).whole.bind fun _ => .pure _

/-- The loop over the carriers passes each declaration once at most. -/
theorem carriedFrom_eq_of_room {capability : Capability} {n m : Nat} {seen : List String}
    (hn : x.catalog.Room n seen) (hm : x.catalog.Room m seen) (name : String) (args : List Ty) :
    carriedFrom x.catalog x.capabilities capability n seen name args =
      carriedFrom x.catalog x.capabilities capability m seen name args := by
  induction n generalizing m seen name args with
  | zero => exact absurd hn.pos (Nat.lt_irrefl 0)
  | succ n ih =>
    obtain ⟨m, rfl⟩ : ∃ k, m = k + 1 := ⟨m - 1, by have hpos := hm.pos; omega⟩
    unfold carriedFrom
    cases hget : x.catalog.get? name with
    | none => rfl
    | some d =>
      obtain ⟨hd, rfl⟩ := Catalog.get?_eq_some_iff.mp hget
      by_cases hseen : d.name ∈ seen
      · simp only [if_pos hseen]
      · simp only [if_neg hseen]
        split
        · exact ih (hn.push hd hseen) (hm.push hd hseen) _ _
        · rfl

section Visits

theorem names_subset_visitAll {visit : String → Walk → Outcome}
    (h : ∀ name w, w.names ⊆ (visit name w).1.names) (names : List String) (w : Walk) :
    w.names ⊆ (visitAll visit names w).1.names := by
  induction names generalizing w with
  | nil => exact List.Subset.refl _
  | cons name names ih =>
    have hhead := h name w
    unfold visitAll
    cases hvisit : visit name w with
    | mk mid fault =>
      rw [hvisit] at hhead
      cases fault with
      | none => exact List.Subset.trans hhead (ih mid)
      | some f => exact hhead

/-- A visit gives up no slot, not even when it fails. -/
theorem names_subset_visitWithin (n : Nat) (name : String) (w : Walk) :
    w.names ⊆ (visitWithin x n name w).1.names := by
  induction n generalizing name w with
  | zero => exact List.Subset.refl _
  | succ n ih =>
    unfold visitWithin
    by_cases hmet : w.met name
    · rw [if_pos hmet]
      exact List.Subset.refl _
    rw [if_neg hmet]
    cases hget : x.catalog.get? name with
    | none => exact List.Subset.refl _
    | some d =>
      have hreserve : w.names ⊆ (w.reserve name).names := by
        rw [Walk.names_reserve]
        exact List.subset_append_left _ _
      have hall := List.Subset.trans hreserve
        (names_subset_visitAll ih (script x d).refs (w.reserve name))
      cases hvisit : visitAll (visitWithin x n) (script x d).refs (w.reserve name) with
      | mk mid fault =>
        rw [hvisit] at hall
        cases fault with
        | some f => simpa only [hvisit] using hall
        | none =>
          cases hresult : (script x d).result with
          | error f => simpa only [hvisit, hresult] using hall
          | ok source => simpa only [hvisit, hresult, Walk.names_fill] using hall

theorem visitAll_congr {visit visit' : String → Walk → Outcome} {w : Walk}
    (hkeeps : ∀ name w, w.names ⊆ (visit name w).1.names)
    (h : ∀ name later, w.names ⊆ later.names → visit name later = visit' name later)
    (names : List String) : visitAll visit names w = visitAll visit' names w := by
  induction names generalizing w with
  | nil => rfl
  | cons name names ih =>
    have hhead := hkeeps name w
    unfold visitAll
    rw [← h name w (List.Subset.refl _)]
    cases hvisit : visit name w with
    | mk mid fault =>
      cases fault with
      | some f => rfl
      | none =>
        rw [hvisit] at hhead
        exact ih fun n later hlater => h n later (List.Subset.trans hhead hlater)

/-- Levels for the declarations that are left are enough, from whatever walk a visit starts. -/
theorem visitWithin_eq_of_unmet {n m : Nat} (name : String) {w : Walk}
    (hn : unmet x w.names < n) (hm : unmet x w.names < m) :
    visitWithin x n name w = visitWithin x m name w := by
  induction n generalizing m name w with
  | zero => omega
  | succ n ih =>
    obtain ⟨m, rfl⟩ : ∃ k, m = k + 1 := ⟨m - 1, by omega⟩
    unfold visitWithin
    by_cases hmet : w.met name
    · rw [if_pos hmet, if_pos hmet]
    rw [if_neg hmet, if_neg hmet]
    cases hget : x.catalog.get? name with
    | none => rfl
    | some d =>
      have hfewer : unmet x (w.reserve name).names < unmet x w.names := by
        rw [Walk.names_reserve]
        exact unmet_concat_lt hget fun hmem => hmet ((w.met_iff name).mpr hmem)
      -- the references are visited one after another, each from a walk that has met no less
      have hsame : ∀ ref later, (w.reserve name).names ⊆ later.names →
          visitWithin x n ref later = visitWithin x m ref later := by
        intro ref later hlater
        have hle := unmet_le_of_subset (x := x) hlater
        exact ih ref (by omega) (by omega)
      simp only [visitAll_congr (names_subset_visitWithin n) hsame]

/-- What holds of the fault of every visit holds of the fault of a row of visits. -/
theorem visitAll_fault {visit : String → Walk → Outcome} {P : Fault → Prop}
    (h : ∀ name w f, (visit name w).2 = some f → P f) (names : List String) (w : Walk) :
    ∀ f, (visitAll visit names w).2 = some f → P f := by
  induction names generalizing w with
  | nil => simp [visitAll]
  | cons name names ih =>
    have hhead := h name w
    unfold visitAll
    cases hvisit : visit name w with
    | mk mid fault =>
      rw [hvisit] at hhead
      cases fault with
      | none => exact ih mid
      | some f => exact hhead

/-- The fault of a type that unfolds without end, which is where levels ran out. -/
def CutOff (f : Fault) : Prop := ∃ type place, f = .endlessType type place

theorem not_cutOff_of_visitWithin (hwhole : ∀ d ∈ x.catalog.decls, (script x d).Whole) (n : Nat)
    (name : String) (w : Walk) : ∀ f, (visitWithin x n name w).2 = some f → ¬ CutOff f := by
  induction n generalizing name w with
  | zero => simp [visitWithin]
  | succ n ih =>
    unfold visitWithin
    by_cases hmet : w.met name
    · simp [hmet]
    rw [if_neg hmet]
    cases hget : x.catalog.get? name with
    | none =>
      rintro f hf ⟨type, place, rfl⟩
      exact absurd (Option.some.inj hf) (by simp)
    | some d =>
      have hscript := hwhole d (Catalog.get?_eq_some_iff.mp hget).1
      have hall := visitAll_fault ih (script x d).refs (w.reserve name)
      cases hvisit : visitAll (visitWithin x n) (script x d).refs (w.reserve name) with
      | mk mid fault =>
        rw [hvisit] at hall
        cases fault with
        | some f => simpa only [hvisit] using hall
        | none =>
          cases hresult : (script x d).result with
          | ok source => exact fun f hf => by simp [hvisit, hresult] at hf
          | error e =>
            rintro f hf ⟨type, place, rfl⟩
            obtain rfl : e = .endlessType type place := by simpa [hvisit, hresult] using hf
            exact hscript type place hresult

end Visits

/-- Projections of a context come to an end by themselves. -/
structure Halts (x : Context) : Prop where
  /-- No run of calls goes on for ever, whatever is pending and whatever was met. -/
  calls : WellFounded fun later earlier => Call x earlier later
  /-- Each run gets to where nothing is pending or a declaration is missing. -/
  runs : ∀ s, ∃ s', Relation.ReflTransGen (Call x) s s' ∧ Ended x s'
  /-- A projection succeeds just if its calls run until nothing is pending. -/
  definitions : ∀ out, Relation.ReflTransGen (Call x) (startItems x, []) ([], out) ↔
    ∃ ds, projectTypes x = .ok ds ∧ ds.map Definition.name = out
  /-- The loop over the carriers is not cut off. -/
  carriers : ∀ capability name args n, x.catalog.size < n →
    carriedFrom x.catalog x.capabilities capability n [] name args =
      carriedArgs x.catalog x.capabilities capability name args
  /-- Every type has a script that more levels do not change. -/
  types : ∀ place t, ∃ n, Ends x place n t
  /-- For the types written in declarations the levels of a projection are enough. -/
  written : ∀ d ∈ x.catalog.decls, ∀ place t,
    t ∈ d.supertypes ∨ t ∈ d.properties.map Property.type → Ends x place (levels x.catalog) t
  /-- More levels do not change a visit, from whatever walk it starts. -/
  visits : ∀ name w n, x.catalog.size < n → visitWithin x n name w = visit x name w
  /-- No visit is cut off. -/
  faults : ∀ name w f, (visit x name w).2 = some f → ¬ CutOff f
  /-- No projection is cut off. -/
  projection : ∀ f, projectTypes x = .error f → ¬ CutOff f

/-- Where no declared container unfolds into itself, every visit and every projection halts. -/
theorem halts_of_acyclic (x : Context)
    (hacyclic : ∀ name, ¬ Relation.TransGen (Unfolds x) name name) : Halts x := by
  have hw := weighs_containerWeight hacyclic
  have hcalls := wellFounded_call hw
  have hwritten : ∀ d ∈ x.catalog.decls, ∀ place t,
      t ∈ d.supertypes ∨ t ∈ d.properties.map Property.type → Ends x place (levels x.catalog) t :=
    fun d hd place t ht => ends_of_cost_le hw place _ t (cost_le_levels hd ht)
  have hwhole : ∀ d ∈ x.catalog.decls, (script x d).Whole :=
    fun d hd => whole_script_of_ends fun place t ht => hwritten d hd place t ht
  have hfaults : ∀ name w f, (visit x name w).2 = some f → ¬ CutOff f :=
    fun name w => not_cutOff_of_visitWithin hwhole _ name w
  refine ⟨hcalls, exists_ended hcalls, calls_iff_projectTypes hacyclic, ?_, ?_, hwritten, ?_,
    hfaults, ?_⟩
  · intro capability name args n hn
    exact carriedFrom_eq_of_room (.initial hn) (.initial (Nat.lt_succ_self _)) name args
  · exact fun place t => ⟨_, ends_of_cost_le hw place _ t le_rfl⟩
  · intro name w n hn
    have hunmet := unmet_le_size (x := x) w.names
    exact visitWithin_eq_of_unmet name (by omega) (by omega)
  · intro f hf
    have hrow := visitAll_fault hfaults (startNames x) .empty
    unfold projectTypes at hf
    cases hvisit : visitAll (visit x) (startNames x) .empty with
    | mk w fault =>
      rw [hvisit] at hf hrow
      cases fault with
      | none => exact absurd hf (by simp)
      | some e =>
        obtain rfl := Except.error.inj hf
        exact hrow e rfl

/-- Bags in bags, a map whose values name its keys again, and two supertypes of each other. -/
def orchardCatalog : Catalog where
  decls := [
    { Decl.plain "Bag" .interface with
      typeParams := ["T"]
      supertypes := [.named "java.util.List" [.param "T"]] },
    { Decl.plain "Crates" .interface with
      typeParams := ["K"]
      supertypes := [.named "java.util.Map"
        [.param "K", .named "Bag" [.named "Bag" [.param "K"]]]] },
    { Decl.plain "Tree" .interface with
      supertypes := [.named "Grove" []]
      properties := [.plain "harvest" (.named "Crates" [.named "Bag" [.named "Tree" []]])] },
    { Decl.plain "Grove" .interface with
      supertypes := [.named "Tree" []]
      properties := [.plain "oldest" (.nullable (.named "Tree" []))] }]
  nodup := by decide

def orchard : Context where
  catalog := orchardCatalog
  capabilities := .ofCatalog orchardCatalog
  settings := { Settings.TypeScript.standard with roots := ["Tree"] }

theorem halts_of_acyclic_orchard :
    (∀ name, ¬ Relation.TransGen (Unfolds orchard) name name) ∧ Halts orchard := by
  have hacyclic : ∀ name, ¬ Relation.TransGen (Unfolds orchard) name name :=
    acyclic_of_rank (fun name => if name = "Crates" then 1 else 0) (by decide)
  exact ⟨hacyclic, halts_of_acyclic orchard hacyclic⟩

end Scaffold.Projection
