import Scaffold.Proofs.Ancestry

/-!
Enclosing types. A member leads to the type that encloses it. The way outward either ends, at a
declaration that no declared type encloses, or runs in a circle. A declaration is anchored if
the way ends at a declaration that is no member. The check follows that way and remembers the
members it passed: on the way of an anchored declaration none is met twice, and where none is
met twice the way ends before the levels do.
-/
namespace Scaffold.Catalog

variable {c : Catalog}

/-- The first declaration is a member of the second. -/
def EnclosedBy (c : Catalog) (d outer : Decl) : Prop :=
  ∃ enclosing, d.nesting = .member enclosing ∧ c.get? enclosing = some outer

theorem EnclosedBy.mem {d outer : Decl} (h : c.EnclosedBy d outer) : outer ∈ c.decls := by
  obtain ⟨enclosing, -, hget⟩ := h
  exact (get?_eq_some_iff.mp hget).1

theorem EnclosedBy.unique {d outer other : Decl} (h : c.EnclosedBy d outer)
    (h' : c.EnclosedBy d other) : outer = other := by
  obtain ⟨enclosing, hnesting, hget⟩ := h
  obtain ⟨enclosing', hnesting', hget'⟩ := h'
  obtain rfl : enclosing = enclosing' := by simpa using hnesting.symm.trans hnesting'
  exact Option.some.inj (hget.symm.trans hget')

/-- The types that enclose a declaration, the innermost first, up to one that no declared type
encloses. -/
inductive Enclosures (c : Catalog) : Decl → List Decl → Prop
  | ended {d : Decl} (h : ∀ outer, ¬ c.EnclosedBy d outer) : Enclosures c d []
  | member {d outer : Decl} {chain : List Decl} (h : c.EnclosedBy d outer)
      (hrest : Enclosures c outer chain) : Enclosures c d (outer :: chain)

theorem Enclosures.acc {d : Decl} {chain : List Decl} (h : c.Enclosures d chain) :
    Acc (fun outer d => c.EnclosedBy d outer) d := by
  induction h with
  | ended h => exact Acc.intro _ fun outer houter => absurd houter (h outer)
  | member h _ ih =>
    refine Acc.intro _ fun outer houter => ?_
    rwa [← h.unique houter]

theorem Enclosures.not_circular {d : Decl} {chain : List Decl} (h : c.Enclosures d chain) :
    ¬ Relation.TransGen c.EnclosedBy d d :=
  not_circular_of_acc h.acc

inductive Anchored (c : Catalog) : Decl → Prop
  | outermost {d : Decl} (h : ∀ enclosing, d.nesting ≠ .member enclosing) : Anchored c d
  | member {d outer : Decl} (h : c.EnclosedBy d outer) (houter : Anchored c outer) : Anchored c d

theorem Anchored.enclosures {d : Decl} (h : c.Anchored d) : ∃ chain, c.Enclosures d chain := by
  induction h with
  | outermost hnesting =>
    exact ⟨[], .ended fun _ ⟨enclosing, hmember, _⟩ => hnesting enclosing hmember⟩
  | member hstep _ ih =>
    obtain ⟨chain, hchain⟩ := ih
    exact ⟨_, .member hstep hchain⟩

theorem Enclosures.transGen {d e : Decl} {chain : List Decl} (h : c.Enclosures d chain)
    (he : e ∈ chain) : Relation.TransGen c.EnclosedBy d e := by
  induction h with
  | ended => exact absurd he List.not_mem_nil
  | member hstep _ ih =>
    rcases List.mem_cons.mp he with rfl | he
    · exact .single hstep
    · exact .head hstep (ih he)

theorem Enclosures.nodup {d : Decl} {chain : List Decl} (h : c.Enclosures d chain) :
    (d :: chain).Nodup := by
  induction h with
  | ended => exact List.nodup_singleton _
  | member hstep hrest ih =>
    have hall := Enclosures.member hstep hrest
    exact List.nodup_cons.mpr ⟨fun hmem => hall.not_circular (hall.transGen hmem), ih⟩

theorem Enclosures.mem {d : Decl} {chain : List Decl} (h : c.Enclosures d chain)
    (hd : d ∈ c.decls) : ∀ e ∈ d :: chain, e ∈ c.decls := by
  induction h with
  | ended => exact List.forall_mem_singleton.mpr hd
  | member hstep _ ih => exact List.forall_mem_cons.mpr ⟨hd, ih hstep.mem⟩

/-- No declaration has as many enclosing types as there are declarations. -/
theorem Enclosures.length_lt {d : Decl} {chain : List Decl} (h : c.Enclosures d chain)
    (hd : d ∈ c.decls) : chain.length < c.size := by
  have hmem := h.mem hd
  have hnodup : ((d :: chain).map Decl.name).Nodup :=
    h.nodup.map_on fun e he f hf => eq_of_name_eq (hmem e he) (hmem f hf)
  have hle := length_le_size hnodup (by
    intro name hname
    obtain ⟨e, he, rfl⟩ := List.mem_map.mp hname
    exact mem_names (hmem e he))
  rwa [List.length_map, List.length_cons] at hle

theorem Enclosures.get?_eq_none {d : Decl} {chain : List Decl} (h : c.Enclosures d chain)
    {enclosing : String} (hnesting : (chain.getLastD d).nesting = .member enclosing) :
    c.get? enclosing = none := by
  induction h with
  | ended hended =>
    exact Option.eq_none_iff_forall_ne_some.mpr fun outer hget =>
      hended outer ⟨enclosing, hnesting, hget⟩
  | member _ _ ih =>
    rw [List.getLastD_cons] at hnesting
    exact ih hnesting

theorem Enclosures.anchored_iff {d : Decl} {chain : List Decl} (h : c.Enclosures d chain) :
    c.Anchored d ↔ ∀ enclosing, (chain.getLastD d).nesting ≠ .member enclosing := by
  induction h with
  | ended hended =>
    constructor
    · rintro (hnesting | ⟨hstep, -⟩)
      · exact hnesting
      · exact absurd hstep (hended _)
    · exact .outermost
  | member hstep _ ih =>
    rw [List.getLastD_cons, ← ih]
    constructor
    · rintro (hnesting | ⟨hstep', houter⟩)
      · obtain ⟨enclosing, hmember, -⟩ := hstep
        exact absurd hmember (hnesting enclosing)
      · rwa [hstep.unique hstep']
    · exact .member hstep

/-- A way that does not end leads on, and does not end from there. -/
theorem exists_enclosedBy_of_endless {d : Decl} (h : ¬ ∃ chain, c.Enclosures d chain) :
    ∃ outer, c.EnclosedBy d outer ∧ ¬ ∃ chain, c.Enclosures outer chain := by
  by_contra hnot
  have hended : ∀ outer, ¬ c.EnclosedBy d outer := fun outer houter =>
    hnot ⟨outer, houter, fun ⟨chain, hchain⟩ => h ⟨outer :: chain, .member houter hchain⟩⟩
  exact h ⟨[], .ended hended⟩

theorem checkEnclosing_step (start : String) (n : Nat) {seen : List String} {d outer : Decl}
    (hnew : d.name ∉ seen) (h : c.EnclosedBy d outer) :
    c.checkEnclosing start (n + 1) seen d = c.checkEnclosing start n (d.name :: seen) outer := by
  obtain ⟨enclosing, hnesting, hget⟩ := h
  simp only [checkEnclosing, hnesting, hnew, hget, if_false]

/-- The check comes to the outermost type and finds there what it would have found at first. The
induction is on the way outward; the members that were passed lead to each of its
declarations. -/
theorem checkEnclosing_of_enclosures (start : String) {n : Nat} {seen : List String} {d : Decl}
    {chain : List Decl} (h : c.Enclosures d chain) (hd : d ∈ c.decls)
    (htrail : c.Trail c.EnclosedBy seen d) (hn : chain.length < n) :
    c.checkEnclosing start n seen d = c.checkEnclosing start 1 [] (chain.getLastD d) := by
  induction h generalizing n seen with
  | @ended d hended =>
    have hnew : d.name ∉ seen := fun hmem =>
      (Enclosures.ended hended).not_circular (htrail.circle hd hmem)
    obtain ⟨n, rfl⟩ := Nat.exists_eq_add_one.mpr hn
    simp only [checkEnclosing, hnew, List.getLastD_nil, List.not_mem_nil, if_false]
    cases hnesting : d.nesting with
    | topLevel | «local» | anonymous => rfl
    | member enclosing =>
      simp only [(Enclosures.ended hended).get?_eq_none hnesting]
  | @member d outer chain hstep hrest ih =>
    have hnew : d.name ∉ seen := fun hmem =>
      (Enclosures.member hstep hrest).not_circular (htrail.circle hd hmem)
    obtain ⟨n, rfl⟩ := Nat.exists_eq_add_one.mpr (Nat.zero_lt_of_lt hn)
    rw [checkEnclosing_step start n hnew hstep, List.getLastD_cons]
    exact ih hstep.mem (htrail.push hd hstep) (Nat.lt_of_succ_lt_succ hn)

/-- On a circle the check meets a member again before its levels run out. -/
theorem checkEnclosing_of_endless (start : String) (n : Nat) (seen : List String) (d : Decl)
    (hd : d ∈ c.decls) (hroom : c.Room n seen) (h : ¬ ∃ chain, c.Enclosures d chain) :
    c.checkEnclosing start n seen d = .error (.unsupportedNesting start circular) := by
  induction n generalizing seen d with
  | zero => exact absurd hroom.pos (Nat.lt_irrefl 0)
  | succ n ih =>
    obtain ⟨outer, hstep, houter⟩ := exists_enclosedBy_of_endless h
    by_cases hnew : d.name ∈ seen
    · obtain ⟨enclosing, hnesting, -⟩ := hstep
      simp only [checkEnclosing, hnesting, hnew, if_true]
    · rw [checkEnclosing_step start n hnew hstep]
      exact ih (d.name :: seen) outer hstep.mem (hroom.push hd hnew) houter

theorem checkEnclosing_ok_iff {d : Decl} (hd : d ∈ c.decls) :
    c.checkEnclosing d.name (c.size + 2) [] d = .ok () ↔ c.Anchored d := by
  by_cases h : ∃ chain, c.Enclosures d chain
  · obtain ⟨chain, hchain⟩ := h
    have hn := hchain.length_lt hd
    rw [checkEnclosing_of_enclosures d.name hchain hd (by simp [Trail]) (by omega),
      hchain.anchored_iff]
    unfold checkEnclosing
    cases hnesting : (chain.getLastD d).nesting with
    | topLevel | «local» | anonymous => simp
    | member enclosing => simp [hchain.get?_eq_none hnesting]
  · rw [checkEnclosing_of_endless d.name (c.size + 2) [] d hd (.initial (by omega)) h]
    exact iff_of_false (by simp) fun hanchored => h hanchored.enclosures

end Scaffold.Catalog
