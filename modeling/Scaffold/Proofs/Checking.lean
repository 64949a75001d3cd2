import Scaffold.Proofs.Enclosing

/-!
What the check of a catalog decides. It accepts just the catalogs whose enclosing chains are
anchored, whose models have a place and whose inheritance runs in no circle. Of a climb along
the supertypes every open declaration leads to the one at hand, so a fault always names a
declaration that inherits from itself.
-/
namespace Scaffold.Catalog

variable {c : Catalog}

theorem forM_ok_iff {α ε : Type} (f : α → Except ε Unit) (l : List α) :
    l.forM f = .ok () ↔ ∀ x ∈ l, f x = .ok () := by
  induction l with
  | nil => simp [pure, Except.pure]
  | cons x l ih =>
    change (f x >>= fun _ => l.forM f) = .ok () ↔ _
    rw [List.forall_mem_cons, ← ih]
    cases hx : f x with
    | error e => simp [bind, Except.bind]
    | ok => simp [bind, Except.bind]

/-- A fold that faults does so at one of its elements. -/
theorem foldlM_error {α β ε : Type} {f : β → α → Except ε β} {l : List α} {b : β} {e : ε}
    (h : l.foldlM f b = .error e) : ∃ x ∈ l, ∃ b', f b' x = .error e := by
  induction l generalizing b with
  | nil => simp [pure, Except.pure] at h
  | cons x l ih =>
    rw [List.foldlM_cons] at h
    cases hx : f b x with
    | error e' =>
      obtain rfl : e' = e := by simpa [hx, bind, Except.bind] using h
      exact ⟨x, List.mem_cons_self, b, hx⟩
    | ok b' =>
      obtain ⟨y, hy, hfault⟩ := ih (by simpa [hx, bind, Except.bind] using h)
      exact ⟨y, List.mem_cons_of_mem x hy, hfault⟩

theorem checkNesting_ok_iff (d : Decl) :
    checkNesting d = .ok () ↔ d.nesting ≠ .local ∧ d.nesting ≠ .anonymous := by
  cases hnesting : d.nesting <;> simp [checkNesting, hnesting]

theorem models_ok_iff : c.models.forM checkNesting = .ok () ↔
    ∀ d ∈ c.decls, d.targets ≠ [] → d.nesting ≠ .local ∧ d.nesting ≠ .anonymous := by
  rw [forM_ok_iff]
  simp only [models, List.mem_filter, Decl.isModel, Bool.not_eq_true', List.isEmpty_eq_false_iff,
    and_imp, checkNesting_ok_iff]

theorem climb_error (n : Nat) (path : List String) (d : Decl) (done : List String) (f : Fault)
    (hd : d ∈ c.decls) (htrail : c.Trail c.Extends path d)
    (h : c.climb n path done d = .error f) :
    ∃ e ∈ c.decls, f = .cyclicInheritance e.name ∧ c.Inherits e e := by
  induction n generalizing path d done with
  | zero => simp [climb] at h
  | succ n ih =>
    unfold climb at h
    by_cases hin : d.name ∈ done
    · simp [hin] at h
    by_cases hopen : d.name ∈ path
    · have hfault : Fault.cyclicInheritance d.name = f := by simpa [hin, hopen] using h
      exact ⟨d, hd, hfault.symm, htrail.circle hd hopen⟩
    simp only [hin, hopen, if_false] at h
    cases hfold : (c.parents d).foldlM (c.climb n (d.name :: path)) done with
    | ok mid => simp [hfold, bind, Except.bind, pure, Except.pure] at h
    | error f' =>
      obtain rfl : f' = f := by simpa [hfold, bind, Except.bind] using h
      obtain ⟨e, he, done', hfault⟩ := foldlM_error hfold
      exact ih (d.name :: path) e done' (Extends.mem he) (htrail.push hd he) hfault

theorem checkInheritance_error {f : Fault} (h : c.checkInheritance = .error f) :
    ∃ e ∈ c.decls, f = .cyclicInheritance e.name ∧ c.Inherits e e := by
  unfold checkInheritance at h
  cases hfold : c.decls.foldlM (climb c (c.size + 1) []) [] with
  | ok done => simp [hfold, Except.map] at h
  | error f' =>
    obtain rfl : f' = f := by simpa [hfold, Except.map] using h
    obtain ⟨d, hd, done, hfault⟩ := foldlM_error hfold
    exact climb_error (c.size + 1) [] d done f' hd (by simp [Trail]) hfault

theorem checkInheritance_ok_iff :
    c.checkInheritance = .ok () ↔ ∀ d ∈ c.decls, ¬ c.Inherits d d := by
  constructor
  · intro h d _
    exact not_inherits_self (wellFounded_of_checkInheritance h) d
  · intro hacyclic
    cases h : c.checkInheritance with
    | ok => rfl
    | error f =>
      obtain ⟨e, he, -, hcircle⟩ := checkInheritance_error h
      exact absurd hcircle (hacyclic e he)

theorem check_ok_iff : c.check = .ok () ↔
    (∀ d ∈ c.decls, c.Anchored d) ∧
      (∀ d ∈ c.decls, d.targets ≠ [] → d.nesting ≠ .local ∧ d.nesting ≠ .anonymous) ∧
      ∀ d ∈ c.decls, ¬ c.Inherits d d := by
  rw [check_ok_iff_parts, forM_ok_iff, models_ok_iff, checkInheritance_ok_iff]
  refine and_congr_left fun _ => forall_congr' fun d => forall_congr' fun hd => ?_
  exact checkEnclosing_ok_iff hd

/-- Once the enclosing chains and the models are in order the check is that of inheritance. -/
theorem check_eq_checkInheritance (hanchored : ∀ d ∈ c.decls, c.Anchored d)
    (hplaced : ∀ d ∈ c.decls, d.targets ≠ [] → d.nesting ≠ .local ∧ d.nesting ≠ .anonymous) :
    c.check = c.checkInheritance := by
  have henclosing : (c.decls.forM fun d => c.checkEnclosing d.name (c.size + 2) [] d) = .ok () := by
    rw [forM_ok_iff]
    intro d hd
    exact (checkEnclosing_ok_iff hd).mpr (hanchored d hd)
  unfold check
  rw [henclosing, models_ok_iff.mpr hplaced]
  rfl

/-- A catalog is accepted if every way outward is anchored, no model is local or anonymous and
nothing inherits from itself, and only then. If it is the last that fails, the fault names a
declaration that does inherit from itself. -/
theorem check_ok_iff_anchored_placed_acyclic (c : Catalog) :
    (c.check = .ok () ↔
      (∀ d ∈ c.decls, c.Anchored d) ∧
      (∀ d ∈ c.decls, d.targets ≠ [] → d.nesting ≠ .local ∧ d.nesting ≠ .anonymous) ∧
      ∀ d ∈ c.decls, ¬ c.Inherits d d) ∧
    ((∀ d ∈ c.decls, c.Anchored d) →
      (∀ d ∈ c.decls, d.targets ≠ [] → d.nesting ≠ .local ∧ d.nesting ≠ .anonymous) →
      (∃ d ∈ c.decls, c.Inherits d d) →
      ∃ d ∈ c.decls, c.check = .error (.cyclicInheritance d.name) ∧ c.Inherits d d) := by
  refine ⟨check_ok_iff, ?_⟩
  rintro hanchored hplaced ⟨d, hd, hcircle⟩
  rw [check_eq_checkInheritance hanchored hplaced]
  cases h : c.checkInheritance with
  | ok => exact absurd hcircle (checkInheritance_ok_iff.mp h d hd)
  | error f =>
    obtain ⟨e, he, rfl, hself⟩ := checkInheritance_error h
    exact ⟨e, he, rfl, hself⟩

/-- A diamond with a nested type at its top, and two types that inherit from each other. -/
def entangled : Catalog where
  decls := [
    .plain "Base" .interface,
    { Decl.plain "Base.Part" .classType with nesting := .member "Base" },
    { Decl.plain "Left" .interface with supertypes := [.named "Base" []] },
    { Decl.plain "Right" .interface with supertypes := [.named "Base" []] },
    { Decl.plain "Leaf" .interface with
      supertypes := [.named "Left" [], .named "Right" []]
      targets := [.ofKind .immutable] },
    { Decl.plain "Ping" .interface with supertypes := [.nullable (.named "Pong" [])] },
    { Decl.plain "Pong" .interface with supertypes := [.named "External" [], .named "Ping" []] }]
  nodup := by decide

theorem check_ok_iff_anchored_placed_acyclic_entangled :
    ∃ d ∈ entangled.decls, entangled.check = .error (.cyclicInheritance d.name) ∧
      entangled.Inherits d d := by
  have hbase : entangled.Anchored (.plain "Base" .interface) := .outermost nofun
  have hpart : entangled.EnclosedBy
      { Decl.plain "Base.Part" .classType with nesting := .member "Base" }
      (.plain "Base" .interface) := ⟨"Base", rfl, rfl⟩
  have hanchored : ∀ d ∈ entangled.decls, entangled.Anchored d := by
    simp only [entangled, List.forall_mem_cons]
    exact ⟨hbase, .member hpart hbase, .outermost nofun, .outermost nofun, .outermost nofun,
      .outermost nofun, .outermost nofun, nofun⟩
  have hplaced : ∀ d ∈ entangled.decls, d.targets ≠ [] →
      d.nesting ≠ .local ∧ d.nesting ≠ .anonymous := by
    decide
  have hping : entangled.Extends entangled.decls[5] entangled.decls[6] :=
    extends_iff.mpr ⟨_, List.mem_cons_self, "Pong", rfl, rfl⟩
  have hpong : entangled.Extends entangled.decls[6] entangled.decls[5] :=
    extends_iff.mpr ⟨_, List.mem_cons_of_mem _ List.mem_cons_self, "Ping", rfl, rfl⟩
  have hcircle : ∃ d ∈ entangled.decls, entangled.Inherits d d :=
    ⟨entangled.decls[5], by simp, .tail (.single hping) hpong⟩
  exact (check_ok_iff_anchored_placed_acyclic entangled).2 hanchored hplaced hcircle

end Scaffold.Catalog
