import Scaffold.Proofs.Lineage

/-!
The order of the properties of a type. The names of its supertypes' tables come one after the
other and its own names last, each at its first place. The merge of a property only ever adds
a name at the end, so the names of a table are the names that a lineage declares in turn.
-/
namespace Scaffold.PropertyTable

variable {c : Catalog}

/-- A property as a declaration of this name declares it. -/
abbrev Declaration := String × Property

def declarations (d : Decl) : List Declaration := d.properties.map fun p => (d.name, p)

def declaredNames (d : Decl) : List String := d.properties.map Property.name

/-- Merges declarations in order. -/
def mergeAll (ws : List Declaration) : List Effective :=
  ws.foldl (fun es w => mergeInto w.1 w.2 es) []

theorem mergeAll_concat (ws : List Declaration) (w : Declaration) :
    mergeAll (ws ++ [w]) = mergeInto w.1 w.2 (mergeAll ws) := by
  rw [mergeAll, List.foldl_append]
  rfl

theorem declareAll_eq_mergeAll (ds : List Decl) :
    declareAll [] ds = mergeAll (ds.flatMap declarations) := by
  rw [declareAll, mergeAll, List.foldl_flatMap]
  simp only [declarations, List.foldl_map, declare]

theorem mergeInto_eq_renew (owner : String) (p : Property) (es : List Effective) :
    mergeInto owner p es =
      Distinct.renew Effective.name p.name (.ofProperty owner p) (·.redeclare owner p) es := by
  induction es with
  | nil => rfl
  | cons e es ih => rw [mergeInto, Distinct.renew, ih]

theorem names_mergeInto (owner : String) (p : Property) (es : List Effective) :
    (mergeInto owner p es).map Effective.name =
      if p.name ∈ es.map Effective.name then es.map Effective.name
      else es.map Effective.name ++ [p.name] := by
  rw [mergeInto_eq_renew]
  apply Distinct.keys_renew
  · rfl
  · exact fun e he => he

theorem nodup_declare (d : Decl) {es : List Effective} (h : (es.map Effective.name).Nodup) :
    ((declare d es).map Effective.name).Nodup := by
  unfold declare
  refine List.foldlRecOn (motive := fun es : List Effective => (es.map Effective.name).Nodup)
    d.properties _ h ?_
  intro es hes p _
  rw [names_mergeInto]
  by_cases hp : p.name ∈ es.map Effective.name
  · rwa [if_pos hp]
  · rw [if_neg hp]
    exact Distinct.nodup_concat hes hp

theorem nodup_walk (n : Nat) (w : Walk) (d : Decl) (h : (w.entries.map Effective.name).Nodup) :
    ((walk c n w d).entries.map Effective.name).Nodup := by
  induction n generalizing w d with
  | zero => exact h
  | succ n ih =>
    unfold walk
    by_cases hmet : d.name ∈ w.met
    · rwa [if_pos hmet]
    · rw [if_neg hmet]
      apply nodup_declare
      refine List.foldlRecOn (motive := fun w : Walk => (w.entries.map Effective.name).Nodup)
        (c.parents d) (walk c n) (b := ⟨d.name :: w.met, w.entries⟩) h ?_
      exact fun w hw e _ => ih w e hw

/-- A table has each name once, whether the catalog was checked or not. -/
theorem nodup_names_ofCatalog {model : String} {t : PropertyTable}
    (h : ofCatalog c model = .ok t) : t.names.Nodup := by
  cases hget : c.get? model with
  | none => simp [ofCatalog, hget] at h
  | some d =>
    simp only [ofCatalog, hget, Except.ok.injEq] at h
    rw [← h]
    exact nodup_walk (c.size + 1) ⟨[], []⟩ d List.nodup_nil

theorem names_mergeAll (ws : List Declaration) :
    (mergeAll ws).map Effective.name = (ws.map fun w => w.2.name).eraseDups := by
  induction ws using List.reverseRecOn with
  | nil => rfl
  | append_singleton ws w ih =>
    rw [mergeAll_concat, names_mergeInto, ih, List.map_append, List.map_singleton,
      Distinct.eraseDups_concat]
    simp only [List.mem_eraseDups]

theorem names_declareAll (ds : List Decl) :
    (declareAll [] ds).map Effective.name = (ds.flatMap declaredNames).eraseDups := by
  rw [declareAll_eq_mergeAll, names_mergeAll, List.map_flatMap]
  simp only [declarations, List.map_map, Function.comp_def]
  rfl

theorem isSome_get?_iff (t : PropertyTable) (p : String) :
    (t.get? p).isSome ↔ p ∈ t.names := by
  simp [get?, names]

theorem require_ok_iff (t : PropertyTable) (p context : String) :
    (∃ e, t.require p context = .ok e) ↔ p ∈ t.names := by
  rw [← isSome_get?_iff]
  cases hget : t.get? p with
  | none => simp [require, hget]
  | some e => simp [require, hget]

/-- The names of the table of the type that a supertype clause names, if it is declared. -/
def contributed (c : Catalog) (t : Ty) : List String :=
  match t.head?.map (ofCatalog c) with
  | some (.ok t) => t.names
  | _ => []

variable (h : WellFounded fun e d => c.Extends d e)

theorem flatMap_contributed (d : Decl) :
    d.supertypes.flatMap (contributed c) =
      (c.parents d).flatMap fun e => (declareAll [] (Catalog.lineage h e)).map Effective.name := by
  unfold Catalog.parents
  induction d.supertypes with
  | nil => rfl
  | cons t ts ih =>
    rw [List.flatMap_cons, ih]
    cases hhead : t.head? with
    | none => simp [contributed, hhead]
    | some name =>
      cases hget : c.get? name with
      | none => simp [contributed, hhead, hget, ofCatalog]
      | some e => simp [contributed, hhead, hget, ofCatalog_eq h hget, names]

/-- Only first occurrences count, so sharing the walk over the supertypes changes nothing. -/
theorem names_lineage (d : Decl) :
    (declareAll [] (Catalog.lineage h d)).map Effective.name =
      (d.supertypes.flatMap (contributed c) ++ declaredNames d).eraseDups := by
  rw [names_declareAll, Catalog.lineage_eq, List.flatMap_append, List.flatMap_singleton,
    flatMap_contributed h]
  refine Distinct.eraseDups_append_congr ?_ rfl
  rw [Distinct.eraseDups_flatMap_eraseDups, List.flatMap_assoc]
  refine Distinct.eraseDups_flatMap_congr fun e _ => ?_
  rw [names_declareAll, Distinct.eraseDups_idem]

theorem mem_names_lineage (d : Decl) (p : String) :
    p ∈ (declareAll [] (Catalog.lineage h d)).map Effective.name ↔
      ∃ e, c.Reaches d e ∧ p ∈ declaredNames e := by
  rw [names_declareAll, List.mem_eraseDups, List.mem_flatMap]
  simp only [Catalog.mem_lineage h]

/-- The table of a declared type of a checked catalog: what the supertypes contribute in the
order of the clauses, then its own properties, each name once. -/
theorem names_eq_contributed_then_own (c : Catalog) (model : String) (d : Decl)
    (hcheck : c.check = .ok ()) (hget : c.get? model = some d) :
    ∃ t, ofCatalog c model = .ok t ∧
      t.names = (d.supertypes.flatMap (contributed c) ++ declaredNames d).eraseDups ∧
      t.names.Nodup ∧
      (∀ p, p ∈ t.names ↔ ∃ e, c.Reaches d e ∧ p ∈ declaredNames e) ∧
      (∀ p, (t.get? p).isSome ↔ p ∈ t.names) ∧
      ∀ p context, (∃ e, t.require p context = .ok e) ↔ p ∈ t.names := by
  have h := Catalog.wellFounded_of_check hcheck
  refine ⟨_, ofCatalog_eq h hget, names_lineage h d, ?_, mem_names_lineage h d,
    isSome_get?_iff _, require_ok_iff _⟩
  rw [names, names_lineage h d]
  exact Distinct.nodup_eraseDups _

/-- Two supertypes over a common one, and a clause that names no declared type. -/
def diamond : Catalog where
  decls := [
    { Decl.plain "Base" .interface with
      properties := [.plain "id" (.scalar .long), .plain "label" (.scalar .string)] },
    { Decl.plain "Left" .interface with
      supertypes := [.named "Base" []]
      properties := [.plain "left" (.scalar .int), .plain "label" (.scalar .string)] },
    { Decl.plain "Right" .interface with
      supertypes := [.named "Base" []]
      properties := [.plain "id" (.scalar .int), .plain "right" (.scalar .int)] },
    { Decl.plain "Model" .interface with
      supertypes := [.named "Left" [], .named "External" [], .named "Right" []]
      properties := [.plain "own" (.scalar .boolean), .plain "left" (.scalar .long)] }]
  nodup := by decide

theorem names_eq_contributed_then_own_diamond :
    diamond.check = .ok () ∧ diamond.get? "Model" = some diamond.decls[3] ∧
      ∃ t, ofCatalog diamond "Model" = .ok t ∧
        t.names = ["id", "label", "left", "right", "own"] := by
  have hcheck : diamond.check = .ok () := rfl
  have hget : diamond.get? "Model" = some diamond.decls[3] := rfl
  obtain ⟨t, hok, hnames, -⟩ :=
    names_eq_contributed_then_own diamond "Model" diamond.decls[3] hcheck hget
  refine ⟨hcheck, hget, t, hok, hnames.trans ?_⟩
  decide

end Scaffold.PropertyTable
