import Scaffold.Metadata.Document
import Scaffold.Proofs.Parsing
import Scaffold.Proofs.Recording

/-!
Metadata documents are read back from what they are written as. Each reader restores what its
writer was given, as long as the levels that are left reach down to the deepest part.
-/
namespace Scaffold

namespace Reader

variable {α : Type} {read : Reader α} {write : α → Tree}

/-- A reader gives back what was written, if the nesting is not too deep. -/
def Restores (read : Reader α) (write : α → Tree) : Prop :=
  ∀ a levels, (write a).depth ≤ levels → read levels (write a) = .ok a

theorem Restores.list (h : Restores read write) :
    Restores (Reader.list read) (Tree.ofList write) := by
  intro as levels hdepth
  obtain ⟨below, rfl, hbelow⟩ := Tree.exists_below_list hdepth
  exact list_ofList fun a ha => h a below (hbelow _ (List.mem_map_of_mem ha))

theorem optional_text {levels : Nat} (o : Option String) :
    optional text levels (Tree.ofOption .text o) = .ok o :=
  optional_ofOption nofun fun _ _ => rfl

theorem restores_texts : Restores (Reader.list text) (Tree.ofList .text) :=
  Restores.list fun _ _ _ => rfl

theorem Restores.whole (h : Restores read write) (hfaithful : ∀ a, (write a).Faithful) :
    Restores (Tagging.whole read) write := fun a levels hdepth =>
  (Tagging.whole_eq (hfaithful a) hdepth).trans (h a levels hdepth)

end Reader

namespace Tree

theorem faithful_ofOption {α : Type} {write : α → Tree} {o : Option α}
    (h : ∀ a ∈ o, (write a).Faithful) : (ofOption write o).Faithful := by
  cases o with
  | none => exact .null
  | some a => exact h a rfl

theorem faithful_ofList {α : Type} {write : α → Tree} {as : List α}
    (h : ∀ a ∈ as, (write a).Faithful) : (ofList write as).Faithful :=
  .list (List.forall_mem_map.mpr h)

end Tree

open Scaffold.Reader Scaffold.Tree Scaffold.Record

namespace Ty

mutual

theorem faithful_toTree : ∀ t : Ty, t.toTree.Faithful
  | .scalar s => by
    cases s <;> exact .table (by simp [Scalar.toTree, Faithful.text])
  | .named name [] => .table (by simp [Faithful.text])
  | .named name (arg :: args) =>
    .table (by
      have := faithful_toTrees (arg :: args)
      simp [Faithful.text, Faithful.list this])
  | .array element => .table (by simp [Faithful.text, faithful_toTree element])
  | .nullable inner => .table (by simp [Faithful.text, faithful_toTree inner])
  | .param name => .table (by simp [Faithful.text])

theorem faithful_toTrees : ∀ ts : List Ty, ∀ t ∈ toTrees ts, t.Faithful
  | [] => List.forall_mem_nil _
  | t :: ts => List.forall_mem_cons.mpr ⟨faithful_toTree t, faithful_toTrees ts⟩

end

mutual

theorem ofTree_toTree : ∀ (t : Ty) (held : Bool) (levels : Nat), t.toTree.depth ≤ levels →
    ofTree held levels t.toTree = .ok t
  | .scalar s, held, levels, hdepth => by
    obtain ⟨below, rfl, -⟩ := exists_below_table hdepth
    cases s <;> rfl
  | .named name [], held, levels, hdepth => by
    obtain ⟨below, rfl, -⟩ := exists_below_table hdepth
    rfl
  | .named name (arg :: args), held, levels, hdepth => by
    obtain ⟨below, rfl, hbelow⟩ := exists_below_table hdepth
    have hargs : Reader.list (fun _ t => ofTree true below t) below
        (.list (toTrees (arg :: args))) = .ok (arg :: args) := by
      obtain ⟨lower, rfl, hlower⟩ :=
        exists_below_list (hbelow ("args", .list (toTrees (arg :: args))) (by simp))
      -- the arguments are read with the level of their list as well, which they do not need
      exact mapM_toTrees (arg :: args) (lower + 1) fun t ht => (hlower t ht).trans (Nat.le_succ _)
    have hsplit : tagging.split held (Ty.named name (arg :: args)).toTree =
        .ok ("named", .entries [("name", .text name), ("args", .list (toTrees (arg :: args)))]) :=
      Tagging.split_table (by decide) (by simp [tagging])
    rw [ofTree, hsplit]
    simp only [ok_bind]
    exact bind_ok_iff.mpr ⟨(name, arg :: args), ofEntries_of_fills (by simp [Field.must, Field.of])
      (.must rfl (.of hargs .nil)), rfl⟩
  | .array element, held, levels, hdepth => by
    obtain ⟨below, rfl, hbelow⟩ := exists_below_table hdepth
    have helement := ofTree_toTree element true below (hbelow ("element", _) (by simp))
    have hsplit : tagging.split held (Ty.array element).toTree =
        .ok ("array", .entries [("element", element.toTree)]) :=
      Tagging.split_table (by decide) (by simp [tagging])
    rw [ofTree, hsplit]
    simp only [ok_bind]
    exact bind_ok_iff.mpr
      ⟨element, ofEntries_of_fills (List.nodup_singleton _) (.must helement .nil), rfl⟩
  | .nullable inner, held, levels, hdepth => by
    obtain ⟨below, rfl, hbelow⟩ := exists_below_table hdepth
    have hinner := ofTree_toTree inner true below (hbelow ("inner", _) (by simp))
    have hsplit : tagging.split held (Ty.nullable inner).toTree =
        .ok ("nullable", .entries [("inner", inner.toTree)]) :=
      Tagging.split_table (by decide) (by simp [tagging])
    rw [ofTree, hsplit]
    simp only [ok_bind]
    exact bind_ok_iff.mpr
      ⟨inner, ofEntries_of_fills (List.nodup_singleton _) (.must hinner .nil), rfl⟩
  | .param name, held, levels, hdepth => by
    obtain ⟨below, rfl, -⟩ := exists_below_table hdepth
    rfl

theorem mapM_toTrees : ∀ (ts : List Ty) (levels : Nat), (∀ t ∈ toTrees ts, t.depth ≤ levels) →
    (toTrees ts).mapM (ofTree true levels) = .ok ts
  | [], _, _ => rfl
  | t :: ts, levels, hdepth => by
    rw [toTrees, List.forall_mem_cons] at hdepth
    rw [toTrees, List.mapM_cons, ofTree_toTree t true levels hdepth.1, ok_bind,
      mapM_toTrees ts levels hdepth.2]
    rfl

end

theorem restores_reader : Restores reader toTree :=
  Restores.whole (fun t levels hdepth => ofTree_toTree t false levels hdepth) faithful_toTree

end Ty

namespace Directive

theorem faithful_toTree (d : Directive) : d.toTree.Faithful := by
  have htext : ∀ o : Option String, (ofOption .text o).Faithful := fun o =>
    faithful_ofOption fun a _ => .text a
  have htexts : ∀ args : List String, (ofList .text args).Faithful := fun args =>
    faithful_ofList fun a _ => .text a
  cases d <;> exact .table (by simp [Faithful.text, htext, htexts, Ty.faithful_toTree])

theorem restores_ofTree : Restores ofTree toTree := by
  intro d levels hdepth
  cases d with
  | «omit» target | «include» target | init expr target | noInit target | preventOverride target =>
    obtain ⟨below, rfl, -⟩ := exists_below_table hdepth
    cases target <;> rfl
  | annotate target name args =>
    obtain ⟨below, rfl, hbelow⟩ := exists_below_table hdepth
    have hargs : Reader.list text below (ofList .text args) = .ok args :=
      restores_texts args below (hbelow ("args", ofList .text args) (by simp))
    have hsplit : tagging.split false (toTree (.annotate target name args)) = .ok ("annotate",
        .entries [("target", .text target), ("annotation", .text name),
          ("args", ofList .text args)]) :=
      Tagging.split_table (by decide) (by simp [tagging])
    rw [ofTree, hsplit]
    simp only [ok_bind]
    exact bind_ok_iff.mpr ⟨(target, name, args), ofEntries_of_fills (by decide)
      (.must rfl (.must rfl (.of hargs .nil))), rfl⟩
  | narrow target type =>
    obtain ⟨below, rfl, hbelow⟩ := exists_below_table hdepth
    have htype := Ty.ofTree_toTree type true below (hbelow ("type", type.toTree) (by simp))
    have hsplit : tagging.split false (toTree (.narrow target type)) =
        .ok ("narrow", .entries [("target", .text target), ("type", type.toTree)]) :=
      Tagging.split_table (by decide) (by simp [tagging])
    rw [ofTree, hsplit]
    simp only [ok_bind]
    exact bind_ok_iff.mpr ⟨(target, type), ofEntries_of_fills (by simp [Field.must])
      (.must rfl (.must htype .nil)), rfl⟩

theorem restores_reader : Restores reader toTree := restores_ofTree.whole faithful_toTree

end Directive

namespace Nesting

theorem faithful_toTree (n : Nesting) : n.toTree.Faithful := by
  cases n <;> exact .table (by simp [Faithful.text])

theorem restores_ofTree : Restores ofTree toTree := by
  intro n levels hdepth
  cases n <;> obtain ⟨below, rfl, -⟩ := exists_below_table hdepth <;> rfl

theorem restores_reader : Restores reader toTree := restores_ofTree.whole faithful_toTree

end Nesting

namespace Target

theorem restores_reader : Restores reader toTree := by
  intro t levels hdepth
  refine read_table (by decide) hdepth fun below hbelow => ?_
  have hkind : choice Kind.written below t.kind.toTree = .ok t.kind := by cases t.kind <;> rfl
  have harrays : ∀ mode : ArrayMode, choice ArrayMode.written below mode.toTree = .ok mode := by
    intro mode
    cases mode <;> rfl
  have hmutable : optional flag below (ofOption .flag t.isMutable) = .ok t.isMutable :=
    optional_ofOption nofun fun _ _ => rfl
  have horder : list text below (ofList .text t.compareOrder) = .ok t.compareOrder :=
    restores_texts _ below (hbelow ("compare_order", ofList .text t.compareOrder) (by simp))
  have hguard : optional size below (ofOption (fun n : Nat => .int n) t.guardAt) = .ok t.guardAt :=
    optional_ofOption nofun fun _ _ => rfl
  exact .must hkind <| .of (optional_text _) <| .of (optional_text _) <| .of (optional_text _) <|
    .of (optional_text _) <| .of (optional_text _) <| .of rfl <| .of rfl <| .of rfl <| .of rfl <|
    .of rfl <| .of rfl <| .of hmutable <| .of rfl <| .of rfl <| .of (harrays _) <|
    .of (harrays _) <| .of horder <| .of rfl <| .of hguard .nil

theorem faithful_toTree {t : Target} (h : ∀ n ∈ t.guardAt, n < 2 ^ 64) : t.toTree.Faithful := by
  have htext : ∀ o : Option String, (ofOption .text o).Faithful := fun o =>
    faithful_ofOption fun a _ => .text a
  have hkind : t.kind.toTree.Faithful := by cases t.kind <;> exact .text _
  have harrays : ∀ mode : ArrayMode, mode.toTree.Faithful := fun mode => by
    cases mode <;> exact .text _
  have hmutable : (ofOption .flag t.isMutable).Faithful := faithful_ofOption fun b _ => .flag b
  have horder : (ofList .text t.compareOrder).Faithful := faithful_ofList fun a _ => .text a
  have hguard : (ofOption (fun n : Nat => .int n) t.guardAt).Faithful :=
    faithful_ofOption fun n hn => .size (h n hn)
  exact .table (by simp [Faithful.flag, hkind, htext, harrays, hmutable, horder, hguard])

end Target

namespace Property

theorem restores_reader : Restores reader toTree := by
  intro p levels hdepth
  refine read_table (by decide) hdepth fun below hbelow => ?_
  have htype := Ty.restores_reader p.type below (hbelow ("type", p.type.toTree) (by simp))
  have hdirectives := Directive.restores_reader.list p.directives below
    (hbelow ("directives", ofList Directive.toTree p.directives) (by simp))
  exact .must rfl <| .must htype <| .of rfl <| .of hdirectives .nil

theorem faithful_toTree (p : Property) : p.toTree.Faithful := by
  have hdirectives : (ofList Directive.toTree p.directives).Faithful :=
    faithful_ofList fun d _ => d.faithful_toTree
  exact .table (by simp [Faithful.text, Faithful.flag, p.type.faithful_toTree, hdirectives])

end Property

namespace Decl

theorem restores_reader : Restores reader toTree := by
  intro d levels hdepth
  refine read_table (by decide) hdepth fun below hbelow => ?_
  have hkind : choice Kind.written below d.kind.toTree = .ok d.kind := by cases d.kind <;> rfl
  have hnesting := Nesting.restores_reader d.nesting below
    (hbelow ("nesting", d.nesting.toTree) (by simp))
  have hparams := restores_texts d.typeParams below
    (hbelow ("type_params", ofList .text d.typeParams) (by simp))
  have hsupertypes := Ty.restores_reader.list d.supertypes below
    (hbelow ("supertypes", ofList Ty.toTree d.supertypes) (by simp))
  have hproperties := Property.restores_reader.list d.properties below
    (hbelow ("properties", ofList Property.toTree d.properties) (by simp))
  have htargets := Target.restores_reader.list d.targets below
    (hbelow ("targets", ofList Target.toTree d.targets) (by simp))
  have hannotations := Directive.restores_reader.list d.annotations below
    (hbelow ("annotations", ofList Directive.toTree d.annotations) (by simp))
  have hentries := restores_texts d.enumEntries below
    (hbelow ("enum_entries", ofList .text d.enumEntries) (by simp))
  exact .must rfl <| .of hkind <| .of hnesting <| .of hparams <| .of hsupertypes <|
    .of hproperties <| .of htargets <| .of hannotations <| .of hentries <| .of rfl .nil

theorem faithful_toTree {d : Decl} (h : ∀ t ∈ d.targets, ∀ n ∈ t.guardAt, n < 2 ^ 64) :
    d.toTree.Faithful := by
  have hkind : d.kind.toTree.Faithful := by cases d.kind <;> exact .text _
  have htexts : ∀ as : List String, (ofList .text as).Faithful := fun as =>
    faithful_ofList fun a _ => .text a
  have hsupertypes : (ofList Ty.toTree d.supertypes).Faithful :=
    faithful_ofList fun t _ => t.faithful_toTree
  have hproperties : (ofList Property.toTree d.properties).Faithful :=
    faithful_ofList fun p _ => p.faithful_toTree
  have htargets : (ofList Target.toTree d.targets).Faithful :=
    faithful_ofList fun t ht => Target.faithful_toTree (h t ht)
  have hannotations : (ofList Directive.toTree d.annotations).Faithful :=
    faithful_ofList fun a _ => a.faithful_toTree
  exact .table (by simp [Faithful.text, Faithful.flag, hkind, d.nesting.faithful_toTree, htexts,
    hsupertypes, hproperties, htargets, hannotations])

end Decl

namespace Document

theorem restores_reader : Restores reader toTree := by
  intro d levels hdepth
  refine read_table (by decide) hdepth fun below hbelow => ?_
  have htypes := Decl.restores_reader.list d.types below
    (hbelow ("types", ofList Decl.toTree d.types) (by simp))
  exact .of htypes .nil

/-- A document whose guards are machine sizes and whose tree is not too deep is read back from
its text. -/
theorem parse_render (d : Document)
    (hguards : ∀ decl ∈ d.types, ∀ t ∈ decl.targets, ∀ n ∈ t.guardAt, n < 2 ^ 64)
    (hdepth : d.toTree.depth ≤ maxLevels) : parse d.render = .ok d := by
  have htypes : (ofList Decl.toTree d.types).Faithful :=
    faithful_ofList fun decl hdecl => Decl.faithful_toTree (hguards decl hdecl)
  have hfaithful : d.toTree.Faithful := .table (by simp [htypes])
  rw [parse, Json.read, render, Json.parse?_compact hfaithful]
  simp only [restores_reader d maxLevels hdepth]

/-- A document with a property of an unusual name and type, and a target with a guard. -/
def lexicon : Document where
  types := [
    { Decl.plain "lexicon.Entry" .interface with
      nesting := .member "lexicon.Shelf"
      properties := [
        { name := "say \"ä\"\n\x01"
          type := .nullable (.named "kotlin.collections.Map"
            [.scalar .string, .array (.named "lexicon.Sense" [])])
          isMutable := true
          directives := [.annotate "Dto" "lexicon.Stored" ["depth = 2"], .init "null" none] }]
      targets := [{ Target.ofKind .jpaEntity with guardAt := some 3 }] }]

theorem parse_render_lexicon : lexicon.toTree.depth = 10 ∧ parse lexicon.render = .ok lexicon :=
  ⟨rfl, parse_render lexicon (by decide) (by decide)⟩

end Document

end Scaffold
