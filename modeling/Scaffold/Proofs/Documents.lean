import Scaffold.Proofs.OrderIndependence
import Scaffold.Proofs.Writing

/-!
The documents of a pass. Classes are told apart by their qualified names, and documents are
placed by the pieces of the package, of which empty ones do not count. Where no package has an
empty piece every class has a path of its own, and if nothing else is written there, its
document can be read there in the end.
-/
namespace Scaffold

/-- A piece has only characters of the list, and not the separator. -/
theorem ne_of_mem_splitOn {a : Char} {xs piece : List Char} (h : piece ∈ xs.splitOn a) :
    ∀ c ∈ piece, c ∈ xs ∧ c ≠ a := by
  induction xs generalizing piece with
  | nil => simp_all
  | cons x xs ih =>
    rw [List.splitOn_cons_eq_if_modifyHead] at h
    by_cases hx : x = a
    · rw [if_pos (by simpa using hx)] at h
      rcases List.mem_cons.mp h with rfl | h
      · simp
      · exact fun c hc => ⟨List.mem_cons_of_mem x (ih h c hc).1, (ih h c hc).2⟩
    · rw [if_neg (by simpa using hx)] at h
      cases hpieces : xs.splitOn a with
      | nil => exact absurd hpieces (List.splitOn_ne_nil a xs)
      | cons first rest =>
        rw [hpieces, List.modifyHead_cons] at h
        rcases List.mem_cons.mp h with rfl | h
        · have hfirst := ih (hpieces ▸ List.mem_cons_self)
          rw [List.forall_mem_cons]
          exact ⟨⟨List.mem_cons_self, hx⟩,
            fun c hc => ⟨List.mem_cons_of_mem x (hfirst c hc).1, (hfirst c hc).2⟩⟩
        · have hrest := ih (hpieces ▸ List.mem_cons_of_mem first h)
          exact fun c hc => ⟨List.mem_cons_of_mem x (hrest c hc).1, (hrest c hc).2⟩

namespace Dotted

theorem ne_of_mem_segments {package segment : String} (h : segment ∈ segments package) :
    segment ≠ "" ∧ ∀ c ∈ segment.toList, c ∈ package.toList ∧ c ≠ '.' := by
  obtain ⟨piece, hpiece, rfl⟩ := List.mem_map.mp h
  obtain ⟨hpiece, hne⟩ := List.mem_filter.mp hpiece
  refine ⟨?_, ?_⟩
  · intro hempty
    have hnil : piece = [] := by simpa using congrArg String.toList hempty
    simp [hnil] at hne
  · simpa using ne_of_mem_splitOn hpiece

/-- A package none of whose pieces between dots is empty. -/
def Tidy (package : String) : Prop := package = "" ∨ [] ∉ package.toList.splitOn '.'

instance (package : String) : Decidable (Tidy package) :=
  inferInstanceAs (Decidable (_ ∨ _))

theorem intercalate_segments {package : String} (h : Tidy package) :
    ".".intercalate (segments package) = package := by
  rcases h with rfl | hpieces
  · rfl
  · have hall : (package.toList.splitOn '.').filter (· ≠ []) = package.toList.splitOn '.' := by
      refine List.filter_eq_self.mpr fun piece hpiece => ?_
      have hne : piece ≠ [] := fun hnil => hpieces (hnil ▸ hpiece)
      simpa using hne
    apply String.toList_inj.mp
    rw [segments, hall]
    simp [Function.comp_def, List.intercalate_splitOn]

theorem eq_of_segments {package package' : String} (h : Tidy package) (h' : Tidy package')
    (hsegments : segments package = segments package') : package = package' := by
  rw [← intercalate_segments h, hsegments, intercalate_segments h']

end Dotted

namespace PathName

variable {base part : String}

theorem isAbsolute_of_slashFree (hslash : '/' ∉ part.toList) : isAbsolute part = false := by
  cases hchars : part.toList with
  | nil => simp [isAbsolute, hchars]
  | cons c rest =>
    have hc : c ≠ '/' := fun hc => hslash (by simp [hchars, hc])
    simpa [isAbsolute, hchars] using hc

/-- A part stands behind one slash, whether the base ended in one or not. -/
theorem push_cases (base : String) (hslash : '/' ∉ part.toList) :
    (base = "" ∧ push base part = part) ∨ ∃ front,
      (push base part).toList = front ++ '/' :: part.toList ∧
        (base.toList = front ∧ front ≠ [] ∨ base.toList = front ++ ['/']) := by
  unfold push
  rw [isAbsolute_of_slashFree hslash]
  simp only [Bool.false_eq_true, if_false]
  rcases List.eq_nil_or_concat' base.toList with hnil | ⟨front, last, hlast⟩
  · obtain rfl : base = "" := by simpa using hnil
    exact Or.inl ⟨rfl, by simp⟩
  · have hgetLast : base.toList.getLast? = some last := by simp [hlast]
    rw [hgetLast]
    by_cases hends : last = '/'
    · refine Or.inr ⟨front, ?_, Or.inr (hends ▸ hlast)⟩
      simp [hends, hlast, String.toList_append]
    · refine Or.inr ⟨base.toList, ?_, Or.inl ⟨rfl, by simp [hlast]⟩⟩
      simp [hends, String.toList_append]

theorem parts_push (hpart : part ≠ "") (hslash : '/' ∉ part.toList) :
    parts (push base part) = parts base ++ [part] := by
  have hnonempty : part.toList ≠ [] := by simpa using hpart
  have hone : part.toList.splitOn '/' = [part.toList] := List.splitOn_eq_singleton hslash
  rcases push_cases base hslash with ⟨rfl, hpush⟩ | ⟨front, hpush, hbase⟩
  · simp [parts, hpush, hone, hpart]
  · have hfront : (front.splitOn '/').filter (· ≠ []) =
        (base.toList.splitOn '/').filter (· ≠ []) := by
      rcases hbase with ⟨rfl, -⟩ | hbase
      · rfl
      · simp [hbase, List.splitOn_append_cons_self]
    rw [parts, hpush, List.splitOn_append_cons_self, hone, List.filter_append, hfront,
      List.map_append]
    simp [parts, hpart]

theorem isAbsolute_push (hslash : '/' ∉ part.toList) :
    isAbsolute (push base part) = isAbsolute base := by
  rcases push_cases base hslash with ⟨rfl, hpush⟩ | ⟨front, hpush, hbase⟩
  · rw [hpush, isAbsolute_of_slashFree hslash]
    rfl
  · rcases hbase with ⟨hbase, hne⟩ | hbase
    · simp only [isAbsolute, hpush, hbase, List.head?_append_of_ne_nil _ hne]
    · simp only [isAbsolute, hpush, hbase, List.head?_append]
      cases front <;> rfl

theorem getLast?_push (base : String) (hpart : part ≠ "") (hslash : '/' ∉ part.toList) :
    (push base part).toList.getLast? = part.toList.getLast? := by
  have hne : part.toList ≠ [] := by simpa using hpart
  rcases push_cases base hslash with ⟨-, hpush⟩ | ⟨front, hpush, -⟩
  · rw [hpush]
  · rw [hpush, List.getLast?_append_of_ne_nil _ (List.cons_ne_nil _ _), List.getLast?_cons]
    cases hlast : part.toList.getLast? with
    | none => exact absurd (List.getLast?_eq_none_iff.mp hlast) hne
    | some c => rfl

end PathName

namespace Job

variable {package name : String}

/-- The names that lead from the output directory to the document of a class. -/
def documentNames (package name : String) : Names := Dotted.segments package ++ [name ++ ".json"]

theorem push_segments (output : String) {segments : List String}
    (hsegments : ∀ s ∈ segments, s ≠ "" ∧ '/' ∉ s.toList) :
    PathName.parts (segments.foldl PathName.push output) = PathName.parts output ++ segments ∧
      PathName.isAbsolute (segments.foldl PathName.push output) = PathName.isAbsolute output := by
  induction segments generalizing output with
  | nil => simp
  | cons s segments ih =>
    rw [List.forall_mem_cons] at hsegments
    obtain ⟨⟨hne, hslash⟩, hrest⟩ := hsegments
    obtain ⟨hparts, habsolute⟩ := ih (PathName.push output s) hrest
    rw [List.foldl_cons, hparts, habsolute, PathName.parts_push hne hslash,
      PathName.isAbsolute_push hslash]
    simp

theorem classPath_spec (output : String) (hpackage : '/' ∉ package.toList)
    (hname : '/' ∉ name.toList) :
    PathName.parts (classPath output package name) =
        PathName.parts output ++ documentNames package name ∧
      PathName.isAbsolute (classPath output package name) = PathName.isAbsolute output := by
  have hsegments : ∀ s ∈ Dotted.segments package, s ≠ "" ∧ '/' ∉ s.toList := by
    intro s hs
    obtain ⟨hne, hchars⟩ := Dotted.ne_of_mem_segments hs
    exact ⟨hne, fun hslash => hpackage (hchars _ hslash).1⟩
  have hfile : '/' ∉ (name ++ ".json").toList := by simp [String.toList_append, hname]
  obtain ⟨hparts, habsolute⟩ := push_segments output hsegments
  unfold classPath documentNames
  rw [PathName.parts_push (by simp) hfile, PathName.isAbsolute_push hfile, hparts, habsolute,
    List.append_assoc]
  exact ⟨rfl, rfl⟩

theorem enter_of_mem_documentNames {s : String} (h : s ∈ documentNames package name)
    (directory : Names) : FileTree.enter directory s = directory ++ [s] := by
  have hdots : s ≠ "." ∧ s ≠ ".." := by
    rcases List.mem_append.mp h with hs | hs
    · have hchars := (Dotted.ne_of_mem_segments hs).2
      constructor <;> rintro rfl <;> exact (hchars '.' (by decide)).2 rfl
    · obtain rfl := List.mem_singleton.mp hs
      have hend : 'n' ∈ (name ++ ".json").toList := by simp [String.toList_append]
      constructor <;> intro hsame <;> exact absurd (hsame ▸ hend) (by decide)
  simp [FileTree.enter, hdots.1, hdots.2]

theorem place_classPath (t : FileTree) (output : String) (hpackage : '/' ∉ package.toList)
    (hname : '/' ∉ name.toList) :
    t.place (classPath output package name) =
      (PathName.parts output).foldl FileTree.enter (FileTree.base t.working output) ++
        documentNames package name := by
  obtain ⟨hparts, habsolute⟩ := classPath_spec output hpackage hname
  have hcomponents : FileTree.components (classPath output package name) =
      PathName.parts (classPath output package name) := by
    have hfile : '/' ∉ (name ++ ".json").toList := by simp [String.toList_append, hname]
    have hlast : (classPath output package name).toList.getLast? = some 'n' := by
      rw [classPath, PathName.getLast?_push _ (by simp) hfile]
      simp [String.toList_append]
    simp [FileTree.components, hlast]
  have hbase : FileTree.base t.working (classPath output package name) =
      FileTree.base t.working output := by
    simp [FileTree.base, habsolute]
  have hnames : ∀ (l : List String) (directory : Names),
      (∀ s ∈ l, ∀ d, FileTree.enter d s = d ++ [s]) →
      l.foldl FileTree.enter directory = directory ++ l := by
    intro l
    induction l with
    | nil => simp
    | cons s l ih =>
      intro directory hl
      rw [List.forall_mem_cons] at hl
      rw [List.foldl_cons, hl.1, ih _ hl.2, List.append_assoc, List.singleton_append]
  rw [FileTree.place, hcomponents, hparts, hbase, List.foldl_append]
  exact hnames _ _ fun s hs => enter_of_mem_documentNames hs

theorem documentNames_inj {package' name' : String} :
    documentNames package name = documentNames package' name' ↔
      Dotted.segments package = Dotted.segments package' ∧ name = name' := by
  unfold documentNames
  constructor
  · intro h
    obtain ⟨hsegments, hfile⟩ := List.append_inj' h rfl
    refine ⟨hsegments, ?_⟩
    simpa using hfile
  · rintro ⟨hsegments, rfl⟩
    rw [hsegments]

/-- The path of the document of a class. -/
def pathOf (job : Job) (d : ClassDesc) : String := classPath job.output d.package d.name

def document (d : ClassDesc) : ByteArray := (Json.pretty d.toTree).toUTF8

/-- Where the TypeScript definitions are written. -/
def definitionsPath (job : Job) : String :=
  PathName.push job.output job.settings.typescript.output

/-- No slash in what the path of a document is made of. -/
def SlashFree (d : ClassDesc) : Prop := '/' ∉ d.package.toList ∧ '/' ∉ d.name.toList

instance (d : ClassDesc) : Decidable (SlashFree d) := inferInstanceAs (Decidable (_ ∧ _))

/-- The documents of two classes are placed alike. -/
def SamePieces (d d' : ClassDesc) : Prop :=
  Dotted.segments d.package = Dotted.segments d'.package ∧ d.name = d'.name

instance (d d' : ClassDesc) : Decidable (SamePieces d d') := inferInstanceAs (Decidable (_ ∧ _))

variable {job : Job} {d d' : ClassDesc}

theorem pathOf_eq_iff (hd : SlashFree d) (hd' : SlashFree d') :
    pathOf job d = pathOf job d' ↔ SamePieces d d' := by
  constructor
  · intro h
    have hparts := congrArg PathName.parts h
    rw [pathOf, pathOf, (classPath_spec _ hd.1 hd.2).1, (classPath_spec _ hd'.1 hd'.2).1,
      List.append_cancel_left_eq] at hparts
    exact documentNames_inj.mp hparts
  · rintro ⟨hsegments, hname⟩
    rw [pathOf, pathOf, classPath, classPath, hsegments, hname]

theorem place_pathOf_eq_iff (t : FileTree) (hd : SlashFree d) (hd' : SlashFree d') :
    t.place (pathOf job d) = t.place (pathOf job d') ↔ SamePieces d d' := by
  rw [pathOf, pathOf, place_classPath t _ hd.1 hd.2, place_classPath t _ hd'.1 hd'.2,
    List.append_cancel_left_eq]
  exact documentNames_inj

theorem qualifiedName_eq_of_samePieces (hd : Dotted.Tidy d.package) (hd' : Dotted.Tidy d'.package)
    (h : SamePieces d d') : d.qualifiedName = d'.qualifiedName := by
  rw [ClassDesc.qualifiedName, ClassDesc.qualifiedName, Dotted.eq_of_segments hd hd' h.1, h.2]

theorem files_eq (job : Job) (o : Output) : ∃ rest,
    job.files o = o.classes.map (fun d => (pathOf job d, Json.pretty d.toTree)) ++ rest ∧
      ∀ f ∈ rest, o.typescript.isSome ∧ f.1 = definitionsPath job := by
  unfold files
  cases o.typescript with
  | none => exact ⟨[], by simp [pathOf], by simp⟩
  | some definitions => exact ⟨_, rfl, by simp [definitionsPath]⟩

/-- Every class of a pass has its own document. Where no slash stands in packages and names,
the paths are distinct just if no two classes differ in empty pieces of their packages only, and
they are if no package has an empty piece. What is written in the end without links in the way
and without definitions on top is the document of each class at its path. -/
theorem each_class_has_its_document (c : Catalog) (job : Job) (o : Output)
    (ho : Output.ofCatalog c job.settings = .ok o) (hslash : ∀ d ∈ o.classes, SlashFree d) :
    ((o.classes.map (pathOf job)).Nodup ↔
      ∀ d ∈ o.classes, ∀ d' ∈ o.classes, SamePieces d d' → d = d') ∧
    ((∀ d ∈ o.classes, Dotted.Tidy d.package) → (o.classes.map (pathOf job)).Nodup) ∧
    ∀ t t', t.LinkFree → Leaves (job.write o) t () t' → (o.classes.map (pathOf job)).Nodup →
      (o.typescript.isSome → ∀ d ∈ o.classes,
        t.place (definitionsPath job) ≠ t.place (pathOf job d)) →
      ∀ d ∈ o.classes, t'.read? (pathOf job d) = some (document d) := by
  obtain ⟨-, survey, -, ho⟩ := Output.ofCatalog_ok_iff.mp ho
  have hqualified := Output.nodup_qualifiedNames ho
  have hclasses : o.classes.Nodup := hqualified.of_map _
  have hiff : (o.classes.map (pathOf job)).Nodup ↔
      ∀ d ∈ o.classes, ∀ d' ∈ o.classes, SamePieces d d' → d = d' := by
    rw [List.nodup_map_iff_inj_on hclasses]
    refine forall₂_congr fun d hd => forall₂_congr fun d' hd' => ?_
    rw [pathOf_eq_iff (hslash d hd) (hslash d' hd')]
  refine ⟨hiff, fun htidy => hiff.mpr fun d hd d' hd' hsame => ?_, ?_⟩
  · exact List.inj_on_of_nodup_map hqualified hd hd'
      (qualifiedName_eq_of_samePieces (htidy d hd) (htidy d' hd') hsame)
  · intro t t' hfree hwrite hpaths helsewhere d hd
    obtain ⟨rest, hfiles, hrest⟩ := files_eq job o
    obtain ⟨before, after, hsplit⟩ := List.append_of_mem hd
    have hall := allWritten_of_forM hwrite
    rw [hfiles, hsplit, List.map_append, List.map_cons, List.append_assoc, List.cons_append]
      at hall
    refine hall.read? hfree fun g hg => ?_
    rcases List.mem_append.mp hg with hg | hg
    · -- a class that is written later is another one, so its pieces differ
      obtain ⟨d', hd', rfl⟩ := List.mem_map.mp hg
      have hmem : d' ∈ o.classes := by simp [hsplit, hd']
      have hne : d' ≠ d := by
        rintro rfl
        rw [hsplit] at hclasses
        exact (List.nodup_cons.mp (List.nodup_append.mp hclasses).2.1).1 hd'
      rw [ne_eq, place_pathOf_eq_iff t (hslash d' hmem) (hslash d hd)]
      exact fun hsame => hne (hiff.mp hpaths d' hmem d hd hsame)
    · obtain ⟨hsome, hpath⟩ := hrest g hg
      rw [hpath]
      exact helsewhere hsome d hd

def out : Job := { standard with output := "out" }

/-- A user with an immutable class in each of these packages. -/
def usersIn (packages : List String) : Catalog where
  decls := [{ Decl.plain "a.User" .interface with
    properties := [.plain "id" (.scalar .long)]
    targets := packages.map fun p => { Target.ofKind .immutable with package := some p } }]
  nodup := by simp

def outputIn (packages : List String) : Output :=
  (Output.ofCatalog (usersIn packages) .standard).toOption.getD default

/-- An empty file system after the classes in these packages were written. -/
def treeWith (packages : List String) : FileTree :=
  ((out.write (outputIn packages)).run.run ⟨[], []⟩).2

theorem leaves_treeWith (packages : List String)
    (h : ((out.write (outputIn packages)).run.run ⟨[], []⟩).1.isOk) :
    Leaves (out.write (outputIn packages)) ⟨[], []⟩ () (treeWith packages) :=
  leaves_of_isOk h

theorem each_class_has_its_document_users :
    Output.ofCatalog (usersIn ["a.model", "a.view"]) .standard =
        .ok (outputIn ["a.model", "a.view"]) ∧
      Leaves (out.write (outputIn ["a.model", "a.view"])) ⟨[], []⟩ ()
        (treeWith ["a.model", "a.view"]) ∧
      ((outputIn ["a.model", "a.view"]).classes.map (pathOf out)).Nodup ∧
      ∀ d ∈ (outputIn ["a.model", "a.view"]).classes,
        (treeWith ["a.model", "a.view"]).read? (pathOf out d) = some (document d) := by
  have hok : Output.ofCatalog (usersIn ["a.model", "a.view"]) .standard =
      .ok (outputIn ["a.model", "a.view"]) := rfl
  have hfree : (⟨[], []⟩ : FileTree).LinkFree := by
    intro at_ target
    by_cases hroot : at_ = [] <;> simp [FileTree.entry?, hroot]
  have hwrite := leaves_treeWith ["a.model", "a.view"] (by decide +kernel)
  obtain ⟨-, hnodup, hread⟩ := each_class_has_its_document (usersIn ["a.model", "a.view"])
    out (outputIn ["a.model", "a.view"]) hok (by decide)
  have hpaths := hnodup (by decide)
  have helsewhere : ∀ d ∈ (outputIn ["a.model", "a.view"]).classes,
      FileTree.place ⟨[], []⟩ (definitionsPath out) ≠
        FileTree.place ⟨[], []⟩ (pathOf out d) := by decide +kernel
  exact ⟨hok, hwrite, hpaths, hread _ _ hfree hwrite hpaths fun _ => helsewhere⟩

/-- A dot at the end of a package makes another name for a class, but no other path. -/
theorem document_overwritten :
    Output.ofCatalog (usersIn ["a.model", "a.model."]) .standard =
        .ok (outputIn ["a.model", "a.model."]) ∧
      (outputIn ["a.model", "a.model."]).classes.map ClassDesc.qualifiedName =
        ["a.model.ImmutableUser", "a.model..ImmutableUser"] ∧
      ¬ ((outputIn ["a.model", "a.model."]).classes.map (pathOf out)).Nodup ∧
      Leaves (out.write (outputIn ["a.model", "a.model."])) ⟨[], []⟩ ()
        (treeWith ["a.model", "a.model."]) ∧
      (treeWith ["a.model", "a.model."]).fileNames =
        [["out", "types.d.ts"],
          ["out", "a", "model", "ImmutableUser.json"]] := by
  refine ⟨rfl, rfl, by decide, leaves_treeWith _ (by decide +kernel), ?_⟩
  decide +kernel

end Job

end Scaffold
