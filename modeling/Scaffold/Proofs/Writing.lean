import Scaffold.Pass
import Scaffold.Proofs.Walking

/-!
What a row of writes leaves behind. A write makes directories where nothing is and puts one
file, so everything else stays as it is. After the whole row a path leads to a file, and this
holds what was written to it unless a later path of the row leads to the same place.
-/
namespace Scaffold

namespace FileTree

variable {t t' t'' : FileTree} {at_ : Names} {path : String} {content : ByteArray}

/-- All that is in the first tree is in the second as it was, and no link is new. -/
structure Keeps (t t' : FileTree) : Prop where
  working : t'.working = t.working
  entry : ∀ {at_ e}, t.entry? at_ = some e → t'.entry? at_ = some e
  linkFree : t.LinkFree → t'.LinkFree

namespace Keeps

theorem refl (t : FileTree) : Keeps t t := ⟨rfl, id, id⟩

theorem trans (h : Keeps t t') (h' : Keeps t' t'') : Keeps t t'' :=
  ⟨h'.working.trans h.working, fun he => h'.entry (h.entry he),
    fun hfree => h'.linkFree (h.linkFree hfree)⟩

theorem grows (h : Keeps t t') : Grows t t' :=
  ⟨h.working, h.entry, h.entry, fun he => ⟨_, h.entry he⟩⟩

end Keeps

theorem LinkFree.put {e : Entry} (hfree : t.LinkFree) (hroot : at_ ≠ [])
    (he : ∀ target, e ≠ .link target) : (t.put at_ e).LinkFree := by
  intro other target hlink
  by_cases hsame : other = at_
  · subst hsame
    rw [FileTree.entry?_put_self hroot] at hlink
    exact he target (Option.some.inj hlink)
  · rw [FileTree.entry?_put_ne hsame] at hlink
    exact hfree other target hlink

theorem ne_nil_of_entry?_none (h : t.entry? at_ = none) : at_ ≠ [] := by
  rintro rfl
  simp [FileTree.entry?] at h

theorem Keeps.put_directory (h : t.entry? at_ = none) : Keeps t (t.put at_ .directory) where
  working := rfl
  entry hother := by
    rw [FileTree.entry?_put_ne, hother]
    rintro rfl
    simp [hother] at h
  linkFree hfree := hfree.put (ne_nil_of_entry?_none h) (by simp)

theorem keeps_of_makeDirectory (h : t.makeDirectory path = .done t') : Keeps t t' := by
  have hput : ∃ at_, t.entry? at_ = none ∧ t' = t.put at_ .directory := by
    unfold makeDirectory at h
    cases hlast : (PathName.parts path).getLast? with
    | none =>
      simp only [hlast] at h
      by_cases hempty : path = "" <;> simp [hempty] at h
    | some name =>
      simp only [hlast] at h
      cases hstop : t.follow (maxLinks + 1) (base t.working path)
          (PathName.parts path).dropLast with
      | directory at_ =>
        simp only [hstop] at h
        by_cases hthere : name = "." ∨ name = ".." ∨ (t.entry? (at_ ++ [name])).isSome
        · simp [hthere] at h
        rw [if_neg hthere] at h
        by_cases hpath : isPath path ∧ name.utf8ByteSize ≤ maxNameBytes
        · rw [if_pos hpath] at h
          have hnone : t.entry? (at_ ++ [name]) = none := by
            simpa using fun hsome => hthere (Or.inr (Or.inr hsome))
          exact ⟨at_ ++ [name], hnone, (Made.done.inj h).symm⟩
        · simp [hpath] at h
      | file | free | link | missing | blocked => simp [hstop] at h
  obtain ⟨at_, hnone, rfl⟩ := hput
  exact .put_directory hnone

theorem keeps_makeDirectories (levels : Nat) (path : String) (t : FileTree) :
    Keeps t (t.makeDirectories levels path).2 := by
  induction levels generalizing path with
  | zero => exact .refl t
  | succ levels ih =>
    unfold makeDirectories
    by_cases hempty : path = ""
    · rw [if_pos hempty]
      exact .refl t
    rw [if_neg hempty]
    cases hmade : t.makeDirectory path with
    | done t' => exact keeps_of_makeDirectory hmade
    | «exists» | blocked => exact .refl t
    | missing =>
      cases hparent : PathName.parent? path with
      | none => exact .refl t
      | some parent =>
        have habove := ih parent
        cases hrest : t.makeDirectories levels parent with
        | mk isMade t' =>
          rw [hrest] at habove
          cases isMade with
          | false => simpa [hrest] using habove
          | true =>
            simp only [hrest, if_true]
            cases hagain : t'.makeDirectory path with
            | done t'' => exact habove.trans (keeps_of_makeDirectory hagain)
            | «exists» | missing | blocked => exact habove

/-- A file was written where the path leads, and nothing else was changed. -/
structure Written (t t' : FileTree) (path : String) (content : ByteArray) (at_ : Names) :
    Prop where
  grows : Grows t t'
  leads : t'.find path = .file at_ content
  others : ∀ {other e}, other ≠ at_ → t.entry? other = some e → t'.entry? other = some e
  linkFree : t.LinkFree → t'.LinkFree

theorem written_of_write? (h : t.write? path content = some t') :
    ∃ at_, Written t t' path content at_ := by
  obtain ⟨at_, hfind, rfl⟩ : ∃ at_, ((∃ old, t.find path = .file at_ old) ∨
      t.find path = .free at_) ∧ t.put at_ (.file content) = t' := by
    unfold write? at h
    cases hfind : t.find path with
    | file at_ old =>
      simp only [hfind, Option.some.injEq] at h
      exact ⟨at_, Or.inl ⟨old, rfl⟩, h⟩
    | free at_ =>
      simp only [hfind, Option.some.injEq] at h
      exact ⟨at_, Or.inr rfl, h⟩
    | directory | link | missing | blocked => simp [hfind] at h
  have hbefore : t.entry? at_ = none ∨ ∃ old, t.entry? at_ = some (.file old) := by
    rcases hfind with ⟨old, hfile⟩ | hfree
    · exact Or.inr ⟨old, entry?_of_find_file hfile⟩
    · exact Or.inl (entry?_of_find_free hfree)
  have hroot : at_ ≠ [] := by
    rintro rfl
    simp [FileTree.entry?] at hbefore
  have hnew : entry? (t.put at_ (.file content)) at_ = some (.file content) :=
    entry?_put_self hroot
  have hgrows : Grows t (t.put at_ (.file content)) :=
    .put (hbefore.imp_right fun hfile => ⟨hfile, content, rfl⟩)
  have hbecomes := hgrows.find path
  refine ⟨at_, hgrows, ?_, fun hother he => (entry?_put_ne hother).trans he,
    fun hfree => hfree.put hroot (by simp)⟩
  rcases hfind with ⟨old, hfile⟩ | hfree
  · rw [hfile] at hbecomes
    obtain ⟨content', hfile', hfind⟩ := hbecomes
    obtain rfl : content' = content := by simpa [hnew] using hfile'.symm
    exact hfind
  · rw [hfree] at hbecomes
    exact hbecomes content hnew

/-- The places of all files. -/
def fileNames (t : FileTree) : List Names :=
  t.entries.filterMap fun e =>
    match e.2 with
    | .file _ => some e.1
    | _ => none

end FileTree

/-- The action succeeds on the first tree and leaves the second. -/
def Leaves {α : Type} (m : Disk α) (t : FileTree) (a : α) (t' : FileTree) : Prop :=
  m.run.run t = (.ok a, t')

theorem Leaves.of_bind {α β : Type} {m : Disk α} {f : α → Disk β} {t t'' : FileTree} {b : β}
    (h : Leaves (m >>= f) t b t'') : ∃ a t', Leaves m t a t' ∧ Leaves (f a) t' b t'' := by
  unfold Leaves at h
  rw [ExceptT.run_bind, StateT.run_bind] at h
  cases hm : m.run.run t with
  | mk r t' =>
    rw [hm] at h
    cases r with
    | error e =>
      have hfault : (.error e : Except Fault β) = .ok b := congrArg Prod.fst h
      simp at hfault
    | ok a => exact ⟨a, t', hm, h⟩

section Steps

variable {α β : Type} {t t' : FileTree} {a : α} {b : β}

theorem leaves_get_bind {f : FileTree → Disk β} :
    Leaves (get >>= f) t b t' ↔ Leaves (f t) t b t' := Iff.rfl

theorem leaves_set_bind {mid : FileTree} {f : PUnit → Disk β} :
    Leaves (set mid >>= f) t b t' ↔ Leaves (f ⟨⟩) mid b t' := Iff.rfl

theorem not_leaves_throw {e : Fault} : ¬ Leaves (throw e : Disk α) t a t' := fun h => by
  have hfault : (.error e : Except Fault α) = .ok a := congrArg Prod.fst h
  simp at hfault

theorem leaves_set_iff {mid : FileTree} {u : PUnit} :
    Leaves (set mid) t u t' ↔ mid = t' := by
  constructor
  · exact fun h => congrArg Prod.snd h
  · rintro rfl
    rfl

theorem leaves_of_isOk {m : Disk Unit} (h : (m.run.run t).1.isOk) :
    Leaves m t () (m.run.run t).2 := by
  unfold Leaves
  cases hrun : m.run.run t with
  | mk r t' =>
    rw [hrun] at h
    cases r with
    | error e => simp [Except.isOk, Except.toBool] at h
    | ok => rfl

end Steps

namespace Job

open FileTree

theorem written_of_writeFile {path content : String} {t t' : FileTree}
    (h : Leaves (writeFile path content) t () t') :
    ∃ at_, Written t t' path content.toUTF8 at_ := by
  obtain ⟨mid, hkeeps, hwrite⟩ :
      ∃ mid, Keeps t mid ∧ mid.write? path content.toUTF8 = some t' := by
    unfold writeFile at h
    cases hparent : PathName.parent? path with
    | none =>
      simp only [hparent] at h
      rw [leaves_get_bind] at h
      cases hwrite : t.write? path content.toUTF8 with
      | none => exact absurd (by simpa only [hwrite] using h) not_leaves_throw
      | some t'' =>
        simp only [hwrite, leaves_set_iff] at h
        exact ⟨t, .refl t, hwrite.trans (congrArg some h)⟩
    | some parent =>
      simp only [hparent] at h
      rw [leaves_get_bind, leaves_set_bind] at h
      cases hmade : t.makeDirectories (parent.length + 1) parent with
      | mk isMade mid =>
        have hkeeps := keeps_makeDirectories (parent.length + 1) parent t
        rw [hmade] at hkeeps
        cases isMade with
        | false =>
          simp only [hmade, Bool.false_eq_true, if_false] at h
          obtain ⟨_, _, hthrow, -⟩ := h.of_bind
          exact absurd hthrow not_leaves_throw
        | true =>
          simp only [hmade, if_true] at h
          rw [leaves_get_bind] at h
          cases hwrite : mid.write? path content.toUTF8 with
          | none => exact absurd (by simpa only [hwrite] using h) not_leaves_throw
          | some t'' =>
            simp only [hwrite, leaves_set_iff] at h
            exact ⟨mid, hkeeps, hwrite.trans (congrArg some h)⟩
  obtain ⟨at_, hwritten⟩ := written_of_write? hwrite
  refine ⟨at_, hkeeps.grows.trans hwritten.grows, hwritten.leads, ?_, ?_⟩
  · exact fun hother he => hwritten.others hother (hkeeps.entry he)
  · exact fun hfree => hwritten.linkFree (hkeeps.linkFree hfree)

/-- What is left behind by writing these files in order. -/
structure AllWritten (t t' : FileTree) (files : List (String × String)) : Prop where
  grows : Grows t t'
  linkFree : t.LinkFree → t'.LinkFree
  others : ∀ {at_ e}, t.entry? at_ = some e →
    (∀ f ∈ files, ∀ content, t'.find f.1 ≠ .file at_ content) → t'.entry? at_ = some e
  holds : ∀ before f after, files = before ++ f :: after → ∃ at_ content,
    t'.find f.1 = .file at_ content ∧
      ((∀ g ∈ after, ∀ other, t'.find g.1 ≠ .file at_ other) → content = f.2.toUTF8)

theorem allWritten_of_forM {files : List (String × String)} {t t' : FileTree}
    (h : Leaves (files.forM fun f => writeFile f.1 f.2) t () t') : AllWritten t t' files := by
  induction files generalizing t with
  | nil =>
    obtain rfl : t = t' := congrArg Prod.snd h
    exact ⟨.refl t, id, fun he _ => he, by simp⟩
  | cons f files ih =>
    obtain ⟨_, mid, hfirst, hrest⟩ := h.of_bind
    obtain ⟨at_, hwritten⟩ := written_of_writeFile hfirst
    have hall := ih hrest
    have hentry := entry?_of_find_file hwritten.leads
    -- what comes after the first file can only change its content
    obtain ⟨content, hafter, hleads⟩ : ∃ content, t'.entry? at_ = some (.file content) ∧
        t'.find f.1 = .file at_ content := by
      have hbecomes := hall.grows.find f.1
      rwa [hwritten.leads] at hbecomes
    refine ⟨hwritten.grows.trans hall.grows, fun hfree => hall.linkFree (hwritten.linkFree hfree),
      ?_, ?_⟩
    · intro other e he hothers
      rw [List.forall_mem_cons] at hothers
      have hne : other ≠ at_ := by
        rintro rfl
        exact hothers.1 content hleads
      exact hall.others (hwritten.others hne he) hothers.2
    · rintro (_ | ⟨g, before⟩) f' after hsplit
      · obtain ⟨rfl, rfl⟩ := List.cons.inj hsplit
        refine ⟨at_, content, hleads, fun hothers => ?_⟩
        have hkept := hall.others hentry hothers
        exact (FileTree.Entry.file.inj (Option.some.inj (hkept.symm.trans hafter))).symm
      · obtain ⟨rfl, htail⟩ := List.cons.inj hsplit
        exact hall.holds before f' after htail

/-- Without links, a path of the row reads what was written to it, unless a later path of the
row tells the same place. -/
theorem AllWritten.read? {t t' : FileTree} {before after : List (String × String)}
    {f : String × String} (h : AllWritten t t' (before ++ f :: after)) (hfree : t.LinkFree)
    (hplaces : ∀ g ∈ after, t.place g.1 ≠ t.place f.1) : t'.read? f.1 = some f.2.toUTF8 := by
  have hfree' := h.linkFree hfree
  have hplace : ∀ path, t'.place path = t.place path := fun path => by
    rw [place, place, h.grows.working]
  obtain ⟨at_, content, hleads, hcontent⟩ := h.holds before f after rfl
  have hat := hfree'.place_of_find hleads
  have hothers : ∀ g ∈ after, ∀ other, t'.find g.1 ≠ .file at_ other := by
    intro g hg other hsame
    have hother := hfree'.place_of_find hsame
    exact hplaces g hg (by rw [← hplace, ← hplace, ← hat, ← hother])
  rw [FileTree.read?, hleads, hcontent hothers]

end Job

end Scaffold
