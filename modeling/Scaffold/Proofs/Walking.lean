import Scaffold.FileTree
import Mathlib.Data.List.Basic

/-!
Where paths lead while a file system grows. What is there stays what it is, but a file may get
another content, so a path that led to a directory or a file leads there still. Without links a
path leads to one place only, which can be told from its names.
-/
namespace Scaffold.FileTree

variable {t t' t'' : FileTree} {at_ other : Names} {e : Entry}

theorem lookup_filter_ne {β : Type} {a b : Names} (h : b ≠ a) (l : List (Names × β)) :
    (l.filter fun x => x.1 ≠ a).lookup b = l.lookup b := by
  induction l with
  | nil => rfl
  | cons x l ih =>
    by_cases hx : x.1 = a
    · have hne : (b == x.1) = false := by simpa [hx] using h
      rw [List.filter_cons_of_neg (by simpa using hx), ih, List.lookup_cons, hne]
    · rw [List.filter_cons_of_pos (by simpa using hx), List.lookup_cons, List.lookup_cons, ih]

theorem entry?_put_self (h : at_ ≠ []) : entry? (t.put at_ e) at_ = some e := by
  simp [FileTree.entry?, put, h]

theorem entry?_put_ne (h : other ≠ at_) : entry? (t.put at_ e) other = t.entry? other := by
  have hne : (other == at_) = false := by simpa using h
  by_cases hroot : other = []
  · simp [FileTree.entry?, hroot]
  · simp only [FileTree.entry?, put, hroot, if_false, List.lookup_cons, hne]
    exact lookup_filter_ne h t.entries

/-- All that is in the first tree is in the second, but files may have another content. -/
structure Grows (t t' : FileTree) : Prop where
  working : t'.working = t.working
  directory : ∀ {at_}, t.entry? at_ = some .directory → t'.entry? at_ = some .directory
  link : ∀ {at_ target}, t.entry? at_ = some (.link target) →
    t'.entry? at_ = some (.link target)
  file : ∀ {at_ content}, t.entry? at_ = some (.file content) →
    ∃ content', t'.entry? at_ = some (.file content')

namespace Grows

theorem refl (t : FileTree) : Grows t t := ⟨rfl, id, id, fun h => ⟨_, h⟩⟩

theorem trans (h : Grows t t') (h' : Grows t' t'') : Grows t t'' where
  working := h'.working.trans h.working
  directory he := h'.directory (h.directory he)
  link he := h'.link (h.link he)
  file he := by
    obtain ⟨content, he⟩ := h.file he
    exact h'.file he

/-- Something is put where nothing was, or a file where a file was. -/
theorem put (h : t.entry? at_ = none ∨ (∃ content, t.entry? at_ = some (.file content)) ∧
    ∃ content, e = .file content) : Grows t (t.put at_ e) := by
  have hroot : at_ ≠ [] := by
    rintro rfl
    rcases h with h | ⟨⟨_, h⟩, -⟩ <;> simp [FileTree.entry?] at h
  have hkept : ∀ {other kept}, t.entry? other = some kept → (∀ content, kept ≠ .file content) →
      entry? (t.put at_ e) other = some kept := by
    intro other kept hother hnofile
    rw [FileTree.entry?_put_ne, hother]
    rintro rfl
    rcases h with h | ⟨⟨content, h⟩, -⟩
    · simp [hother] at h
    · exact hnofile content (Option.some.inj (hother.symm.trans h))
  refine ⟨rfl, fun hother => hkept hother (by simp), fun hother => hkept hother (by simp), ?_⟩
  intro other content hother
  by_cases hsame : other = at_
  · subst hsame
    rcases h with h | ⟨-, content', rfl⟩
    · simp [hother] at h
    · exact ⟨content', entry?_put_self hroot⟩
  · exact ⟨content, (entry?_put_ne hsame).trans hother⟩

end Grows

/-- What a stop becomes when the tree has grown to this one. -/
def Stop.Becomes (t : FileTree) : Stop → Stop → Prop
  | .directory at_, stop => stop = .directory at_
  | .file at_ _, stop => ∃ content, t.entry? at_ = some (.file content) ∧ stop = .file at_ content
  | .free at_, stop => ∀ content, t.entry? at_ = some (.file content) → stop = .file at_ content
  | .link here target rest, stop => stop = .link here target rest
  | .missing, _ => True
  | .blocked, _ => True

theorem Grows.walk (h : Grows t t') (directory : Names) (parts : List String) :
    (t.walk directory parts).Becomes t' (t'.walk directory parts) := by
  induction parts generalizing directory with
  | nil => exact (rfl : Stop.directory directory = _)
  | cons name rest ih =>
    unfold FileTree.walk
    by_cases hlong : maxNameBytes < name.utf8ByteSize
    · simp only [if_pos hlong, Stop.Becomes]
    rw [if_neg hlong, if_neg hlong]
    by_cases hdot : name = "."
    · simp only [if_pos hdot]
      exact ih directory
    rw [if_neg hdot, if_neg hdot]
    by_cases hup : name = ".."
    · simp only [if_pos hup]
      exact ih directory.dropLast
    rw [if_neg hup, if_neg hup]
    cases hentry : t.entry? (directory ++ [name]) with
    | none =>
      by_cases hend : rest = []
      · simp only [if_pos hend, Stop.Becomes]
        intro content hfile
        rw [hfile]
      · simp only [if_neg hend, Stop.Becomes]
    | some e =>
      cases e with
      | directory =>
        rw [h.directory hentry]
        exact ih (directory ++ [name])
      | link target =>
        rw [h.link hentry]
        exact (rfl : Stop.link directory target rest = _)
      | file content =>
        obtain ⟨content', hfile⟩ := h.file hentry
        rw [hfile]
        by_cases hend : rest = []
        · simp only [if_pos hend, Stop.Becomes]
          exact ⟨content', hfile, rfl⟩
        · simp only [if_neg hend, Stop.Becomes]

theorem Grows.follow (h : Grows t t') (links : Nat) (directory : Names) (parts : List String) :
    (t.follow links directory parts).Becomes t' (t'.follow links directory parts) := by
  induction links generalizing directory parts with
  | zero => trivial
  | succ links ih =>
    have hwalk := h.walk directory parts
    unfold FileTree.follow
    cases hstop : t.walk directory parts with
    | directory at_ =>
      rw [hstop] at hwalk
      rw [show t'.walk directory parts = .directory at_ from hwalk]
      exact (rfl : Stop.directory at_ = _)
    | file at_ content =>
      rw [hstop] at hwalk
      obtain ⟨content', hfile, hwalk⟩ := hwalk
      rw [hwalk]
      exact ⟨content', hfile, rfl⟩
    | free at_ =>
      rw [hstop] at hwalk
      intro content hfile
      rw [hwalk content hfile]
    | link here target rest =>
      rw [hstop] at hwalk
      rw [show t'.walk directory parts = .link here target rest from hwalk]
      by_cases hlast : links = 0
      · simp only [if_pos hlast, Stop.Becomes]
      · simp only [if_neg hlast]
        exact ih (base here target) (components target ++ rest)
    | missing | blocked => trivial

/-- A path that led to a directory or a file leads there still. -/
theorem Grows.find (h : Grows t t') (path : String) :
    (t.find path).Becomes t' (t'.find path) := by
  unfold FileTree.find
  by_cases hempty : path = ""
  · simp only [if_pos hempty, Stop.Becomes]
  rw [if_neg hempty, if_neg hempty]
  by_cases hpath : isPath path
  · simp only [hpath, Bool.not_true, Bool.false_eq_true, if_false, h.working]
    exact h.follow _ _ _
  · simp only [hpath, Bool.not_false, if_true, Stop.Becomes]

/-- Where a name leads from a directory if no link stands in the way. -/
def enter (directory : Names) (name : String) : Names :=
  if name = "." then directory
  else if name = ".." then directory.dropLast
  else directory ++ [name]

/-- The place that the names of a path tell. -/
def place (t : FileTree) (path : String) : Names :=
  (components path).foldl enter (base t.working path)

/-- What a stop says about the tree, where these names were walked from the directory. -/
def Stop.Along (t : FileTree) (start : Names) (parts : List String) : Stop → Prop
  | .directory at_ => at_ = parts.foldl enter start
  | .file at_ content => at_ = parts.foldl enter start ∧ t.entry? at_ = some (.file content)
  | .free at_ => at_ = parts.foldl enter start ∧ t.entry? at_ = none
  | .link here target _ => ∃ name, t.entry? (here ++ [name]) = some (.link target)
  | .missing => True
  | .blocked => True

theorem Stop.along_cons {directory : Names} {name : String} {rest : List String} {stop : Stop} :
    stop.Along t directory (name :: rest) ↔ stop.Along t (enter directory name) rest := by
  cases stop <;> exact Iff.rfl

theorem walk_along (t : FileTree) (directory : Names) (parts : List String) :
    (t.walk directory parts).Along t directory parts := by
  induction parts generalizing directory with
  | nil => exact (rfl : directory = _)
  | cons name rest ih =>
    have hrest := ih (enter directory name)
    rw [Stop.along_cons]
    unfold walk
    by_cases hlong : maxNameBytes < name.utf8ByteSize
    · simp only [if_pos hlong, Stop.Along]
    rw [if_neg hlong]
    unfold enter at hrest ⊢
    by_cases hdot : name = "."
    · simp only [if_pos hdot] at hrest ⊢
      exact hrest
    simp only [if_neg hdot] at hrest ⊢
    by_cases hup : name = ".."
    · simp only [if_pos hup] at hrest ⊢
      exact hrest
    simp only [if_neg hup] at hrest ⊢
    cases hentry : t.entry? (directory ++ [name]) with
    | none =>
      by_cases hend : rest = []
      · simp only [hend, if_true, Stop.Along]
        exact ⟨rfl, hentry⟩
      · simp only [if_neg hend, Stop.Along]
    | some e =>
      cases e with
      | directory => exact hrest
      | link target => exact ⟨name, hentry⟩
      | file content =>
        by_cases hend : rest = []
        · simp only [hend, if_true, Stop.Along]
          exact ⟨rfl, hentry⟩
        · simp only [if_neg hend, Stop.Along]

/-- What holds of every walk holds of where a path leads. -/
theorem find_of_walk {P : Stop → Prop} (hmissing : P .missing) (hblocked : P .blocked)
    (hwalk : ∀ directory parts, P (t.walk directory parts)) (path : String) : P (t.find path) := by
  have hfollow : ∀ links directory parts, P (t.follow links directory parts) := by
    intro links
    induction links with
    | zero => exact fun _ _ => hblocked
    | succ links ih =>
      intro directory parts
      have hstop := hwalk directory parts
      unfold follow
      cases hcase : t.walk directory parts with
      | link here target rest =>
        -- what the link leads to is another walk
        by_cases hlast : links = 0
        · simpa only [if_pos hlast] using hblocked
        · simpa only [if_neg hlast] using ih _ _
      | directory | file | free | missing | blocked =>
        rw [hcase] at hstop
        exact hstop
  unfold find
  by_cases hempty : path = ""
  · rwa [if_pos hempty]
  rw [if_neg hempty]
  by_cases hpath : isPath path
  · simpa only [hpath, Bool.not_true, Bool.false_eq_true, if_false] using hfollow _ _ _
  · simpa only [hpath, Bool.not_false, if_true] using hblocked

theorem entry?_of_find_free {path : String} (h : t.find path = .free at_) :
    t.entry? at_ = none := by
  refine find_of_walk (P := fun stop => stop = .free at_ → t.entry? at_ = none) (by simp)
    (by simp) (fun directory parts hstop => ?_) path h
  have halong := t.walk_along directory parts
  rw [hstop] at halong
  exact halong.2

theorem entry?_of_find_file {path : String} {content : ByteArray}
    (h : t.find path = .file at_ content) : t.entry? at_ = some (.file content) := by
  refine find_of_walk (P := fun stop => stop = .file at_ content →
    t.entry? at_ = some (.file content)) (by simp) (by simp)
    (fun directory parts hstop => ?_) path h
  have halong := t.walk_along directory parts
  rw [hstop] at halong
  exact halong.2

def LinkFree (t : FileTree) : Prop := ∀ at_ target, t.entry? at_ ≠ some (.link target)

/-- Without links a path leads to the place that its names tell. -/
theorem LinkFree.place_of_find {path : String} {content : ByteArray} (hfree : t.LinkFree)
    (h : t.find path = .file at_ content) : at_ = t.place path := by
  unfold find at h
  by_cases hempty : path = ""
  · simp [hempty] at h
  rw [if_neg hempty] at h
  by_cases hpath : isPath path
  · simp only [hpath, Bool.not_true, Bool.false_eq_true, if_false] at h
    have halong := t.walk_along (base t.working path) (components path)
    unfold follow at h
    cases hstop : t.walk (base t.working path) (components path) with
    | link here target rest =>
      -- a walk stops at a link only where the tree has one
      rw [hstop] at halong
      obtain ⟨name, hlink⟩ := halong
      exact absurd hlink (hfree _ _)
    | file at' content' =>
      rw [hstop] at h halong
      obtain ⟨rfl, -⟩ := Stop.file.inj h
      exact halong.1
    | directory | free | missing | blocked => simp [hstop] at h
  · simp [hpath] at h

end Scaffold.FileTree
