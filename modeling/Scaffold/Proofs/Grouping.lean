import Scaffold.Proofs.Forms
import Scaffold.Proofs.Bracketing

/-!
Unions inside of other types. A projection keeps a union as the list of its members and puts it
in parentheses where it becomes an operand, at every depth. A member counts as one, whatever
its text: where the texts that come from outside are no unions, the printed text has each
operand grouped and each member once, and where one of them is a union, neither needs to hold.
-/
namespace Scaffold.Projection

variable {x : Context} {place : String} {n : Nat} {t : Ty} {u : Union}

/-- The text as an operand, where a union stands in parentheses. -/
def operand (text : String) : String := if isUnion text then "(" ++ text ++ ")" else text

/-- The text joined with a member, unless that is one of its members. -/
def joined (text member : String) : String :=
  if member ∈ alternatives text then text else text ++ " | " ++ member

/-- What is printed for a type, by the texts of the types inside. -/
inductive Prints (x : Context) : Ty → String → Prop
  | found {t : Ty} {text : String} (hform : form x t = .found text) : Prints x t text
  | optional {t u : Ty} {text : String} (hform : form x t = .optional u)
      (hinner : Prints x u text) : Prints x t (joined text x.settings.voidMarker)
  | array {t u : Ty} {text : String} (hform : form x t = .array (some u))
      (hinner : Prints x u text) : Prints x t (operand text ++ "[]")
  | bareArray {t : Ty} (hform : form x t = .array none) :
      Prints x t (operand x.settings.topType ++ "[]")
  | index {t : Ty} {key value : Option Ty} {k v : String} (hform : form x t = .index key value)
      (hkey : ∀ u ∈ key, Prints x u k) (hnokey : key = none → k = "string")
      (hvalue : ∀ u ∈ value, Prints x u v) (hnovalue : value = none → v = x.settings.topType) :
      Prints x t (Projection.index k (operand v))
  | reference {t : Ty} {name : String} {args : List Ty} {texts : List String}
      (hform : form x t = .reference name args) (hlength : args.length = texts.length)
      (hargs : ∀ a ∈ args.zip texts, Prints x a.1 a.2) :
      Prints x t (if args.isEmpty then Dotted.simple name
        else Dotted.simple name ++ "<" ++ ", ".intercalate texts ++ ">")

/-- The texts in a form that are taken over as they stand. -/
def Form.texts (x : Context) : Form → List String
  | .found text => [text]
  | .optional _ => [x.settings.voidMarker]
  | .array none | .index _ none => [x.settings.topType]
  | .array (some _) | .index _ (some _) => []
  | .reference name _ => [Dotted.simple name]

/-- A type inside of a type, at any depth, or the type itself. -/
def Within (x : Context) : Ty → Ty → Prop := Relation.ReflTransGen fun t u => u ∈ inner x t

/-- No text that a type takes over is a union. -/
def PlainWithin (x : Context) (t : Ty) : Prop :=
  ∀ part, Within x t part → ∀ text ∈ (form x part).texts x, Plain text

theorem PlainWithin.inner {v : Ty} (h : PlainWithin x t) (hv : v ∈ (form x t).inner) :
    PlainWithin x v :=
  fun part hpart => h part (.head (inner_eq_form t ▸ hv) hpart)

theorem PlainWithin.text {text : String} (h : PlainWithin x t)
    (htext : text ∈ (form x t).texts x) : Plain text := h t .refl text htext

namespace Union

/-- A union of different members that are no unions themselves. -/
structure Flat (u : Union) : Prop where
  nonempty : u.members ≠ []
  plain : ∀ m ∈ u.members, Plain m
  nodup : u.members.Nodup

@[simp]
theorem render_single (text : String) : (single text).render = text :=
  String.intercalate_singleton

theorem flat_single {text : String} (h : Plain text) : (single text).Flat where
  nonempty := List.cons_ne_nil _ _
  plain _ hm := List.eq_of_mem_singleton hm ▸ h
  nodup := List.nodup_singleton text

namespace Flat

variable {u : Union}

theorem add {member : String} (h : u.Flat) (hmember : Plain member) : (u.add member).Flat := by
  by_cases hmem : member ∈ u.members
  · rwa [Union.add, if_pos hmem]
  rw [Union.add, if_neg hmem]
  refine ⟨List.append_ne_nil_of_left_ne_nil h.nonempty _, ?_, ?_⟩
  · intro m hm
    rcases List.mem_append.mp hm with hm | hm
    · exact h.plain m hm
    · exact List.eq_of_mem_singleton hm ▸ hmember
  · exact List.nodup_append.mpr ⟨h.nodup, List.nodup_singleton _,
      fun a ha b hb hab => hmem (List.eq_of_mem_singleton hb ▸ hab ▸ ha)⟩

/-- The members can be read off the text. -/
theorem alternatives_render (h : u.Flat) : alternatives u.render = u.members :=
  alternatives_intercalate h.nonempty h.plain

theorem render_add {member : String} (h : u.Flat) :
    (u.add member).render = joined u.render member := by
  rw [joined, h.alternatives_render, Union.add]
  by_cases hmem : member ∈ u.members
  · rw [if_pos hmem, if_pos hmem]
  · rw [if_neg hmem, if_neg hmem, render, String.intercalate_append_of_ne_nil h.nonempty (by simp)]
    rfl

/-- What is grouped is what the text shows to be a union. -/
theorem grouped_eq (h : u.Flat) : u.grouped = operand u.render := by
  simp only [grouped, operand, isUnion, h.alternatives_render, decide_eq_true_eq]

theorem closed_render (h : u.Flat) : Closed u.render :=
  .intercalate (by decide) fun m hm => (h.plain m hm).1

theorem plain_operand (h : u.Flat) : Plain (operand u.render) := by
  rw [← h.grouped_eq, grouped]
  by_cases hunion : 1 < u.members.length
  · rw [if_pos hunion, Plain, String.toList_append, String.toList_append]
    have hopen : Passes .top "(".toList Position.top.deeper := by decide
    have hclose : Passes Position.top.deeper ")".toList .top := by decide
    exact (hopen.append h.closed_render.passes_deeper).append hclose
  · have hone : u.members.length = 1 := by
      have hpos := List.length_pos_of_ne_nil h.nonempty
      omega
    obtain ⟨m, hm⟩ := List.length_eq_one_iff.mp hone
    rw [if_neg hunion, render, hm, String.intercalate_singleton]
    exact h.plain m (hm ▸ List.mem_singleton_self m)

end Flat

end Union

theorem plain_array {text : String} (h : Plain text) : Plain (text ++ "[]") :=
  h.append (by decide)

theorem plain_index {key value : String} (hkey : Closed key) (hvalue : Closed value) :
    Plain (index key value) := by
  have hfirst : Passes .top "\x7b [key: ".toList Position.top.deeper.deeper := by decide
  have hmid : Passes Position.top.deeper.deeper "]: ".toList Position.top.deeper := by decide
  have hlast : Passes Position.top.deeper " \x7d".toList .top := by decide
  rw [Plain, index]
  simp only [String.toList_append]
  exact (((hfirst.append hkey.deeper.passes_deeper).append hmid).append
    hvalue.passes_deeper).append hlast

theorem plain_reference {name : String} {args : List Ty} {texts : List String}
    (hname : Plain name) (hlength : args.length = texts.length)
    (htexts : ∀ p ∈ args.zip texts, Closed p.2) :
    Plain (if args.isEmpty then name else name ++ "<" ++ ", ".intercalate texts ++ ">") := by
  by_cases hempty : args.isEmpty
  · rwa [if_pos hempty]
  have hopen : Passes .top "<".toList Position.top.deeper := by decide
  have hclose : Passes Position.top.deeper ">".toList .top := by decide
  have hinside : Closed (", ".intercalate texts) := by
    refine .intercalate (by decide) ?_
    rw [← List.map_snd_zip hlength.ge]
    exact List.forall_mem_map.mpr htexts
  rw [if_neg hempty, Plain]
  simp only [String.toList_append]
  exact ((Passes.append hname hopen).append hinside.passes_deeper).append hclose

theorem exists_flat {text : String} (h : Plain text) : ∃ u : Union, u.Flat ∧ u.render = text :=
  ⟨.single text, Union.flat_single h, Union.render_single text⟩

theorem operand_of_plain {text : String} (h : Plain text) : operand text = text := by
  have hone : alternatives text = [text] := by
    simpa using alternatives_intercalate (List.cons_ne_nil text []) (by simpa using h)
  simp [operand, isUnion, hone]

theorem plain_operand {text : String} (h : Plain text) : Plain (operand text) := by
  obtain ⟨u, hflat, rfl⟩ := exists_flat h
  exact hflat.plain_operand

/-- Where no text taken over is a union, what is printed is a flat one. -/
theorem Prints.flat {text : String} (h : Prints x t text) (hplain : PlainWithin x t) :
    ∃ u : Union, u.Flat ∧ u.render = text := by
  induction h with
  | found hform => exact exists_flat (hplain.text (by simp [hform, Form.texts]))
  | optional hform _ ih =>
    obtain ⟨u, hflat, rfl⟩ := ih (hplain.inner (by simp [hform, Form.inner]))
    have hmarker : Plain x.settings.voidMarker := hplain.text (by simp [hform, Form.texts])
    exact ⟨u.add x.settings.voidMarker, hflat.add hmarker, hflat.render_add⟩
  | array hform _ ih =>
    obtain ⟨u, hflat, rfl⟩ := ih (hplain.inner (by simp [hform, Form.inner]))
    exact exists_flat (plain_array hflat.plain_operand)
  | bareArray hform =>
    have htop : Plain x.settings.topType := hplain.text (by simp [hform, Form.texts])
    exact exists_flat (plain_array (plain_operand htop))
  | @index t key value k v hform hkey hnokey hvalue hnovalue ihkey ihvalue =>
    have hclosed : Closed k := by
      cases key with
      | none => exact hnokey rfl ▸ by decide
      | some key =>
        obtain ⟨u, hflat, rfl⟩ := ihkey key rfl (hplain.inner (by simp [hform, Form.inner]))
        exact hflat.closed_render
    have hoperand : Plain (operand v) := by
      cases value with
      | none =>
        have htop : Plain x.settings.topType := hplain.text (by simp [hform, Form.texts])
        exact hnovalue rfl ▸ plain_operand htop
      | some value =>
        obtain ⟨u, hflat, rfl⟩ := ihvalue value rfl (hplain.inner (by simp [hform, Form.inner]))
        exact hflat.plain_operand
    exact exists_flat (plain_index hclosed hoperand.1)
  | @reference t name args texts hform hlength hargs ih =>
    have hname : Plain (Dotted.simple name) := hplain.text (by simp [hform, Form.texts])
    refine exists_flat (plain_reference hname hlength fun p hp => ?_)
    obtain ⟨u, hflat, hu⟩ := ih p hp
      (hplain.inner (by simpa [hform, Form.inner] using (List.of_mem_zip hp).1))
    exact hu ▸ hflat.closed_render

/-- A projection in which no text taken over is a union gives a flat one, and prints what the
texts inside call for. -/
theorem flat_of_project (hplain : PlainWithin x t) (h : (project x place n t).result = .ok u) :
    u.Flat ∧ Prints x t u.render := by
  induction n generalizing t u with
  | zero => simp [project, Script.fail] at h
  | succ n ih =>
    -- both parts go through the levels together: a member list is read off the text only if flat
    have hinside : ∀ v ∈ (form x t).inner, ∀ w, (project x place n v).result = .ok w →
        w.Flat ∧ Prints x v w.render := fun v hv w hw => ih (hplain.inner hv) hw
    have htexts : ∀ text ∈ (form x t).texts x, Plain text := fun _ => hplain.text
    rw [project_succ] at h
    cases hform : form x t with
    | found text =>
      rw [hform] at h htexts
      obtain rfl := Except.ok.inj h
      refine ⟨Union.flat_single (htexts text List.mem_cons_self), ?_⟩
      rw [Union.render_single]
      exact .found hform
    | optional v =>
      rw [hform] at h htexts hinside
      obtain ⟨w, hw, h⟩ := Script.result_bind h
      obtain rfl := Except.ok.inj h
      obtain ⟨hflat, hprints⟩ := hinside v List.mem_cons_self w hw
      refine ⟨hflat.add (htexts _ List.mem_cons_self), ?_⟩
      rw [hflat.render_add]
      exact .optional hform hprints
    | array element =>
      cases element with
      | none =>
        rw [hform] at h htexts
        obtain rfl := Except.ok.inj h
        have htop : Plain x.settings.topType := htexts _ List.mem_cons_self
        refine ⟨Union.flat_single (plain_array htop), ?_⟩
        rw [Union.render_single, ← operand_of_plain htop]
        exact .bareArray hform
      | some v =>
        rw [hform] at h hinside
        obtain ⟨w, hw, h⟩ := Script.result_bind h
        obtain rfl := Except.ok.inj h
        obtain ⟨hflat, hprints⟩ := hinside v List.mem_cons_self w hw
        rw [hflat.grouped_eq, Union.render_single]
        exact ⟨Union.flat_single (plain_array hflat.plain_operand), .array hform hprints⟩
    | index key value =>
      rw [hform] at h htexts hinside
      obtain ⟨k, hk, h⟩ := Script.result_bind h
      obtain ⟨v, hv, h⟩ := Script.result_bind h
      obtain rfl := Except.ok.inj h
      have hkey : Closed k ∧ (∀ a ∈ key, Prints x a k) ∧ (key = none → k = "string") := by
        cases key with
        | none =>
          obtain rfl := Except.ok.inj hk
          exact ⟨by decide, by simp, fun _ => rfl⟩
        | some a =>
          obtain ⟨w, hw, rfl⟩ := Script.result_map hk
          obtain ⟨hflat, hprints⟩ := hinside a (by simp [Form.inner]) w hw
          exact ⟨hflat.closed_render, by simpa using hprints, by simp⟩
      have hvalue : ∃ text, v = operand text ∧ Plain v ∧ (∀ a ∈ value, Prints x a text) ∧
          (value = none → text = x.settings.topType) := by
        cases value with
        | none =>
          obtain rfl := Except.ok.inj hv
          have htop : Plain x.settings.topType := htexts _ List.mem_cons_self
          exact ⟨_, (operand_of_plain htop).symm, htop, by simp, fun _ => rfl⟩
        | some a =>
          obtain ⟨w, hw, rfl⟩ := Script.result_map hv
          obtain ⟨hflat, hprints⟩ := hinside a (by simp [Form.inner]) w hw
          exact ⟨w.render, hflat.grouped_eq, hflat.grouped_eq ▸ hflat.plain_operand,
            by simpa using hprints, by simp⟩
      obtain ⟨text, rfl, hplain, hprints, hnovalue⟩ := hvalue
      refine ⟨Union.flat_single (plain_index hkey.1 hplain.1), ?_⟩
      rw [Union.render_single]
      exact .index hform hkey.2.1 hkey.2.2 hprints hnovalue
    | reference name args =>
      rw [hform] at h htexts hinside
      by_cases hdeclared : x.catalog.contains name
      · rw [Form.script, if_pos hdeclared] at h
        obtain ⟨-, -, h⟩ := Script.result_bind h
        obtain ⟨texts, hresults, h⟩ := Script.result_bind h
        obtain rfl := Except.ok.inj h
        obtain ⟨hlength, hzip⟩ := List.forall₂_iff_zip.mp (Script.result_mapM hresults)
        have hargs : ∀ p ∈ args.zip texts, Closed p.2 ∧ Prints x p.1 p.2 := by
          rintro ⟨a, text⟩ hp
          obtain ⟨w, hw, rfl⟩ := Script.result_map (hzip hp)
          obtain ⟨hflat, hprints⟩ := hinside a (List.of_mem_zip hp).1 w hw
          exact ⟨hflat.closed_render, hprints⟩
        have hname : Plain (Dotted.simple name) := htexts _ List.mem_cons_self
        refine ⟨Union.flat_single (plain_reference hname hlength fun p hp => (hargs p hp).1), ?_⟩
        rw [Union.render_single]
        exact .reference hform hlength fun p hp => (hargs p hp).2
      · rw [Form.script, if_neg hdeclared] at h
        exact absurd h (by simp [Script.fail])

/-- Where no text that a type takes over is a union, the printed text has every union that
becomes an operand in parentheses, and no union inside of it has a member twice. -/
theorem unions_grouped_of_plain (x : Context) (place : String) (n : Nat) (t : Ty) (u : Union)
    (hplain : PlainWithin x t) (h : (project x place n t).result = .ok u) :
    Prints x t u.render ∧
      ∀ part text, Within x t part → Prints x part text → (alternatives text).Nodup := by
  refine ⟨(flat_of_project hplain h).2, fun part text hpart hprints => ?_⟩
  obtain ⟨v, hflat, rfl⟩ := hprints.flat fun p hp => hplain p (hpart.trans hp)
  rw [hflat.alternatives_render]
  exact hflat.nodup

/-- A list that holds a type, and with each type those inside, holds all within the type. -/
theorem mem_of_within {l : List Ty} {part : Ty} (hl : ∀ a ∈ l, ∀ b ∈ inner x a, b ∈ l)
    (ht : t ∈ l) (hpart : Within x t part) : part ∈ l := by
  induction hpart with
  | refl => exact ht
  | tail _ hinner ih => exact hl _ ih _ hinner

def instant : Ty := .named "java.time.Instant" []

/-- A log of instants. -/
def logCatalog : Catalog where
  decls := [
    { Decl.plain "a.Log" .interface with
      properties := [.plain "times" (.array instant), .plain "last" (.nullable instant)] }]
  nodup := by decide

/-- The log, where instants have this text. -/
def log (text : String) : Context where
  catalog := logCatalog
  capabilities := .ofCatalog logCatalog
  settings := { Settings.TypeScript.standard with
    roots := ["a.Log"]
    mappings := NameMap.empty.insert "java.time.Instant" text }

/-- Perhaps an array of maps to what may be instants. -/
def pages : Ty :=
  .nullable (.array (.named "java.util.Map" [.scalar .string, .nullable instant]))

def pagesParts : List Ty :=
  [pages, .array (.named "java.util.Map" [.scalar .string, .nullable instant]),
    .named "java.util.Map" [.scalar .string, .nullable instant], .scalar .string,
    .nullable instant, instant]

def pagesUnion : Union := ⟨["\x7b [key: string]: (Date | undefined) \x7d[]", "undefined"]⟩

theorem unions_grouped_of_plain_pages :
    PlainWithin (log "Date") pages ∧
      (project (log "Date") "property pages of a.Log" 5 pages).result = .ok pagesUnion ∧
      Prints (log "Date") pages pagesUnion.render ∧
      (alternatives pagesUnion.render).Nodup := by
  have hplain : PlainWithin (log "Date") pages := by
    intro part hpart
    have hparts : ∀ a ∈ pagesParts, ∀ b ∈ inner (log "Date") a, b ∈ pagesParts := by decide
    have htexts : ∀ a ∈ pagesParts, ∀ text ∈ (form (log "Date") a).texts (log "Date"),
        Plain text := by decide
    exact htexts part (mem_of_within hparts (by decide) hpart)
  have hok : (project (log "Date") "property pages of a.Log" 5 pages).result =
      .ok pagesUnion := rfl
  obtain ⟨hprints, hnodup⟩ := unions_grouped_of_plain _ _ _ _ _ hplain hok
  exact ⟨hplain, hok, hprints, hnodup pages _ .refl hprints⟩

/-- A text that is a union itself is no operand in parentheses, and the marker that it ends in
is joined once more. -/
theorem mapped_unions_ungrouped :
    projectTypes (log "string | undefined") = .ok [⟨"a.Log",
        "export interface Log \x7b\n    times: string | undefined[];\n" ++
          "    last: string | undefined | undefined;\n\x7d"⟩] ∧
      isUnion "string | undefined" ∧
      ¬ (alternatives "string | undefined | undefined").Nodup :=
  ⟨rfl, rfl, by decide⟩

end Scaffold.Projection
