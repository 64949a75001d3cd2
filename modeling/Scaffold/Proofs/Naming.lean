import Scaffold.Proofs.Grouping

/-!
The declarations that a definition names, told by the types that are written in it. A script
that succeeds has gone through all of these types, down to the innermost, so it refers to
whatever its text names.
-/
namespace Scaffold.Projection

variable {x : Context}

/-- A type in the definition of the declaration is printed by this name. -/
def Names (x : Context) (d : Decl) (name : String) : Prop :=
  ∃ t ∈ types x d, ∃ u, Within x t u ∧ reference? x u = some name

theorem form_of_reference {t : Ty} {name : String} (h : reference? x t = some name) :
    ∃ args, form x t = .reference name args := by
  rw [reference?_eq_form] at h
  cases hform : form x t with
  | reference n args =>
    rw [hform] at h
    obtain rfl := Option.some.inj h
    exact ⟨args, rfl⟩
  | found | optional | array | index => simp [hform, Form.reference?] at h

theorem refers_of_project {place : String} {n : Nat} {t : Ty} {u : Union} {name : String}
    (href : reference? x t = some name) (h : (project x place n t).result = .ok u) :
    name ∈ (project x place n t).refs ∧ ∃ rest, u = .single (Dotted.simple name ++ rest) := by
  obtain ⟨args, hform⟩ := form_of_reference href
  cases n with
  | zero => simp [project, Script.fail] at h
  | succ n =>
    rw [project_succ, hform] at h ⊢
    by_cases hdeclared : x.catalog.contains name
    · rw [Form.script, if_pos hdeclared] at h ⊢
      refine ⟨Script.mem_refs_bind List.mem_cons_self _, ?_⟩
      obtain ⟨-, -, h⟩ := Script.result_bind h
      obtain ⟨texts, -, h⟩ := Script.result_bind h
      obtain rfl := Except.ok.inj h
      by_cases hempty : args.isEmpty
      · exact ⟨"", by simp [hempty]⟩
      · exact ⟨"<" ++ ", ".intercalate texts ++ ">", by simp [hempty, String.append_assoc]⟩
    · rw [Form.script, if_neg hdeclared] at h
      exact absurd h (by simp [Script.fail])

theorem form_nullable (inner : Ty) : form x (.nullable inner) = .optional inner.nonNull := by
  simp [form, mapped?, Ty.isNullable]

/-- Under its nullable layers a type stands inside itself. -/
theorem within_nonNull (t : Ty) : Within x t t.nonNull := by
  cases t with
  | nullable inner =>
    refine Relation.ReflTransGen.single ?_
    rw [inner_eq_form, form_nullable]
    exact List.mem_singleton_self _
  | _ => exact Relation.ReflTransGen.refl

/-- A form that is printed has printed the types inside, and keeps what they refer to. -/
theorem Form.ok_of_mem_inner {place : String} {inside : Ty → Script Union} {F : Form} {u : Union}
    (h : (F.script x place inside).result = .ok u) {v : Ty} (hv : v ∈ F.inner) :
    (∃ w, (inside v).result = .ok w) ∧
      ∀ name ∈ (inside v).refs, name ∈ (F.script x place inside).refs := by
  cases F with
  | found text => exact absurd hv List.not_mem_nil
  | optional t =>
    obtain rfl := List.mem_singleton.mp hv
    obtain ⟨w, hw, -⟩ := Script.result_bind h
    exact ⟨⟨w, hw⟩, fun name hname => Script.mem_refs_bind hname _⟩
  | array element =>
    cases element with
    | none => exact absurd hv List.not_mem_nil
    | some element =>
      obtain rfl := List.mem_singleton.mp hv
      obtain ⟨w, hw, -⟩ := Script.result_bind h
      exact ⟨⟨w, hw⟩, fun name hname => Script.mem_refs_bind hname _⟩
  | index key value =>
    obtain ⟨keyText, hkey, hrest⟩ := Script.result_bind h
    obtain ⟨valueText, hvalue, -⟩ := Script.result_bind hrest
    rcases List.mem_append.mp hv with hv | hv
    · obtain rfl := Option.mem_toList.mp hv
      obtain ⟨w, hw, -⟩ := Script.result_map hkey
      exact ⟨⟨w, hw⟩, fun name hname => Script.mem_refs_bind (Script.mem_refs_map hname _) _⟩
    · obtain rfl := Option.mem_toList.mp hv
      obtain ⟨w, hw, -⟩ := Script.result_map hvalue
      exact ⟨⟨w, hw⟩, fun name hname => Script.mem_refs_bind_of_ok hkey
        (Script.mem_refs_bind (Script.mem_refs_map hname _) _)⟩
  | reference name args =>
    rw [script] at h ⊢
    by_cases hdeclared : x.catalog.contains name
    · rw [if_pos hdeclared] at h ⊢
      obtain ⟨_, hrefer, h⟩ := Script.result_bind h
      obtain ⟨texts, htexts, -⟩ := Script.result_bind h
      obtain ⟨text, htext⟩ := Script.ok_of_mapM htexts hv
      obtain ⟨w, hw, -⟩ := Script.result_map htext
      refine ⟨⟨w, hw⟩, fun ref href => Script.mem_refs_bind_of_ok hrefer ?_⟩
      exact Script.mem_refs_bind (Script.mem_refs_mapM htexts hv (Script.mem_refs_map href _)) _
    · rw [if_neg hdeclared] at h
      exact absurd h (by simp [Script.fail])

theorem mem_refs_of_within {place : String} {n : Nat} {t u : Ty} {v : Union} {name : String}
    (hwithin : Within x t u) (href : reference? x u = some name)
    (h : (project x place n t).result = .ok v) : name ∈ (project x place n t).refs := by
  induction n generalizing t v with
  | zero => exact absurd h (by simp [project, Script.fail])
  | succ n ih =>
    rcases Relation.ReflTransGen.cases_head hwithin with rfl | ⟨s, hs, hrest⟩
    · exact (refers_of_project href h).1
    · rw [project_succ] at h ⊢
      rw [inner_eq_form] at hs
      obtain ⟨⟨w, hw⟩, hrefs⟩ := Form.ok_of_mem_inner h hs
      exact hrefs name (ih hrest hw)

theorem mem_refs_of_extendsText {d : Decl} {t u : Ty} {bases name : String}
    (ht : t ∈ d.supertypes.filter (isExtended x)) (hwithin : Within x t u)
    (href : reference? x u = some name) (h : (extendsText x d).result = .ok bases) :
    name ∈ (extendsText x d).refs := by
  obtain ⟨texts, htexts, -⟩ := Script.result_bind h
  obtain ⟨text, htext⟩ := Script.ok_of_mapM htexts ht
  obtain ⟨v, hv, -⟩ := Script.result_map htext
  have hname := Script.mem_refs_map (mem_refs_of_within hwithin href hv) Union.render
  exact Script.mem_refs_bind (Script.mem_refs_mapM htexts ht hname) _

theorem mem_refs_of_propertyLine {d : Decl} {p : Property} {u : Ty} {line name : String}
    (hwithin : Within x p.type u) (href : reference? x u = some name)
    (h : (propertyLine x d p).result = .ok line) : name ∈ (propertyLine x d p).refs := by
  obtain ⟨v, hv, -⟩ := Script.result_bind h
  exact Script.mem_refs_bind (mem_refs_of_within hwithin href hv) _

/-- A definition refers to all that it names. -/
theorem mem_refs_of_names {d : Decl} {source name : String} (hnames : Names x d name)
    (h : (script x d).result = .ok source) : name ∈ (script x d).refs := by
  obtain ⟨t, ht, u, hwithin, href⟩ := hnames
  by_cases henum : d.kind = .enum
  · simp [types, henum] at ht
  rw [types, if_neg henum] at ht
  rw [script, if_neg henum] at h ⊢
  obtain ⟨body, hbody, -⟩ := Script.result_bind h
  obtain ⟨bases, hbases, hbody⟩ := Script.result_bind hbody
  obtain ⟨lines, hlines, -⟩ := Script.result_bind hbody
  refine Script.mem_refs_bind ?_ _
  rcases List.mem_append.mp ht with ht | ht
  · exact Script.mem_refs_bind (mem_refs_of_extendsText ht hwithin href hbases) _
  · obtain ⟨p, hp, rfl⟩ := List.mem_map.mp ht
    obtain ⟨line, hline⟩ := Script.ok_of_mapM hlines hp
    have hname := mem_refs_of_propertyLine hwithin href hline
    exact Script.mem_refs_bind_of_ok hbases
      (Script.mem_refs_bind (Script.mem_refs_mapM hlines hp hname) _)

end Scaffold.Projection
