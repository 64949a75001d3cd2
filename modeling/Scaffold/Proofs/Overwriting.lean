import Scaffold.Proofs.Layering

/-!
Layered directives as a map in which the last write wins. The layers keep one directive for each
slot, in the order in which slots were first written, and what is read off them for a label is
what the last directive of all that were written says.
-/
namespace Scaffold

namespace Family

/-- Whether a property is final. -/
def finality : Family Unit where
  pick := Directive.final?
  slot := .preventOverride
  slotted := by
    intro d target
    cases d <;> simp [Directive.choice?, Directive.final?, Directive.slot]

variable {α : Type}

/-- The choice of the last directive that names the label, else of the last one for all
targets. -/
def latest (F : Family α) (label : String) (ds : List Directive) : Option α :=
  ((ds.filterMap (Directive.choice? F.pick (some label))).getLast?).or
    ((ds.filterMap (Directive.choice? F.pick none)).getLast?)

theorem lookup_layer_empty (F : Family α) (label : String) (ds : List Directive) :
    (Layers.empty.layer ds).lookup label F.pick = F.latest label ds := by
  rw [F.lookup_eq, F.findSome?_layer, F.findSome?_layer, latest]

end Family

/-- The name of the annotation that a slot is for, if it is one of this target. -/
def Slot.annotation? (label : String) : Slot → Option String
  | .annotated target name => if target = label then some name else none
  | _ => none

theorem Slot.annotation?_eq_some_iff {label name : String} {slot : Slot} :
    slot.annotation? label = some name ↔ slot = .annotated label name := by
  cases slot <;> simp [annotation?]

theorem Directive.annotation?_slot (label : String) (d : Directive) :
    d.slot.annotation? label = (d.annotationFor? label).map Annotation.name := by
  cases d with
  | annotate target name args =>
    by_cases htarget : target = label <;>
      simp [Directive.slot, Slot.annotation?, annotationFor?, htarget]
  | _ => rfl

namespace Layers

theorem foldl_layer (written : List (List Directive)) (l : Layers) :
    written.foldl layer l = l.layer written.flatten := by
  induction written generalizing l with
  | nil => rfl
  | cons ds written ih => rw [List.foldl_cons, ih, List.flatten_cons, layer_append]

theorem narrowed_layer_empty (label : String) (ds : List Directive) :
    (empty.layer ds).narrowed label = (ds.filterMap (Directive.narrowed? label)).getLast? := by
  have hslot : ∀ d : Directive, (d.narrowed? label).isSome ↔ d.slot = .narrow label := by
    intro d
    cases d <;> simp [Directive.narrowed?, Directive.slot]
  exact findSome?_layer_empty hslot ds

/-- The names stand in the order in which they were first written for the label. -/
theorem names_annotations_layer_empty (label : String) (ds : List Directive) :
    ((empty.layer ds).annotations label).map Annotation.name =
      ((ds.filterMap (Directive.annotationFor? label)).map Annotation.name).eraseDups := by
  have hnames : ∀ es : List Directive,
      (es.filterMap (Directive.annotationFor? label)).map Annotation.name =
        (es.map Directive.slot).filterMap (Slot.annotation? label) := by
    intro es
    rw [List.map_filterMap, List.filterMap_map]
    exact List.filterMap_congr fun d _ => (d.annotation?_slot label).symm
  rw [annotations, hnames, hnames, slots_layer_empty]
  refine Distinct.eraseDups_filterMap (fun x y name hx hy => ?_) _
  rw [Slot.annotation?_eq_some_iff.mp hx, Slot.annotation?_eq_some_iff.mp hy]

theorem last_of_mem_annotations {label : String} {ds : List Directive} {a : Annotation}
    (ha : a ∈ (empty.layer ds).annotations label) :
    (ds.filterMap (Directive.annotationFor? label)).findRev? (·.name = a.name) = some a := by
  obtain ⟨d, hd, hda⟩ := List.mem_filterMap.mp ha
  have hslot : d.slot = .annotated label a.name := by
    rw [← Slot.annotation?_eq_some_iff, d.annotation?_slot, hda]
    rfl
  have hsame : (fun e : Directive => (e.annotationFor? label).any (·.name = a.name)) =
      fun e => decide (e.slot = d.slot) := by
    funext e
    rw [Bool.eq_iff_iff, decide_eq_true_eq, hslot, ← Slot.annotation?_eq_some_iff,
      e.annotation?_slot]
    cases e.annotationFor? label <;> simp
  have hlast := findRev?_of_mem_layer hd
  rw [List.findRev?_eq_find?_reverse] at hlast ⊢
  rw [← List.filterMap_reverse, List.find?_filterMap, hsame, hlast, Option.bind_some, hda]

/-- What layers say that hold of each slot the last directive written for it. -/
structure Records (ds : List Directive) (l : Layers) : Prop where
  /-- One directive for each slot that was written, in the order of first writes. -/
  slots : l.entries.map Directive.slot = (ds.map Directive.slot).eraseDups
  last : ∀ d ∈ l.entries, ds.findRev? (·.slot = d.slot) = some d
  isOmitted : ∀ label byDefault,
    l.isOmitted label byDefault = (Family.visibility.latest label ds).getD byDefault
  initializer : ∀ label, l.initializer label = Family.initializer.latest label ds
  isFinal : ∀ label, l.isFinal label = (Family.finality.latest label ds).isSome
  narrowed : ∀ label,
    l.narrowed label = (ds.filterMap (Directive.narrowed? label)).getLast?
  /-- One annotation for each name that was written for the label. -/
  annotationNames : ∀ label, (l.annotations label).map Annotation.name =
    ((ds.filterMap (Directive.annotationFor? label)).map Annotation.name).eraseDups
  annotation : ∀ label, ∀ a ∈ l.annotations label,
    (ds.filterMap (Directive.annotationFor? label)).findRev? (·.name = a.name) = some a

end Layers

end Scaffold
