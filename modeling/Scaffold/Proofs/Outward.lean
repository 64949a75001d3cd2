import Scaffold.Plan
import Scaffold.Proofs.Enclosing
import Scaffold.Proofs.Faults

/-!
The walks outward from a declaration. The check remembers what it passed, the names of the
enclosing types are collected with a bound on the hops, and the package is asked for with no
bound at all. The first two find the same faults. A circle would keep the third busy for ever,
but a plan asks for the package only when the names are there, and then the way ends.
-/
namespace Scaffold.Catalog

variable {c : Catalog} {d : Decl} {chain : List Decl}

theorem enclosingNames_step (model : String) (n : Nat) (passed : String) {outer : Decl}
    (h : c.EnclosedBy d outer) : c.enclosingNames model (n + 1) passed d =
      c.enclosingNames model n (outer.simpleName ++ passed) outer := by
  obtain ⟨enclosing, hnesting, hget⟩ := h
  rw [enclosingNames, hnesting]
  simp only [hget]

/-- The names are collected up to the outermost type, which settles whether they can be used. -/
theorem enclosingNames_of_enclosures (model : String) {n : Nat} (passed : String)
    (h : c.Enclosures d chain) (hn : chain.length ≤ n) :
    c.enclosingNames model n passed d = c.enclosingNames model 0
      (String.join (chain.reverse.map Decl.simpleName) ++ passed) (chain.getLastD d) := by
  induction h generalizing n passed with
  | @ended d hended =>
    rw [List.getLastD_nil, List.reverse_nil, List.map_nil, String.join_nil, String.empty_append]
    unfold enclosingNames
    cases hnesting : d.nesting with
    | topLevel | «local» | anonymous => rfl
    | member enclosing =>
      simp only [(Enclosures.ended hended).get?_eq_none hnesting]
  | @member d outer chain hstep _ ih =>
    obtain ⟨n, rfl⟩ := Nat.exists_eq_add_one.mpr (Nat.zero_lt_of_lt hn)
    rw [enclosingNames_step model n passed hstep, ih _ (Nat.le_of_succ_le_succ hn),
      List.getLastD_cons, List.reverse_cons, List.map_append, List.map_singleton]
    simp [String.join_append, String.append_assoc]

theorem enclosingNames_of_endless (model : String) (n : Nat) (passed : String) (d : Decl)
    (h : ¬ ∃ chain, c.Enclosures d chain) :
    c.enclosingNames model n passed d = .error (.unsupportedNesting model circular) := by
  induction n generalizing passed d with
  | zero =>
    obtain ⟨outer, ⟨enclosing, hnesting, hget⟩, -⟩ := exists_enclosedBy_of_endless h
    rw [enclosingNames, hnesting]
    simp only [hget]
    rfl
  | succ n ih =>
    obtain ⟨outer, hstep, houter⟩ := exists_enclosedBy_of_endless h
    rw [enclosingNames_step model n passed hstep]
    exact ih _ outer houter

/-- The outermost type has the package. No type is met twice on the way, so none stands for its
own enclosing type either. -/
theorem outermost?_of_enclosures {n : Nat} (h : c.Enclosures d chain) (hd : d ∈ c.decls)
    (hn : chain.length < n) : c.outermost? n d = some (chain.getLastD d) := by
  induction h generalizing n with
  | @ended d hended =>
    obtain ⟨n, rfl⟩ := Nat.exists_eq_add_one.mpr hn
    unfold outermost?
    cases hnesting : d.nesting with
    | topLevel | «local» | anonymous => rfl
    | member enclosing =>
      simp only [(Enclosures.ended hended).get?_eq_none hnesting, List.getLastD_nil]
  | @member d outer chain hstep hrest ih =>
    obtain ⟨n, rfl⟩ := Nat.exists_eq_add_one.mpr (Nat.zero_lt_of_lt hn)
    have hother : outer.name ≠ d.name := fun hname => by
      obtain rfl := eq_of_name_eq hstep.mem hd hname
      exact hrest.not_circular (.single hstep)
    have hbelow := ih hstep.mem (Nat.lt_of_succ_lt_succ hn)
    obtain ⟨enclosing, hnesting, hget⟩ := hstep
    rw [outermost?, hnesting, List.getLastD_cons]
    simp only [hget, if_neg hother]
    exact hbelow

theorem packageOf?_of_enclosures (h : c.Enclosures d chain) (hd : d ∈ c.decls) :
    c.packageOf? d = some (Dotted.packagePart (chain.getLastD d).name) := by
  have hn := h.length_lt hd
  unfold packageOf?
  rw [outermost?_of_enclosures h hd (by omega), Option.map_some]

/-- The names of the types around a declaration, the outermost first, in one word. -/
def enclosingText (chain : List Decl) : String := String.join (chain.reverse.map Decl.simpleName)

/-- What the collection of names and the check come to. -/
inductive Fate (c : Catalog) (d : Decl) : Except Fault String → Except Fault Unit → Prop
  | topLevel {chain : List Decl} (h : c.Enclosures d chain)
      (hlast : (chain.getLastD d).nesting = .topLevel) :
      Fate c d (.ok (enclosingText chain)) (.ok ())
  | hidden {chain : List Decl} (h : c.Enclosures d chain)
      (hlast : (chain.getLastD d).nesting = .local ∨ (chain.getLastD d).nesting = .anonymous) :
      Fate c d (.error (.unsupportedNesting d.name (chain.getLastD d).nesting.describe)) (.ok ())
  | unknown {chain : List Decl} {enclosing : String} (h : c.Enclosures d chain)
      (hlast : (chain.getLastD d).nesting = .member enclosing) :
      Fate c d (.error (.unknownEnclosing (chain.getLastD d).name enclosing))
        (.error (.unknownEnclosing (chain.getLastD d).name enclosing))
  | circular (h : ¬ ∃ chain, c.Enclosures d chain) :
      Fate c d (.error (.unsupportedNesting d.name Catalog.circular))
        (.error (.unsupportedNesting d.name Catalog.circular))

namespace Fate

variable {names : Except Fault String} {checked : Except Fault Unit} (h : Fate c d names checked)

include h

theorem unknown_iff (model enclosing : String) :
    names = .error (.unknownEnclosing model enclosing) ↔
      checked = .error (.unknownEnclosing model enclosing) := by
  cases h <;> simp

theorem circular_iff : names = .error (.unsupportedNesting d.name Catalog.circular) ↔
    checked = .error (.unsupportedNesting d.name Catalog.circular) := by
  cases h with
  | topLevel | unknown | circular => simp
  | hidden _ hlast =>
    rcases hlast with hlast | hlast <;> rw [hlast] <;> simp [Nesting.describe, Catalog.circular]

theorem exists_names_iff (hunknown : ∀ model enclosing,
      names ≠ .error (.unknownEnclosing model enclosing))
    (hcircular : names ≠ .error (.unsupportedNesting d.name Catalog.circular)) :
    ∃ chain, c.Enclosures d chain ∧
      ((∃ text, names = .ok text) ↔ (chain.getLastD d).nesting = .topLevel) ∧
      ∀ text, names = .ok text → text = enclosingText chain := by
  cases h with
  | topLevel hchain hlast =>
    exact ⟨_, hchain, iff_of_true ⟨_, rfl⟩ hlast, fun _ htext => (Except.ok.inj htext).symm⟩
  | hidden hchain hlast =>
    refine ⟨_, hchain, iff_of_false (by simp) fun htop => ?_, by simp⟩
    rw [htop] at hlast
    simp at hlast
  | unknown => exact absurd rfl (hunknown _ _)
  | circular => exact absurd rfl hcircular

theorem topLevel_of_names {text : String} (hnames : names = .ok text) :
    ∃ chain, c.Enclosures d chain ∧ (chain.getLastD d).nesting = .topLevel := by
  cases h with
  | topLevel hchain hlast => exact ⟨_, hchain, hlast⟩
  | hidden | unknown | circular => simp at hnames

end Fate

theorem fate (hd : d ∈ c.decls) : Fate c d (c.enclosingNames d.name (c.size + 1) "" d)
    (c.checkEnclosing d.name (c.size + 2) [] d) := by
  by_cases h : ∃ chain, c.Enclosures d chain
  · obtain ⟨chain, hchain⟩ := h
    have hn := hchain.length_lt hd
    rw [enclosingNames_of_enclosures d.name "" hchain (by omega), String.append_empty,
      checkEnclosing_of_enclosures d.name hchain hd (by simp [Trail]) (by omega)]
    unfold enclosingNames checkEnclosing
    cases hlast : (chain.getLastD d).nesting with
    | topLevel => exact .topLevel hchain hlast
    | «local» => simpa only [hlast] using Fate.hidden hchain (Or.inl hlast)
    | anonymous => simpa only [hlast] using Fate.hidden hchain (Or.inr hlast)
    | member enclosing =>
      simpa only [hchain.get?_eq_none hlast, List.not_mem_nil, if_false] using
        Fate.unknown hchain hlast
  · rw [enclosingNames_of_endless d.name (c.size + 1) "" d h,
      checkEnclosing_of_endless d.name (c.size + 2) [] d hd (.initial (by omega)) h]
    exact .circular h

/-- What is asked for while a plan is made: the names around the model, after so many hops from
it, or the package of a declaration. -/
inductive Query where
  | names (hops : Nat) (d : Decl)
  | package (d : Decl)

/-- What one question leads to. The hops of the walk for the names are counted, those of the
walk for the package are not; it starts at the model when the names are there. -/
inductive Asks (c : Catalog) (model : Decl) : Query → Query → Prop
  | hop {hops : Nat} {d outer : Decl} (h : c.EnclosedBy d outer) (hhops : hops ≤ c.size) :
      Asks c model (.names hops d) (.names (hops + 1) outer)
  | named {hops : Nat} {d : Decl} (h : d.nesting = .topLevel) :
      Asks c model (.names hops d) (.package model)
  | reroot {d outer : Decl} (h : c.EnclosedBy d outer) (hother : outer.name ≠ d.name) :
      Asks c model (.package d) (.package outer)

/-- No endless row of questions follows. -/
def Answered (c : Catalog) (model : Decl) (q : Query) : Prop :=
  Acc (fun next q => c.Asks model q next) q

theorem Enclosures.answered {model : Decl} (h : c.Enclosures d chain) :
    c.Answered model (.package d) := by
  induction h with
  | ended hended =>
    refine Acc.intro _ fun next hnext => ?_
    cases hnext with
    | reroot hstep => exact absurd hstep (hended _)
  | member hstep _ ih =>
    refine Acc.intro _ fun next hnext => ?_
    cases hnext with
    | reroot hstep' =>
      obtain rfl := hstep.unique hstep'
      exact ih

theorem answered_of_outermost? {model outer : Decl} {n : Nat}
    (h : c.outermost? n d = some outer) : c.Answered model (.package d) := by
  induction n generalizing d with
  | zero => simp [outermost?] at h
  | succ n ih =>
    refine Acc.intro _ fun next hnext => ?_
    cases hnext with
    | reroot hstep hother =>
      obtain ⟨enclosing, hnesting, hget⟩ := hstep
      rw [outermost?, hnesting] at h
      simp only [hget, if_neg hother] at h
      exact ih h

theorem isSome_outermost?_of_answered {model : Decl} {n : Nat} {names : List String}
    (h : c.Answered model (.package d)) (hd : d ∈ c.decls) (hroom : c.Room n names)
    (htrail : c.Trail (fun d outer => c.EnclosedBy d outer ∧ outer.name ≠ d.name) names d) :
    (c.outermost? n d).isSome := by
  induction n generalizing d names with
  | zero => exact absurd hroom.pos (Nat.lt_irrefl 0)
  | succ n ih =>
    have hnew : d.name ∉ names := fun hmem =>
      not_circular_of_acc h ((htrail.circle hd hmem).lift Query.package
        fun _ _ hstep => .reroot hstep.1 hstep.2)
    unfold outermost?
    cases hnesting : d.nesting with
    | topLevel | «local» | anonymous => rfl
    | member enclosing =>
      cases hget : c.get? enclosing with
      | none =>
        simp only [hget]
        rfl
      | some outer =>
        simp only [hget]
        by_cases hname : outer.name = d.name
        · rw [if_pos hname]
          rfl
        · rw [if_neg hname]
          have hstep : c.EnclosedBy d outer := ⟨enclosing, hnesting, hget⟩
          exact ih (h.inv (.reroot hstep hname)) hstep.mem (hroom.push hd hnew)
            (htrail.push hd ⟨hstep, hname⟩)

/-- The walk for the package ends just if there is one within its levels. -/
theorem answered_package_iff {model : Decl} (hd : d ∈ c.decls) :
    c.Answered model (.package d) ↔ (c.packageOf? d).isSome := by
  rw [packageOf?, Option.isSome_map]
  constructor
  · intro h
    exact isSome_outermost?_of_answered h hd (.initial (Nat.lt_succ_self _)) (by simp [Trail])
  · intro h
    obtain ⟨outer, houter⟩ := Option.isSome_iff_exists.mp h
    exact answered_of_outermost? houter

theorem exists_enclosures {e : Decl} (h : Relation.ReflTransGen c.EnclosedBy d e)
    (he : c.Enclosures e chain) :
    ∃ chain', c.Enclosures d chain' ∧ chain'.getLastD d = chain.getLastD e := by
  induction h using Relation.ReflTransGen.head_induction_on with
  | refl => exact ⟨chain, he, rfl⟩
  | head hstep _ ih =>
    obtain ⟨chain', hchain, hlast⟩ := ih
    exact ⟨_, .member hstep hchain, by rw [List.getLastD_cons, hlast]⟩

theorem enclosures_of_topLevel (h : d.nesting = .topLevel) : c.Enclosures d [] := by
  refine .ended fun outer houter => ?_
  obtain ⟨enclosing, hmember, -⟩ := houter
  simp [h] at hmember

theorem answered_package {model : Decl} (h : Relation.ReflTransGen c.EnclosedBy model d)
    (htop : d.nesting = .topLevel) : c.Answered model (.package model) := by
  obtain ⟨chain, hchain, -⟩ := exists_enclosures h (enclosures_of_topLevel htop)
  exact hchain.answered

/-- The induction is on the hops that are left. -/
theorem answered_names {model : Decl} (left hops : Nat) (d : Decl)
    (hreach : Relation.ReflTransGen c.EnclosedBy model d) (hleft : hops + left = c.size + 1) :
    c.Answered model (.names hops d) := by
  induction left generalizing hops d with
  | zero =>
    refine Acc.intro _ fun next hnext => ?_
    cases hnext with
    | hop _ hhops => omega
    | named htop => exact answered_package hreach htop
  | succ left ih =>
    refine Acc.intro _ fun next hnext => ?_
    cases hnext with
    | hop hstep => exact ih (hops + 1) _ (hreach.tail hstep) (by omega)
    | named htop => exact answered_package hreach htop

theorem asks_of_enclosures {model : Decl} {hops : Nat} (h : c.Enclosures d chain)
    (hhops : hops + chain.length ≤ c.size + 1) :
    Relation.ReflTransGen (c.Asks model) (.names hops d)
      (.names (hops + chain.length) (chain.getLastD d)) := by
  induction h generalizing hops with
  | ended => exact .refl
  | @member d outer chain hstep _ ih =>
    rw [List.length_cons] at hhops
    rw [List.getLastD_cons, List.length_cons,
      show hops + (chain.length + 1) = hops + 1 + chain.length by omega]
    exact .head (.hop hstep (by omega)) (ih (by omega))

/-- Where the questions have come to lies on the way outward, and the package is asked for only
when that way has come to its end. -/
def OnTheWay (c : Catalog) (model : Decl) : Query → Prop
  | .names _ d => Relation.ReflTransGen c.EnclosedBy model d
  | .package _ => ∃ d, Relation.ReflTransGen c.EnclosedBy model d ∧ d.nesting = .topLevel

theorem onTheWay_of_asks {model : Decl} {q : Query}
    (h : Relation.ReflTransGen (c.Asks model) (.names 0 model) q) : c.OnTheWay model q := by
  induction h with
  | refl => exact .refl
  | tail _ hnext ih =>
    cases hnext with
    | hop hstep => exact ih.tail hstep
    | named htop => exact ⟨_, ih, htop⟩
    | reroot => exact ih

/-- What the three walks outward from a declaration have to do with each other. -/
structure WalksAgree (c : Catalog) (d : Decl) : Prop where
  unknown : ∀ model enclosing,
    c.enclosingNames d.name (c.size + 1) "" d = .error (.unknownEnclosing model enclosing) ↔
      c.checkEnclosing d.name (c.size + 2) [] d = .error (.unknownEnclosing model enclosing)
  circle :
    c.enclosingNames d.name (c.size + 1) "" d = .error (.unsupportedNesting d.name circular) ↔
      c.checkEnclosing d.name (c.size + 2) [] d = .error (.unsupportedNesting d.name circular)
  /-- In all other cases the outermost type decides whether there are names. -/
  named :
    (∀ model enclosing, c.enclosingNames d.name (c.size + 1) "" d ≠
      .error (.unknownEnclosing model enclosing)) →
    c.enclosingNames d.name (c.size + 1) "" d ≠ .error (.unsupportedNesting d.name circular) →
    ∃ chain, c.Enclosures d chain ∧
      ((∃ text, c.enclosingNames d.name (c.size + 1) "" d = .ok text) ↔
        (chain.getLastD d).nesting = .topLevel) ∧
      ∀ text, c.enclosingNames d.name (c.size + 1) "" d = .ok text → text = enclosingText chain
  located : ∀ text, c.enclosingNames d.name (c.size + 1) "" d = .ok text →
    c.Answered d (.package d) ∧ ∃ chain, c.Enclosures d chain ∧
      c.packageOf? d = some (Dotted.packagePart (chain.getLastD d).name)
  /-- A plan comes to ask for the package just if there are names. -/
  asked : Relation.ReflTransGen (c.Asks d) (.names 0 d) (.package d) ↔
    ∃ text, c.enclosingNames d.name (c.size + 1) "" d = .ok text
  answered : c.Answered d (.names 0 d)
  planned : ∀ k settings target p, Plan.ofTarget c k settings d target = .ok p →
    target.package = none → c.packageOf? d = some p.package

theorem names_of_ofTarget {k : Capabilities} {settings : Settings} {target : Target} {p : Plan}
    (h : Plan.ofTarget c k settings d target = .ok p) :
    (∃ text, c.enclosingNames d.name (c.size + 1) "" d = .ok text) ∧
      p.package = target.package.getD ((c.packageOf? d).getD "") := by
  unfold Plan.ofTarget at h
  obtain ⟨text, hnames, h⟩ := bind_ok_iff.mp h
  split at h
  · obtain ⟨_, hthrow, -⟩ := bind_ok_iff.mp h
    simp [throw, throwThe, MonadExceptOf.throw] at hthrow
  · rw [← Except.ok.inj h]
    exact ⟨⟨text, hnames⟩, rfl⟩

theorem asks_package_iff (hd : d ∈ c.decls) :
    Relation.ReflTransGen (c.Asks d) (.names 0 d) (.package d) ↔
      ∃ text, c.enclosingNames d.name (c.size + 1) "" d = .ok text := by
  constructor
  · intro h
    obtain ⟨last, hreach, htop⟩ := onTheWay_of_asks h
    obtain ⟨chain, hchain, hlast⟩ := exists_enclosures hreach (enclosures_of_topLevel htop)
    have hn := hchain.length_lt hd
    rw [enclosingNames_of_enclosures d.name "" hchain (by omega), hlast, List.getLastD_nil,
      enclosingNames, htop]
    exact ⟨_, rfl⟩
  · rintro ⟨text, hnames⟩
    obtain ⟨chain, hchain, hlast⟩ := (fate hd).topLevel_of_names hnames
    have hn := hchain.length_lt hd
    exact (asks_of_enclosures hchain (by omega)).tail (.named hlast)

theorem walksAgree (hd : d ∈ c.decls) : c.WalksAgree d where
  unknown := (fate hd).unknown_iff
  circle := (fate hd).circular_iff
  named := (fate hd).exists_names_iff
  located text hnames := by
    obtain ⟨chain, hchain, -⟩ := (fate hd).topLevel_of_names hnames
    have hpackage := packageOf?_of_enclosures hchain hd
    exact ⟨(answered_package_iff hd).mpr (by rw [hpackage]; rfl), chain, hchain, hpackage⟩
  asked := asks_package_iff hd
  answered := answered_names (c.size + 1) 0 d .refl (Nat.zero_add _)
  planned k settings target p hplan hpackage := by
    obtain ⟨⟨text, hnames⟩, hp⟩ := names_of_ofTarget hplan
    obtain ⟨chain, hchain, -⟩ := (fate hd).topLevel_of_names hnames
    rw [hp, hpackage, packageOf?_of_enclosures hchain hd]
    rfl

/-- Two types that enclose each other. -/
def ring : Catalog where
  decls := [
    { Decl.plain "a.Egg" .interface with nesting := .member "a.Hen" },
    { Decl.plain "a.Hen" .interface with nesting := .member "a.Egg" }]
  nodup := by decide

/-- The walks over the enclosing types of a declaration agree on every catalog, and what a plan
asks for always ends. The walk for the package alone does not end on a circle. -/
theorem walks_agree_and_plans_end :
    (∀ (c : Catalog) (d : Decl), d ∈ c.decls → c.WalksAgree d) ∧
      ∃ (c : Catalog) (d : Decl), d ∈ c.decls ∧ ¬ c.Answered d (.package d) ∧
        c.packageOf? d = none := by
  have hegg : ring.decls[0] ∈ ring.decls := by decide
  have hnone : ring.packageOf? ring.decls[0] = none := rfl
  refine ⟨fun c d hd => walksAgree hd, ring, ring.decls[0], hegg, ?_, hnone⟩
  rw [answered_package_iff hegg, hnone]
  exact Bool.false_ne_true

/-- Lines of the orders of a shop, and a receipt whose outermost type is not declared. -/
def shop : Catalog where
  decls := [
    Decl.plain "a.Shop" .interface,
    { Decl.plain "a.Shop.Order" .interface with nesting := .member "a.Shop" },
    { Decl.plain "a.Shop.Order.Line" .interface with nesting := .member "a.Shop.Order" },
    { Decl.plain "a.Till.Receipt" .interface with nesting := .member "a.Till" },
    { Decl.plain "a.Till.Receipt.Line" .interface with nesting := .member "a.Till.Receipt" }]
  nodup := by decide

theorem walks_agree_and_plans_end_shop :
    let line := shop.decls[2]
    let receiptLine := shop.decls[4]
    line ∈ shop.decls ∧ receiptLine ∈ shop.decls ∧
      shop.enclosingNames line.name (shop.size + 1) "" line = .ok "ShopOrder" ∧
      shop.Answered line (.package line) ∧
      Relation.ReflTransGen (shop.Asks line) (.names 0 line) (.package line) ∧
      shop.packageOf? line = some "a" ∧
      shop.checkEnclosing receiptLine.name (shop.size + 2) [] receiptLine =
        .error (.unknownEnclosing "a.Till.Receipt" "a.Till") := by
  intro line receiptLine
  have hline : line ∈ shop.decls := by decide
  have hreceiptLine : receiptLine ∈ shop.decls := by decide
  have hnames : shop.enclosingNames line.name (shop.size + 1) "" line = .ok "ShopOrder" := rfl
  have hunknown : shop.enclosingNames receiptLine.name (shop.size + 1) "" receiptLine =
      .error (.unknownEnclosing "a.Till.Receipt" "a.Till") := rfl
  have hagree := walks_agree_and_plans_end.1 shop line hline
  have hagree' := walks_agree_and_plans_end.1 shop receiptLine hreceiptLine
  exact ⟨hline, hreceiptLine, hnames, (hagree.located _ hnames).1,
    hagree.asked.mpr ⟨_, hnames⟩, rfl, (hagree'.unknown _ _).mp hunknown⟩

end Scaffold.Catalog
