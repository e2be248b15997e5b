import Stencil.Proofs.Refinement

-- Which templates compile. Whether a node is in order can be seen from the node and from what stands around it: it has
-- the parameters it needs, what it evaluates is supported, and it stands where its kind may stand.

namespace Stencil

namespace Expr

theorem eq_of_bare? {e : Expr} {name : String} (named : e.bare? = some name) : e = .var name [] := by
  unfold bare? at named
  split at named <;> cases named
  rfl

mutual

-- No part of the expression is unsupported.
def isSupported : Expr → Bool
  | .var _ keys => allSupported keys
  | .const _ => true
  | .str _ => true
  | .num _ => true
  | .binary _ left right => isSupported left && isSupported right
  | .unary _ value => isSupported value
  | .isset value => isSupported value
  | .ternary condition consequent alternate =>
    isSupported condition && isSupported consequent && isSupported alternate
  | .concat values => allSupported values
  | .array entries => entriesSupported entries
  | .range _ start stop => isSupported start && isSupported stop
  | .call callee args => isSupported callee && allSupported args
  | .unsupported => false

def allSupported : List Expr → Bool
  | [] => true
  | first :: rest => isSupported first && allSupported rest

def entriesSupported : List Entry → Bool
  | [] => true
  | .plain value :: rest => isSupported value && entriesSupported rest
  | .keyed key value :: rest => isSupported key && isSupported value && entriesSupported rest

end

mutual

theorem isSome_code? : ∀ e : Expr, (code? e).isSome = isSupported e
  | .var _ keys => by
    rw [isSupported, ← isSome_codes? keys, code?]
    cases codes? keys <;> rfl
  | .const _ => rfl
  | .str _ => rfl
  | .num _ => rfl
  | .binary _ left right => by
    rw [isSupported, ← isSome_code? left, ← isSome_code? right, code?]
    cases code? left <;> cases code? right <;> rfl
  | .unary _ value => by
    rw [isSupported, ← isSome_code? value, code?]
    cases code? value <;> rfl
  | .isset value => by
    rw [isSupported, ← isSome_code? value, code?]
    cases code? value <;> rfl
  | .ternary condition consequent alternate => by
    rw [isSupported, ← isSome_code? condition, ← isSome_code? consequent, ← isSome_code? alternate, code?]
    cases code? condition <;> cases code? consequent <;> cases code? alternate <;> rfl
  | .concat values => by
    rw [isSupported, ← isSome_codes? values, code?]
    cases codes? values <;> rfl
  | .array entries => by
    rw [isSupported, ← isSome_entryCodes? _ 0 entries, code?]
    cases entryCodes? (entries.any fun entry => entry.key?.isSome) 0 entries <;> rfl
  | .range _ start stop => by
    rw [isSupported, ← isSome_code? start, ← isSome_code? stop, code?]
    cases code? start <;> cases code? stop <;> rfl
  | .call callee args => by
    rw [isSupported, ← isSome_code? callee, ← isSome_codes? args, code?]
    cases named : callee.bare? with
    | none => cases code? callee <;> cases codes? args <;> rfl
    | some name =>
      -- A function that is called by its name stands for itself.
      rw [eq_of_bare? named]
      cases codes? args <;> rfl
  | .unsupported => rfl

theorem isSome_codes? : ∀ values : List Expr, (codes? values).isSome = allSupported values
  | [] => rfl
  | first :: rest => by
    rw [allSupported, ← isSome_code? first, ← isSome_codes? rest, codes?]
    cases code? first <;> cases codes? rest <;> rfl

theorem isSome_entryCodes? (numbered : Bool) : ∀ (next : Nat) (entries : List Entry),
    (entryCodes? numbered next entries).isSome = entriesSupported entries
  | _, [] => rfl
  | next, .plain value :: rest => by
    rw [entriesSupported, ← isSome_code? value, entryCodes?]
    cases numbered with
    | true =>
      rw [← isSome_entryCodes? true (next + 1) rest]
      cases code? value <;> cases entryCodes? true (next + 1) rest <;> rfl
    | false =>
      rw [← isSome_entryCodes? false next rest]
      cases code? value <;> cases entryCodes? false next rest <;> rfl
  | next, .keyed key value :: rest => by
    rw [entriesSupported, ← isSome_code? key, ← isSome_code? value, ← isSome_entryCodes? numbered next rest, entryCodes?]
    cases code? key <;> cases code? value <;> cases entryCodes? numbered next rest <;> rfl

end

theorem isSome_emit? (context : Context) (e : Expr) : (e.emit? context).isSome = e.isSupported := by
  unfold emit?
  split
  · rw [Option.isSome_map, isSome_code?, isSupported]
  · rw [Option.isSome_map, isSome_codes?, isSupported]
  · exact isSome_code? e

end Expr

def Part.isSupported : Part → Bool
  | .literal _ => true
  | .expression e => e.isSupported

def Attr.isSupported (attr : Attr) : Bool := attr.name.isSupported && (attr.value.map Part.isSupported).getD true

namespace Tag

def has (tag : Tag) (name : String) : Bool := (Attr.param? tag.attrs name).isSome

-- A parameter of that name, if the tag has one, can be evaluated.
def admits (tag : Tag) (name : String) : Bool := ((Attr.param? tag.attrs name).map Part.isSupported).getD true

def gives (tag : Tag) (name : String) : Bool := tag.has name && tag.admits name

theorem admits_of {tag : Tag} {name : String} {p : Part} (found : Attr.param? tag.attrs name = some p) :
    tag.admits name = p.isSupported := by
  simp [admits, found]

-- The name of an imported component is fixed and has a dash.
def namesComponent (tag : Tag) : Bool :=
  ((Attr.param? tag.attrs "name").bind Part.fixed?).any fun name => name.toList.contains '-'

-- The name of a state variable is a variable without keys.
def namesState (tag : Tag) : Bool := ((Attr.param? tag.attrs "name").bind Walk.stateName?).isSome

-- The tag may direct control flow: its parameters are there, can be evaluated if the flow has something to do, and
-- it stands where the flow may stand.
def directs (tag : Tag) (control : Control) (around : Option Bool) (isChildless : Bool) : Bool :=
  match control with
  | .conditional => tag.has "test" && (isChildless || tag.admits "test")
  | .loop => tag.has "from" && tag.has "item" &&
      (isChildless || tag.admits "from" && tag.admits "key" && tag.admits "item")
  | .switch => true
  | .case => around = some false && tag.gives "test"
  | .default => around.isSome

-- Flow with less to do asks for less.
theorem directs_childless {tag : Tag} {control : Control} {around : Option Bool} {isChildless fewer : Bool}
    (directs : tag.directs control around isChildless = true) (less : isChildless = true → fewer = true) :
    tag.directs control around fewer = true := by
  cases isChildless with
  | true => rwa [less rfl]
  | false => cases control <;> cases fewer <;> simp_all [Tag.directs]

end Tag

-- What is around the children of control flow.
def Control.inside : Control → Option Bool
  | .switch => some false
  | _ => none

namespace Node

def isDefault : Node → Bool
  | .tag _ own _ _ => TagKind.ofName? own.name = some (.control .default .content)
  | .leaf _ _ _ => false

mutual

-- Whether a node is in order. owned says that the nearest tag around it that is no control flow is a literal or
-- component tag; around says that it is a direct child of a switch, and whether a default came before it there.
-- Includes and applied forms are left out of account.
def inOrder (owned : Bool) (around : Option Bool) : Node → Bool
  | .leaf _ (.text value) _ => around.isNone || Text.isAllBlank value
  | .leaf _ (.comment _) _ => true
  | .leaf _ (.string _) _ => true
  | .leaf _ (.slot e) _ => e.isSupported
  | .leaf _ (.block e) _ => e.isSupported
  | .leaf _ (.script attrs _) _ => attrs.all Attr.isSupported
  | .tag _ own children _ =>
    match TagKind.ofName? own.name with
    | none => own.attrs.all Attr.isSupported && (own.selfClosing || allInOrder true none children)
    | some .parameter => own.gives "name" && own.gives "value"
    | some .assignment => own.gives "name" && own.gives "value"
    | some (.attr .content) => own.gives "name" && own.gives "value" && owned
    | some (.control control .content) =>
      own.directs control around children.isEmpty && allInOrder owned control.inside children
    | some .importing => own.namesComponent && own.gives "from"
    | some .template => own.gives "name" && !own.selfClosing && allInOrder false none children
    | some .state => own.namesState && own.selfClosing && own.admits "value"
    | some _ => false

def allInOrder (owned : Bool) (around : Option Bool) : List Node → Bool
  | [] => true
  | first :: rest => inOrder owned around first && allInOrder owned (around.map (· || first.isDefault)) rest

end

def behind (around : Option Bool) : List Node → Option Bool
  | [] => around
  | first :: rest => behind (around.map (· || first.isDefault)) rest

end Node

-- Whether a draft succeeds, and what it leaves around the next node, depends on what is around this one.
def Decides {α : Type} (draft : Draft α) (around : Option Bool) (passes : Bool) (after : Option Bool) : Prop :=
  ∀ l, l.branch.map Switch.hasDefault = around → match draft.run.run l with
    | (.ok _, l') => passes = true ∧ l'.branch.map Switch.hasDefault = after
    | (.error _, _) => passes = false

namespace Decides

variable {α β : Type} {around middle after : Option Bool} {passes also : Bool}

theorem pure (a : α) : Decides (Pure.pure a : Draft α) around true around := fun _ here => ⟨rfl, here⟩

theorem fail (file : Path) (cause : Cause) (location : Location) :
    Decides (Draft.fail file cause location : Draft α) around false after := fun _ _ => rfl

theorem bind {draft : Draft α} {next : α → Draft β} (first : Decides draft around passes middle)
    (rest : passes = true → ∀ a, Decides (next a) middle also after) :
    Decides (draft >>= next) around (passes && also) after := by
  intro l here
  have begun := first l here
  rw [run_bind]
  revert begun
  rcases draft.run.run l with ⟨e | a, l'⟩
  · rintro rfl
    exact Bool.false_and _
  · rintro ⟨rfl, here⟩
    simpa only [Bool.true_and] using rest rfl a l' here

theorem of_eq {draft : Draft α} (decides : Decides draft around passes after) (same : passes = also) :
    Decides draft around also after := same ▸ decides

theorem congr {draft : Draft α} {other : Option Bool} (decides : Decides draft around passes after)
    (same : passes = also) (left : after = other) : Decides draft around also other := same ▸ left ▸ decides

theorem step {draft : Draft α} {next : α → Draft β} (first : Decides draft around true middle)
    (rest : ∀ a, Decides (next a) middle also after) : Decides (draft >>= next) around also after :=
  (first.bind fun _ => rest).of_eq (Bool.true_and _)

theorem changing {change : Ledger → Ledger} (changed : ∀ l, l.branch.map Switch.hasDefault = around →
    (change l).branch.map Switch.hasDefault = after) : Decides (modify change : Draft Unit) around true after :=
  fun l here => ⟨rfl, changed l here⟩

theorem marking (around : Option Bool) (state : Switch) :
    Decides (modify fun l => { l with branch := some state } : Draft Unit) around true (some state.hasDefault) :=
  changing fun _ _ => rfl

theorem look {next : Ledger → Draft β}
    (rest : ∀ l, l.branch.map Switch.hasDefault = around → Decides (next l) around also after) :
    Decides (get >>= next) around also after := by
  intro l here
  rw [run_bind]
  exact rest l here l here

variable {file : Path}

theorem expr (context : Expr.Context) (e : Expr) (location : Location) :
    Decides (Draft.expr file context e location) around e.isSupported around := by
  refine step (changing fun _ here => here) fun _ => ?_
  rw [← e.isSome_emit? context]
  cases e.emit? context with
  | some code => exact pure code
  | none => exact fail _ _ _

theorem part (context : Expr.Context) (p : Part) (location : Location) :
    Decides (Draft.part file context p location) around p.isSupported around := by
  cases p with
  | literal text => exact pure _
  | expression e => exact ((expr context e location).bind fun _ _ => pure _).of_eq (Bool.and_true _)

theorem target (context : Expr.Context) (p : Part) (location : Location) :
    Decides (Draft.target file context p location) around p.isSupported around := by
  cases p with
  | literal text => exact expr context (.var text []) location
  | expression e => exact expr context e location

theorem require {h : Header} {name : String} {next : Part → Draft β}
    (rest : ∀ p, Attr.param? h.tag.attrs name = some p → Decides (next p) around also after) :
    Decides (Draft.require file h name >>= next) around (h.tag.has name && also) after := by
  unfold Draft.require Tag.has
  cases found : Attr.param? h.tag.attrs name with
  | none => exact (fail _ _ _ : Decides _ around false after).bind fun impossible => by cases impossible
  | some p =>
    rw [pure_bind]
    exact (rest p found).of_eq (Bool.true_and _).symm

-- A required name and a required value, both of which are evaluated.
theorem given {h : Header} {next : Part → Part → Draft β}
    (rest : ∀ name value, Decides (next name value) around (name.isSupported && value.isSupported) after) :
    Decides (do next (← Draft.require file h "name") (← Draft.require file h "value")) around
      (h.tag.gives "name" && h.tag.gives "value") after := by
  have required : Decides (do next (← Draft.require file h "name") (← Draft.require file h "value")) around
      (h.tag.has "name" && (h.tag.has "value" && (h.tag.admits "name" && h.tag.admits "value"))) after := by
    refine require fun name here => require fun value found => ?_
    rw [Tag.admits_of here, Tag.admits_of found]
    exact rest name value
  exact required.of_eq (by simp only [Tag.gives]; ac_rfl)

theorem within (branch : Option Switch) {body : Draft α}
    (inner : Decides body (branch.map Switch.hasDefault) passes after) :
    Decides (Draft.within branch body) around passes around := by
  intro l here
  have begun := inner { l with branch := branch } rfl
  rw [run_within]
  revert begun
  rcases body.run.run { l with branch := branch } with ⟨_ | _, _⟩
  · exact id
  · exact fun begun => ⟨begun.1, here⟩

variable {h : Header} {body : Draft (List Line)}

theorem conditional {isChildless : Bool} (inner : Decides body none passes after) :
    Decides (Draft.conditional file h isChildless body) around
      (h.tag.has "test" && (passes && (isChildless || h.tag.admits "test"))) around := by
  refine require fun test found => ?_
  refine (within none inner).bind fun _ _ => ?_
  cases isChildless with
  | true => exact pure _
  | false =>
    rw [Tag.admits_of found]
    exact ((part .condition test h.location).bind fun _ _ => pure _).of_eq (by simp)

theorem binding (h : Header) (item : Part) : Decides (Draft.binding file h item) around
    (h.tag.admits "key" && item.isSupported) around := by
  unfold Draft.binding
  cases found : Attr.param? h.tag.attrs "key" with
  | none => exact ((target _ item _).bind fun _ _ => pure _).of_eq (by simp [Tag.admits, found])
  | some key =>
    rw [Tag.admits_of found]
    exact (target _ key _).bind fun _ _ => ((target _ item _).bind fun _ _ => pure _).of_eq (Bool.and_true _)

theorem loop {isChildless : Bool} (inner : Decides body none passes after) :
    Decides (Draft.loop file h isChildless body) around (h.tag.has "from" && (h.tag.has "item" && (passes &&
      (isChildless || h.tag.admits "from" && (h.tag.admits "key" && h.tag.admits "item"))))) around := by
  refine require fun source here => require fun item found => (within none inner).bind fun _ _ => ?_
  cases isChildless with
  | true => exact pure _
  | false =>
    rw [Tag.admits_of here, Tag.admits_of found]
    exact (part .value source h.location).bind fun _ _ =>
      ((binding h item).bind fun _ _ => pure _).of_eq (Bool.and_true _)

theorem switch (inner : Decides body (some false) passes after) : Decides (Draft.switch body) around passes around := by
  have chain : Decides (do
      let lines ← body
      return if ← Draft.chained then lines ++ [.close] else lines) (some false) passes after :=
    (inner.bind fun _ _ => look fun _ _ => pure _).of_eq (Bool.and_true _)
  exact within (some Switches.fresh) chain

theorem case (inner : Decides body none passes after) : Decides (Draft.case file h body) around
    (around = some false && (h.tag.has "test" && (passes && h.tag.admits "test"))) around := by
  refine look fun l here => ?_
  cases found : l.branch with
  | none =>
    simp only [found, Option.map_none] at here
    subst here
    exact fail _ _ _
  | some state =>
    simp only [found, Option.map_some] at here
    subst here
    cases refused : state.hasDefault with
    | true =>
      simp only [refused, if_true]
      exact fail _ _ _
    | false =>
      simp only [refused, Bool.false_eq_true, if_false, decide_true, Bool.true_and]
      have marked := marking (some false) { state with hasCase := true }
      rw [refused] at marked
      refine step marked fun _ => require fun test found => ?_
      rw [Tag.admits_of found]
      exact (within none inner).bind fun _ _ => ((part .condition test _).bind fun _ _ => pure _).of_eq (Bool.and_true _)

theorem default (inner : Decides body none passes after) : Decides (Draft.default file h body) around
    (around.isSome && passes) (around.map fun _ => true) := by
  refine look fun l here => ?_
  cases found : l.branch with
  | none =>
    simp only [found, Option.map_none] at here
    subst here
    exact fail _ _ _
  | some state =>
    simp only [found, Option.map_some] at here
    subst here
    simp only [Option.isSome_some, Bool.true_and, Option.map_some]
    exact step (marking _ { state with hasDefault := true }) fun _ =>
      ((within none inner).bind fun _ _ => pure _).of_eq (Bool.and_true _)

theorem control {kind : Control} {isChildless : Bool} (inner : Decides body kind.inside passes after) :
    Decides (Draft.control kind file h isChildless body) around (h.tag.directs kind around isChildless && passes)
      (around.map (· || kind = .default)) := by
  cases kind with
  | conditional => exact (conditional inner).congr (by simp only [Tag.directs]; ac_rfl) (by simp)
  | loop => exact (loop inner).congr (by simp only [Tag.directs]; ac_rfl) (by simp)
  | switch => exact (switch inner).congr (by simp only [Tag.directs, Bool.true_and]) (by simp)
  | case => exact (case inner).congr (by simp only [Tag.directs, Tag.gives]; ac_rfl) (by simp)
  | default => exact (default inner).congr rfl (by simp)

theorem ownAttr (attrsOf : Nat) (location : Location) (attr : Attr) :
    Decides (Draft.ownAttr file attrsOf location attr) around attr.isSupported around := by
  refine (part _ attr.name _).bind fun _ _ => ?_
  cases attr.value with
  | none => exact pure _
  | some value => exact ((part _ value _).bind fun _ _ => pure _).of_eq (Bool.and_true _)

theorem ownAttrs (attrsOf : Nat) (location : Location) (attrs : List Attr) :
    Decides (Draft.ownAttrs file attrsOf location attrs) around (attrs.all Attr.isSupported) around := by
  induction attrs with
  | nil => exact pure _
  | cons attr rest ih =>
    exact (ownAttr attrsOf location attr).bind fun _ _ => (ih.bind fun _ _ => pure _).of_eq (Bool.and_true _)

theorem appliedAttr (attrsOf : Nat) (h : Header) :
    Decides (Draft.appliedAttr file attrsOf h) around (h.tag.gives "name" && h.tag.gives "value") around :=
  given fun name value =>
    (part _ name _).bind fun _ _ => ((part _ value _).bind fun _ _ => pure _).of_eq (Bool.and_true _)

theorem attrBlock {attrsOf : Nat} {copies : List Sketch}
    (copied : Decides (Draft.allApplied file attrsOf copies) none passes after) (attrs : List Attr) (location : Location) :
    Decides (Draft.attrBlock file attrsOf copies attrs location) around (passes && attrs.all Attr.isSupported) around :=
  (within none copied).bind fun _ _ =>
    ((ownAttrs attrsOf location attrs).bind fun _ _ => pure _).of_eq (Bool.and_true _)

theorem fragment : Decides Draft.fragment around true around := fun _ here => ⟨rfl, here⟩

theorem leaf (sink : Nat) (identity : UInt32) (leaf : Leaf) (location : Location) (owned : Bool) (known : Nat) :
    Decides (Draft.leaf file sink known location leaf) around (Node.inOrder owned around (.leaf identity leaf location))
      around := by
  cases leaf with
  | text value =>
    refine look fun l here => ?_
    cases found : l.branch with
    | none =>
      simp only [found, Option.map_none] at here
      subst here
      exact pure _
    | some state =>
      simp only [found, Option.map_some] at here
      subst here
      cases blank : Text.isAllBlank value with
      | true =>
        simp only [Node.inOrder, blank, Option.isSome_some, if_true, Option.isNone_some, Bool.or_true]
        exact pure _
      | false =>
        simp only [Node.inOrder, blank, Option.isSome_some, if_true, Option.isNone_some, Bool.or_false, if_false,
          Bool.false_eq_true]
        exact fail _ _ _
  | comment value => exact pure _
  | string value => exact pure _
  | slot e => exact ((expr .value e location).bind fun _ _ => pure _).of_eq (Bool.and_true _)
  | block e => exact ((expr .value e location).bind fun _ _ => pure _).of_eq (Bool.and_true _)
  | script attrs body =>
    have nothing (attrsOf : Nat) : Decides (Draft.allApplied file attrsOf []) none true none := pure _
    exact step fragment fun attrsOf =>
      ((attrBlock (nothing attrsOf) attrs location).bind fun _ _ => pure _).of_eq (by simp [Node.inOrder])

theorem parameter (h : Header) :
    Decides (Draft.parameter file h) around (h.tag.gives "name" && h.tag.gives "value") around :=
  given fun name value =>
    (target _ name _).bind fun _ _ => ((part _ value _).bind fun _ _ => pure _).of_eq (Bool.and_true _)

theorem assignment (h : Header) :
    Decides (Draft.assignment file h) around (h.tag.gives "name" && h.tag.gives "value") around :=
  given fun name value =>
    (target _ name _).bind fun _ _ => ((part _ value _).bind fun _ _ => pure _).of_eq (Bool.and_true _)

theorem ownerAttribute (owned : Bool) (h : Header) : Decides (Draft.ownerAttribute file owned h) around
    (h.tag.has "name" && (h.tag.has "value" && owned)) around := by
  refine require fun _ _ => require fun _ _ => ?_
  cases owned with
  | true => exact pure _
  | false => exact fail _ _ _

theorem importing (options : Options) (h : Header) : Decides (Draft.importing file options h) around
    (h.tag.namesComponent && h.tag.gives "from") around := by
  have decided : Decides (Draft.importing file options h) around
      (h.tag.has "name" && (h.tag.has "from" && (h.tag.namesComponent && h.tag.admits "from"))) around := by
    refine require fun name here => require fun source found => ?_
    rw [Tag.admits_of found]
    unfold Tag.namesComponent
    rw [here, Option.bind_some]
    cases fixed : name.fixed? with
    | none => exact fail _ _ _
    | some text =>
      cases dashed : text.toList.contains '-' with
      | false =>
        simp only [Option.filter_some, dashed, Option.any_some]
        exact fail _ _ _
      | true =>
        simp only [Option.filter_some, dashed, Option.any_some, Bool.true_and]
        exact step (changing fun _ here => here) fun _ =>
          ((part _ source _).bind fun _ _ => pure _).of_eq (Bool.and_true _)
  refine decided.of_eq ?_
  cases found : Attr.param? h.tag.attrs "name" with
  | none => simp [Tag.has, Tag.namesComponent, found]
  | some name =>
    have named : h.tag.has "name" = true := by simp [Tag.has, found]
    rw [named, Bool.true_and, Tag.gives]
    ac_rfl

theorem template (h : Header) (inner : Decides body none passes after) : Decides (Draft.template file h body) around
    (h.tag.gives "name" && !h.tag.selfClosing && passes) around := by
  have decided : Decides (Draft.template file h body) around
      (h.tag.has "name" && (!h.tag.selfClosing && (passes && h.tag.admits "name"))) around := by
    refine require fun name here => ?_
    rw [Tag.admits_of here]
    cases h.tag.selfClosing with
    | true => exact (fail _ _ _ : Decides _ around false around).bind fun impossible => by cases impossible
    | false =>
      exact (within none inner).bind fun _ _ =>
        ((target _ name _).bind fun _ _ => pure _).of_eq (Bool.and_true _)
  exact decided.of_eq (by simp only [Tag.gives]; ac_rfl)

theorem useState (h : Header) : Decides (Draft.useState file h) around
    (h.tag.namesState && h.tag.selfClosing && h.tag.admits "value") around := by
  have decided : Decides (Draft.useState file h) around
      (h.tag.has "name" && (h.tag.selfClosing && (h.tag.namesState && h.tag.admits "value"))) around := by
    refine require fun name here => ?_
    cases h.tag.selfClosing with
    | false => exact (fail _ _ _ : Decides _ around false around).bind fun impossible => by cases impossible
    | true =>
      unfold Tag.namesState
      rw [here, Option.bind_some]
      cases stored : Walk.stateName? name with
      | none => exact fail _ _ _
      | some bare =>
        have supported : name.isSupported = true := by
          cases name with
          | literal text => rfl
          | expression e => rw [Expr.eq_of_bare? stored]; rfl
        refine step ((target _ name _).of_eq supported) fun _ => ?_
        unfold Tag.admits
        cases Attr.param? h.tag.attrs "value" with
        | none => exact pure _
        | some value => exact ((part _ value _).bind fun _ _ => pure _).of_eq (Bool.and_true _)
  refine decided.of_eq ?_
  cases found : Attr.param? h.tag.attrs "name" with
  | none => simp [Tag.has, Tag.namesState, found]
  | some name =>
    have named : h.tag.has "name" = true := by simp [Tag.has, found]
    rw [named, Bool.true_and]
    ac_rfl

end Decides

-- The content of some nodes and what they leave in a fragment are written one after the other, and both have to
-- succeed. Without a tag that owns the fragment, the content decides.
def DecidesBoth (owned : Bool) (content copies : Draft (List Line)) (around : Option Bool) (passes : Bool)
    (after : Option Bool) : Prop :=
  ∃ first second, (first && second) = passes ∧ (owned = false → second = true) ∧ Decides content around first after ∧
    (first = true → Decides copies around second after)

namespace DecidesBoth

variable {owned : Bool} {content copies : Draft (List Line)} {around middle after : Option Bool} {passes also : Bool}

theorem content_of_unowned (both : DecidesBoth false content copies around passes after) :
    Decides content around passes after := by
  obtain ⟨first, second, rfl, unowned, here, _⟩ := both
  rwa [unowned rfl, Bool.and_true]

theorem silent (decides : Decides content around passes around) : DecidesBoth owned content (pure []) around passes around :=
  ⟨passes, true, Bool.and_true _, fun _ => rfl, decides, fun _ => Decides.pure _⟩

theorem append {more others : Draft (List Line)} (head : DecidesBoth owned content copies around passes middle)
    (tail : DecidesBoth owned more others middle also after) :
    DecidesBoth owned (do let lines ← content; return lines ++ (← more)) (do let lines ← copies; return lines ++ (← others))
      around (passes && also) after := by
  obtain ⟨first, second, rfl, unowned, here, copied⟩ := head
  obtain ⟨first', second', rfl, unowned', here', copied'⟩ := tail
  refine ⟨first && first', second && second', by ac_rfl, ?_, ?_, ?_⟩
  · intro free
    rw [unowned free, unowned' free, Bool.and_self]
  · exact here.bind fun _ _ => (here'.bind fun _ _ => Decides.pure _).of_eq (Bool.and_true _)
  · intro passed
    obtain ⟨begun, ended⟩ := Bool.and_eq_true_iff.mp passed
    exact (copied begun).bind fun _ _ => ((copied' ended).bind fun _ _ => Decides.pure _).of_eq (Bool.and_true _)

variable {file : Path} {h : Header}

-- Control flow in its place, and its copy over what its children leave.
theorem control {kind : Control} {isChildless fewer : Bool} {name : String}
    (inner : DecidesBoth owned content copies kind.inside passes after) (less : isChildless = true → fewer = true) :
    DecidesBoth owned (Draft.control kind file h isChildless content)
      (Draft.control kind file { h with tag := { h.tag with name := name } } fewer copies) around
      (h.tag.directs kind around isChildless && passes) (around.map (· || kind = .default)) := by
  obtain ⟨first, second, rfl, unowned, here, copied⟩ := inner
  refine ⟨h.tag.directs kind around isChildless && first, second, by ac_rfl, unowned, Decides.control here, ?_⟩
  intro passed
  obtain ⟨directs, begun⟩ := Bool.and_eq_true_iff.mp passed
  refine (Decides.control (copied begun)).of_eq ?_
  -- The copy has the parameters of the tag.
  have still : h.tag.directs kind around fewer = true := Tag.directs_childless directs less
  exact (congrArg (· && second) still).trans (Bool.true_and _)

theorem ownerAttribute {name : String} {attrsOf : Nat} : DecidesBoth owned (Draft.ownerAttribute file owned h)
    (Draft.appliedAttr file attrsOf { h with tag := { h.tag with name := name } }) around
    (h.tag.gives "name" && h.tag.gives "value" && owned) around := by
  cases owned with
  | true =>
    refine ⟨h.tag.has "name" && (h.tag.has "value" && true), h.tag.gives "name" && h.tag.gives "value", ?_, by simp,
      Decides.ownerAttribute true h, fun _ => Decides.appliedAttr attrsOf _⟩
    simp only [Tag.gives, Bool.and_true]
    grind
  | false =>
    exact ⟨_, true, by simp, fun _ => rfl, Decides.ownerAttribute false h, by simp⟩

-- The attributes and the children of a tag, together with what the children leave in its fragment.
theorem tagParts {below : List Sketch}
    (inner : ∀ attrsOf, DecidesBoth true content (Draft.allApplied file attrsOf below) none passes after) :
    Decides (Draft.tagParts file h below content) around
      (h.tag.attrs.all Attr.isSupported && (h.tag.selfClosing || passes)) around := by
  refine Decides.step Decides.fragment fun attrsOf => ?_
  cases h.tag.selfClosing with
  | true =>
    have nothing : Decides (Draft.allApplied file attrsOf []) none true none := Decides.pure _
    exact Decides.step (Decides.pure _) fun _ =>
      ((Decides.attrBlock nothing h.tag.attrs h.location).bind fun _ _ => Decides.pure _).of_eq (by simp)
  | false =>
    obtain ⟨first, second, rfl, -, here, copied⟩ := inner attrsOf
    refine ((Decides.within none here).bind fun begun _ =>
      (Decides.attrBlock (copied begun) h.tag.attrs h.location).bind fun _ _ => Decides.pure _).of_eq ?_
    simp only [Bool.false_or, Bool.and_true]
    ac_rfl

theorem literal {options : Options} {sink : Nat} {below : List Sketch}
    (inner : ∀ attrsOf, DecidesBoth true content (Draft.allApplied file attrsOf below) none passes after) :
    Decides (Draft.literal file options sink h below content) around
      (h.tag.attrs.all Attr.isSupported && (h.tag.selfClosing || passes)) around := by
  refine ((tagParts inner).bind fun _ (_, _, _) => ?_).of_eq (Bool.and_true _)
  cases Walk.isSingle options h.tag <;> exact Decides.pure _

theorem component {options : Options} {sink : Nat} {below : List Sketch}
    (inner : ∀ attrsOf, DecidesBoth true content (Draft.allApplied file attrsOf below) none passes after) :
    Decides (Draft.component file options sink h below content) around
      (h.tag.attrs.all Attr.isSupported && (h.tag.selfClosing || passes)) around := by
  refine ((tagParts inner).bind fun _ (_, _, _) => ?_).of_eq (Bool.and_true _)
  cases Walk.isSingle options h.tag <;> exact Decides.pure _

end DecidesBoth

section Nodes

variable {options : Options} {fault : Path → Fault} {stack : Stack}

theorem DecidesBoth.tag {owned : Bool} {around : Option Bool} {shift sink attrsOf identity : Nat} {word : UInt32} {own : Tag}
    {children : List Node} {location : Location} {body : Bool → Nat → Draft (List Line)}
    (plain : own.isApplied = false)
    (inner : ∀ (owned : Bool) (around : Option Bool) (sink attrsOf : Nat), DecidesBoth owned (body owned sink)
      (Draft.allApplied stack.file attrsOf (Sketch.copies (Sketch.ofNodes shift children))) around
      (Node.allInOrder owned around children) (Node.behind around children)) :
    DecidesBoth owned
      (Draft.tag options fault stack owned sink ⟨identity, own, location⟩ (Sketch.ofNodes shift children) body)
      (Draft.allApplied stack.file attrsOf
        (Sketch.copy (.node ⟨identity, .tag own, location⟩ (Sketch.ofNodes shift children)))) around
      (Node.inOrder owned around (.tag word own children location))
      (around.map (· || (Node.tag word own children location).isDefault)) := by
  have same : around.map (· || false) = around := by simp
  -- The content of a tag that leaves nothing in the fragment around it decides.
  have alone {draft : Draft (List Line)} {passes : Bool} (decides : Decides draft around passes around) :
      DecidesBoth owned draft (Draft.allApplied stack.file attrsOf []) around passes (around.map (· || false)) :=
    same.symm ▸ DecidesBoth.silent decides
  simp only [Draft.tag, TagKind.classify, Node.inOrder, Node.isDefault, Sketch.copy]
  cases kind : TagKind.ofName? own.name with
  | none =>
    simp only [decide_false, reduceCtorEq]
    refine alone (Decides.look fun l _ => ?_)
    by_cases component : l.registry.contains l.shared own.name = true
    · simp only [component, if_true]
      exact DecidesBoth.component (inner true none identity)
    · simp only [component, Bool.false_eq_true, if_false]
      exact DecidesBoth.literal (inner true none identity)
  | some found =>
    cases found with
    | parameter => exact alone (Decides.parameter _)
    | assignment => exact alone (Decides.assignment _)
    | importing => exact alone (Decides.importing options _)
    | state => exact alone (Decides.useState _)
    | including => exact alone (Decides.fail _ _ _)
    | attr flow =>
      cases flow with
      | content =>
        simp only [Draft.allApplied_singleton, Draft.applied, TagKind.ofName?_applied_attr kind]
        exact same.symm ▸ .ownerAttribute
      | applied => simp [Tag.isApplied, kind] at plain
    | control control flow =>
      cases flow with
      | content =>
        have childless : (Sketch.ofNodes shift children).isEmpty = true →
            (Sketch.copies (Sketch.ofNodes shift children)).isEmpty = true := by
          rw [List.isEmpty_iff]
          intro empty
          rw [empty]
          rfl
        simp only [Draft.allApplied_singleton, Draft.applied, TagKind.ofName?_applied_control kind, Option.some.injEq,
          TagKind.control.injEq, and_true, ← Sketch.isEmpty_ofNodes shift children]
        exact DecidesBoth.control (inner owned control.inside sink attrsOf) childless
      | applied => simp [Tag.isApplied, kind] at plain
    | template => exact alone (Decides.template _ (inner false none identity attrsOf).content_of_unowned)
    | component => exact absurd rfl (TagKind.ofName?_own kind).1
    | literal => exact absurd rfl (TagKind.ofName?_own kind).2

mutual

-- The content of a node and what it leaves in a fragment can be written if and only if the node is in order.
theorem Node.decides_inOrder (shift : Nat) : ∀ (node : Node) (owned : Bool) (around : Option Bool) (sink attrsOf : Nat),
    node.Only (Tag.isApplied · = false) →
    DecidesBoth owned (Draft.outline options fault stack owned sink (Outline.ofNode shift node))
      (Draft.allApplied stack.file attrsOf (Sketch.copy (Sketch.ofNode shift node))) around
      (node.inOrder owned around) (around.map (· || node.isDefault))
  | .leaf identity value location, owned, around, sink, attrsOf, _ => by
    have same : around.map (· || false) = around := by simp
    exact same.symm ▸ DecidesBoth.silent (Decides.leaf sink identity value location owned _)
  | .tag identity own children location, owned, around, sink, attrsOf, only => by
    have inner (owned : Bool) (around : Option Bool) (sink attrsOf : Nat) :=
      Node.decides_allInOrder shift children owned around sink attrsOf only.2
    rw [Outline.ofNode, Draft.outline, Outline.flatten_ofNodes, Sketch.ofNode]
    exact DecidesBoth.tag only.1 inner

theorem Node.decides_allInOrder (shift : Nat) : ∀ (nodes : List Node) (owned : Bool) (around : Option Bool)
    (sink attrsOf : Nat), Node.AllOnly (Tag.isApplied · = false) nodes →
    DecidesBoth owned (Draft.outlines options fault stack owned sink (Outline.ofNodes shift nodes))
      (Draft.allApplied stack.file attrsOf (Sketch.copies (Sketch.ofNodes shift nodes))) around
      (Node.allInOrder owned around nodes) (Node.behind around nodes)
  | [], _, _, _, _, _ => DecidesBoth.silent (Decides.pure _)
  | first :: rest, owned, around, sink, attrsOf, only => by
    rw [Sketch.ofNodes, Sketch.copies, Draft.allApplied_append]
    exact (Node.decides_inOrder shift first owned around sink attrsOf only.1).append
      (Node.decides_allInOrder shift rest owned _ sink attrsOf only.2)

end

end Nodes

namespace Outline

mutual

theorem expand_direct {reach : Path → Option (Template × Expander)} (stack : Stack) (shift known : Nat) :
    ∀ {node : Node}, node.Only (TagKind.ofName? ·.name ≠ some .including) →
      expand reach stack shift known node = (ofNode shift node, known)
  | .leaf _ _ _, _ => rfl
  | .tag _ _ _ _, direct => expand_tag direct.1 fun _ => expandAll_direct stack shift known direct.2

theorem expandAll_direct {reach : Path → Option (Template × Expander)} (stack : Stack) (shift known : Nat) :
    ∀ {nodes : List Node}, Node.AllOnly (TagKind.ofName? ·.name ≠ some .including) nodes →
      expandAll reach stack shift known nodes = (ofNodes shift nodes, known)
  | [], _ => rfl
  | _ :: _, direct => by
    rw [expandAll, expand_direct stack shift known direct.1, expandAll_direct stack shift known direct.2, ofNodes]

end

end Outline

namespace Template

theorem outlines_direct {template : Template} (options : Options) (loader : Loader)
    (direct : Node.AllOnly (TagKind.ofName? ·.name ≠ some .including) template.nodes) :
    template.outlines options loader = Outline.ofNodes 0 template.nodes := by
  unfold outlines
  cases loader.templates.length <;> rw [Outline.expander, Outline.expandAll_direct _ _ _ direct]

-- A template without includes and applied forms compiles if and only if all its nodes are in order.
theorem isOk_compile (template : Template) (options : Options) (loader : Loader) (shared : Names)
    (direct : Node.AllOnly (TagKind.ofName? ·.name ≠ some .including) template.nodes)
    (plain : Node.AllOnly (Tag.isApplied · = false) template.nodes) :
    (template.compile options loader shared).1.isOk = Node.allInOrder false none template.nodes := by
  have decided : Decides (Draft.outlines options loader.fault ⟨(Path.ofText options.filePath).normalize, []⟩ false
      Output.rootSink (Outline.ofNodes 0 template.nodes)) none (Node.allInOrder false none template.nodes)
      (Node.behind none template.nodes) :=
    (Node.decides_allInOrder 0 template.nodes false none Output.rootSink 0 plain).content_of_unowned
  replace decided := decided (.start options shared) rfl
  rw [compile_eq_draft, draft, outlines_direct options loader direct]
  revert decided
  rcases (Draft.outlines options loader.fault ⟨(Path.ofText options.filePath).normalize, []⟩ false Output.rootSink
    (Outline.ofNodes 0 template.nodes)).run.run (.start options shared) with ⟨_ | _, _⟩
  · exact fun failed => failed.symm
  · exact fun decided => decided.1.symm

def conditionalClass (look : Part) : Template :=
  ⟨[.tag 1 ⟨"article", [⟨.literal "hidden", none, .zero⟩], false⟩
    [.tag 2 ⟨"if", [⟨.literal "test", some (.expression (.var "open" [])), .zero⟩], false⟩
      [.tag 3 ⟨"attribute", [⟨.literal "name", some (.literal "class"), .zero⟩, ⟨.literal "value", some look, .zero⟩],
        true⟩ [] .zero] .zero,
    .tag 4 ⟨"switch", [], false⟩
      [.tag 5 ⟨"case", [⟨.literal "test", some (.expression (.var "short" [])), .zero⟩], false⟩
        [.leaf 6 (.text "brief") .zero] .zero,
      .leaf 7 (.text " ") .zero,
      .tag 8 ⟨"default", [], false⟩ [.tag 9 ⟨"hr", [], true⟩ [] .zero] .zero] .zero] .zero]⟩

def noParts : Loader := ⟨[], fun path => .unreadable path.text⟩

-- An attribute that cannot be evaluated is found out when the fragment is written.
theorem isOk_compile_conditionalClass : ((conditionalClass (.literal "wide")).compile .standard noParts []).1.isOk = true ∧
    ((conditionalClass (.expression .unsupported)).compile .standard noParts []).1.isOk = false := by
  refine ⟨(isOk_compile _ .standard noParts [] ?_ ?_).trans (by decide +kernel),
    (isOk_compile _ .standard noParts [] ?_ ?_).trans (by decide +kernel)⟩ <;>
  simp [conditionalClass, Node.AllOnly, Node.Only, Tag.isApplied, TagKind.ofName?]

end Template

end Stencil
