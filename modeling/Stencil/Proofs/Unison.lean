import Stencil.Proofs.Accumulator

-- One draft for each of many choices of texts. Such drafts run in unison: all of them fail in the same way, or all
-- succeed, and then the lines of one choice are those of any other but for the chosen texts.

namespace Stencil

-- A line with a text that depends on the choice, or a line that no choice changes.
inductive Pattern (ι : Type) where
  | fixed (line : Line)
  | record (sink : Nat) (key : String) (text : ι → String)
  | script (sink attrsOf : Nat) (body : ι → String)

namespace Pattern

variable {ι : Type}

def line (choice : ι) : Pattern ι → Line
  | .fixed line => line
  | .record sink key text => .record sink key (text choice)
  | .script sink attrsOf body => .scriptRecord sink attrsOf (body choice)

def text? : Pattern ι → Option (ι → String)
  | .fixed _ => none
  | .record _ _ text => some text
  | .script _ _ body => some body

-- Lines for each choice, in which just these texts depend on it, in this order.
def Shapes (texts : List (ι → String)) (lines : ι → List Line) : Prop :=
  ∃ patterns : List (Pattern ι), (∀ choice, lines choice = patterns.map (line choice)) ∧
    patterns.filterMap text? = texts

theorem Shapes.fixed (lines : List Line) : Shapes [] fun _ : ι => lines := by
  refine ⟨lines.map .fixed, fun choice => ?_, ?_⟩
  · rw [List.map_map]
    exact (List.map_id lines).symm
  · rw [List.filterMap_map]
    exact List.filterMap_eq_nil_iff.mpr fun _ _ => rfl

theorem Shapes.append {front back : List (ι → String)} {first second : ι → List Line} (head : Shapes front first)
    (tail : Shapes back second) : Shapes (front ++ back) fun choice => first choice ++ second choice := by
  obtain ⟨some, here, rfl⟩ := head
  obtain ⟨more, there, rfl⟩ := tail
  refine ⟨some ++ more, fun choice => ?_, List.filterMap_append⟩
  simp only [here, there, List.map_append]

theorem Shapes.behind {texts : List (ι → String)} {lines : ι → List Line} (front : List Line)
    (shapes : Shapes texts lines) : Shapes texts fun choice => front ++ lines choice :=
  (Shapes.fixed front).append shapes

theorem Shapes.before {texts : List (ι → String)} {lines : ι → List Line} (shapes : Shapes texts lines)
    (back : List Line) : Shapes texts fun choice => lines choice ++ back := by
  have whole := shapes.append (.fixed back)
  rwa [List.append_nil] at whole

theorem Shapes.record (sink : Nat) (key : String) (text : ι → String) :
    Shapes [text] fun choice => [.record sink key (text choice)] :=
  ⟨[.record sink key text], fun _ => rfl, rfl⟩

theorem Shapes.script (sink attrsOf : Nat) (body : ι → String) :
    Shapes [body] fun choice => [.scriptRecord sink attrsOf (body choice)] :=
  ⟨[.script sink attrsOf body], fun _ => rfl, rfl⟩

end Pattern

namespace Draft

open Pattern (Shapes)

-- All drafts fail alike, or all succeed with results that are right together, and the same ledger is left.
def Unison {ι α : Type} (right : (ι → α) → Prop) (drafts : ι → Draft α) (l : Ledger) : Prop :=
  (∃ e r, ∀ choice, (drafts choice).run.run l = (.error e, r)) ∨
    ∃ results r, right results ∧ ∀ choice, (drafts choice).Gives l (results choice) r

namespace Unison

variable {ι α β : Type} {right : (ι → α) → Prop} {good : (ι → β) → Prop} {l : Ledger}

theorem pure {results : ι → α} (fine : right results) : Unison right (fun choice => pure (results choice)) l :=
  .inr ⟨results, l, fine, fun _ => rfl⟩

theorem fail {file : Path} {cause : Cause} {location : Location} :
    Unison right (fun _ => Draft.fail file cause location) l :=
  .inl ⟨_, l, fun _ => rfl⟩

-- What follows may count on one of the drafts having led to it: without any choice there is nothing to show.
theorem bind {drafts : ι → Draft α} {next : ι → α → Draft β} (first : Unison right drafts l)
    (rest : ∀ results r choice, right results → (drafts choice).Gives l (results choice) r →
      Unison good (fun choice => next choice (results choice)) r) :
    Unison good (fun choice => drafts choice >>= next choice) l := by
  rcases first with ⟨e, r, failed⟩ | ⟨results, r, fine, gave⟩
  · refine .inl ⟨e, r, fun choice => ?_⟩
    rw [run_bind, failed]
  · by_cases chosen : Nonempty ι
    · obtain ⟨choice⟩ := chosen
      rcases rest results r choice fine (gave choice) with ⟨e, s, failed⟩ | ⟨later, s, fine, given⟩
      · refine .inl ⟨e, s, fun choice => ?_⟩
        rw [run_bind, gave choice]
        exact failed choice
      · exact .inr ⟨later, s, fine, fun choice => gives_bind.mpr ⟨_, _, gave choice, given choice⟩⟩
    · exact .inl ⟨⟨.dynamicInclude, "", .zero⟩, l, fun choice => absurd ⟨choice⟩ chosen⟩

-- A draft that they have in common comes first.
theorem after {draft : Draft α} {next : ι → α → Draft β}
    (rest : ∀ a r, Unison good (fun choice => next choice a) r) :
    Unison good (fun choice => draft >>= next choice) l := by
  have first : Unison (fun results => ∃ a, results = fun _ => a) (fun _ : ι => draft) l := by
    rcases ran : draft.run.run l with ⟨e | a, r⟩
    · exact .inl ⟨e, r, fun _ => ran⟩
    · exact .inr ⟨fun _ => a, r, ⟨a, rfl⟩, fun _ => ran⟩
  refine first.bind fun results r _ common _ => ?_
  obtain ⟨a, rfl⟩ := common
  exact rest a r

theorem get {next : ι → Ledger → Draft β} (rest : Unison good (fun choice => next choice l) l) :
    Unison good (fun choice => MonadState.get >>= next choice) l := rest

theorem within {branch : Option Switch} {drafts : ι → Draft α} (inner : Unison right drafts (l.inside branch)) :
    Unison right (fun choice => Draft.within branch (drafts choice)) l := by
  rcases inner with ⟨e, r, failed⟩ | ⟨results, r, fine, gave⟩
  · refine .inl ⟨e, r, fun choice => ?_⟩
    have failed := failed choice
    unfold Ledger.inside at failed
    rw [run_within, failed]
  · exact .inr ⟨results, _, fine, fun choice => gives_within.mpr ⟨r, gave choice, rfl⟩⟩

-- Nothing depends on the choice.
theorem common (draft : Draft (List Line)) : Unison (Shapes []) (fun _ : ι => draft) l := by
  rcases ran : draft.run.run l with ⟨e | lines, r⟩
  · exact .inl ⟨e, r, fun _ => ran⟩
  · exact .inr ⟨fun _ => lines, r, .fixed lines, fun _ => ran⟩

end Unison

section Rules

variable {ι : Type} {texts : List (ι → String)} {file : Path} {h : Header} {options : Options} {sink : Nat}
  {body : ι → Draft (List Line)} {l : Ledger}

section Flow

variable {isChildless : Bool}

theorem unison_conditional (blank : isChildless = true → texts = [])
    (inner : ∀ m : Ledger, m.branch.isSome = false → Unison (Shapes texts) body m) :
    Unison (Shapes texts) (fun choice => conditional file h isChildless (body choice)) l := by
  unfold conditional
  refine .after fun test m => ?_
  refine (Unison.within (inner (m.inside none) rfl)).bind fun lines m _ shapes _ => ?_
  cases isChildless with
  | true => rw [blank rfl]; exact .common _
  | false => exact .after fun test m => .pure ((shapes.behind [.openIf test]).before [.close])

theorem unison_loop (blank : isChildless = true → texts = [])
    (inner : ∀ m : Ledger, m.branch.isSome = false → Unison (Shapes texts) body m) :
    Unison (Shapes texts) (fun choice => loop file h isChildless (body choice)) l := by
  unfold loop
  refine .after fun source m => .after fun item m => ?_
  refine (Unison.within (inner (m.inside none) rfl)).bind fun lines m _ shapes _ => ?_
  cases isChildless with
  | true => rw [blank rfl]; exact .common _
  | false =>
    refine .after fun source m => .after fun binding m => ?_
    exact .pure ((shapes.behind [.openLoop source binding]).before [.close])

theorem unison_switch (inner : ∀ m : Ledger, m.branch.isSome = true → Unison (Shapes texts) body m) :
    Unison (Shapes texts) (fun choice => switch (body choice)) l := by
  refine .within ((inner _ rfl).bind fun lines m _ shapes _ => ?_)
  refine .after fun isChained m => .pure ?_
  cases isChained with
  | true => exact shapes.before [.close]
  | false => exact shapes

theorem unison_case (inner : ∀ m : Ledger, m.branch.isSome = false → Unison (Shapes texts) body m) :
    Unison (Shapes texts) (fun choice => case file h (body choice)) l := by
  refine .get ?_
  cases l.branch with
  | none => exact .fail
  | some state =>
    show Unison _ (fun choice => if state.hasDefault then _ else _) l
    cases state.hasDefault with
    | true => exact .fail
    | false =>
      refine .after fun _ m => .after fun test m => ?_
      refine (Unison.within (inner (m.inside none) rfl)).bind fun lines m _ shapes _ => ?_
      refine .after fun test m => .pure ?_
      exact shapes.behind [if state.hasCase then .elseIf test else .openIf test]

theorem unison_default (inner : ∀ m : Ledger, m.branch.isSome = false → Unison (Shapes texts) body m) :
    Unison (Shapes texts) (fun choice => default file h (body choice)) l := by
  refine .get ?_
  cases l.branch with
  | none => exact .fail
  | some state =>
    refine .after fun _ m => ?_
    refine (Unison.within (inner (m.inside none) rfl)).bind fun lines m _ shapes _ => .pure ?_
    cases state.hasCase with
    | true => exact shapes.behind [.otherwise]
    | false => exact shapes

end Flow

theorem unison_template (inner : ∀ m : Ledger, m.branch.isSome = false → Unison (Shapes texts) body m) :
    Unison (Shapes texts) (fun choice => template file h (body choice)) l := by
  unfold template
  refine .after fun name m => ?_
  cases h.tag.selfClosing with
  | true => exact .fail
  | false =>
    refine (Unison.within (inner (m.inside none) rfl)).bind fun lines m _ shapes _ => ?_
    refine .after fun target m => .pure ?_
    exact (shapes.behind [.resetChildren h.identity]).before [.keepChildren target h.identity]

-- A tag that stands for itself or for a component; its children are drafted, but not always kept.
theorem unison_parts {copies : List Sketch} (last : Nat → Option Nat → Line) (opening : h.tag.selfClosing = false)
    (inner : ∀ m : Ledger, m.branch.isSome = false → Unison (Shapes texts) body m) :
    Unison (Shapes (if Walk.isSingle options h.tag then [] else texts)) (fun choice => do
      let (attrsOf, attrs, children) ← tagParts file h copies (body choice)
      if Walk.isSingle options h.tag then return attrs ++ [last attrsOf none]
      return attrs ++ .resetChildren h.identity :: children ++ [last attrsOf (some h.identity)]) l := by
  have parts : Unison (fun results => ∃ attrsOf attrs lines, (results = fun choice => (attrsOf, attrs, lines choice)) ∧
      Shapes texts lines) (fun choice => tagParts file h copies (body choice)) l := by
    simp only [tagParts, opening, Bool.false_eq_true, if_false]
    refine .after fun attrsOf m => ?_
    refine (Unison.within (inner (m.inside none) rfl)).bind fun lines m _ shapes _ => ?_
    exact .after fun attrs m => .pure ⟨attrsOf, attrs, lines, rfl, shapes⟩
  refine parts.bind fun results m _ parted _ => ?_
  obtain ⟨attrsOf, attrs, lines, rfl, shapes⟩ := parted
  cases single : Walk.isSingle options h.tag with
  | true => exact .common _
  | false =>
    refine .pure ?_
    have whole := (shapes.behind (attrs ++ [.resetChildren h.identity])).before [last attrsOf (some h.identity)]
    simpa using whole

end Rules

end Draft

-- A leaf for each choice, directly inside a switch or not, with the texts that depend on the choice. A text directly
-- inside a switch does not.
inductive Leaf.Varies {ι : Type} : (inside : Bool) → (ι → Leaf) → List (ι → String) → Prop
  | text (value : ι → String) : Varies false (fun choice => .text (value choice)) [value]
  | pinned (value : String) : Varies true (fun _ => .text value) []
  | comment {inside} (value : ι → String) : Varies inside (fun choice => .comment (value choice)) [value]
  | string {inside} (value : ι → String) : Varies inside (fun choice => .string (value choice)) [value]
  | slot {inside} (expr : Expr) : Varies inside (fun _ => .slot expr) []
  | block {inside} (expr : Expr) : Varies inside (fun _ => .block expr) []
  | script {inside} (attrs : List Attr) (body : ι → String) :
    Varies inside (fun choice => .script attrs (body choice)) [body]

namespace Tag

def isSwitch (tag : Tag) : Bool :=
  match TagKind.ofName? tag.name with
  | some (.control .switch _) => true
  | _ => false

-- Whether the children of a tag are compiled for nothing.
def discards (options : Options) (tag : Tag) : Bool :=
  (TagKind.ofName? tag.name).isNone && Walk.isSingle options tag

end Tag

namespace Header

-- The children of a tag reach the fragment around it through what they would leave there themselves.
theorem copies_outline (h : Header) : ∃ leave : List Sketch → List Sketch, ∀ children : List Outline,
    Sketch.copies (Outline.flat (h.outline children)) = leave (Sketch.copies (Outline.flatten children)) := by
  simp only [Outline.flat, Sketch.copies, Sketch.copy, List.append_nil]
  split
  · exact ⟨fun below => [.node _ below], fun _ => rfl⟩
  · exact ⟨id, fun _ => rfl⟩
  · exact ⟨fun _ => [.node _ []], fun _ => rfl⟩
  · exact ⟨fun _ => [], fun _ => rfl⟩

theorem copies_passed {h : Header} (passed : h.tag.isEntered = false) : ∃ copies, ∀ children : List Outline,
    Sketch.copies (Outline.flat (h.outline children)) = copies := by
  simp only [Outline.flat, Sketch.copies, Sketch.copy, List.append_nil]
  split
  · rename_i kind
    simp [Tag.isEntered, kind] at passed
  · rename_i kind
    simp [Tag.isEntered, kind] at passed
  · exact ⟨[.node _ []], fun _ => rfl⟩
  · exact ⟨[], fun _ => rfl⟩

end Header

namespace Outline

mutual

-- An outline for each choice. They differ in the texts of their leaves, and below tags whose children nobody looks at.
inductive Varies {ι : Type} (options : Options) : (inside : Bool) → (ι → Outline) → List (ι → String) → Prop
  | leaf {inside leaf texts} (identity : Nat) (location : Location) : Leaf.Varies inside leaf texts →
    Varies options inside (fun choice => .node ⟨identity, .leaf (leaf choice), location⟩ []) texts
  | entered {inside children texts} (h : Header) : h.tag.isEntered = true →
    AllVary options h.tag.isSwitch children texts →
    Varies options inside (fun choice => h.outline (children choice)) (if h.tag.discards options then [] else texts)
  | passed {inside} (h : Header) (children : ι → List Outline) : h.tag.isEntered = false →
    Varies options inside (fun choice => h.outline (children choice)) []
  | file {inside nodes texts} (path : Path) : AllVary options inside nodes texts →
    Varies options inside (fun choice => .file path (nodes choice)) texts

inductive AllVary {ι : Type} (options : Options) : (inside : Bool) → (ι → List Outline) → List (ι → String) → Prop
  | nil {inside} : AllVary options inside (fun _ => []) []
  | cons {inside first rest front back} : Varies options inside first front → AllVary options inside rest back →
    AllVary options inside (fun choice => first choice :: rest choice) (front ++ back)

end

section Flattened

variable {ι : Type} {options : Options}

mutual

-- What is left in a fragment does not depend on the choice.
theorem Varies.copies : ∀ {inside : Bool} {outlines : ι → Outline} {texts : List (ι → String)},
    Varies options inside outlines texts → ∃ copies, ∀ choice, Sketch.copies (flat (outlines choice)) = copies
  | _, _, _, .leaf _ _ _ => ⟨[], fun _ => rfl⟩
  | _, _, _, .entered h _ below => by
    obtain ⟨copies, same⟩ := below.copies
    obtain ⟨leave, left⟩ := h.copies_outline
    refine ⟨leave copies, fun choice => ?_⟩
    rw [left, same]
  | _, _, _, .passed h _ passed => by
    obtain ⟨copies, same⟩ := Header.copies_passed passed
    exact ⟨copies, fun choice => same _⟩
  | _, _, _, .file _ nodes => nodes.copies

theorem AllVary.copies : ∀ {inside : Bool} {outlines : ι → List Outline} {texts : List (ι → String)},
    AllVary options inside outlines texts → ∃ copies, ∀ choice, Sketch.copies (flatten (outlines choice)) = copies
  | _, _, _, .nil => ⟨[], fun _ => rfl⟩
  | _, _, _, .cons head tail => by
    obtain ⟨front, first⟩ := head.copies
    obtain ⟨back, rest⟩ := tail.copies
    refine ⟨front ++ back, fun choice => ?_⟩
    rw [flatten, Sketch.copies_append, first, rest]

end

mutual

-- Whether nothing is left of a file does not depend on the choice, and then no text does.
theorem Varies.isEmpty : ∀ {inside : Bool} {outlines : ι → Outline} {texts : List (ι → String)},
    Varies options inside outlines texts →
    ∃ empty, (∀ choice, (flat (outlines choice)).isEmpty = empty) ∧ (empty = true → texts = [])
  | _, _, _, .leaf _ _ _ => ⟨false, fun _ => rfl, nofun⟩
  | _, _, _, .entered _ _ _ => ⟨false, fun _ => rfl, nofun⟩
  | _, _, _, .passed _ _ _ => ⟨false, fun _ => rfl, nofun⟩
  | _, _, _, .file _ nodes => nodes.isEmpty

theorem AllVary.isEmpty : ∀ {inside : Bool} {outlines : ι → List Outline} {texts : List (ι → String)},
    AllVary options inside outlines texts →
    ∃ empty, (∀ choice, (flatten (outlines choice)).isEmpty = empty) ∧ (empty = true → texts = [])
  | _, _, _, .nil => ⟨true, fun _ => rfl, fun _ => rfl⟩
  | _, _, _, @AllVary.cons _ _ _ first rest _ _ head tail => by
    obtain ⟨front, here, bare⟩ := head.isEmpty
    obtain ⟨back, there, blank⟩ := tail.isEmpty
    refine ⟨front && back, fun choice => ?_, fun both => ?_⟩
    · rw [flatten, ← here choice, ← there choice]
      cases flat (first choice) <;> rfl
    · rw [Bool.and_eq_true] at both
      rw [bare both.1, blank both.2, List.append_nil]

end

end Flattened

end Outline

namespace Draft

open Pattern (Shapes)

section Nodes

variable {ι : Type} {texts : List (ι → String)} {options : Options} {fault : Path → Fault} {stack : Stack}
  {isOwned : Bool} {sink : Nat} {h : Header} {l : Ledger}

theorem unison_leaf {file : Path} {identity : Nat} {location : Location} {leaf : ι → Leaf}
    (varies : Leaf.Varies l.branch.isSome leaf texts) :
    Unison (Shapes texts) (fun choice => Draft.leaf file sink identity location (leaf choice)) l := by
  generalize inside : l.branch.isSome = isInside at varies
  cases varies with
  | text value =>
    refine .get ?_
    rw [inside]
    exact .pure (.record sink "text" value)
  | pinned value => exact .common _
  | comment value => exact .pure (.record sink "comment" value)
  | string value => exact .pure (.record sink "text" value)
  | slot expr => exact .common _
  | block expr => exact .common _
  | script attrs body =>
    refine .after fun attrsOf m => .after fun block m => .pure ?_
    exact (Shapes.script sink attrsOf body).behind block

theorem unison_control {kind : Control} {flow : Flow} {file : Path} {isChildless : Bool} {body : ι → Draft (List Line)}
    (named : TagKind.ofName? h.tag.name = some (.control kind flow)) (blank : isChildless = true → texts = [])
    (inner : ∀ m : Ledger, m.branch.isSome = h.tag.isSwitch → Unison (Shapes texts) body m) :
    Unison (Shapes texts) (fun choice => control kind file h isChildless (body choice)) l := by
  rw [Tag.isSwitch, named] at inner
  cases kind with
  | conditional => exact unison_conditional blank inner
  | loop => exact unison_loop blank inner
  | switch => exact unison_switch inner
  | case => exact unison_case inner
  | default => exact unison_default inner

theorem unison_entered {below : ι → List Sketch} {body : ι → Bool → Nat → Draft (List Line)} {copies : List Sketch}
    {isChildless : Bool} (entered : h.tag.isEntered = true) (same : ∀ choice, Sketch.copies (below choice) = copies)
    (empty : ∀ choice, (below choice).isEmpty = isChildless) (blank : isChildless = true → texts = [])
    (inner : ∀ isOwned sink (m : Ledger), m.branch.isSome = h.tag.isSwitch →
      Unison (Shapes texts) (fun choice => body choice isOwned sink) m) :
    Unison (Shapes (if h.tag.discards options then [] else texts))
      (fun choice => Draft.tag options fault stack isOwned sink h (below choice) (body choice)) l := by
  refine .get ?_
  simp only [same, empty]
  unfold TagKind.classify Tag.discards
  unfold Tag.isEntered at entered
  cases kind : TagKind.ofName? h.tag.name with
  | none =>
    have opening : h.tag.selfClosing = false := by simpa [kind] using entered
    have outside : h.tag.isSwitch = false := by simp [Tag.isSwitch, kind]
    rw [outside] at inner
    cases l.registry.contains l.shared h.tag.name with
    | true =>
      exact unison_parts (fun attrsOf => .callComponent h.identity sink attrsOf h.tag.name) opening (inner true _)
    | false => exact unison_parts (fun attrsOf => .tagRecord sink attrsOf h.tag.name) opening (inner true _)
  | some own =>
    rw [kind] at entered
    cases own with
    | control control flow => exact unison_control kind blank (inner isOwned sink)
    | template =>
      have outside : h.tag.isSwitch = false := by simp [Tag.isSwitch, kind]
      rw [outside] at inner
      exact unison_template (inner false h.identity)
    | _ => cases entered

-- Nobody looks at the children of a self-closing tag.
theorem tagParts_selfClosing {file : Path} (closing : h.tag.selfClosing = true) (copies : List Sketch)
    (body : Draft (List Line)) : tagParts file h copies body = tagParts file h [] (pure []) := by
  simp only [tagParts, closing, if_true]

theorem unison_passed {below : ι → List Sketch} {body : ι → Bool → Nat → Draft (List Line)}
    (passed : h.tag.isEntered = false) :
    Unison (Shapes [])
      (fun choice => Draft.tag options fault stack isOwned sink h (below choice) (body choice)) l := by
  refine .get ?_
  unfold TagKind.classify
  unfold Tag.isEntered at passed
  cases kind : TagKind.ofName? h.tag.name with
  | none =>
    have closing : h.tag.selfClosing = true := by simpa [kind] using passed
    cases l.registry.contains l.shared h.tag.name with
    | true =>
      simp only [if_true, component, tagParts_selfClosing closing]
      exact .common _
    | false =>
      simp only [Bool.false_eq_true, if_false, literal, tagParts_selfClosing closing]
      exact .common _
  | some own =>
    rw [kind] at passed
    cases own with
    | attr flow => cases flow <;> exact .common _
    | control => cases passed
    | template => cases passed
    | component => exact absurd rfl (TagKind.ofName?_own kind).1
    | literal => exact absurd rfl (TagKind.ofName?_own kind).2
    | _ => exact .common _

end Nodes

section Outlines

variable {ι : Type} {options : Options} {fault : Path → Fault}

mutual

theorem unison_outline : ∀ {inside : Bool} {outlines : ι → Outline} {texts : List (ι → String)},
    Outline.Varies options inside outlines texts → ∀ {stack : Stack} {isOwned : Bool} {sink : Nat} {l : Ledger},
    l.branch.isSome = inside →
    Unison (Shapes texts) (fun choice => outline options fault stack isOwned sink (outlines choice)) l
  | _, _, _, .leaf _ _ varies, _, _, _, _, inside => by
    subst inside
    simp only [outline]
    exact unison_leaf varies
  | _, _, _, .entered h entered below, stack, _, _, _, _ => by
    obtain ⟨copies, same⟩ := below.copies
    obtain ⟨isChildless, empty, blank⟩ := below.isEmpty
    simp only [outline]
    exact unison_entered entered same empty blank fun isOwned sink m inside => unison_outlines below inside
  | _, _, _, .passed h children passed, _, _, _, _, _ => by
    simp only [outline]
    exact unison_passed passed
  | _, _, _, .file _ nodes, _, _, _, _, inside => by
    simp only [outline]
    exact unison_outlines nodes inside

theorem unison_outlines : ∀ {inside : Bool} {outlines : ι → List Outline} {texts : List (ι → String)},
    Outline.AllVary options inside outlines texts → ∀ {stack : Stack} {isOwned : Bool} {sink : Nat} {l : Ledger},
    l.branch.isSome = inside →
    Unison (Shapes texts) (fun choice => Draft.outlines options fault stack isOwned sink (outlines choice)) l
  | _, _, _, .nil, _, _, _, _, _ => .common _
  | _, _, _, .cons head tail, _, _, _, _, inside => by
    simp only [Draft.outlines]
    refine (unison_outline head inside).bind fun lines m choice shapes gave => ?_
    -- The first node leaves the next one inside of a switch, or outside, as it was itself.
    have still : m.branch.isSome = _ := (written_outline gave).isSome_branch.trans inside
    refine (unison_outlines tail still).bind fun more m _ others _ => ?_
    exact .pure (shapes.append others)

end

end Outlines

end Draft

end Stencil
