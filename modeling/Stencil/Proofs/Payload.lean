import Stencil.Proofs.Refinement
import Stencil.Proofs.Unison
import Stencil.Proofs.Unrolling

-- Payloads: the texts, comments, strings and script bodies that a template only hands on. The code around them, and
-- whether there is any, does not depend on what they say.

namespace Stencil

-- Where a payload stands: in the page or in a file that may be included, and the way to it, by positions among the
-- children of a node.
structure Address where
  file : Option Path
  route : List Nat
  deriving DecidableEq

namespace Leaf

def payload? : Leaf → Option String
  | .text value => some value
  | .comment value => some value
  | .string value => some value
  | .slot _ => none
  | .block _ => none
  | .script _ body => some body

def isText : Leaf → Bool
  | .text _ => true
  | _ => false

-- The leaf with another payload, if it has one.
def refill (payload : String) : Leaf → Leaf
  | .text _ => .text payload
  | .comment _ => .comment payload
  | .string _ => .string payload
  | .slot expr => .slot expr
  | .block expr => .block expr
  | .script attrs _ => .script attrs payload

theorem refill_payload (leaf : Leaf) : leaf.refill (leaf.payload?.getD "") = leaf := by
  cases leaf <;> rfl

end Leaf

namespace Node

mutual

def refill (choice : List Nat → String) : Node → Node
  | .tag identity own children location => .tag identity own (refillAll choice 0 children) location
  | .leaf identity own location => .leaf identity (own.refill (choice [])) location

def refillAll (choice : List Nat → String) (index : Nat) : List Node → List Node
  | [] => []
  | first :: rest => first.refill (fun route => choice (index :: route)) :: refillAll choice (index + 1) rest

end

mutual

theorem largest_refill (shift : Nat) : ∀ (node : Node) (choice : List Nat → String) (known : Nat),
    (node.refill choice).largest shift known = node.largest shift known
  | .tag _ _ children _, choice, _ => by rw [refill, largest, largest, largestOf_refillAll]
  | .leaf _ _ _, _, _ => rfl

theorem largestOf_refillAll (shift : Nat) : ∀ (nodes : List Node) (choice : List Nat → String) (index known : Nat),
    largestOf shift known (refillAll choice index nodes) = largestOf shift known nodes
  | [], _, _, _ => rfl
  | first :: rest, choice, index, known => by
    rw [refillAll, largestOf, largestOf, largest_refill, largestOf_refillAll]

end

mutual

-- The payload at the end of a way.
def payloadAt : Node → List Nat → String
  | .leaf _ own _, _ => own.payload?.getD ""
  | .tag _ _ children _, route => payloadsAt children route

def payloadsAt : List Node → List Nat → String
  | [], _ => ""
  | _ :: _, [] => ""
  | first :: _, 0 :: route => payloadAt first route
  | _ :: rest, (index + 1) :: route => payloadsAt rest (index :: route)

end

mutual

-- Nodes with the payloads that they have already.
theorem refill_payloadAt : ∀ (node : Node) {choice : List Nat → String},
    (∀ route, choice route = node.payloadAt route) → node.refill choice = node
  | .leaf _ own _, choice, same => by rw [refill, same, payloadAt, own.refill_payload]
  | .tag _ _ children _, choice, same => by
    have below : refillAll choice 0 children = children := by
      apply refillAll_payloadsAt children
      intro position route
      rw [Nat.zero_add, same, payloadAt]
    rw [refill, below]

theorem refillAll_payloadsAt : ∀ (nodes : List Node) {choice : List Nat → String} {index : Nat},
    (∀ position route, choice ((index + position) :: route) = payloadsAt nodes (position :: route)) →
    refillAll choice index nodes = nodes
  | [], _, _, _ => rfl
  | first :: rest, choice, index, same => by
    have here : first.refill (fun route => choice (index :: route)) = first := by
      apply refill_payloadAt first
      intro route
      exact same 0 route
    have there : refillAll choice (index + 1) rest = rest := by
      apply refillAll_payloadsAt rest
      intro position route
      rw [Nat.add_right_comm]
      exact same (position + 1) route
    rw [refillAll, here, there]

end

end Node

-- The template with the payloads chosen for the page, or for the file that it is.
def Template.refill (file : Option Path) (choice : Address → String) (template : Template) : Template :=
  ⟨Node.refillAll (fun route => choice ⟨file, route⟩) 0 template.nodes⟩

def Loader.refillEntry (choice : Address → String) (entry : Path × Template) : Path × Template :=
  (entry.1, entry.2.refill (some entry.1) choice)

def Loader.refill (choice : Address → String) (loader : Loader) : Loader :=
  { loader with templates := loader.templates.map (refillEntry choice) }

-- A payload that the compiler comes to.
structure Payload where
  address : Address
  text : String
  -- Whether it is a text directly inside a switch, where only blanks may stand.
  isPinned : Bool
  -- Whether it stands below a tag that has no list of children in the code.
  isDropped : Bool

namespace Payload

def drop (payload : Payload) : Payload := { payload with isDropped := true }

def isEmitted (payload : Payload) : Bool := !payload.isPinned && !payload.isDropped

-- What becomes of the payloads below a tag.
def under (options : Options) (tag : Tag) (payloads : List Payload) : List Payload :=
  if tag.discards options then payloads.map drop else payloads

-- The payloads of the nodes that stand below an address, directly inside a switch or not.
abbrev Surveyor := Stack → (inside : Bool) → (address : List Nat → Address) → List Node → List Payload

mutual

-- The payloads in the order in which the compiler comes to them. Those of a file count wherever it is included.
def survey (options : Options) (reach : Path → Option (Template × Surveyor)) (stack : Stack) (inside : Bool)
    (address : List Nat → Address) : Node → List Payload
  | .leaf _ leaf _ => leaf.payload?.toList.map fun text => ⟨address [], text, leaf.isText && inside, false⟩
  | .tag _ tag children _ =>
    if TagKind.ofName? tag.name = some .including then
      match (stack.target? tag).bind fun path => (reach path).map fun found => (path, found) with
      | some (path, template, surveyor) => surveyor (stack.push path) inside (Address.mk (some path)) template.nodes
      | none => []
    else if tag.isEntered then
      under options tag (surveyAll options reach stack tag.isSwitch address 0 children)
    else []

def surveyAll (options : Options) (reach : Path → Option (Template × Surveyor)) (stack : Stack) (inside : Bool)
    (address : List Nat → Address) (index : Nat) : List Node → List Payload
  | [] => []
  | first :: rest => survey options reach stack inside (fun route => address (index :: route)) first ++
      surveyAll options reach stack inside address (index + 1) rest

end

def surveyor (options : Options) : (left : Nat) → List (Path × Template) → Surveyor
  | 0, _ => fun stack inside address => surveyAll options (fun _ => none) stack inside address 0
  | left + 1, templates => fun stack inside address => surveyAll options (fun path =>
      (templates.lookup path).map fun template =>
        (template, surveyor options left (templates.filter fun entry => entry.1 ≠ path))) stack inside address 0

-- A choice of payloads that leaves the texts directly inside switches as they are.
def Fits (choice : Address → String) (payloads : List Payload) : Prop :=
  ∀ payload ∈ payloads, payload.isPinned = true → choice payload.address = payload.text

instance (choice : Address → String) (payloads : List Payload) : Decidable (Fits choice payloads) :=
  inferInstanceAs (Decidable (∀ payload ∈ payloads, payload.isPinned = true → choice payload.address = payload.text))

theorem Fits.append {choice : Address → String} {front back : List Payload} :
    Fits choice (front ++ back) ↔ Fits choice front ∧ Fits choice back := List.forall_mem_append

theorem Fits.under {choice : Address → String} {options : Options} {tag : Tag} {payloads : List Payload} :
    Fits choice (under options tag payloads) ↔ Fits choice payloads := by
  unfold Payload.under
  split
  · exact List.forall_mem_map
  · exact Iff.rfl

section Own

variable {own : Address → String} {options : Options} {found : Path → Option (Template × Surveyor)} {stack : Stack}

mutual

-- A choice that gives nodes the payloads that they have already fits.
theorem fits_survey (files : ∀ path template surveyor, found path = some (template, surveyor) →
      ∀ stack inside, Fits own (surveyor stack inside (Address.mk (some path)) template.nodes)) :
    ∀ (node : Node) {inside : Bool} {address : List Nat → Address},
    (∀ route, own (address route) = node.payloadAt route) →
    Fits own (survey options found stack inside address node)
  | .leaf _ leaf _, inside, address, same => by
    intro payload member _
    rw [survey] at member
    obtain ⟨text, listed, rfl⟩ := List.mem_map.mp member
    have held : leaf.payload? = some text := Option.mem_toList.mp listed
    show own (address []) = text
    rw [same, Node.payloadAt, held]
    rfl
  | .tag _ tag children _, inside, address, same => by
    rw [survey]
    split
    · split
      · rename_i path template surveyor reached
        obtain ⟨_, _, mapped⟩ := Option.bind_eq_some_iff.mp reached
        obtain ⟨_, there, equal⟩ := Option.map_eq_some_iff.mp mapped
        cases equal
        exact files path template surveyor there _ _
      · nofun
    · split
      · apply Fits.under.mpr
        apply fits_surveyAll files children
        intro position route
        rw [Nat.zero_add, same, Node.payloadAt]
      · nofun

theorem fits_surveyAll (files : ∀ path template surveyor, found path = some (template, surveyor) →
      ∀ stack inside, Fits own (surveyor stack inside (Address.mk (some path)) template.nodes)) :
    ∀ (nodes : List Node) {inside : Bool} {address : List Nat → Address} {index : Nat},
    (∀ position route, own (address ((index + position) :: route)) = Node.payloadsAt nodes (position :: route)) →
    Fits own (surveyAll options found stack inside address index nodes)
  | [], _, _, _, _ => by nofun
  | first :: rest, inside, address, index, same => by
    apply Fits.append.mpr
    constructor
    · apply fits_survey files first
      intro route
      exact same 0 route
    · apply fits_surveyAll files rest
      intro position route
      rw [Nat.add_right_comm]
      exact same (position + 1) route

end

theorem fits_surveyor : ∀ (left : Nat) {templates : List (Path × Template)},
    (∀ path template, templates.lookup path = some template →
      ∀ route, own ⟨some path, route⟩ = Node.payloadsAt template.nodes route) →
    ∀ (stack : Stack) (inside : Bool) {address : List Nat → Address} (nodes : List Node),
    (∀ route, own (address route) = Node.payloadsAt nodes route) →
    Fits own (surveyor options left templates stack inside address nodes)
  | 0, _, _, stack, inside, _, nodes, same => by
    have nowhere : ∀ (path : Path) (template : Template) (surveyor : Surveyor), none = some (template, surveyor) →
        ∀ stack inside, Fits own (surveyor stack inside (Address.mk (some path)) template.nodes) := nofun
    apply fits_surveyAll nowhere nodes
    intro position route
    rw [Nat.zero_add, same]
  | left + 1, templates, files, stack, inside, _, nodes, same => by
    have below : ∀ path template surveyor, (templates.lookup path).map (fun template =>
        (template, Payload.surveyor options left (templates.filter fun entry => entry.1 ≠ path))) =
          some (template, surveyor) →
        ∀ stack inside, Fits own (surveyor stack inside (Address.mk (some path)) template.nodes) := by
      intro path template surveyor reached stack inside
      obtain ⟨_, held, equal⟩ := Option.map_eq_some_iff.mp reached
      cases equal
      apply fits_surveyor left ?_ stack inside template.nodes (files path template held)
      intro other found listed
      apply files other found
      have apart : other ≠ path := by simpa using (List.mem_filter.mp (entry_of_lookup listed)).2
      rwa [lookup_others apart] at listed
    apply fits_surveyAll below nodes
    intro position route
    rw [Nat.zero_add, same]

end Own

def emitted (payloads : List Payload) : List Address := (payloads.filter isEmitted).map address

theorem emitted_append (front back : List Payload) : emitted (front ++ back) = emitted front ++ emitted back := by
  rw [emitted, List.filter_append, List.map_append, emitted, emitted]

theorem emitted_under (options : Options) (tag : Tag) (payloads : List Payload) :
    emitted (under options tag payloads) = if tag.discards options then [] else emitted payloads := by
  unfold under
  split
  · have none : ∀ payload ∈ payloads, ¬isEmitted payload.drop = true := by simp [isEmitted, drop]
    rw [emitted, List.filter_eq_nil_iff.mpr (List.forall_mem_map.mpr none), List.map_nil]
  · rfl

end Payload

namespace Outline

open Payload

section Refilled

variable {ι : Type} {options : Options} (choose : ι → Address → String)

-- The texts that a choice gives to the payloads that are emitted.
def chosen (payloads : List Payload) : List (ι → String) :=
  (emitted payloads).map fun address choice => choose choice address

-- What a node or nodes of each choice expand to, with the texts that depend on the choice. The identities taken do not.

structure Expanded (options : Options) (inside : Bool) (results : ι → Outline × Nat) (texts : List (ι → String)) :
    Prop where
  varies : Varies options inside (fun choice => (results choice).1) texts
  known : ∃ known, ∀ choice, (results choice).2 = known

structure AllExpanded (options : Options) (inside : Bool) (results : ι → List Outline × Nat)
    (texts : List (ι → String)) : Prop where
  varies : AllVary options inside (fun choice => (results choice).1) texts
  known : ∃ known, ∀ choice, (results choice).2 = known

-- Whatever the nodes below an address are, the expanders make of their refilled forms what the surveyor says.
def Surveys (options : Options) (expanders : ι → Expander) (surveyor : Surveyor) : Prop :=
  ∀ (stack : Stack) (inside : Bool) (address : List Nat → Address) (shift known : Nat) (nodes : List Node),
    (∀ choice, Fits (choose choice) (surveyor stack inside address nodes)) →
    AllExpanded options inside (fun choice => expanders choice stack shift known
        (Node.refillAll (fun route => choose choice (address route)) 0 nodes))
      (chosen choose (surveyor stack inside address nodes))

theorem varies_leaf {inside : Bool} {address : List Nat → Address} {leaf : Leaf} {identity : UInt32}
    {location : Location} {stack : Stack} {reach : Path → Option (Template × Surveyor)}
    (fits : ∀ choice, Fits (choose choice) (survey options reach stack inside address (.leaf identity leaf location))) :
    Leaf.Varies inside (fun choice => leaf.refill (choose choice (address [])))
      (chosen choose (survey options reach stack inside address (.leaf identity leaf location))) := by
  cases leaf with
  | text value =>
    cases inside with
    | true =>
      have fixed : ∀ choice, choose choice (address []) = value := by
        intro choice
        exact fits choice _ (List.mem_singleton.mpr rfl) rfl
      simp only [Leaf.refill, fixed]
      exact .pinned value
    | false => exact .text _
  | comment value => exact .comment _
  | string value => exact .string _
  | slot expr => exact .slot expr
  | block expr => exact .block expr
  | script attrs body => exact .script attrs _

-- What each choice and the survey find behind a path: nothing, or a file and what is below it.
def Reaches (options : Options) (reach : ι → Path → Option (Template × Expander))
    (found : Path → Option (Template × Surveyor)) : Prop :=
  ∀ path, (found path = none ∧ ∀ choice, reach choice path = none) ∨
    ∃ template surveyor expanders, found path = some (template, surveyor) ∧ Surveys choose options expanders surveyor ∧
      ∀ choice, reach choice path = some (template.refill (some path) (choose choice), expanders choice)

variable {choose} {reach : ι → Path → Option (Template × Expander)} {found : Path → Option (Template × Surveyor)}

section Tag

variable {stack : Stack} {inside : Bool} {address : List Nat → Address} {identity : UInt32} {own : Tag}
  {children : List Node} {location : Location}

-- A tag whose children nobody looks at.
theorem expanded_passed (shift known : Nat) (passed : own.isEntered = false) : Expanded options inside
    (fun choice => (.node ⟨shifted shift identity, .tag own, location⟩
      (ofNodes shift (Node.refillAll (fun route => choose choice (address route)) 0 children)), known)) [] :=
  ⟨.passed ⟨shifted shift identity, own, location⟩ _ passed, known, fun _ => rfl⟩

theorem expanded_including (reaches : Reaches choose options reach found) (shift known : Nat)
    (including : TagKind.ofName? own.name = some .including)
    (fits : ∀ choice, Fits (choose choice)
      (survey options found stack inside address (.tag identity own children location))) :
    Expanded options inside (fun choice => expand (reach choice) stack shift known
        (Node.refill (fun route => choose choice (address route)) (.tag identity own children location)))
      (chosen choose (survey options found stack inside address (.tag identity own children location))) := by
  have passed : own.isEntered = false := by simp [Tag.isEntered, including]
  rw [survey] at fits ⊢
  simp only [Node.refill, expand, including, if_true] at fits ⊢
  cases target : stack.target? own with
  | none => exact expanded_passed shift known passed
  | some path =>
    simp only [target, Option.bind_some] at fits ⊢
    rcases reaches path with ⟨missing, nowhere⟩ | ⟨template, surveyor, expanders, there, surveys, reached⟩
    · simp only [missing, nowhere, Option.map_none]
      exact expanded_passed shift known passed
    · simp only [there, reached, Option.map_some, Template.refill, Node.largestOf_refillAll] at fits ⊢
      obtain ⟨varies, next⟩ := surveys (stack.push path) inside (Address.mk (some path)) (nextShift known)
        (Node.largestOf (nextShift known) known template.nodes) template.nodes fits
      exact ⟨.file path varies, next⟩

end Tag

mutual

theorem expanded_expand (reaches : Reaches choose options reach found) {stack : Stack} :
    ∀ (node : Node) {inside : Bool} {address : List Nat → Address} (shift known : Nat),
    (∀ choice, Fits (choose choice) (survey options found stack inside address node)) →
    Expanded options inside (fun choice => expand (reach choice) stack shift known
        (node.refill fun route => choose choice (address route)))
      (chosen choose (survey options found stack inside address node))
  | .leaf identity leaf location, inside, address, shift, known, fits =>
    ⟨.leaf (shifted shift identity) location (varies_leaf choose fits), known, fun _ => rfl⟩
  | .tag identity own children location, inside, address, shift, known, fits => by
    by_cases including : TagKind.ofName? own.name = some .including
    · exact expanded_including reaches shift known including fits
    · rw [survey] at fits ⊢
      simp only [Node.refill, expand, including, if_false] at fits ⊢
      cases entered : own.isEntered with
      | false => exact expanded_passed shift known entered
      | true =>
        simp only [entered, if_true, Fits.under] at fits ⊢
        have below := expanded_expandAll reaches children shift known fits
        refine ⟨?_, below.known⟩
        rw [chosen, emitted_under, apply_ite (List.map _), List.map_nil]
        exact .entered ⟨shifted shift identity, own, location⟩ entered below.varies

theorem expanded_expandAll (reaches : Reaches choose options reach found) {stack : Stack} :
    ∀ (nodes : List Node) {inside : Bool} {address : List Nat → Address} {index : Nat} (shift known : Nat),
    (∀ choice, Fits (choose choice) (surveyAll options found stack inside address index nodes)) →
    AllExpanded options inside (fun choice => expandAll (reach choice) stack shift known
        (Node.refillAll (fun route => choose choice (address route)) index nodes))
      (chosen choose (surveyAll options found stack inside address index nodes))
  | [], _, _, _, _, known, _ => ⟨.nil, known, fun _ => rfl⟩
  | first :: rest, inside, address, index, shift, known, fits => by
    simp only [surveyAll, Fits.append, forall_and] at fits
    obtain ⟨varies, next, same⟩ := expanded_expand reaches first shift known fits.1
    have others := expanded_expandAll reaches rest shift next fits.2
    simp only [Node.refillAll, expandAll, same, chosen, surveyAll, emitted_append, List.map_append]
    exact ⟨.cons varies others.varies, others.known⟩

end

theorem lookup_refill (choice : Address → String) (templates : List (Path × Template)) (path : Path) :
    (templates.map (Loader.refillEntry choice)).lookup path =
      (templates.lookup path).map (Template.refill (some path) choice) := by
  induction templates with
  | nil => rfl
  | cons entry rest ih =>
    rw [List.map_cons, Loader.refillEntry, List.lookup_cons, List.lookup_cons]
    cases same : path == entry.1 with
    | true =>
      cases eq_of_beq same
      rfl
    | false => exact ih

theorem filter_refill (choice : Address → String) (templates : List (Path × Template)) (path : Path) :
    (templates.map (Loader.refillEntry choice)).filter (fun entry => entry.1 ≠ path) =
      (templates.filter fun entry => entry.1 ≠ path).map (Loader.refillEntry choice) := by
  rw [List.filter_map]
  rfl

theorem surveys_expander (choose : ι → Address → String) : ∀ (left : Nat) (templates : List (Path × Template)),
    Surveys choose options (fun choice => expander left (templates.map (Loader.refillEntry (choose choice))))
      (surveyor options left templates)
  | 0, _ => by
    intro stack inside address shift known nodes fits
    have nothing : Reaches choose options (fun _ _ => none) fun _ => none := fun _ => .inl ⟨rfl, fun _ => rfl⟩
    exact expanded_expandAll nothing nodes shift known fits
  | left + 1, templates => by
    intro stack inside address shift known nodes fits
    refine expanded_expandAll (fun path => ?_) nodes shift known fits
    simp only [lookup_refill, filter_refill]
    cases templates.lookup path with
    | none => exact .inl ⟨rfl, fun _ => rfl⟩
    | some template => exact .inr ⟨template, _, _, rfl, surveys_expander choose left _, fun _ => rfl⟩

end Refilled

end Outline

-- Code with a payload behind each piece but the last.
def weave {α : Type} (first : String) (rest : List (α × String)) (payload : α → String) : String :=
  first ++ String.join (rest.map fun hole => Text.quoted (payload hole.1) ++ hole.2)

theorem weave_append {α : Type} (front first : String) (rest : List (α × String)) (payload : α → String) :
    weave (front ++ first) rest payload = front ++ weave first rest payload := by
  rw [weave, String.append_assoc, weave]

theorem weave_cons {α : Type} (before after first : String) (label : α) (rest : List (α × String))
    (payload : α → String) :
    weave before ((label, after ++ first) :: rest) payload =
      before ++ Text.quoted (payload label) ++ after ++ weave first rest payload := by
  simp only [weave, List.map_cons, String.join_cons, String.append_assoc]

namespace Pattern

variable {ι α : Type}

-- A text that depends on the choice stands quoted between two pieces of code.
theorem render_line (scope : Scope) (pattern : Pattern ι) :
    (pattern.text? = none ∧ ∃ piece, ∀ choice, (pattern.line choice).code.render scope = piece) ∨
    ∃ text before after, pattern.text? = some text ∧
      ∀ choice, (pattern.line choice).code.render scope = before ++ Text.quoted (text choice) ++ after := by
  cases pattern with
  | fixed line => exact .inl ⟨rfl, line.code.render scope, fun _ => rfl⟩
  | record sink key text =>
    refine .inr ⟨text, "<?php " ++ Output.children sink ++ "[] = [" ++ Text.quoted key ++ " => ", "]; ?>\n", rfl, ?_⟩
    intro choice
    simp [line, Line.code, Output.record, Output.statement, Code.statement, String.append_assoc]
  | script sink attrsOf body =>
    refine .inr ⟨body, "<?php " ++ Output.children sink ++ "[] = [\"script\" => [\"attrs\" => " ++
      Output.attrs attrsOf ++ ", \"body\" => ", "]]; ?>\n", rfl, ?_⟩
    intro choice
    simp [line, Line.code, Output.scriptRecord, Output.statement, Code.statement, String.append_assoc]

-- The lines of each choice, and what is behind them, are woven of the same pieces.
theorem weaves (scope : Scope) (back : String) {payload : α → ι → String} {patterns : List (Pattern ι)}
    {labels : List α} (texts : patterns.filterMap text? = labels.map payload) :
    ∃ first rest, rest.map Prod.fst = labels ∧ ∀ choice,
      (Line.codes (patterns.map (line choice))).render scope ++ back = weave first rest (payload · choice) := by
  induction patterns generalizing labels with
  | nil =>
    have none : labels = [] := List.map_eq_nil_iff.mp texts.symm
    subst none
    refine ⟨back, [], rfl, fun _ => ?_⟩
    simp [weave]
  | cons pattern patterns ih =>
    simp only [List.map_cons, Line.codes_cons, Code.render_append, String.append_assoc]
    rcases render_line scope pattern with ⟨plain, piece, rendered⟩ | ⟨text, before, after, hole, rendered⟩
    · rw [List.filterMap_cons_none plain] at texts
      obtain ⟨first, rest, same, woven⟩ := ih texts
      refine ⟨piece ++ first, rest, same, fun choice => ?_⟩
      rw [weave_append, rendered, woven]
    · rw [List.filterMap_cons_some hole] at texts
      obtain ⟨label, others, rfl, rfl, tail⟩ := List.map_eq_cons_iff.mp texts.symm
      obtain ⟨first, rest, rfl, woven⟩ := ih tail.symm
      refine ⟨before, (label, after ++ first) :: rest, rfl, fun choice => ?_⟩
      rw [weave_cons, rendered, woven]

end Pattern

namespace Template

-- The payloads that the compiler comes to in a template and in the files that it includes.
def payloads (template : Template) (options : Options) (loader : Loader) : List Payload :=
  Payload.surveyor options loader.templates.length loader.templates ⟨(Path.ofText options.filePath).normalize, []⟩ false
    (Address.mk none) template.nodes

-- The template compiled with other payloads.
def compileWith (template : Template) (options : Options) (loader : Loader) (shared : Names)
    (choice : Address → String) : Except CompileError String × Names :=
  (template.refill none choice).compile options (loader.refill choice) shared

-- The payloads that a template and its files have already.
def own (template : Template) (loader : Loader) (address : Address) : String :=
  match address.file with
  | none => Node.payloadsAt template.nodes address.route
  | some path => ((loader.templates.lookup path).map fun file => Node.payloadsAt file.nodes address.route).getD ""

theorem own_file (template : Template) {loader : Loader} {path : Path} {file : Template}
    (found : loader.templates.lookup path = some file) (route : List Nat) :
    template.own loader ⟨some path, route⟩ = Node.payloadsAt file.nodes route := by
  rw [own]
  simp only [found]
  rfl

theorem fits_own (template : Template) (options : Options) (loader : Loader) :
    Payload.Fits (template.own loader) (template.payloads options loader) := by
  apply Payload.fits_surveyor loader.templates.length ?_ _ _ template.nodes fun _ => rfl
  intro path file found
  exact template.own_file found

theorem compileWith_own (template : Template) (options : Options) (loader : Loader) (shared : Names) :
    template.compileWith options loader shared (template.own loader) = template.compile options loader shared := by
  have page : template.refill none (template.own loader) = template := by
    have nodes : Node.refillAll (fun route => template.own loader ⟨none, route⟩) 0 template.nodes = template.nodes := by
      apply Node.refillAll_payloadsAt
      intro position route
      rw [Nat.zero_add]
      rfl
    rw [refill, nodes]
  have files : ∀ path, Loader.Same Eq loader (loader.refill (template.own loader)) path := by
    intro path
    have refilled := Outline.lookup_refill (template.own loader) loader.templates path
    cases found : loader.templates.lookup path with
    | none =>
      rw [found] at refilled
      exact .failed (Loader.load_none found) (Loader.load_none refilled) rfl
    | some file =>
      have nodes : Node.refillAll (fun route => template.own loader ⟨some path, route⟩) 0 file.nodes = file.nodes := by
        apply Node.refillAll_payloadsAt
        intro position route
        rw [Nat.zero_add, template.own_file found]
      rw [found, Option.map_some, refill, nodes] at refilled
      exact .found (Loader.load_some found) (Loader.load_some refilled)
  obtain ⟨outcome, names⟩ := template.compile_of_same options loader shared fun path _ => files path
  rw [compileWith, page]
  exact Prod.ext outcome.eq names

theorem varies_outlines {ι : Type} (template : Template) (options : Options) (loader : Loader)
    {choose : ι → Address → String} (fits : ∀ choice, Payload.Fits (choose choice) (template.payloads options loader)) :
    Outline.AllVary options false
      (fun choice => (template.refill none (choose choice)).outlines options (loader.refill (choose choice)))
      (Outline.chosen choose (template.payloads options loader)) := by
  have surveys : Outline.Surveys choose options _ _ :=
    Outline.surveys_expander choose loader.templates.length loader.templates
  have expands := surveys _ false (Address.mk none) 0 (Node.largestOf 0 0 template.nodes) template.nodes fits
  simp only [outlines, refill, Loader.refill, List.length_map, Node.largestOf_refillAll]
  exact expands.varies

theorem draft_refill {ι : Type} (template : Template) (options : Options) (loader : Loader) (shared : Names)
    {choose : ι → Address → String} (fits : ∀ choice, Payload.Fits (choose choice) (template.payloads options loader)) :
    (∃ e r, ∀ choice, (template.refill none (choose choice)).draft options (loader.refill (choose choice)) shared =
      (.error e, r)) ∨
    ∃ lines r, Pattern.Shapes (Outline.chosen choose (template.payloads options loader)) lines ∧
      ∀ choice, (template.refill none (choose choice)).draft options (loader.refill (choose choice)) shared =
        (.ok (lines choice), r) :=
  Draft.unison_outlines (template.varies_outlines options loader fits) rfl

-- All choices of payloads fail alike, or the code of each is woven of the same pieces and of the payloads that are
-- emitted, in order. One choice are the payloads that the template has already.
theorem compile_weaves (template : Template) (options : Options) (loader : Loader) (shared : Names) :
    Payload.Fits (template.own loader) (template.payloads options loader) ∧
    template.compileWith options loader shared (template.own loader) = template.compile options loader shared ∧
    ((∃ e names, ∀ choice, Payload.Fits choice (template.payloads options loader) →
      template.compileWith options loader shared choice = (.error e, names)) ∨
    ∃ first rest names, rest.map Prod.fst = Payload.emitted (template.payloads options loader) ∧
      ∀ choice, Payload.Fits choice (template.payloads options loader) →
        template.compileWith options loader shared choice = (.ok (weave first rest choice), names)) := by
  refine ⟨template.fits_own options loader, template.compileWith_own options loader shared, ?_⟩
  rcases template.draft_refill options loader shared fun choice : { choice // Payload.Fits choice _ } => choice.2 with
    ⟨e, r, failed⟩ | ⟨lines, r, ⟨patterns, shaped, texts⟩, drafted⟩
  · refine .inl ⟨e, r.shared, fun choice fits => ?_⟩
    rw [compileWith, compile_eq_draft, failed ⟨choice, fits⟩]
    rfl
  · obtain ⟨first, rest, same, woven⟩ := Pattern.weaves r.scope Output.closing texts
    refine .inr ⟨Output.opening ++ first, rest, r.shared, same, fun choice fits => ?_⟩
    rw [compileWith, compile_eq_draft, drafted ⟨choice, fits⟩, weave_append, ← woven ⟨choice, fits⟩, ← shaped,
      ← String.append_assoc]
    rfl

-- A page with payloads of every kind, one of them directly inside a switch, and one below a tag without children.
def payloadsOfAllKinds : Template :=
  ⟨[.tag 1 ⟨"p", [], false⟩ [.leaf 2 (.text "one") .zero, .leaf 3 (.comment "two") .zero] .zero,
    .tag 4 ⟨"switch", [], false⟩
      [.leaf 5 (.text " ") .zero, .tag 6 ⟨"default", [], false⟩ [.leaf 7 (.string "three") .zero] .zero] .zero,
    .tag 8 ⟨"input", [], false⟩ [.leaf 9 (.text "lost") .zero] .zero,
    .tag 10 ⟨"include", [⟨.literal "from", some (.literal "part.json"), .zero⟩], true⟩ [] .zero]⟩

def scriptPart : Loader where
  templates := [(Path.ofText "part.json", ⟨[.leaf 1 (.script [] "go()") .zero]⟩)]
  fault path := .unreadable path.text

-- Every payload tries to end the literal that it stands in.
def hostile (address : Address) : String := if address.route = [1, 0] then " " else "\"]; exit(); //"

theorem compile_weaves_hostile : Payload.Fits hostile (payloadsOfAllKinds.payloads .standard scriptPart) ∧
    ∃ first rest names, rest.map Prod.fst =
        [⟨none, [0, 0]⟩, ⟨none, [0, 1]⟩, ⟨none, [1, 1, 0]⟩, ⟨some (Path.ofText "part.json"), [0]⟩] ∧
      payloadsOfAllKinds.compileWith .standard scriptPart [] hostile = (.ok (weave first rest hostile), names) := by
  have fits : Payload.Fits hostile (payloadsOfAllKinds.payloads .standard scriptPart) := by decide +kernel
  have emitted : Payload.emitted (payloadsOfAllKinds.payloads .standard scriptPart) =
      [⟨none, [0, 0]⟩, ⟨none, [0, 1]⟩, ⟨none, [1, 1, 0]⟩, ⟨some (Path.ofText "part.json"), [0]⟩] := by decide +kernel
  have succeeds : (payloadsOfAllKinds.compileWith .standard scriptPart [] hostile).1.isOk = true := by decide +kernel
  rcases (compile_weaves payloadsOfAllKinds .standard scriptPart []).2.2 with
    ⟨e, names, failed⟩ | ⟨first, rest, names, same, woven⟩
  · rw [failed hostile fits] at succeeds
    cases succeeds
  · exact ⟨fits, first, rest, names, same.trans emitted, woven hostile fits⟩

end Template

end Stencil
