import Stencil.Proofs.WellFormed
import Stencil.Proofs.Written

-- The node that a failure is reported for. Its place is always that of a node with that very fault. Its file is that of
-- the node, or, if the failure comes up in a fragment, that of the tag whose fragment it is.

namespace Stencil

-- The tag has the fault that the cause tells of. Whether a tag stands in the wrong place is not seen from it alone.
def Tag.Explains (tag : Tag) : Cause → Prop
  | .missingAttribute name attr => tag.name = name ∧ tag.has attr = false
  | .attributeWithoutTag => TagKind.ofName? tag.name = some (.attr .content)
  | .appliedAttributeOutside => TagKind.ofName? tag.name = some (.attr .applied)
  | .caseOutsideSwitch => ∃ flow, TagKind.ofName? tag.name = some (.control .case flow)
  | .caseAfterDefault => ∃ flow, TagKind.ofName? tag.name = some (.control .case flow)
  | .defaultOutsideSwitch => ∃ flow, TagKind.ofName? tag.name = some (.control .default flow)
  | .selfClosingTemplate => TagKind.ofName? tag.name = some .template ∧ tag.selfClosing = true
  | .stateTagNotSingle => TagKind.ofName? tag.name = some .state ∧ tag.selfClosing = false
  | .stateNameNotBare => TagKind.ofName? tag.name = some .state ∧ tag.namesState = false
  | .invalidComponentName => TagKind.ofName? tag.name = some .importing ∧ tag.namesComponent = false
  | .dynamicInclude => TagKind.ofName? tag.name = some .including ∧ (tag.param? "from").bind Part.fixed? = none
  | .includeFailed _ _ => TagKind.ofName? tag.name = some .including
  | .includeCycle _ => TagKind.ofName? tag.name = some .including
  | .unsupportedExpression => ∃ attr ∈ tag.attrs, attr.isSupported = false
  | .textInsideSwitch => False
  | .template _ => False

def Leaf.Explains : Leaf → Cause → Prop
  | .text value, .textInsideSwitch => Text.isAllBlank value = false
  | .slot e, .unsupportedExpression => e.isSupported = false
  | .block e, .unsupportedExpression => e.isSupported = false
  | .script attrs _, .unsupportedExpression => ∃ attr ∈ attrs, attr.isSupported = false
  | _, _ => False

def Content.Explains : Content → Cause → Prop
  | .tag own => own.Explains
  | .leaf value => value.Explains

-- The failure is reported for this place, with a cause of this sort.
structure Raised (file : Path) (location : Location) (sort : Cause → Prop) (e : CompileError) : Prop where
  file : e.file = file.text
  location : e.location = location
  cause : sort e.cause

-- Control flow of this kind stands in the wrong place.
def Control.Misplaced : Control → Cause → Prop
  | .case, cause => cause = .caseOutsideSwitch ∨ cause = .caseAfterDefault
  | .default, cause => cause = .defaultOutsideSwitch
  | _, _ => False

namespace Tag

variable {tag : Tag} {name : String} {p : Part}

theorem explains_spoilt (found : tag.param? name = some p) (spoilt : p.isSupported = false) :
    tag.Explains .unsupportedExpression := by
  obtain ⟨attr, member, valued⟩ := mem_of_param? found
  exact ⟨attr, member, by simp [Attr.isSupported, valued, spoilt]⟩

theorem explains_misplaced {kind : Control} {flow : Flow} {cause : Cause}
    (named : TagKind.ofName? tag.name = some (.control kind flow)) (misplaced : kind.Misplaced cause) :
    tag.Explains cause := by
  cases kind with
  | case => rcases misplaced with rfl | rfl <;> exact ⟨flow, named⟩
  | default => cases misplaced; exact ⟨flow, named⟩
  | _ => cases misplaced

theorem has_eq_false (absent : Attr.param? tag.attrs name = none) : tag.has name = false := by simp [has, absent]

theorem has_eq_true (found : tag.param? name = some p) : tag.has name = true := by
  unfold param? at found
  simp [has, found]

end Tag

-- Whatever a draft fails with is blamed on what it should be.
def Blames {α : Type} (draft : Draft α) (blamed : CompileError → Prop) : Prop :=
  ∀ l e, (draft.run.run l).1 = .error e → blamed e

namespace Blames

variable {α β : Type} {blamed also : CompileError → Prop}

theorem pure (a : α) : Blames (Pure.pure a : Draft α) blamed := fun _ _ failed => nomatch failed

theorem changing (change : Ledger → Ledger) : Blames (modify change : Draft Unit) blamed :=
  fun _ _ failed => nomatch failed

theorem looking : Blames (get : Draft Ledger) blamed := fun _ _ failed => nomatch failed

theorem fragment : Blames Draft.fragment blamed := fun _ _ failed => nomatch failed

theorem fail {file : Path} {cause : Cause} {location : Location} (reported : blamed ⟨cause, file.text, location⟩) :
    Blames (Draft.fail file cause location : Draft α) blamed := by
  intro l e failed
  cases failed
  exact reported

-- What comes second runs only behind what the first has given.
theorem bind {draft : Draft α} {next : α → Draft β} (first : Blames draft blamed)
    (rest : ∀ {l a r}, draft.Gives l a r → Blames (next a) blamed) : Blames (draft >>= next) blamed := by
  intro l e failed
  rw [run_bind] at failed
  rcases ran : draft.run.run l with ⟨e' | a, r⟩
  · rw [ran] at failed
    cases failed
    exact first l e (by rw [ran])
  · rw [ran] at failed
    exact rest ran r e failed

theorem step {draft : Draft α} {next : α → Draft β} (first : Blames draft blamed) (rest : ∀ a, Blames (next a) blamed) :
    Blames (draft >>= next) blamed := first.bind fun {_ a _} _ => rest a

theorem mono {draft : Draft α} (blames : Blames draft blamed) (weaker : ∀ e, blamed e → also e) : Blames draft also :=
  fun l e failed => weaker e (blames l e failed)

theorem within {branch : Option Switch} {body : Draft α} (inner : Blames body blamed) :
    Blames (Draft.within branch body) blamed := by
  intro l e failed
  rw [run_within] at failed
  rcases ran : body.run.run { l with branch := branch } with ⟨e' | a, r⟩
  · rw [ran] at failed
    cases failed
    exact inner _ e (by rw [ran])
  · rw [ran] at failed
    cases failed

theorem expr {file : Path} {context : Expr.Context} {e : Expr} {location : Location}
    (spoilt : e.isSupported = false → blamed ⟨.unsupportedExpression, file.text, location⟩) :
    Blames (Draft.expr file context e location) blamed := by
  refine (changing _).step fun _ => ?_
  have emitted := Expr.isSome_emit? context e
  cases found : e.emit? context with
  | some code => exact pure code
  | none =>
    rw [found] at emitted
    exact fail (spoilt emitted.symm)

theorem part {file : Path} {context : Expr.Context} {p : Part} {location : Location}
    (spoilt : p.isSupported = false → blamed ⟨.unsupportedExpression, file.text, location⟩) :
    Blames (Draft.part file context p location) blamed := by
  cases p with
  | literal text => exact pure _
  | expression e => exact (expr spoilt).step fun _ => pure _

theorem target {file : Path} {context : Expr.Context} {p : Part} {location : Location}
    (spoilt : p.isSupported = false → blamed ⟨.unsupportedExpression, file.text, location⟩) :
    Blames (Draft.target file context p location) blamed := by
  cases p with
  | literal text => exact expr nofun
  | expression e => exact expr spoilt

theorem require {file : Path} {h : Header} {name : String}
    (lacking : h.tag.has name = false → blamed ⟨.missingAttribute h.tag.name name, file.text, h.location⟩) :
    Blames (Draft.require file h name) blamed := by
  unfold Draft.require
  cases found : Attr.param? h.tag.attrs name with
  | some p => exact pure p
  | none => exact fail (lacking (Tag.has_eq_false found))

section Control

variable {file : Path} {h : Header} {body : Draft (List Line)} {isChildless : Bool}

-- A failure of control flow itself, not of what lies below it.
abbrev Misdirected (file : Path) (h : Header) (kind : Control) (isChildless : Bool) : CompileError → Prop :=
  Raised file h.location fun cause => kind.Misplaced cause ∨
    h.tag.directs kind (some false) isChildless = false ∧ h.tag.Explains cause

theorem conditional (inner : Blames body blamed) : Blames (Draft.conditional file h isChildless body)
    fun e => blamed e ∨ Misdirected file h .conditional isChildless e := by
  refine bind (require fun lacking => .inr ⟨rfl, rfl, .inr ⟨by simp [Tag.directs, lacking], rfl, lacking⟩⟩) ?_
  intro _ test _ given
  obtain ⟨named, rfl⟩ := Draft.gives_require.mp given
  refine step (within (inner.mono fun _ => .inl)) fun lines => ?_
  cases isChildless with
  | true => exact pure _
  | false =>
    refine step (part fun spoilt => .inr ⟨rfl, rfl, .inr ⟨?_, Tag.explains_spoilt named spoilt⟩⟩) fun _ => pure _
    simp [Tag.directs, Tag.admits_of named, spoilt]

theorem binding {item : Part}
    (key : ∀ p, h.tag.param? "key" = some p → p.isSupported = false →
      blamed ⟨.unsupportedExpression, file.text, h.location⟩)
    (spoilt : item.isSupported = false → blamed ⟨.unsupportedExpression, file.text, h.location⟩) :
    Blames (Draft.binding file h item) blamed := by
  unfold Draft.binding
  cases found : Attr.param? h.tag.attrs "key" with
  | none => exact step (target spoilt) fun _ => pure _
  | some p => exact step (target (key p found)) fun _ => step (target spoilt) fun _ => pure _

theorem loop (inner : Blames body blamed) : Blames (Draft.loop file h isChildless body)
    fun e => blamed e ∨ Misdirected file h .loop isChildless e := by
  refine bind (require fun lacking => .inr ⟨rfl, rfl, .inr ⟨by simp [Tag.directs, lacking], rfl, lacking⟩⟩) ?_
  intro _ source _ given
  obtain ⟨sourced, rfl⟩ := Draft.gives_require.mp given
  refine bind (require fun lacking => .inr ⟨rfl, rfl, .inr ⟨by simp [Tag.directs, lacking], rfl, lacking⟩⟩) ?_
  intro _ item _ given
  obtain ⟨named, rfl⟩ := Draft.gives_require.mp given
  refine step (within (inner.mono fun _ => .inl)) fun lines => ?_
  cases isChildless with
  | true => exact pure _
  | false =>
    have spoils {name : String} {p : Part} (found : h.tag.param? name = some p)
        (asked : name = "from" ∨ name = "key" ∨ name = "item") (spoilt : p.isSupported = false) :
        Misdirected file h .loop false ⟨.unsupportedExpression, file.text, h.location⟩ := by
      have unfit : h.tag.admits name = false := (Tag.admits_of found).trans spoilt
      refine ⟨rfl, rfl, .inr ⟨?_, Tag.explains_spoilt found spoilt⟩⟩
      rcases asked with rfl | rfl | rfl <;> simp [Tag.directs, unfit]
    refine step (part fun spoilt => .inr (spoils sourced (.inl rfl) spoilt)) fun _ => ?_
    refine step (binding ?_ ?_) fun _ => pure _
    · exact fun p found spoilt => .inr (spoils found (.inr (.inl rfl)) spoilt)
    · exact fun spoilt => .inr (spoils named (.inr (.inr rfl)) spoilt)

theorem switch (inner : Blames body blamed) : Blames (Draft.switch body) blamed :=
  within (step inner fun _ => step (step looking fun _ => pure _) fun _ => pure _)

theorem case (inner : Blames body blamed) : Blames (Draft.case file h body)
    fun e => blamed e ∨ Misdirected file h .case isChildless e := by
  refine step looking fun l => ?_
  cases l.branch with
  | none => exact fail (.inr ⟨rfl, rfl, .inl (.inl rfl)⟩)
  | some state =>
    simp only
    split
    · exact fail (.inr ⟨rfl, rfl, .inl (.inr rfl)⟩)
    · refine step (changing _) fun _ => ?_
      refine bind (require fun lacking => .inr ⟨rfl, rfl, .inr ⟨?_, rfl, lacking⟩⟩) ?_
      · simp [Tag.directs, Tag.gives, lacking]
      · intro _ test _ given
        obtain ⟨named, rfl⟩ := Draft.gives_require.mp given
        refine step (within (inner.mono fun _ => .inl)) fun lines => ?_
        refine step (part fun spoilt => .inr ⟨rfl, rfl, .inr ⟨?_, Tag.explains_spoilt named spoilt⟩⟩) fun _ => pure _
        simp [Tag.directs, Tag.gives, Tag.admits_of named, spoilt]

theorem default (inner : Blames body blamed) : Blames (Draft.default file h body)
    fun e => blamed e ∨ Misdirected file h .default isChildless e := by
  refine step looking fun l => ?_
  cases l.branch with
  | none => exact fail (.inr ⟨rfl, rfl, .inl rfl⟩)
  | some state =>
    exact step (changing _) fun _ => step (within (inner.mono fun _ => .inl)) fun _ => pure _

theorem control {kind : Control} (inner : Blames body blamed) : Blames (Draft.control kind file h isChildless body)
    fun e => blamed e ∨ Misdirected file h kind isChildless e := by
  cases kind with
  | conditional => exact conditional inner
  | loop => exact loop inner
  | switch => exact (switch inner).mono fun _ => .inl
  | case => exact case inner
  | default => exact default inner

end Control

section Tags

variable {file : Path} {h : Header}

theorem given {name : String} {next : Part → Draft β}
    (rest : ∀ p, h.tag.param? name = some p → Blames (next p) (Raised file h.location h.tag.Explains)) :
    Blames (Draft.require file h name >>= next) (Raised file h.location h.tag.Explains) := by
  refine bind (require fun lacking => ⟨rfl, rfl, rfl, lacking⟩) ?_
  intro _ p _ found
  exact rest p (Draft.gives_require.mp found).1

theorem evaluated {context : Expr.Context} {name : String} {p : Part} (found : h.tag.param? name = some p) :
    Blames (Draft.part file context p h.location) (Raised file h.location h.tag.Explains) :=
  part fun spoilt => ⟨rfl, rfl, Tag.explains_spoilt found spoilt⟩

theorem placed {context : Expr.Context} {name : String} {p : Part} (found : h.tag.param? name = some p) :
    Blames (Draft.target file context p h.location) (Raised file h.location h.tag.Explains) :=
  target fun spoilt => ⟨rfl, rfl, Tag.explains_spoilt found spoilt⟩

theorem parameter : Blames (Draft.parameter file h) (Raised file h.location h.tag.Explains) :=
  given fun _ named => given fun _ valued => step (placed named) fun _ => step (evaluated valued) fun _ => pure _

theorem assignment : Blames (Draft.assignment file h) (Raised file h.location h.tag.Explains) :=
  given fun _ named => given fun _ valued => step (placed named) fun _ => step (evaluated valued) fun _ => pure _

theorem ownerAttribute {isOwned : Bool} (named : TagKind.ofName? h.tag.name = some (.attr .content)) :
    Blames (Draft.ownerAttribute file isOwned h) (Raised file h.location h.tag.Explains) := by
  refine given fun _ _ => given fun _ _ => ?_
  cases isOwned with
  | true => exact pure _
  | false => exact fail ⟨rfl, rfl, named⟩

theorem strayAttribute (named : TagKind.ofName? h.tag.name = some (.attr .applied)) :
    Blames (Draft.strayAttribute file h) (Raised file h.location h.tag.Explains) :=
  given fun _ _ => given fun _ _ => fail ⟨rfl, rfl, named⟩

theorem importing {options : Options} (named : TagKind.ofName? h.tag.name = some .importing) :
    Blames (Draft.importing file options h) (Raised file h.location h.tag.Explains) := by
  refine given fun name found => given fun source sourced => ?_
  cases fixed : name.fixed?.filter fun name => name.toList.contains '-' with
  | none =>
    refine fail ⟨rfl, rfl, named, ?_⟩
    unfold Tag.param? at found
    unfold Tag.namesComponent
    rw [found]
    cases text : name.fixed? with
    | none => simp [text]
    | some text => simpa [text] using fixed
  | some text => exact step (changing _) fun _ => step (evaluated sourced) fun _ => pure _

theorem useState (named : TagKind.ofName? h.tag.name = some .state) :
    Blames (Draft.useState file h) (Raised file h.location h.tag.Explains) := by
  refine given fun name found => ?_
  cases closing : h.tag.selfClosing with
  | false => exact bind (fail ⟨rfl, rfl, named, closing⟩) fun given => absurd given Draft.gives_fail
  | true =>
    simp only [Bool.not_true, Bool.false_eq_true, if_false]
    cases bare : Walk.stateName? name with
    | none =>
      refine fail ⟨rfl, rfl, named, ?_⟩
      unfold Tag.param? at found
      simp [Tag.namesState, found, bare]
    | some stored =>
      refine step (placed found) fun _ => ?_
      cases valued : Attr.param? h.tag.attrs "value" with
      | none => exact pure _
      | some value => exact step (evaluated valued) fun _ => pure _

theorem refused {fault : Path → Fault} {stack : Stack} (named : TagKind.ofName? h.tag.name = some .including) :
    Blames (Draft.fail stack.file (stack.refusal fault h.tag) h.location : Draft (List Line))
      (Raised stack.file h.location h.tag.Explains) := by
  refine fail ⟨rfl, rfl, ?_⟩
  unfold Stack.refusal
  cases found : Attr.param? h.tag.attrs "from" with
  | none => exact ⟨rfl, Tag.has_eq_false found⟩
  | some p =>
    simp only
    cases fixed : p.fixed? with
    | none => exact ⟨named, by simp [Tag.param?, found, fixed]⟩
    | some source =>
      simp only
      split <;> exact named

theorem ownAttrs {attrsOf : Nat} {location : Location} {attrs : List Attr}
    (spoilt : (∃ attr ∈ attrs, attr.isSupported = false) → blamed ⟨.unsupportedExpression, file.text, location⟩) :
    Blames (Draft.ownAttrs file attrsOf location attrs) blamed := by
  induction attrs with
  | nil => exact pure _
  | cons attr rest ih =>
    have own (bad : attr.isSupported = false) := spoilt ⟨attr, List.mem_cons_self, bad⟩
    have others : Blames (Draft.ownAttrs file attrsOf location rest) blamed :=
      ih fun ⟨other, member, bad⟩ => spoilt ⟨other, List.mem_cons_of_mem _ member, bad⟩
    refine step (step (part fun bad => own (by simp [Attr.isSupported, bad])) fun _ => ?_) fun _ => ?_
    case refine_2 => exact step others fun _ => pure _
    cases valued : attr.value with
    | none => exact pure _
    | some value => exact step (part fun bad => own (by simp [Attr.isSupported, valued, bad])) fun _ => pure _

theorem attrBlock {attrsOf : Nat} {copies : List Sketch} {attrs : List Attr} {location : Location}
    (inner : Blames (Draft.allApplied file attrsOf copies) blamed)
    (spoilt : (∃ attr ∈ attrs, attr.isSupported = false) → blamed ⟨.unsupportedExpression, file.text, location⟩) :
    Blames (Draft.attrBlock file attrsOf copies attrs location) blamed :=
  step (within inner) fun _ => step (ownAttrs spoilt) fun _ => pure _

theorem leaf {sink identity : Nat} {location : Location} (leaf : Leaf) :
    Blames (Draft.leaf file sink identity location leaf) (Raised file location leaf.Explains) := by
  cases leaf with
  | text value =>
    refine step looking fun l => ?_
    split
    · cases blank : Text.isAllBlank value with
      | true => exact pure _
      | false => exact fail ⟨rfl, rfl, blank⟩
    · exact pure _
  | comment value => exact pure _
  | string value => exact pure _
  | slot e => exact step (expr fun spoilt => ⟨rfl, rfl, spoilt⟩) fun _ => pure _
  | block e => exact step (expr fun spoilt => ⟨rfl, rfl, spoilt⟩) fun _ => pure _
  | script attrs body =>
    exact step fragment fun _ => step (attrBlock (pure _) fun spoilt => ⟨rfl, rfl, spoilt⟩) fun _ => pure _

variable {body : Draft (List Line)}

theorem template (named : TagKind.ofName? h.tag.name = some .template) (inner : Blames body blamed) :
    Blames (Draft.template file h body) fun e => blamed e ∨ Raised file h.location h.tag.Explains e := by
  refine bind (require fun lacking => .inr ⟨rfl, rfl, rfl, lacking⟩) ?_
  intro _ p _ given
  obtain ⟨found, rfl⟩ := Draft.gives_require.mp given
  cases closing : h.tag.selfClosing with
  | true => exact bind (fail (.inr ⟨rfl, rfl, named, closing⟩)) fun given => absurd given Draft.gives_fail
  | false =>
    refine step (within (inner.mono fun _ => .inl)) fun _ => ?_
    exact step ((placed found).mono fun _ => .inr) fun _ => pure _

-- The children of a tag are drafted before its attributes, so what they leave in its fragment has passed once.
theorem tagParts {copies : List Sketch} (inner : Blames body blamed)
    (left : ∀ {l lines r attrsOf}, body.Gives l lines r → Blames (Draft.allApplied file attrsOf copies) blamed) :
    Blames (Draft.tagParts file h copies body) fun e => blamed e ∨ Raised file h.location h.tag.Explains e := by
  refine step fragment fun _ => ?_
  cases h.tag.selfClosing with
  | true =>
    exact step (pure _) fun _ => step (attrBlock (pure _) fun spoilt => .inr ⟨rfl, rfl, spoilt⟩) fun _ => pure _
  | false =>
    refine bind (within (inner.mono fun _ => .inl)) ?_
    intro _ lines _ given
    obtain ⟨_, ran, _⟩ := Draft.gives_within.mp given
    exact step (attrBlock ((left ran).mono fun _ => .inl) fun spoilt => .inr ⟨rfl, rfl, spoilt⟩) fun _ => pure _

theorem literal {options : Options} {sink : Nat} {copies : List Sketch} (inner : Blames body blamed)
    (left : ∀ {l lines r attrsOf}, body.Gives l lines r → Blames (Draft.allApplied file attrsOf copies) blamed) :
    Blames (Draft.literal file options sink h copies body)
      fun e => blamed e ∨ Raised file h.location h.tag.Explains e := by
  refine step (tagParts inner left) fun parts => ?_
  simp only
  split <;> exact pure _

theorem component {options : Options} {sink : Nat} {copies : List Sketch} (inner : Blames body blamed)
    (left : ∀ {l lines r attrsOf}, body.Gives l lines r → Blames (Draft.allApplied file attrsOf copies) blamed) :
    Blames (Draft.component file options sink h copies body)
      fun e => blamed e ∨ Raised file h.location h.tag.Explains e := by
  refine step (tagParts inner left) fun parts => ?_
  simp only
  split <;> exact pure _

end Tags

end Blames

-- A node of a template with its includes resolved: the file it comes from, and that of the tag that takes its
-- attributes, if it stands below one.
structure Origin where
  file : Path
  owner : Option Path
  item : Item

-- The file of the tag that takes the attributes below a node. Control flow leaves it as it is.
def Item.owner (file : Path) (outer : Option Path) (item : Item) : Option Path :=
  match item.content with
  | .tag tag => match TagKind.ofName? tag.name with
    | none => some file
    | some (.control _ _) => outer
    | some _ => none
  | .leaf _ => none

namespace Outline

mutual

def origins (file : Path) (owner : Option Path) : Outline → List Origin
  | .node item children => ⟨file, owner, item⟩ :: allOrigins file (item.owner file owner) children
  | .file path nodes => allOrigins path owner nodes

def allOrigins (file : Path) (owner : Option Path) : List Outline → List Origin
  | [] => []
  | first :: rest => origins file owner first ++ allOrigins file owner rest

end

end Outline

-- A cause that may come up only when a fragment is written: an attribute cannot be evaluated, or a case has lost its
-- switch, which was in its applied form already and is not copied.
def Content.Delays : Content → Cause → Prop
  | .tag own, cause => TagKind.ofName? own.name = some (.attr .content) ∧ cause = .unsupportedExpression ∨
      ∃ kind, TagKind.ofName? own.name = some (.control kind .content) ∧ kind.Misplaced cause
  | .leaf _, _ => False

structure Origin.Blamed (origin : Origin) (e : CompileError) : Prop where
  location : e.location = origin.item.location
  cause : origin.item.content.Explains e.cause
  file : e.file = origin.file.text ∨
    origin.item.content.Delays e.cause ∧ ∃ owner, origin.owner = some owner ∧ e.file = owner.text

theorem Raised.blames {file : Path} {owner : Option Path} {item : Item} {e : CompileError}
    (raised : Raised file item.location item.content.Explains e) : Origin.Blamed ⟨file, owner, item⟩ e :=
  ⟨raised.location, raised.cause, .inl raised.file⟩

-- The failure comes up in a fragment of a tag in the file.
structure Origin.Delayed (file : Path) (origin : Origin) (e : CompileError) : Prop where
  owner : origin.owner = some file
  raised : Raised file origin.item.location
    (fun cause => origin.item.content.Explains cause ∧ origin.item.content.Delays cause) e

theorem Origin.Delayed.blames {file : Path} {origin : Origin} {e : CompileError} (delayed : origin.Delayed file e) :
    origin.Blamed e :=
  ⟨delayed.raised.location, delayed.raised.cause.1, .inr ⟨delayed.raised.cause.2, file, delayed.owner, delayed.raised.file⟩⟩

theorem Part.isSupported_of_operand? {context : Expr.Context} {p : Part} {operand : Operand}
    (found : p.operand? context = some operand) : p.isSupported = true := by
  cases p with
  | literal text => rfl
  | expression e =>
    obtain ⟨code, emitted, _⟩ := Option.map_eq_some_iff.mp found
    rw [isSupported, ← Expr.isSome_emit? context e, emitted]
    rfl

theorem Part.isSupported_of_asTarget {context : Expr.Context} {p : Part} {code : Code}
    (emitted : p.asTarget.emit? context = some code) : p.isSupported = true := by
  cases p with
  | literal text => rfl
  | expression e =>
    rw [isSupported, ← Expr.isSome_emit? context e, show e.emit? context = some code from emitted]
    rfl

namespace Draft

variable {options : Options} {fault : Path → Fault} {file : Path} {h : Header} {l r : Ledger} {lines : List Line}

-- Control flow that succeeds has run its body, and its parameters are fit for it.
theorem directs_of_gives {kind : Control} {isChildless : Bool} {body : Draft (List Line)}
    (gives : (control kind file h isChildless body).Gives l lines r) :
    h.tag.directs kind (some false) isChildless = true ∧ ∃ m below n, body.Gives m below n := by
  have admits {name : String} {p : Part} (found : h.tag.param? name = some p) (fit : p.isSupported = true) :
      h.tag.admits name = true := (Tag.admits_of found).trans fit
  cases kind with
  | conditional =>
    simp only [control, conditional, gives_bind, gives_require, gives_within] at gives
    obtain ⟨test, _, ⟨named, rfl⟩, below, _, ⟨m, ran, rfl⟩, gives⟩ := gives
    refine ⟨?_, _, below, m, ran⟩
    cases isChildless with
    | true => simp [Tag.directs, Tag.has_eq_true named]
    | false =>
      simp only [Bool.false_eq_true, if_false, gives_bind, gives_condition] at gives
      obtain ⟨operand, _, ⟨emitted, _⟩, _⟩ := gives
      simp [Tag.directs, Tag.has_eq_true named, admits named (Part.isSupported_of_operand? emitted)]
  | loop =>
    simp only [control, loop, gives_bind, gives_require, gives_within] at gives
    obtain ⟨source, _, ⟨sourced, rfl⟩, item, _, ⟨named, rfl⟩, below, _, ⟨m, ran, rfl⟩, gives⟩ := gives
    refine ⟨?_, _, below, m, ran⟩
    cases isChildless with
    | true => simp [Tag.directs, Tag.has_eq_true sourced, Tag.has_eq_true named]
    | false =>
      simp only [Bool.false_eq_true, if_false, gives_bind, gives_value] at gives
      obtain ⟨operand, _, ⟨emitted, _⟩, found, _, bound, _⟩ := gives
      have key : h.tag.admits "key" = true ∧ item.isSupported = true := by
        unfold binding at bound
        cases given : Attr.param? h.tag.attrs "key" with
        | none =>
          simp only [given, gives_bind, gives_bound] at bound
          obtain ⟨_, _, ⟨placed, _⟩, _⟩ := bound
          exact ⟨by simp [Tag.admits, given], Part.isSupported_of_asTarget placed⟩
        | some part =>
          simp only [given, gives_bind, gives_bound] at bound
          obtain ⟨_, _, ⟨first, _⟩, _, _, ⟨second, _⟩, _⟩ := bound
          exact ⟨admits given (Part.isSupported_of_asTarget first), Part.isSupported_of_asTarget second⟩
      simp [Tag.directs, Tag.has_eq_true sourced, Tag.has_eq_true named, key.1, admits named key.2,
        admits sourced (Part.isSupported_of_operand? emitted)]
  | switch =>
    simp only [control, switch, gives_within, gives_bind] at gives
    obtain ⟨_, ⟨below, m, ran, _⟩, _⟩ := gives
    exact ⟨rfl, _, below, m, ran⟩
  | case =>
    simp only [control, case, gives_bind, gives_get] at gives
    obtain ⟨_, _, ⟨rfl, rfl⟩, gives⟩ := gives
    cases around : l.branch with
    | none => simp [around] at gives
    | some state =>
      simp only [around] at gives
      by_cases seen : state.hasDefault = true
      · simp [seen] at gives
      · rw [if_neg seen] at gives
        simp only [gives_bind, gives_modify, gives_require, gives_within, gives_condition] at gives
        obtain ⟨_, _, rfl, test, _, ⟨named, rfl⟩, below, _, ⟨m, ran, rfl⟩, operand, _, ⟨emitted, _⟩, _⟩ := gives
        refine ⟨?_, _, below, m, ran⟩
        simp [Tag.directs, Tag.gives, Tag.has_eq_true named, admits named (Part.isSupported_of_operand? emitted)]
  | default =>
    simp only [control, default, gives_bind, gives_get] at gives
    obtain ⟨_, _, ⟨rfl, rfl⟩, gives⟩ := gives
    cases around : l.branch with
    | none => simp [around] at gives
    | some state =>
      simp only [around, gives_bind, gives_modify, gives_within] at gives
      obtain ⟨_, _, rfl, below, _, ⟨m, ran, rfl⟩, _⟩ := gives
      exact ⟨rfl, _, below, m, ran⟩

section Tag

variable {stack : Stack} {isOwned : Bool} {sink : Nat} {below : List Sketch} {body : Bool → Nat → Draft (List Line)}

theorem gives_tag_control {kind : Control} {flow : Flow} (named : TagKind.ofName? h.tag.name = some (.control kind flow))
    (gives : (Draft.tag options fault stack isOwned sink h below body).Gives l lines r) :
    (control kind stack.file h below.isEmpty (body isOwned sink)).Gives l lines r := by
  simp only [Draft.tag, gives_bind, gives_get, TagKind.classify, named] at gives
  obtain ⟨_, _, ⟨rfl, rfl⟩, gives⟩ := gives
  exact gives

theorem gives_tag_attr (named : TagKind.ofName? h.tag.name = some (.attr .content))
    (gives : (Draft.tag options fault stack isOwned sink h below body).Gives l lines r) :
    ∃ name value, h.tag.param? "name" = some name ∧ h.tag.param? "value" = some value := by
  simp only [Draft.tag, gives_bind, gives_get, TagKind.classify, named, ownerAttribute, gives_require] at gives
  obtain ⟨_, _, ⟨rfl, rfl⟩, name, _, ⟨first, _⟩, value, _, ⟨second, _⟩, _⟩ := gives
  exact ⟨name, value, first, second⟩

end Tag

end Draft

namespace Blames

variable {options : Options} {fault : Path → Fault} {file : Path} {attrsOf : Nat}

theorem appliedAttr {identity : Nat} {tag : Tag} {location : Location} {renamed : String}
    (given : ∃ name value, tag.param? "name" = some name ∧ tag.param? "value" = some value) :
    Blames (Draft.appliedAttr file attrsOf ⟨identity, { tag with name := renamed }, location⟩)
      (Raised file location fun cause => tag.Explains cause ∧ cause = .unsupportedExpression) := by
  obtain ⟨name, value, named, valued⟩ := given
  have present {attr : String} {p : Part} (found : tag.param? attr = some p)
      (lacking : Tag.has { tag with name := renamed } attr = false) : False := by
    have has : tag.has attr = true := Tag.has_eq_true found
    have lacks : tag.has attr = false := lacking
    simp [has] at lacks
  refine bind (require fun lacking => (present named lacking).elim) ?_
  intro _ p _ given
  obtain rfl : name = p := Option.some.inj (named.symm.trans (Draft.gives_require.mp given).1)
  refine bind (require fun lacking => (present valued lacking).elim) ?_
  intro _ q _ given
  obtain rfl : value = q := Option.some.inj (valued.symm.trans (Draft.gives_require.mp given).1)
  refine step (part fun spoilt => ⟨rfl, rfl, Tag.explains_spoilt named spoilt, rfl⟩) fun _ => ?_
  exact step (part fun spoilt => ⟨rfl, rfl, Tag.explains_spoilt valued spoilt, rfl⟩) fun _ => pure _

mutual

-- What nodes that were drafted leave in a fragment fails only in the ways that are not found out before.
theorem copied : ∀ {outline : Outline} {stack : Stack} {isOwned : Bool} {sink : Nat} {l r : Ledger} {lines : List Line},
    (Draft.outline options fault stack isOwned sink outline).Gives l lines r →
    Blames (Draft.allApplied file attrsOf (Sketch.copies (Outline.flat outline)))
      fun e => ∃ origin ∈ Outline.origins stack.file (some file) outline, origin.Delayed file e
  | .node ⟨_, .leaf _, _⟩ _, _, _, _, _, _, _, _ => pure _
  | .node ⟨identity, .tag tag, location⟩ children, stack, isOwned, sink, l, r, lines, gives => by
    rw [Draft.outline] at gives
    rw [Outline.flat, Sketch.copies, Sketch.copies, List.append_nil]
    unfold Sketch.copy
    split
    · rename_i kind named
      obtain ⟨fit, _, _, _, ran⟩ := Draft.directs_of_gives (Draft.gives_tag_control named gives)
      have renamed := TagKind.ofName?_applied_control named
      rw [Draft.allApplied_singleton]
      simp only [Draft.applied, renamed]
      refine (control (allCopied ran)).mono ?_
      rintro e (⟨origin, member, delayed⟩ | ⟨here, there, cause⟩)
      · refine ⟨origin, List.mem_cons_of_mem _ ?_, delayed⟩
        simpa [Item.owner, named] using member
      · refine ⟨⟨stack.file, some file, _⟩, List.mem_cons_self, rfl, here, there, ?_⟩
        rcases cause with misplaced | ⟨unfit, _⟩
        · exact ⟨Tag.explains_misplaced named misplaced, .inr ⟨kind, named, misplaced⟩⟩
        · -- The parameters have passed for the node itself, which has no fewer children.
          have fewer : (Outline.flatten children).isEmpty = true →
              (Sketch.copies (Outline.flatten children)).isEmpty = true := by
            intro empty
            rw [List.isEmpty_iff.mp empty]
            rfl
          have passed := Tag.directs_childless fit fewer
          have failed : tag.directs kind (some false) (Sketch.copies (Outline.flatten children)).isEmpty = false := unfit
          simp [passed] at failed
    · rename_i kind named
      obtain ⟨_, _, _, _, ran⟩ := Draft.directs_of_gives (Draft.gives_tag_control named gives)
      refine (allCopied ran).mono ?_
      rintro e ⟨origin, member, delayed⟩
      refine ⟨origin, List.mem_cons_of_mem _ ?_, delayed⟩
      simpa [Item.owner, named] using member
    · rename_i named
      have renamed := TagKind.ofName?_applied_attr named
      rw [Draft.allApplied_singleton]
      simp only [Draft.applied, renamed]
      refine (appliedAttr (Draft.gives_tag_attr named gives)).mono ?_
      rintro e ⟨here, there, explained, unsupported⟩
      exact ⟨⟨stack.file, some file, _⟩, List.mem_cons_self, rfl, here, there, explained, .inl ⟨named, unsupported⟩⟩
    · exact pure _
  | .file path nodes, stack, _, _, _, _, _, gives => by
    rw [Draft.outline] at gives
    exact allCopied gives

theorem allCopied : ∀ {outlines : List Outline} {stack : Stack} {isOwned : Bool} {sink : Nat} {l r : Ledger}
    {lines : List Line}, (Draft.outlines options fault stack isOwned sink outlines).Gives l lines r →
    Blames (Draft.allApplied file attrsOf (Sketch.copies (Outline.flatten outlines)))
      fun e => ∃ origin ∈ Outline.allOrigins stack.file (some file) outlines, origin.Delayed file e
  | [], _, _, _, _, _, _, _ => pure _
  | first :: rest, stack, isOwned, sink, l, r, lines, gives => by
    simp only [Draft.outlines, Draft.gives_bind] at gives
    obtain ⟨_, _, head, _, _, tail, _⟩ := gives
    rw [Outline.flatten, Sketch.copies_append, Draft.allApplied_append]
    refine step ((copied head).mono ?_) fun _ => step ((allCopied tail).mono ?_) fun _ => pure _
    · rintro e ⟨origin, member, delayed⟩
      exact ⟨origin, List.mem_append_left _ member, delayed⟩
    · rintro e ⟨origin, member, delayed⟩
      exact ⟨origin, List.mem_append_right _ member, delayed⟩

end

section Tag

variable {blamed : CompileError → Prop} {stack : Stack} {isOwned : Bool} {sink : Nat} {h : Header} {below : List Sketch}
  {body : Bool → Nat → Draft (List Line)}

theorem tag (own : ∀ e, Raised stack.file h.location h.tag.Explains e → blamed e)
    (inner : ∀ isOwned sink, Blames (body isOwned sink) blamed)
    (left : TagKind.ofName? h.tag.name = none → ∀ {l lines r attrsOf}, (body true h.identity).Gives l lines r →
      Blames (Draft.allApplied stack.file attrsOf (Sketch.copies below)) blamed) :
    Blames (Draft.tag options fault stack isOwned sink h below body) blamed := by
  have either : ∀ e, blamed e ∨ Raised stack.file h.location h.tag.Explains e → blamed e :=
    fun e either => either.elim id (own e)
  refine step looking fun l => ?_
  unfold TagKind.classify
  cases named : TagKind.ofName? h.tag.name with
  | none =>
    cases l.registry.contains l.shared h.tag.name with
    | true => exact (component (inner true h.identity) (left named)).mono either
    | false => exact (literal (inner true h.identity) (left named)).mono either
  | some kind =>
    cases kind with
    | parameter => exact parameter.mono own
    | assignment => exact assignment.mono own
    | attr flow =>
      cases flow with
      | content => exact (ownerAttribute named).mono own
      | applied => exact (strayAttribute named).mono own
    | control kind flow =>
      refine (control (inner isOwned sink)).mono fun e => ?_
      rintro (below | ⟨here, there, misplaced | ⟨_, unfit⟩⟩)
      · exact below
      · exact own e ⟨here, there, Tag.explains_misplaced named misplaced⟩
      · exact own e ⟨here, there, unfit⟩
    | component => exact absurd rfl (TagKind.ofName?_own named).1
    | importing => exact (importing named).mono own
    | template => exact (template named (inner false h.identity)).mono either
    | state => exact (useState named).mono own
    | including => exact (refused named).mono own
    | literal => exact absurd rfl (TagKind.ofName?_own named).2

end Tag

mutual

theorem outline : ∀ (outline : Outline) (owner : Option Path) {stack : Stack} {isOwned : Bool} {sink : Nat},
    Blames (Draft.outline options fault stack isOwned sink outline)
      fun e => ∃ origin ∈ Outline.origins stack.file owner outline, origin.Blamed e
  | .node ⟨_, .leaf value, _⟩ _, _, _, _, _ => by
    rw [Draft.outline]
    refine (leaf value).mono ?_
    intro e raised
    exact ⟨_, List.mem_cons_self, Raised.blames raised⟩
  | .node ⟨identity, .tag own, location⟩ children, owner, stack, _, _ => by
    rw [Draft.outline]
    refine tag ?_ ?_ ?_
    · intro e raised
      exact ⟨_, List.mem_cons_self, Raised.blames raised⟩
    · intro isOwned sink
      refine (outlines children (Item.owner stack.file owner ⟨identity, .tag own, location⟩)).mono ?_
      rintro e ⟨origin, member, blamed⟩
      exact ⟨origin, List.mem_cons_of_mem _ member, blamed⟩
    · intro named l lines r attrsOf gives
      refine (allCopied gives).mono ?_
      rintro e ⟨origin, member, delayed⟩
      refine ⟨origin, List.mem_cons_of_mem _ ?_, delayed.blames⟩
      simpa [Item.owner, named] using member
  | .file _ nodes, owner, _, _, _ => by
    rw [Draft.outline]
    exact outlines nodes owner

theorem outlines : ∀ (outlines : List Outline) (owner : Option Path) {stack : Stack} {isOwned : Bool} {sink : Nat},
    Blames (Draft.outlines options fault stack isOwned sink outlines)
      fun e => ∃ origin ∈ Outline.allOrigins stack.file owner outlines, origin.Blamed e
  | [], _, _, _, _ => pure _
  | first :: rest, owner, _, _, _ => by
    rw [Draft.outlines]
    refine step ((outline first owner).mono ?_) fun _ => step ((outlines rest owner).mono ?_) fun _ => pure _
    · rintro e ⟨origin, member, blamed⟩
      exact ⟨origin, List.mem_append_left _ member, blamed⟩
    · rintro e ⟨origin, member, blamed⟩
      exact ⟨origin, List.mem_append_right _ member, blamed⟩

end

end Blames

namespace Template

-- The nodes of a template with its includes resolved.
def origins (template : Template) (options : Options) (loader : Loader) : List Origin :=
  Outline.allOrigins (Path.ofText options.filePath).normalize none (template.outlines options loader)

-- A failure has the place of a node with that fault, and the file of this node; but if it comes up when the node is
-- written for the tag that takes its attributes, it has the file of this tag.
theorem compile_blames (template : Template) (options : Options) (loader : Loader) (shared : Names) (e : CompileError)
    (failed : (template.compile options loader shared).1 = .error e) :
    ∃ origin ∈ template.origins options loader, e.location = origin.item.location ∧
      origin.item.content.Explains e.cause ∧ (e.file = origin.file.text ∨ origin.item.content.Delays e.cause ∧
        ∃ owner, origin.owner = some owner ∧ e.file = owner.text) := by
  rw [compile_eq_draft] at failed
  have drafted : (template.draft options loader shared).1 = .error e := by
    cases outcome : (template.draft options loader shared).1 with
    | error cause =>
      rw [outcome] at failed
      cases failed
      rfl
    | ok lines =>
      rw [outcome] at failed
      cases failed
  obtain ⟨origin, member, blamed⟩ := Blames.outlines (template.outlines options loader) none _ e drafted
  exact ⟨origin, member, blamed.location, blamed.cause, blamed.file⟩

-- An attribute that cannot be evaluated, in a part of the page.
def brokenAttribute : Template :=
  ⟨[.tag 1 ⟨"div", [], false⟩
    [.tag 2 ⟨"include", [⟨.literal "from", some (.literal "part.json"), .zero⟩], true⟩ [] ⟨2, 3⟩] ⟨1, 1⟩]⟩

def brokenAttributeOptions : Options := { Options.standard with filePath := "page.json" }

def brokenAttributeParts : Loader where
  templates :=
    [(Path.ofText "part.json",
      ⟨[.tag 1 ⟨"attribute", [⟨.literal "name", some (.literal "title"), .zero⟩,
        ⟨.literal "value", some (.expression .unsupported), .zero⟩], true⟩ [] ⟨7, 5⟩]⟩)]
  fault path := .unreadable path.text

theorem compile_brokenAttribute : (brokenAttribute.compile brokenAttributeOptions brokenAttributeParts []).1 =
    .error ⟨.unsupportedExpression, "page.json", ⟨7, 5⟩⟩ := by
  have failed : (match (brokenAttribute.compile brokenAttributeOptions brokenAttributeParts []).1 with | .error e => some e | .ok _ => none) =
      some ⟨.unsupportedExpression, "page.json", ⟨7, 5⟩⟩ := by decide +kernel
  cases outcome : (brokenAttribute.compile brokenAttributeOptions brokenAttributeParts []).1 with
  | ok text =>
    rw [outcome] at failed
    cases failed
  | error e =>
    rw [outcome] at failed
    exact congrArg Except.error (Option.some.inj failed)

theorem compile_blames_brokenAttribute : (brokenAttribute.compile brokenAttributeOptions brokenAttributeParts []).1 =
    .error ⟨.unsupportedExpression, "page.json", ⟨7, 5⟩⟩ ∧ ∃ origin ∈ brokenAttribute.origins brokenAttributeOptions brokenAttributeParts,
      origin.item.location = ⟨7, 5⟩ ∧ origin.item.content.Explains .unsupportedExpression ∧
      ("page.json" = origin.file.text ∨ ∃ owner, origin.owner = some owner ∧ "page.json" = owner.text) := by
  obtain ⟨origin, member, there, explained, file⟩ := brokenAttribute.compile_blames brokenAttributeOptions brokenAttributeParts [] _ compile_brokenAttribute
  exact ⟨compile_brokenAttribute, origin, member, there.symm, explained, file.imp_right And.right⟩

-- The only node at the place that is reported is in the part, but the page is reported.
theorem brokenAttribute_blames_page : (brokenAttribute.compile brokenAttributeOptions brokenAttributeParts []).1 =
    .error ⟨.unsupportedExpression, "page.json", ⟨7, 5⟩⟩ ∧
      (brokenAttribute.origins brokenAttributeOptions brokenAttributeParts).map (fun origin => (origin.file.text, origin.item.location)) =
        [("page.json", ⟨1, 1⟩), ("part.json", ⟨7, 5⟩)] :=
  ⟨compile_brokenAttribute, by decide +kernel⟩

end Template

end Stencil
