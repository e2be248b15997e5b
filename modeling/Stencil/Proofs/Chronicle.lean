import Stencil.Compile

-- The walk with a chronicle of what happens in it: the nodes that are visited, the tags whose children are finished, the
-- changes of the document, the branches of switches and the files that are loaded. The chronicle is kept beside the walk
-- and does not touch it, so that what is known of the chronicle is known of the walk.

namespace Stencil

-- A node that is compiled, in the content or in a fragment, with all that its compilation is given.
inductive Visit where
  | content (env : Env) (place : Place) (sink : Nat) (tree : Tree)
  | applied (attrsOf : Nat) (inside : Option NodeId) (tree : Tree)

namespace Visit

def walk : Visit → Walk Code
  | .content env place sink tree => Walk.contentTree env place sink tree
  | .applied attrsOf inside tree => Walk.appliedTree attrsOf inside tree

def isContent : Visit → Bool
  | .content _ _ _ _ => true
  | .applied _ _ _ => false

end Visit

-- A change of the document: a page is copied in, a file takes the place of the tag that includes it, a tag gets its
-- fragment, or a node is copied into one.
inductive Operation where
  | imported (nodes : List Node)
  | included (target : NodeId) (nodes : List Node)
  | linked (fragments : Fragments) (tag : NodeId)
  | appended (fragments : Fragments) (fragment id : NodeId) (name : String) (advance : Bool)

def Operation.apply (doc : Document) : Operation → Document
  | .imported nodes => (doc.importPage nodes none).2
  | .included target nodes =>
    let (trees, next) := doc.importFresh nodes (doc.parent? target)
    next.splice target (trees.map Tree.id)
  | .linked fragments tag => (fragments.link doc tag).2.2
  | .appended fragments fragment id name advance => (fragments.append doc fragment id name advance).2.2

inductive Event where
  | visited (visit : Visit) (before : Session)
  -- The children of a tag have been compiled in a place, without an error.
  | finished (e : Element) (place : Place) (after : Session)
  | changed (operation : Operation) (before : Document)
  -- A case or a default joins the branches of its switch.
  | branched (switch : NodeId) (switches : Switches)
  | loaded (template : Template)

-- A part of the walk, and what happens in it when it begins with a session.
structure Logged (α : Type) where
  walk : Walk α
  events : Session → List Event

namespace Logged

variable {α β : Type}

-- Nothing happens behind a failure.
instance : Monad Logged where
  pure a := ⟨pure a, fun _ => []⟩
  bind first next :=
    ⟨first.walk >>= fun a => (next a).walk,
      fun s => first.events s ++ match first.walk.run.run s with
        | (.ok a, t) => (next a).events t
        | (.error _, _) => []⟩

def quiet (walk : Walk α) : Logged α := ⟨walk, fun _ => []⟩

def noted (event : Session → Event) (walk : Walk α) : Logged α := ⟨walk, fun s => [event s]⟩

def visiting (visit : Visit) (action : Logged α) : Logged α :=
  ⟨action.walk, fun s => .visited visit s :: action.events s⟩

def finishing (e : Element) (place : Place) (action : Logged α) : Logged α := do
  let a ← action
  noted (fun s => .finished e place s) (return ())
  return a

def ensuring (action : Logged α) (cleanup : Session → Session) : Logged α :=
  ⟨Walk.ensuring action.walk cleanup, action.events⟩

-- Control flow.

def conditional (e : Element) (body : Logged Code) : Logged Code := do
  let test ← quiet (e.require "test")
  let code ← body
  quiet do
    if ← e.isChildless then return .empty
    return Output.conditional (← e.condition test) code

def loop (e : Element) (body : Logged Code) : Logged Code := do
  let source ← quiet (e.require "from")
  let item ← quiet (e.require "item")
  let code ← body
  quiet do
    if ← e.isChildless then return .empty
    let source ← e.value source
    return Output.loop source (← Walk.binding e item) code

def switch (e : Element) (body : Logged Code) : Logged Code := do
  quiet (modify fun s => { s with switches := s.switches.opened e.id })
  ensuring (do
    let code ← body
    quiet do return if (← get).switches.chained e.id then code ++ Output.closeBlock else code)
    fun s => { s with switches := s.switches.closed e.id }

def case (e : Element) (inside : Option NodeId) (body : Logged Code) : Logged Code :=
  match inside with
  | none => quiet (e.fail .caseOutsideSwitch)
  | some switch => do
    let branch ← noted (fun s => .branched switch s.switches) do
      let branch := (← get).switches.case? switch
      modify fun s => { s with switches := s.switches.withCase switch }
      return branch
    match branch with
    | none => quiet (e.fail .caseAfterDefault)
    | some branch =>
      let test ← quiet (e.require "test")
      let code ← body
      quiet do
        let test ← e.condition test
        match branch with
        | .begins => return Output.firstCase test code
        | .chains => return Output.nextCase test code

def default (e : Element) (inside : Option NodeId) (body : Logged Code) : Logged Code :=
  match inside with
  | none => quiet (e.fail .defaultOutsideSwitch)
  | some switch => do
    let branch ← noted (fun s => .branched switch s.switches) do
      let branch := (← get).switches.default switch
      modify fun s => { s with switches := s.switches.withDefault switch }
      return branch
    let code ← body
    return match branch with
      | .alone => code
      | .last => Output.lastCase code

def control (kind : Control) (e : Element) (inside : Option NodeId) (body : Option NodeId → Logged Code) :
    Logged Code :=
  match kind with
  | .conditional => conditional e (body none)
  | .loop => loop e (body none)
  | .switch => switch e (body (some e.id))
  | .case => case e inside (body none)
  | .default => default e inside (body none)

-- The attributes of a tag.

mutual

def appliedTree (attrsOf : Nat) (inside : Option NodeId) : Tree → Logged Code
  | .node id ⟨identity, .tag tag, location⟩ children =>
    visiting (.applied attrsOf inside (.node id ⟨identity, .tag tag, location⟩ children)) <|
      match TagKind.ofName? tag.name with
      | some (.attr .applied) => quiet (Walk.appliedAttr attrsOf ⟨id, identity, tag, location⟩)
      | some (.control kind .applied) =>
        control kind ⟨id, identity, tag, location⟩ inside fun inner => appliedTrees attrsOf inner children
      | _ => return .empty
  | .node id ⟨identity, .leaf leaf, location⟩ children =>
    visiting (.applied attrsOf inside (.node id ⟨identity, .leaf leaf, location⟩ children)) (return .empty)

def appliedTrees (attrsOf : Nat) (inside : Option NodeId) : List Tree → Logged Code
  | [] => return .empty
  | tree :: rest => do
    let code ← appliedTree attrsOf inside tree
    return code ++ (← appliedTrees attrsOf inside rest)

end

def withFragment (id : NodeId) (action : Walk.Linked → Logged α) : Logged α := do
  let linked ← noted (fun s => .changed (.linked s.fragments id) s.document) (Walk.link id)
  ensuring (action linked) fun s => { s with fragments := s.fragments.unlink id }

def attrBlock (linked : Walk.Linked) (attrs : List Attr) (location : Location) : Logged Code := do
  let s ← quiet get
  let applied ← appliedTrees linked.attrsOf none (s.document.treesBelow linked.fragment)
  quiet do
    let own ← Walk.ownAttrs linked.attrsOf location attrs
    return Code.concat [Output.reset (Output.attrs linked.attrsOf), applied, own]

-- The content.

abbrev Compiler := Place → Nat → List Tree → Logged Code

structure Env where
  options : Options
  fault : Path → Fault
  reach : Path → Option (Template × Compiler)

-- The same without the chronicle.
def Env.plain (env : Env) : Stencil.Env where
  options := env.options
  fault := env.fault
  reach path := (env.reach path).map fun reached => (reached.1, fun place sink trees => (reached.2 place sink trees).walk)

def copyInto (fragment : NodeId) (e : Element) (advance : Bool) : Logged Unit :=
  noted (fun s => .changed (.appended s.fragments fragment e.id (TagKind.appliedName e.tag.name) advance) s.document)
    (Walk.copyInto fragment e advance)

def enterCopy (place : Place) (e : Element) : Logged Unit :=
  match place.owner with
  | some fragment => copyInto fragment e true
  | none => return

def leafCode (place : Place) (sink : Nat) (id : NodeId) (identity : Nat) (location : Location) (leaf : Leaf) :
    Logged Code :=
  match leaf with
  | .script attrs body => withFragment id fun linked => do
    let block ← attrBlock linked attrs location
    return block ++ Output.scriptRecord sink linked.attrsOf body
  | _ => quiet (Walk.leafCode place sink id identity location leaf)

def ownerAttribute (place : Place) (e : Element) : Logged Code := do
  let _ ← quiet (e.require "name")
  let _ ← quiet (e.require "value")
  match place.owner with
  | some fragment =>
    copyInto fragment e false
    return .empty
  | none => quiet (e.fail .attributeWithoutTag)

def template (e : Element) (body : Nat → Logged Code) : Logged Code := do
  let name ← quiet do
    let name ← e.require "name"
    if e.tag.selfClosing then e.fail .selfClosingTemplate
    return name
  let code ← body e.identity
  quiet do
    let target ← e.target name
    return Code.concat [Output.reset (Output.children e.identity), code,
      Output.assign target (Output.children e.identity)]

def including (env : Env) (place : Place) (sink : Nat) (e : Element) : Logged Code := do
  let source ← quiet (e.require "from")
  match source.fixed? with
  | none => quiet (e.fail .dynamicInclude)
  | some source =>
    let s ← quiet get
    let path := Walk.includePath s.file source
    if path ∈ s.file :: s.including then quiet (e.fail (.includeCycle path.text))
    else match env.reach path with
    | none => quiet (e.fail (.includeFailed path.text (env.fault path)))
    | some (template, compiler) =>
      noted (fun _ => .loaded template) (return ())
      noted (fun s => .changed (.included e.id template.nodes) s.document) <| set { s with
        document := Operation.apply s.document (.included e.id template.nodes),
        file := path,
        including := s.file :: s.including }
      ensuring (compiler place sink (s.document.importFresh template.nodes (s.document.parent? e.id)).1) fun after =>
        { after with file := s.file, including := s.including }

def ownChildren (e : Element) (fragment : NodeId) (body : Place → Nat → Logged Code) : Logged Code :=
  if e.tag.selfClosing then return .empty else body ⟨some fragment, none⟩ e.identity

def tagParts (e : Element) (body : Place → Nat → Logged Code) : Logged (Nat × Code × Code) :=
  withFragment e.id fun linked => do
    let children ← ownChildren e linked.fragment body
    let attrs ← attrBlock linked e.tag.attrs e.location
    return (linked.attrsOf, attrs, children)

def literal (options : Options) (sink : Nat) (e : Element) (body : Place → Nat → Logged Code) : Logged Code := do
  let (attrsOf, attrs, children) ← tagParts e body
  return if Walk.isSingle options e.tag then attrs ++ Output.tagRecord sink attrsOf e.tag.name none
    else Code.concat [attrs, Output.reset (Output.children e.identity), children,
      Output.tagRecord sink attrsOf e.tag.name (some e.identity)]

def component (options : Options) (sink : Nat) (e : Element) (body : Place → Nat → Logged Code) : Logged Code := do
  let (attrsOf, attrs, children) ← tagParts e body
  return if Walk.isSingle options e.tag then attrs ++ Output.callComponent e.identity sink attrsOf e.tag.name "[]"
    else Code.concat [attrs, Output.reset (Output.children e.identity), children,
      Output.callComponent e.identity sink attrsOf e.tag.name (Output.children e.identity)]

def contentControl (kind : Control) (place : Place) (sink : Nat) (e : Element) (body : Place → Nat → Logged Code) :
    Logged Code := do
  enterCopy place e
  control kind e place.inside fun inner => do
    let code ← body { place with inside := inner } sink
    quiet (Walk.leaveCopy place)
    return code

def kindCode (env : Env) (place : Place) (sink : Nat) (e : Element) (body : Place → Nat → Logged Code) :
    TagKind → Logged Code
  | .parameter => quiet (Walk.parameter e)
  | .assignment => quiet (Walk.assignment e)
  | .attr .content => ownerAttribute place e
  | .attr .applied => quiet (Walk.strayAttribute e)
  | .control kind .content => contentControl kind place sink e body
  | .control kind .applied => control kind e place.inside fun inner => body { place with inside := inner } sink
  | .importing => quiet (Walk.importing env.options e)
  | .template => template e (body .outermost)
  | .state => quiet (Walk.useState e)
  | .including => including env place sink e
  | .component => component env.options sink e body
  | .literal => literal env.options sink e body

def tagCode (env : Env) (place : Place) (sink : Nat) (e : Element) (body : Place → Nat → Logged Code) :
    Logged Code := do
  let s ← quiet get
  kindCode env place sink e body (TagKind.classify (s.registry.contains s.shared) e.tag.name)

mutual

def contentTree (env : Env) (place : Place) (sink : Nat) : Tree → Logged Code
  | .node id ⟨identity, .leaf leaf, location⟩ children =>
    visiting (.content env.plain place sink (.node id ⟨identity, .leaf leaf, location⟩ children)) <|
      leafCode place sink id identity location leaf
  | .node id ⟨identity, .tag tag, location⟩ children =>
    visiting (.content env.plain place sink (.node id ⟨identity, .tag tag, location⟩ children)) <|
      tagCode env place sink ⟨id, identity, tag, location⟩ fun place sink =>
        finishing ⟨id, identity, tag, location⟩ place (contentTrees env place sink children)

def contentTrees (env : Env) (place : Place) (sink : Nat) : List Tree → Logged Code
  | [] => return .empty
  | tree :: rest => do
    let code ← contentTree env place sink tree
    return code ++ (← contentTrees env place sink rest)

end

def nodes (options : Options) (fault : Path → Fault) : (left : Nat) → List (Path × Template) → Compiler
  | 0, _ => contentTrees ⟨options, fault, fun _ => none⟩
  | left + 1, templates => contentTrees ⟨options, fault, fun path =>
      (templates.lookup path).map fun template =>
        (template, nodes options fault left (templates.filter fun entry => entry.1 ≠ path))⟩

-- The chronicle does not touch the walk.

section Walks

@[simp] theorem walk_pure (a : α) : (pure a : Logged α).walk = pure a := rfl

@[simp] theorem walk_bind (first : Logged α) (next : α → Logged β) :
    (first >>= next).walk = first.walk >>= fun a => (next a).walk := rfl

@[simp] theorem walk_quiet (walk : Walk α) : (quiet walk).walk = walk := rfl

@[simp] theorem walk_noted (event : Session → Event) (walk : Walk α) : (noted event walk).walk = walk := rfl

@[simp] theorem walk_visiting (visit : Visit) (action : Logged α) : (visiting visit action).walk = action.walk := rfl

@[simp] theorem walk_finishing (e : Element) (place : Place) (action : Logged α) :
    (finishing e place action).walk = action.walk := by
  rw [finishing, walk_bind]
  exact bind_pure action.walk

@[simp] theorem walk_ensuring (action : Logged α) (cleanup : Session → Session) :
    (ensuring action cleanup).walk = Walk.ensuring action.walk cleanup := rfl

@[simp] theorem walk_conditional (e : Element) (body : Logged Code) :
    (conditional e body).walk = Walk.conditional e body.walk := rfl

@[simp] theorem walk_loop (e : Element) (body : Logged Code) : (loop e body).walk = Walk.loop e body.walk := rfl

@[simp] theorem walk_switch (e : Element) (body : Logged Code) : (switch e body).walk = Walk.switch e body.walk := rfl

@[simp] theorem walk_case (e : Element) (inside : Option NodeId) (body : Logged Code) :
    (case e inside body).walk = Walk.case e inside body.walk := by
  cases inside with
  | none => rfl
  | some switch =>
    simp only [case, Walk.case, walk_bind, walk_noted, bind_assoc, pure_bind]
    congr 1
    funext s
    congr 1
    funext _
    cases s.switches.case? switch <;> rfl

@[simp] theorem walk_default (e : Element) (inside : Option NodeId) (body : Logged Code) :
    (default e inside body).walk = Walk.default e inside body.walk := by
  cases inside with
  | none => rfl
  | some switch =>
    simp only [default, Walk.default, walk_bind, walk_noted, bind_assoc, pure_bind]
    congr 1
    funext s
    congr 1
    funext _
    congr 1
    funext code
    cases s.switches.default switch <;> rfl

@[simp] theorem walk_control (kind : Control) (e : Element) (inside : Option NodeId) (body : Option NodeId → Logged Code) :
    (control kind e inside body).walk = Walk.control kind e inside fun inner => (body inner).walk := by
  cases kind <;> simp [control, Walk.control]

mutual

theorem walk_appliedTree (attrsOf : Nat) : ∀ (inside : Option NodeId) (tree : Tree),
    (appliedTree attrsOf inside tree).walk = Walk.appliedTree attrsOf inside tree
  | inside, .node id ⟨identity, .tag tag, location⟩ children => by
    have below : (fun inner => (appliedTrees attrsOf inner children).walk) =
        fun inner => Walk.appliedTrees attrsOf inner children := by
      funext inner
      exact walk_appliedTrees attrsOf inner children
    rw [appliedTree, Walk.appliedTree, walk_visiting]
    cases TagKind.ofName? tag.name with
    | none => rfl
    | some meaning =>
      cases meaning with
      | attr flow => cases flow <;> rfl
      | control kind flow =>
        cases flow with
        | content => rfl
        | applied => simp only [walk_control, below]
      | _ => rfl
  | _, .node _ ⟨_, .leaf _, _⟩ _ => by
    rw [appliedTree, Walk.appliedTree]
    rfl

theorem walk_appliedTrees (attrsOf : Nat) : ∀ (inside : Option NodeId) (trees : List Tree),
    (appliedTrees attrsOf inside trees).walk = Walk.appliedTrees attrsOf inside trees
  | _, [] => rfl
  | inside, tree :: rest => by
    rw [appliedTrees, Walk.appliedTrees, walk_bind, walk_appliedTree attrsOf inside tree]
    simp only [walk_bind, walk_pure, walk_appliedTrees attrsOf inside rest]

end

@[simp] theorem walk_withFragment (id : NodeId) (action : Walk.Linked → Logged α) :
    (withFragment id action).walk = Walk.withFragment id fun linked => (action linked).walk := rfl

@[simp] theorem walk_attrBlock (linked : Walk.Linked) (attrs : List Attr) (location : Location) :
    (attrBlock linked attrs location).walk = Walk.attrBlock linked attrs location := by
  simp only [attrBlock, Walk.attrBlock, walk_bind, walk_quiet, walk_appliedTrees]

@[simp] theorem walk_leafCode (place : Place) (sink : Nat) (id : NodeId) (identity : Nat) (location : Location)
    (leaf : Leaf) :
    (leafCode place sink id identity location leaf).walk = Walk.leafCode place sink id identity location leaf := by
  cases leaf <;> simp [leafCode, Walk.leafCode]

@[simp] theorem walk_ownerAttribute (place : Place) (e : Element) :
    (ownerAttribute place e).walk = Walk.ownerAttribute place e := by
  obtain ⟨owner, inside⟩ := place
  cases owner <;> rfl

@[simp] theorem walk_template (e : Element) (body : Nat → Logged Code) :
    (template e body).walk = Walk.template e fun sink => (body sink).walk := by
  simp only [template, Walk.template, walk_bind, walk_quiet, bind_assoc]
  congr 1
  funext name
  cases e.tag.selfClosing <;> rfl

@[simp] theorem walk_including (env : Env) (place : Place) (sink : Nat) (e : Element) :
    (including env place sink e).walk = Walk.including env.plain place sink e := by
  simp only [including, Walk.including, walk_bind, walk_quiet]
  congr 1
  funext source
  cases source.fixed? with
  | none => rfl
  | some source =>
    simp only [walk_bind, walk_quiet]
    congr 1
    funext s
    by_cases cyclic : Walk.includePath s.file source ∈ s.file :: s.including
    · rw [if_pos cyclic, if_pos cyclic]
      rfl
    · rw [if_neg cyclic, if_neg cyclic]
      simp only [Env.plain]
      cases env.reach (Walk.includePath s.file source) <;> rfl

@[simp] theorem walk_tagParts (e : Element) (body : Place → Nat → Logged Code) :
    (tagParts e body).walk = Walk.tagParts e fun place sink => (body place sink).walk := by
  simp only [tagParts, Walk.tagParts, ownChildren, walk_withFragment, walk_bind, walk_pure, walk_attrBlock]
  cases e.tag.selfClosing <;> rfl

@[simp] theorem walk_literal (options : Options) (sink : Nat) (e : Element) (body : Place → Nat → Logged Code) :
    (literal options sink e body).walk = Walk.literal options sink e fun place sink => (body place sink).walk := by
  simp only [literal, Walk.literal, walk_bind, walk_tagParts]
  cases Walk.isSingle options e.tag <;> rfl

@[simp] theorem walk_component (options : Options) (sink : Nat) (e : Element) (body : Place → Nat → Logged Code) :
    (component options sink e body).walk = Walk.component options sink e fun place sink => (body place sink).walk := by
  simp only [component, Walk.component, walk_bind, walk_tagParts]
  cases Walk.isSingle options e.tag <;> rfl

@[simp] theorem walk_contentControl (kind : Control) (place : Place) (sink : Nat) (e : Element)
    (body : Place → Nat → Logged Code) : (contentControl kind place sink e body).walk =
      Walk.contentControl kind place sink e fun place sink => (body place sink).walk := by
  obtain ⟨owner, inside⟩ := place
  cases owner <;> simp [contentControl, Walk.contentControl, enterCopy, Walk.enterCopy, copyInto]

@[simp] theorem walk_tagCode (env : Env) (place : Place) (sink : Nat) (e : Element) (body : Place → Nat → Logged Code) :
    (tagCode env place sink e body).walk =
      Walk.tagCode env.plain place sink e fun place sink => (body place sink).walk := by
  simp only [tagCode, Walk.tagCode, walk_bind, walk_quiet]
  congr 1
  funext s
  cases TagKind.classify (s.registry.contains s.shared) e.tag.name with
  | attr flow => cases flow <;> simp [kindCode]
  | control kind flow => cases flow <;> simp [kindCode]
  | _ => simp [kindCode, Env.plain]

mutual

theorem walk_contentTree (env : Env) : ∀ (place : Place) (sink : Nat) (tree : Tree),
    (contentTree env place sink tree).walk = Walk.contentTree env.plain place sink tree
  | place, sink, .node id ⟨identity, .leaf leaf, location⟩ children => by
    rw [contentTree, Walk.contentTree, walk_visiting, walk_leafCode]
  | place, sink, .node id ⟨identity, .tag tag, location⟩ children => by
    have below : (fun place sink =>
        (finishing ⟨id, identity, tag, location⟩ place (contentTrees env place sink children)).walk) =
        fun place sink => Walk.contentTrees env.plain place sink children := by
      funext place sink
      rw [walk_finishing, walk_contentTrees env place sink children]
    rw [contentTree, Walk.contentTree, walk_visiting, walk_tagCode, below]

theorem walk_contentTrees (env : Env) : ∀ (place : Place) (sink : Nat) (trees : List Tree),
    (contentTrees env place sink trees).walk = Walk.contentTrees env.plain place sink trees
  | _, _, [] => rfl
  | place, sink, tree :: rest => by
    rw [contentTrees, Walk.contentTrees, walk_bind, walk_contentTree env place sink tree]
    simp only [walk_bind, walk_pure, walk_contentTrees env place sink rest]

end

theorem walk_nodes (options : Options) (fault : Path → Fault) : ∀ (left : Nat) (templates : List (Path × Template))
    (place : Place) (sink : Nat) (trees : List Tree),
    (nodes options fault left templates place sink trees).walk = Walk.nodes options fault left templates place sink trees
  | 0, _, place, sink, trees => walk_contentTrees _ place sink trees
  | left + 1, templates, place, sink, trees => by
    rw [nodes, walk_contentTrees, Walk.nodes]
    simp only [Env.plain, Option.map_map, Function.comp_def, walk_nodes options fault left]

end Walks

end Logged

namespace Template

variable (template : Template) (options : Options) (loader : Loader) (shared : Names)

-- The session when a page was copied in.
def opened : Session :=
  { Session.start options shared with document := Operation.apply .empty (.imported template.nodes) }

-- The walk over the page, which begins with that session.
def logged : Logged Code :=
  Logged.nodes options loader.fault loader.templates.length loader.templates .outermost Output.rootSink
    (Tree.placeAll 0 0 template.nodes)

theorem walk_logged : (template.logged options loader).walk.run.run (template.opened options shared) =
    template.walk options loader shared := by
  rw [logged, Logged.walk_nodes]
  rfl

-- All that happens when a template is compiled, from the shared names that are known before.
def chronicle : List Event :=
  .changed (.imported template.nodes) .empty ::
    (template.logged options loader).events (template.opened options shared)

end Template

end Stencil
