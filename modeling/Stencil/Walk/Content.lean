import Stencil.Walk.Applied

-- The walk over the content of a template.

namespace Stencil

namespace Text

-- Blank characters: those with the Unicode property `White_Space`.
def isBlank (c : Char) : Bool :=
  let n := c.toNat
  (0x09 ≤ n && n ≤ 0x0D) || n = 0x20 || n = 0x85 || n = 0xA0 || n = 0x1680 ||
    (0x2000 ≤ n && n ≤ 0x200A) || n = 0x2028 || n = 0x2029 || n = 0x202F || n = 0x205F || n = 0x3000

def isAllBlank (text : String) : Bool := text.toList.all isBlank

end Text

-- Where a node stands: the fragment of the nearest tag above that is no control flow, if that tag takes
-- attributes, and the switch that the node is a direct child of.
structure Place where
  owner : Option NodeId
  inside : Option NodeId

namespace Place

def outermost : Place := ⟨none, none⟩

end Place

-- Compiles nodes in a place, for an accumulator.
abbrev Compiler := Place → Nat → List Tree → Walk Code

-- What the walk knows beside its session. A path that can be included leads to a template and to the
-- compiler for its nodes.
structure Env where
  options : Options
  fault : Path → Fault
  reach : Path → Option (Template × Compiler)

namespace Walk

-- Whether a tag is written without a list of children.
def isSingle (options : Options) (tag : Tag) : Bool :=
  tag.selfClosing || tag.name.toList.map Char.toLower = "!doctype".toList || options.singleTags.contains tag.name

-- Copies a node into the fragment of its owner; `advance` makes the copy hold what comes next.
def copyInto (fragment : NodeId) (e : Element) (advance : Bool) : Walk Unit :=
  modify fun s =>
    let (_, fragments, document) :=
      s.fragments.append s.document fragment e.id (TagKind.appliedName e.tag.name) advance
    { s with fragments := fragments, document := document }

-- Control flow of the content is copied into the owner's fragment, and its children into the copy.
def enterCopy (place : Place) (e : Element) : Walk Unit :=
  match place.owner with
  | some fragment => copyInto fragment e true
  | none => return

def leaveCopy (place : Place) : Walk Unit :=
  match place.owner with
  | some fragment => modify fun s => { s with fragments := s.fragments.pop s.document fragment }
  | none => return

def leafCode (place : Place) (sink : Nat) (id : NodeId) (identity : Nat) (location : Location) : Leaf → Walk Code
  | .text value =>
    if place.inside.isSome then
      if Text.isAllBlank value then return .empty else fail .textInsideSwitch location
    else return Output.record sink "text" value
  | .comment value => return Output.record sink "comment" value
  | .string value => return Output.record sink "text" value
  | .slot e => return Output.expressionBlock identity sink (← expr .value e location)
  | .block e => return Output.expressionBlock identity sink (← expr .value e location)
  | .script attrs body =>
    withFragment id fun linked => do
      let block ← attrBlock linked attrs location
      return block ++ Output.scriptRecord sink linked.attrsOf body

def parameter (e : Element) : Walk Code := do
  let name ← e.require "name"
  let value ← e.require "value"
  let target ← Walk.target .dataTarget name e.location
  return Output.parameter target (← e.value value)

def assignment (e : Element) : Walk Code := do
  let name ← e.require "name"
  let value ← e.require "value"
  let target ← e.target name
  return Output.assign target (← e.value value)

-- An attribute for the owner of the place.
def ownerAttribute (place : Place) (e : Element) : Walk Code := do
  let _ ← e.require "name"
  let _ ← e.require "value"
  match place.owner with
  | some fragment =>
    copyInto fragment e false
    return .empty
  | none => e.fail .attributeWithoutTag

-- The applied form of an attribute has no meaning outside a fragment.
def strayAttribute (e : Element) : Walk Code := do
  let _ ← e.require "name"
  let _ ← e.require "value"
  e.fail .appliedAttributeOutside

def importing (options : Options) (e : Element) : Walk Code := do
  let name ← e.require "name"
  let source ← e.require "from"
  match name.fixed?.filter fun name => name.toList.contains '-' with
  | none => e.fail .invalidComponentName
  | some name =>
    modify fun s =>
      let (registry, shared) := s.registry.register s.shared name
      { s with registry := registry, shared := shared }
    return Output.importComponent name (← e.value source) options.componentExtension

def template (e : Element) (body : Nat → Walk Code) : Walk Code := do
  let name ← e.require "name"
  if e.tag.selfClosing then e.fail .selfClosingTemplate
  let code ← body e.identity
  let target ← e.target name
  return Code.concat [Output.reset (Output.children e.identity), code,
    Output.assign target (Output.children e.identity)]

-- The name of a state variable must be a bare variable.
def stateName? : Part → Option String
  | .literal _ => none
  | .expression e => e.bare?

def useState (e : Element) : Walk Code := do
  let name ← e.require "name"
  if !e.tag.selfClosing then e.fail .stateTagNotSingle
  match stateName? name with
  | none => e.fail .stateNameNotBare
  | some stored =>
    let target ← e.target name
    match e.param? "value" with
    | some value => return Output.useState target stored (← e.value value)
    | none => return Output.useState target stored "null"

-- The path that an include leads to from the file being compiled.
def includePath (file : Path) (source : String) : Path :=
  ((file.parent?.getD .empty).join (.ofText source)).normalize

-- The nodes of the included file take the place of the tag, and are compiled as if they stood there.
def including (env : Env) (place : Place) (sink : Nat) (e : Element) : Walk Code := do
  let source ← e.require "from"
  match source.fixed? with
  | none => e.fail .dynamicInclude
  | some source =>
    let s ← get
    let path := includePath s.file source
    if path ∈ s.file :: s.including then e.fail (.includeCycle path.text)
    match env.reach path with
    | none => e.fail (.includeFailed path.text (env.fault path))
    | some (template, compiler) =>
      let (trees, document) := s.document.importFresh template.nodes (s.document.parent? e.id)
      set { s with
        document := document.splice e.id (trees.map Tree.id),
        file := path,
        including := s.file :: s.including }
      ensuring (compiler place sink trees) fun after =>
        { after with file := s.file, including := s.including }

-- The attribute block and the children of a tag that has both. Children come first, because they fill
-- the fragment; those of a self-closing tag are left aside.
def tagParts (e : Element) (body : Place → Nat → Walk Code) : Walk (Nat × Code × Code) :=
  withFragment e.id fun linked => do
    let children ← if e.tag.selfClosing then pure .empty else body ⟨some linked.fragment, none⟩ e.identity
    let attrs ← attrBlock linked e.tag.attrs e.location
    return (linked.attrsOf, attrs, children)

def literal (options : Options) (sink : Nat) (e : Element) (body : Place → Nat → Walk Code) : Walk Code := do
  let (attrsOf, attrs, children) ← tagParts e body
  if isSingle options e.tag then
    return attrs ++ Output.tagRecord sink attrsOf e.tag.name none
  return Code.concat [attrs, Output.reset (Output.children e.identity), children,
    Output.tagRecord sink attrsOf e.tag.name (some e.identity)]

def component (options : Options) (sink : Nat) (e : Element) (body : Place → Nat → Walk Code) : Walk Code := do
  let (attrsOf, attrs, children) ← tagParts e body
  if isSingle options e.tag then
    return attrs ++ Output.callComponent e.identity sink attrsOf e.tag.name "[]"
  return Code.concat [attrs, Output.reset (Output.children e.identity), children,
    Output.callComponent e.identity sink attrsOf e.tag.name (Output.children e.identity)]

-- Control flow in the content. Its children are copied under its copy, which is left at their end.
def contentControl (kind : Control) (place : Place) (sink : Nat) (e : Element)
    (body : Place → Nat → Walk Code) : Walk Code := do
  enterCopy place e
  control kind e place.inside fun inner => do
    let code ← body { place with inside := inner } sink
    leaveCopy place
    return code

def tagCode (env : Env) (place : Place) (sink : Nat) (e : Element) (body : Place → Nat → Walk Code) : Walk Code := do
  let s ← get
  match TagKind.classify (s.registry.contains s.shared) e.tag.name with
  | .parameter => parameter e
  | .assignment => assignment e
  | .attr .content => ownerAttribute place e
  | .attr .applied => strayAttribute e
  | .control kind .content => contentControl kind place sink e body
  | .control kind .applied => control kind e place.inside fun inner => body { place with inside := inner } sink
  | .importing => importing env.options e
  | .template => template e (body .outermost)
  | .state => useState e
  | .including => including env place sink e
  | .component => component env.options sink e body
  | .literal => literal env.options sink e body

mutual

def contentTree (env : Env) (place : Place) (sink : Nat) : Tree → Walk Code
  | .node id ⟨identity, .leaf leaf, location⟩ _ => leafCode place sink id identity location leaf
  | .node id ⟨identity, .tag tag, location⟩ children =>
    tagCode env place sink ⟨id, identity, tag, location⟩ fun place sink => contentTrees env place sink children

def contentTrees (env : Env) (place : Place) (sink : Nat) : List Tree → Walk Code
  | [] => return .empty
  | tree :: rest => do
    let code ← contentTree env place sink tree
    return code ++ (← contentTrees env place sink rest)

end

end Walk

end Stencil
