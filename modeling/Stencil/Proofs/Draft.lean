import Stencil.Proofs.Line
import Stencil.Proofs.Outline

-- A compiler without a document. It follows the outline of a template and writes lines. What the walk looks
-- up in its document is here at hand: the nodes below a tag, and what they leave in its fragment.

namespace Stencil

-- What a draft carries from node to node.
structure Ledger where
  -- What the switch around the node has had so far, if the node is a direct child of one.
  branch : Option Switch
  nextFragment : Nat
  scope : Scope
  registry : Registry
  shared : Names

abbrev Draft := ExceptT CompileError (StateM Ledger)

structure Header where
  identity : Nat
  tag : Tag
  location : Location

namespace Draft

variable {α : Type}

theorem get_bind (draft : Draft α) : (get >>= fun _ => draft) = draft := rfl

def fail (file : Path) (cause : Cause) (location : Location) : Draft α := throw ⟨cause, file.text, location⟩

def expr (file : Path) (context : Expr.Context) (e : Expr) (location : Location) : Draft Code := do
  modify fun l => { l with scope := l.scope.after context e }
  match e.emit? context with
  | some code => return code
  | none => fail file .unsupportedExpression location

def part (file : Path) (context : Expr.Context) (p : Part) (location : Location) : Draft Operand :=
  match p with
  | .literal text => return .text text
  | .expression e => do return .computed (← expr file context e location)

def target (file : Path) (context : Expr.Context) (p : Part) (location : Location) : Draft Code :=
  match p with
  | .literal text => expr file context (.var text []) location
  | .expression e => expr file context e location

def require (file : Path) (h : Header) (name : String) : Draft Part :=
  match Attr.param? h.tag.attrs name with
  | some part => return part
  | none => fail file (.missingAttribute h.tag.name name) h.location

def value (file : Path) (h : Header) (p : Part) : Draft Operand := part file .value p h.location

def condition (file : Path) (h : Header) (p : Part) : Draft Operand := part file .condition p h.location

def bound (file : Path) (h : Header) (p : Part) : Draft Code := target file (.target true) p h.location

-- Runs a draft inside another switch, or outside of any.
def within (branch : Option Switch) (action : Draft α) : Draft α := do
  let outer := (← get).branch
  modify fun l => { l with branch := branch }
  let result ← action
  modify fun l => { l with branch := outer }
  return result

def conditional (file : Path) (h : Header) (isChildless : Bool) (body : Draft (List Line)) : Draft (List Line) := do
  let test ← require file h "test"
  let lines ← within none body
  if isChildless then return []
  return .openIf (← condition file h test) :: lines ++ [.close]

def binding (file : Path) (h : Header) (item : Part) : Draft Binding := do
  match Attr.param? h.tag.attrs "key" with
  | some key =>
    let key ← bound file h key
    return ⟨some key, ← bound file h item⟩
  | none => return ⟨none, ← bound file h item⟩

def loop (file : Path) (h : Header) (isChildless : Bool) (body : Draft (List Line)) : Draft (List Line) := do
  let source ← require file h "from"
  let item ← require file h "item"
  let lines ← within none body
  if isChildless then return []
  let source ← value file h source
  return .openLoop source (← binding file h item) :: lines ++ [.close]

def chained : Draft Bool := return ((← get).branch.map Switch.hasCase).getD false

def switch (body : Draft (List Line)) : Draft (List Line) :=
  within (some Switches.fresh) do
    let lines ← body
    return if ← chained then lines ++ [.close] else lines

def case (file : Path) (h : Header) (body : Draft (List Line)) : Draft (List Line) := do
  match (← get).branch with
  | none => fail file .caseOutsideSwitch h.location
  | some state =>
    if state.hasDefault then fail file .caseAfterDefault h.location
    else
      modify fun l => { l with branch := some { state with hasCase := true } }
      let test ← require file h "test"
      let lines ← within none body
      let test ← condition file h test
      return (if state.hasCase then .elseIf test else .openIf test) :: lines

def default (file : Path) (h : Header) (body : Draft (List Line)) : Draft (List Line) := do
  match (← get).branch with
  | none => fail file .defaultOutsideSwitch h.location
  | some state =>
    modify fun l => { l with branch := some { state with hasDefault := true } }
    let lines ← within none body
    return if state.hasCase then .otherwise :: lines else lines

def control (kind : Control) (file : Path) (h : Header) (isChildless : Bool) (body : Draft (List Line)) :
    Draft (List Line) :=
  match kind with
  | .conditional => conditional file h isChildless body
  | .loop => loop file h isChildless body
  | .switch => switch body
  | .case => case file h body
  | .default => default file h body

def appliedAttr (file : Path) (attrsOf : Nat) (h : Header) : Draft (List Line) := do
  let name ← require file h "name"
  let value ← require file h "value"
  let name ← Draft.value file h name
  return [.assignAttr attrsOf name (← Draft.value file h value)]

mutual

def applied (file : Path) (attrsOf : Nat) : Sketch → Draft (List Line)
  | .node ⟨identity, .tag tag, location⟩ children =>
    match TagKind.ofName? tag.name with
    | some (.attr .applied) => appliedAttr file attrsOf ⟨identity, tag, location⟩
    | some (.control kind .applied) =>
      control kind file ⟨identity, tag, location⟩ children.isEmpty (allApplied file attrsOf children)
    | _ => return []
  | .node ⟨_, .leaf _, _⟩ _ => return []

def allApplied (file : Path) (attrsOf : Nat) : List Sketch → Draft (List Line)
  | [] => return []
  | first :: rest => do
    let lines ← applied file attrsOf first
    return lines ++ (← allApplied file attrsOf rest)

end

def ownAttr (file : Path) (attrsOf : Nat) (location : Location) (attr : Attr) : Draft (List Line) := do
  let name ← part file .value attr.name location
  match attr.value with
  | some value => return [.assignAttr attrsOf name (← part file .value value location)]
  | none => return [.assignAttr attrsOf name .flag]

def ownAttrs (file : Path) (attrsOf : Nat) (location : Location) : List Attr → Draft (List Line)
  | [] => return []
  | attr :: rest => do
    let lines ← ownAttr file attrsOf location attr
    return lines ++ (← ownAttrs file attrsOf location rest)

theorem allApplied_append {file : Path} {attrsOf : Nat} (front back : List Sketch) :
    allApplied file attrsOf (front ++ back) = (do
      let lines ← allApplied file attrsOf front
      return lines ++ (← allApplied file attrsOf back)) := by
  induction front with
  | nil => simp [allApplied]
  | cons first rest ih => simp only [List.cons_append, allApplied, ih, bind_assoc, pure_bind, List.append_assoc]

theorem allApplied_singleton {file : Path} {attrsOf : Nat} (sketch : Sketch) :
    allApplied file attrsOf [sketch] = applied file attrsOf sketch := by
  simp [allApplied]

def fragment : Draft Nat := do
  let l ← get
  set { l with nextFragment := l.nextFragment + 1 }
  return l.nextFragment

def attrBlock (file : Path) (attrsOf : Nat) (copies : List Sketch) (attrs : List Attr) (location : Location) :
    Draft (List Line) := do
  let applied ← within none (allApplied file attrsOf copies)
  let own ← ownAttrs file attrsOf location attrs
  return .resetAttrs attrsOf :: applied ++ own

def leaf (file : Path) (sink identity : Nat) (location : Location) : Leaf → Draft (List Line)
  | .text value => do
    if (← get).branch.isSome then
      if Text.isAllBlank value then return [] else fail file .textInsideSwitch location
    else return [.record sink "text" value]
  | .comment value => return [.record sink "comment" value]
  | .string value => return [.record sink "text" value]
  | .slot e => do return [.expressionBlock identity sink (← expr file .value e location)]
  | .block e => do return [.expressionBlock identity sink (← expr file .value e location)]
  | .script attrs body => do
    let attrsOf ← fragment
    let block ← attrBlock file attrsOf [] attrs location
    return block ++ [.scriptRecord sink attrsOf body]

def parameter (file : Path) (h : Header) : Draft (List Line) := do
  let name ← require file h "name"
  let value ← require file h "value"
  let target ← Draft.target file .dataTarget name h.location
  return [.parameter target (← Draft.value file h value)]

def assignment (file : Path) (h : Header) : Draft (List Line) := do
  let name ← require file h "name"
  let value ← require file h "value"
  let target ← bound file h name
  return [.assign target (← Draft.value file h value)]

-- An attribute is only written with the fragment that it is left in.
def ownerAttribute (file : Path) (isOwned : Bool) (h : Header) : Draft (List Line) := do
  let _ ← require file h "name"
  let _ ← require file h "value"
  if isOwned then return [] else fail file .attributeWithoutTag h.location

def strayAttribute (file : Path) (h : Header) : Draft (List Line) := do
  let _ ← require file h "name"
  let _ ← require file h "value"
  fail file .appliedAttributeOutside h.location

def importing (file : Path) (options : Options) (h : Header) : Draft (List Line) := do
  let name ← require file h "name"
  let source ← require file h "from"
  match name.fixed?.filter fun name => name.toList.contains '-' with
  | none => fail file .invalidComponentName h.location
  | some name =>
    modify fun l =>
      let (registry, shared) := l.registry.register l.shared name
      { l with registry := registry, shared := shared }
    return [.importComponent name (← value file h source) options.componentExtension]

def template (file : Path) (h : Header) (body : Draft (List Line)) : Draft (List Line) := do
  let name ← require file h "name"
  if h.tag.selfClosing then fail file .selfClosingTemplate h.location
  let lines ← within none body
  let target ← bound file h name
  return .resetChildren h.identity :: lines ++ [.keepChildren target h.identity]

def useState (file : Path) (h : Header) : Draft (List Line) := do
  let name ← require file h "name"
  if !h.tag.selfClosing then fail file .stateTagNotSingle h.location
  match Walk.stateName? name with
  | none => fail file .stateNameNotBare h.location
  | some stored =>
    let target ← bound file h name
    match Attr.param? h.tag.attrs "value" with
    | some value => return [.useState target stored (some (← Draft.value file h value))]
    | none => return [.useState target stored none]

-- The lines of a tag's attributes and of its children, with the number of the variable for its attributes. copies
-- is what the children leave in the fragment.
def tagParts (file : Path) (h : Header) (copies : List Sketch) (body : Draft (List Line)) :
    Draft (Nat × List Line × List Line) := do
  let attrsOf ← fragment
  let children ← if h.tag.selfClosing then pure [] else within none body
  let attrs ← attrBlock file attrsOf (if h.tag.selfClosing then [] else copies) h.tag.attrs h.location
  return (attrsOf, attrs, children)

def literal (file : Path) (options : Options) (sink : Nat) (h : Header) (copies : List Sketch)
    (body : Draft (List Line)) : Draft (List Line) := do
  let (attrsOf, attrs, children) ← tagParts file h copies body
  if Walk.isSingle options h.tag then return attrs ++ [.tagRecord sink attrsOf h.tag.name none]
  return attrs ++ .resetChildren h.identity :: children ++ [.tagRecord sink attrsOf h.tag.name (some h.identity)]

def component (file : Path) (options : Options) (sink : Nat) (h : Header) (copies : List Sketch)
    (body : Draft (List Line)) : Draft (List Line) := do
  let (attrsOf, attrs, children) ← tagParts file h copies body
  if Walk.isSingle options h.tag then return attrs ++ [.callComponent h.identity sink attrsOf h.tag.name none]
  return attrs ++ .resetChildren h.identity :: children ++
    [.callComponent h.identity sink attrsOf h.tag.name (some h.identity)]

-- A tag with the nodes below it. body drafts them, for an accumulator, with or without a tag that takes their
-- attributes.
def tag (options : Options) (fault : Path → Fault) (stack : Stack) (isOwned : Bool) (sink : Nat) (h : Header)
    (below : List Sketch) (body : Bool → Nat → Draft (List Line)) : Draft (List Line) := do
  let l ← get
  match TagKind.classify (l.registry.contains l.shared) h.tag.name with
  | .parameter => parameter stack.file h
  | .assignment => assignment stack.file h
  | .attr .content => ownerAttribute stack.file isOwned h
  | .attr .applied => strayAttribute stack.file h
  | .control kind _ => control kind stack.file h below.isEmpty (body isOwned sink)
  | .importing => importing stack.file options h
  | .template => template stack.file h (body false h.identity)
  | .state => useState stack.file h
  | .including => fail stack.file (stack.refusal fault h.tag) h.location
  | .component => component stack.file options sink h (Sketch.copies below) (body true h.identity)
  | .literal => literal stack.file options sink h (Sketch.copies below) (body true h.identity)

mutual

def outline (options : Options) (fault : Path → Fault) (stack : Stack) (isOwned : Bool) (sink : Nat) :
    Outline → Draft (List Line)
  | .node ⟨identity, .leaf leaf, location⟩ _ => Draft.leaf stack.file sink identity location leaf
  | .node ⟨identity, .tag tag, location⟩ children =>
    Draft.tag options fault stack isOwned sink ⟨identity, tag, location⟩ (Outline.flatten children)
      fun isOwned sink => outlines options fault stack isOwned sink children
  | .file path nodes => outlines options fault (stack.push path) isOwned sink nodes

def outlines (options : Options) (fault : Path → Fault) (stack : Stack) (isOwned : Bool) (sink : Nat) :
    List Outline → Draft (List Line)
  | [] => return []
  | first :: rest => do
    let lines ← outline options fault stack isOwned sink first
    return lines ++ (← outlines options fault stack isOwned sink rest)

end

end Draft

namespace Ledger

def start (options : Options) (shared : Names) : Ledger where
  branch := none
  nextFragment := 1
  scope := .empty
  registry := .create options.registryScope
  shared := shared

end Ledger

namespace Template

-- The lines of a template, or why it has none, and the ledger at the end.
def draft (template : Template) (options : Options) (loader : Loader) (shared : Names) :
    Except CompileError (List Line) × Ledger :=
  (Draft.outlines options loader.fault ⟨(Path.ofText options.filePath).normalize, []⟩ false Output.rootSink
    (template.outlines options loader)).run.run (.start options shared)

end Template

end Stencil
