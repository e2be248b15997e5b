import Stencil.Walk.Control

-- The attributes of a tag: first those that its fragment holds, under the control flow that leads to them,
-- then those written on the tag itself, which win.

namespace Stencil.Walk

-- An attribute that stands in a fragment.
def appliedAttr (attrsOf : Nat) (e : Element) : Walk Code := do
  let name ← e.require "name"
  let value ← e.require "value"
  let name ← e.value name
  return Output.assignAttr attrsOf name (← e.value value)

mutual

-- The code of a fragment's node. A fragment holds nothing but applied forms. Its cursor stays where it is, since nothing
-- is copied into a fragment that is being read, and the fragment is forgotten right after.
def appliedTree (attrsOf : Nat) (inside : Option NodeId) : Tree → Walk Code
  | .node id ⟨identity, .tag tag, location⟩ children =>
    match TagKind.ofName? tag.name with
    | some (.attr .applied) => appliedAttr attrsOf ⟨id, identity, tag, location⟩
    | some (.control kind .applied) =>
      control kind ⟨id, identity, tag, location⟩ inside fun inner => appliedTrees attrsOf inner children
    | _ => return .empty
  | .node _ ⟨_, .leaf _, _⟩ _ => return .empty

def appliedTrees (attrsOf : Nat) (inside : Option NodeId) : List Tree → Walk Code
  | [] => return .empty
  | tree :: rest => do
    let code ← appliedTree attrsOf inside tree
    return code ++ (← appliedTrees attrsOf inside rest)

end

-- An attribute written on the tag itself; a flag is false.
def ownAttr (attrsOf : Nat) (location : Location) (attr : Attr) : Walk Code := do
  let name ← part .value attr.name location
  match attr.value with
  | some value => return Output.assignAttr attrsOf name (← part .value value location)
  | none => return Output.assignAttr attrsOf name "false"

def ownAttrs (attrsOf : Nat) (location : Location) : List Attr → Walk Code
  | [] => return .empty
  | attr :: rest => do
    let code ← ownAttr attrsOf location attr
    return code ++ (← ownAttrs attrsOf location rest)

-- The fragment of a node, and the number of the variable that holds its attributes.
structure Linked where
  fragment : NodeId
  attrsOf : Nat

def link (id : NodeId) : Walk Linked := do
  let s ← get
  let (fragment, fragments, document) := s.fragments.link s.document id
  set { s with fragments := fragments, document := document }
  return ⟨fragment, ((document.cell? fragment).map fun cell => cell.item.identity).getD 0⟩

-- Runs an action while a node has a fragment.
def withFragment {α : Type} (id : NodeId) (action : Linked → Walk α) : Walk α := do
  let linked ← link id
  ensuring (action linked) fun s => { s with fragments := s.fragments.unlink id }

def attrBlock (linked : Linked) (attrs : List Attr) (location : Location) : Walk Code := do
  let trees := (← get).document.treesBelow linked.fragment
  let applied ← appliedTrees linked.attrsOf none trees
  let own ← ownAttrs linked.attrsOf location attrs
  return Code.concat [Output.reset (Output.attrs linked.attrsOf), applied, own]

end Stencil.Walk
