import Stencil.Template.Basic

-- The document of a compilation: all nodes in one array, linked by their positions. Templates are copied
-- in, included files take the place of the tag that includes them, and detached tags are made for fragments.

namespace Stencil

abbrev NodeId := Nat

-- Finite tables with nodes as keys. An entry keeps its position when its value changes.
abbrev Table (α : Type) := List (Nat × α)

namespace Table

variable {α : Type}

def get? (table : Table α) (key : Nat) : Option α := List.lookup key table

def insert (key : Nat) (value : α) : Table α → Table α
  | [] => [(key, value)]
  | entry :: rest => if entry.1 = key then (key, value) :: rest else entry :: insert key value rest

def erase (table : Table α) (key : Nat) : Table α := table.filter fun entry => entry.1 ≠ key

def contains (table : Table α) (key : Nat) : Bool := table.any fun entry => entry.1 = key

end Table

inductive Content where
  | tag (tag : Tag)
  | leaf (leaf : Leaf)

-- A node without its surroundings. Its identity names the variables of the generated code.
structure Item where
  identity : Nat
  content : Content
  location : Location

-- A node of the document with its links.
structure Cell where
  item : Item
  parent : Option NodeId
  children : List NodeId

-- The nodes of a subtree with their positions in the document.
inductive Tree where
  | node (id : NodeId) (item : Item) (children : List Tree)

structure Document where
  cells : Array Cell
  -- The largest identity that was copied in.
  maxIdentity : Nat

-- Identities have 32 bits; beyond the largest they stay there.
def identityLimit : Nat := Nat.pow 2 32 - 1

def shifted (shift : Nat) (identity : UInt32) : Nat := min (identity.toNat + shift) identityLimit

mutual

def Node.size : Node → Nat
  | .tag _ _ children _ => 1 + Node.totalSize children
  | .leaf _ _ _ => 1

def Node.totalSize : List Node → Nat
  | [] => 0
  | node :: rest => Node.size node + Node.totalSize rest

end

namespace Tree

def id : Tree → NodeId
  | .node id _ _ => id

mutual

-- Numbers the nodes of a template from `start`, each before its children.
def place (shift : Nat) (start : NodeId) : Node → Tree
  | .tag identity tag children location =>
    .node start ⟨shifted shift identity, .tag tag, location⟩ (placeAll shift (start + 1) children)
  | .leaf identity leaf location => .node start ⟨shifted shift identity, .leaf leaf, location⟩ []

def placeAll (shift : Nat) (start : NodeId) : List Node → List Tree
  | [] => []
  | first :: rest => place shift start first :: placeAll shift (start + first.size) rest

end

mutual

-- The cells of a subtree, each before those of its children.
def cells (parent : Option NodeId) : Tree → List Cell
  | .node id item children => ⟨item, parent, children.map Tree.id⟩ :: allCells (some id) children

def allCells (parent : Option NodeId) : List Tree → List Cell
  | [] => []
  | tree :: rest => cells parent tree ++ allCells parent rest

end

end Tree

namespace Document

def empty : Document := ⟨#[], 0⟩

def size (doc : Document) : Nat := doc.cells.size

def cell? (doc : Document) (id : NodeId) : Option Cell := doc.cells[id]?

def parent? (doc : Document) (id : NodeId) : Option NodeId := (doc.cell? id).bind Cell.parent

def children (doc : Document) (id : NodeId) : List NodeId :=
  match doc.cell? id with
  | some cell => cell.children
  | none => []

def tagName? (doc : Document) (id : NodeId) : Option String :=
  match doc.cell? id with
  | some ⟨⟨_, .tag tag, _⟩, _, _⟩ => some tag.name
  | _ => none

-- Copies nodes in behind the others, with their identities shifted. The roots get the given parent but
-- are not yet among its children.
def importShifted (doc : Document) (shift : Nat) (nodes : List Node) (parent : Option NodeId) :
    List Tree × Document :=
  let trees := Tree.placeAll shift doc.size nodes
  let cells := Tree.allCells parent trees
  (trees, ⟨doc.cells ++ cells.toArray,
    cells.foldl (fun largest cell => max largest cell.item.identity) doc.maxIdentity⟩)

-- Copies a page in, with its own identities.
def importPage (doc : Document) (nodes : List Node) (parent : Option NodeId) : List Tree × Document :=
  doc.importShifted 0 nodes parent

-- Copies another file in. Its identities are moved past all those already taken.
def importFresh (doc : Document) (nodes : List Node) (parent : Option NodeId) : List Tree × Document :=
  doc.importShifted (min (doc.maxIdentity + 1) identityLimit) nodes parent

def push (doc : Document) (cell : Cell) : NodeId × Document :=
  (doc.size, { doc with cells := doc.cells.push cell })

-- A new tag without attributes, parent and children.
def createTag (doc : Document) (identity : Nat) (name : String) (location : Location) : NodeId × Document :=
  doc.push ⟨⟨identity, .tag ⟨name, [], false⟩, location⟩, none, []⟩

-- The item of a copy: a tag gets a new name.
def renamed (name : String) (item : Item) : Item :=
  match item.content with
  | .tag tag => { item with content := .tag { tag with name := name } }
  | .leaf _ => item

-- A copy of a node under a new name, without parent and children.
def cloneDetached (doc : Document) (id : NodeId) (name : String) : NodeId × Document :=
  match doc.cell? id with
  | some cell => doc.push ⟨renamed name cell.item, none, []⟩
  | none => (id, doc)

def modify (doc : Document) (id : NodeId) (change : Cell → Cell) : Document :=
  { doc with cells := doc.cells.modify id change }

def setParent (doc : Document) (parent : Option NodeId) (id : NodeId) : Document :=
  doc.modify id fun cell => { cell with parent := parent }

def appendChild (doc : Document) (parent child : NodeId) : Document :=
  (doc.setParent (some parent) child).modify parent fun cell => { cell with children := cell.children ++ [child] }

def replaceFirst (target : NodeId) (roots : List NodeId) : List NodeId → List NodeId
  | [] => []
  | id :: rest => if id = target then roots ++ rest else id :: replaceFirst target roots rest

-- Puts the roots where the target stands among its siblings, and detaches the target.
def splice (doc : Document) (target : NodeId) (roots : List NodeId) : Document :=
  let parent := doc.parent? target
  let moved := roots.foldl (setParent · parent) doc
  let spliced := match parent with
    | some parent => moved.modify parent fun cell => { cell with children := replaceFirst target roots cell.children }
    | none => moved
  spliced.setParent none target

-- Follows at most `limit` parent links.
def climb (doc : Document) : Nat → NodeId → NodeId
  | 0, id => id
  | limit + 1, id =>
    match doc.parent? id with
    | some parent => doc.climb limit parent
    | none => id

-- The topmost node above. No path of parents is longer than the document.
def rootOf (doc : Document) (id : NodeId) : NodeId := doc.climb doc.size id

-- The subtrees at the given positions, read to a depth of `limit`.
def treesWithin (doc : Document) : Nat → List NodeId → List Tree
  | 0, _ => []
  | limit + 1, ids => ids.filterMap fun id =>
    (doc.cell? id).map fun cell => .node id cell.item (doc.treesWithin limit cell.children)

-- The subtrees below a node. No branch is longer than the document.
def treesBelow (doc : Document) (id : NodeId) : List Tree := doc.treesWithin doc.size (doc.children id)

end Document

end Stencil
