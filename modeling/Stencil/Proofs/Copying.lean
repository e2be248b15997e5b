import Stencil.Proofs.Consistency
import Stencil.Proofs.Inlining
import Stencil.Proofs.Loads

-- What it means to copy nodes into a document. The copies stand behind all that was there, each before its children, and
-- what one reads from their roots are the nodes again, apart from their identities. The same document results if the nodes
-- are put at the end one by one and each is noted among the children of its parent once all below it has been copied.

namespace Stencil

namespace Node

mutual

-- A node with its identities moved, up to the largest one there is.
def moved (shift : Nat) : Node → Node
  | .tag identity own children location =>
    .tag (UInt32.ofNat (shifted shift identity)) own (movedAll shift children) location
  | .leaf identity value location => .leaf (UInt32.ofNat (shifted shift identity)) value location

def movedAll (shift : Nat) : List Node → List Node
  | [] => []
  | first :: rest => moved shift first :: movedAll shift rest

end

variable (shift : Nat)

theorem toNat_shifted (identity : UInt32) : (UInt32.ofNat (shifted shift identity)).toNat = shifted shift identity := by
  rw [← shifted_zero, shifted_ofNat]

mutual

theorem moved_zero : ∀ node : Node, moved 0 node = node
  | .tag _ _ children _ => by rw [moved, shifted_zero, UInt32.ofNat_toNat, movedAll_zero children]
  | .leaf _ _ _ => by rw [moved, shifted_zero, UInt32.ofNat_toNat]

theorem movedAll_zero : ∀ nodes : List Node, movedAll 0 nodes = nodes
  | [] => rfl
  | first :: rest => by rw [movedAll, moved_zero first, movedAll_zero rest]

end

mutual

theorem identities_moved : ∀ node : Node,
    (moved shift node).identities = node.identities.map fun identity => min (identity + shift) identityLimit
  | .tag identity _ children _ => by
    rw [moved, identities, identities, List.map_cons, toNat_shifted, allIdentities_movedAll children]
    rfl
  | .leaf identity _ _ => by
    rw [moved, identities, identities, List.map_singleton, toNat_shifted]
    rfl

theorem allIdentities_movedAll : ∀ nodes : List Node,
    allIdentities (movedAll shift nodes) =
      (allIdentities nodes).map fun identity => min (identity + shift) identityLimit
  | [] => rfl
  | first :: rest => by
    rw [movedAll, allIdentities, allIdentities, List.map_append, identities_moved first, allIdentities_movedAll rest]

end

mutual

theorem largest_eq : ∀ (known : Nat) (node : Node), node.largest shift known =
    (moved shift node).identities.foldl max known
  | known, .tag identity _ children _ => by
    rw [largest, moved, identities, List.foldl_cons, toNat_shifted, largestOf_eq _ children]
  | known, .leaf identity _ _ => by
    rw [largest, moved, identities, List.foldl_cons, List.foldl_nil, toNat_shifted]

theorem largestOf_eq : ∀ (known : Nat) (nodes : List Node), largestOf shift known nodes =
    (allIdentities (movedAll shift nodes)).foldl max known
  | _, [] => rfl
  | known, first :: rest => by
    rw [largestOf, movedAll, allIdentities, List.foldl_append, largest_eq known first, largestOf_eq _ rest]

end

end Node

namespace Sketch

mutual

theorem plain_ofNode (shift : Nat) : ∀ node : Node, plain (ofNode shift node) = node.moved shift
  | .tag _ _ children _ => by rw [ofNode, plain, plains_ofNodes shift children, Node.moved]
  | .leaf _ _ _ => rfl

theorem plains_ofNodes (shift : Nat) : ∀ nodes : List Node, plains (ofNodes shift nodes) = Node.movedAll shift nodes
  | [] => rfl
  | first :: rest => by rw [ofNodes, plains, plain_ofNode shift first, plains_ofNodes shift rest, Node.movedAll]

end

end Sketch

namespace Tree

mutual

-- The positions of a subtree, each before those below it.
def positions : Tree → List NodeId
  | .node id _ children => id :: allPositions children

def allPositions : List Tree → List NodeId
  | [] => []
  | tree :: rest => positions tree ++ allPositions rest

end

mutual

theorem positions_place (shift : Nat) : ∀ (start : Nat) (node : Node),
    positions (place shift start node) = List.range' start node.size
  | start, .tag _ _ children _ => by
    rw [place, positions, allPositions_placeAll shift (start + 1) children, Node.size, Nat.add_comm 1, List.range'_succ]
  | _, .leaf _ _ _ => rfl

theorem allPositions_placeAll (shift : Nat) : ∀ (start : Nat) (nodes : List Node),
    allPositions (placeAll shift start nodes) = List.range' start (Node.totalSize nodes)
  | _, [] => rfl
  | start, first :: rest => by
    rw [placeAll, allPositions, positions_place shift start first, allPositions_placeAll shift _ rest, Node.totalSize,
      List.range'_append_1]

end

end Tree

namespace Document

section Extended

-- A document with further cells behind those that it has.
def extended (doc : Document) (cells : List Cell) : Document :=
  ⟨doc.cells ++ cells.toArray, cells.foldl (fun largest cell => max largest cell.item.identity) doc.maxIdentity⟩

variable (doc : Document)

theorem extended_nil : doc.extended [] = doc := by simp [extended]

theorem extended_append (front back : List Cell) : doc.extended (front ++ back) = (doc.extended front).extended back := by
  simp [extended, Array.append_assoc]

theorem size_extended (cells : List Cell) : (doc.extended cells).size = doc.size + cells.length := by
  simp [extended, size]

theorem importShifted_eq (shift : Nat) (nodes : List Node) (parent : Option NodeId) :
    doc.importShifted shift nodes parent =
      (Tree.placeAll shift doc.size nodes, doc.extended (Tree.allCells parent (Tree.placeAll shift doc.size nodes))) := rfl

theorem cell?_extended (cells : List Cell) (id : Nat) :
    (doc.extended cells).cell? id = if id < doc.size then doc.cell? id else cells[id - doc.size]? := by
  by_cases before : id < doc.size
  · rw [if_pos before, cell?, extended, Array.getElem?_append_left before, cell?]
  · rw [if_neg before, cell?, extended, Array.getElem?_append_right (Nat.le_of_not_lt before), List.getElem?_toArray]
    rfl

theorem ext_cell? {doc next : Document} (same : ∀ id : Nat, doc.cell? id = next.cell? id)
    (largest : doc.maxIdentity = next.maxIdentity) : doc = next := by
  obtain ⟨cells, known⟩ := doc
  obtain ⟨others, known'⟩ := next
  cases largest
  cases Array.ext_getElem? same
  rfl

def addChildren (children : List NodeId) (cell : Cell) : Cell := { cell with children := cell.children ++ children }

theorem addChildren_nil (cell : Cell) : addChildren [] cell = cell := by
  simp only [addChildren, List.append_nil]

theorem addChildren_addChildren (front back : List NodeId) (cell : Cell) :
    addChildren back (addChildren front cell) = addChildren (front ++ back) cell := by
  simp only [addChildren, List.append_assoc]

-- A change of what was there does not matter to what comes behind it.
theorem modify_extended {id : Nat} (old : id < doc.size) (change : Cell → Cell) (cells : List Cell) :
    (doc.extended cells).modify id change = (doc.modify id change).extended cells := by
  refine ext_cell? (fun k => ?_) rfl
  rw [cell?_modify, cell?_extended, cell?_extended, cell?_modify, size_modify]
  by_cases same : k = id
  · subst same
    rw [if_pos rfl, if_pos rfl, if_pos old, if_pos old]
  · rw [if_neg same, if_neg same]

theorem modify_extended_last (children : List NodeId) (cell : Cell) :
    (doc.extended [cell]).modify doc.size (addChildren children) = doc.extended [addChildren children cell] := by
  refine ext_cell? (fun k => ?_) rfl
  rw [cell?_modify, cell?_extended, cell?_extended]
  by_cases last : k = doc.size
  · subst last
    simp
  · rw [if_neg last]
    split
    · rfl
    · have beyond : k - doc.size ≠ 0 := by omega
      simp [beyond]

theorem modify_addChildren_nil (id : Nat) : doc.modify id (addChildren []) = doc := by
  refine ext_cell? (fun k => ?_) rfl
  rw [cell?_modify, show addChildren [] = fun cell => cell from funext addChildren_nil]
  split <;> simp

theorem modify_addChildren (id : Nat) (front back : List NodeId) :
    (doc.modify id (addChildren front)).modify id (addChildren back) = doc.modify id (addChildren (front ++ back)) := by
  refine ext_cell? (fun k => ?_) rfl
  rw [cell?_modify, cell?_modify, cell?_modify]
  split
  · rw [Option.map_map, Function.comp_def]
    simp only [addChildren_addChildren]
  · rfl

end Extended

section Stepwise

variable (shift : Nat)

-- Puts a node at the end, without children.
def pushItem (doc : Document) (parent : Option NodeId) (item : Item) : NodeId × Document :=
  { doc with maxIdentity := max doc.maxIdentity item.identity }.push ⟨item, parent, []⟩

mutual

-- Copies a node, then what lies below it.
def copyNode (parent : Option NodeId) (doc : Document) : Node → NodeId × Document
  | .tag identity tag children location =>
    let (id, next) := doc.pushItem parent ⟨shifted shift identity, .tag tag, location⟩
    (id, copyBelow id next children)
  | .leaf identity leaf location => doc.pushItem parent ⟨shifted shift identity, .leaf leaf, location⟩

def copyBelow (id : NodeId) (doc : Document) : List Node → Document
  | [] => doc
  | first :: rest =>
    let (child, next) := copyNode (some id) doc first
    copyBelow id (next.modify id (addChildren [child])) rest

end

def copyAll (parent : Option NodeId) (doc : Document) : List Node → List NodeId × Document
  | [] => ([], doc)
  | first :: rest =>
    let (root, next) := copyNode shift parent doc first
    let (roots, last) := copyAll parent next rest
    (root :: roots, last)

theorem pushItem_eq (doc : Document) (parent : Option NodeId) (item : Item) :
    doc.pushItem parent item = (doc.size, doc.extended [⟨item, parent, []⟩]) := by
  simp [pushItem, push, extended, size]

mutual

theorem copyNode_eq : ∀ (parent : Option NodeId) (doc : Document) (node : Node), copyNode shift parent doc node =
    (doc.size, doc.extended (Tree.cells parent (Tree.place shift doc.size node)))
  | parent, doc, .leaf identity leaf location => pushItem_eq doc parent _
  | parent, doc, .tag identity tag children location => by
    have size (cell : Cell) : (doc.extended [cell]).size = doc.size + 1 := doc.size_extended [cell]
    rw [copyNode, pushItem_eq]
    simp only
    rw [copyBelow_eq doc.size _ (by rw [size]; exact Nat.lt_succ_self _) children,
      modify_extended_last, ← extended_append, size]
    rfl

-- The children that were copied so far are noted at their parent, and their cells stand behind all others.
theorem copyBelow_eq : ∀ (id : NodeId) (doc : Document), id < doc.size → ∀ nodes : List Node,
    copyBelow shift id doc nodes =
      (doc.modify id (addChildren ((Tree.placeAll shift doc.size nodes).map Tree.id))).extended
        (Tree.allCells (some id) (Tree.placeAll shift doc.size nodes))
  | id, doc, _, [] => by
    rw [copyBelow, Tree.placeAll, List.map_nil, Tree.allCells, extended_nil, modify_addChildren_nil]
  | id, doc, old, first :: rest => by
    have size : ((doc.modify id (addChildren [doc.size])).extended
        (Tree.cells (some id) (Tree.place shift doc.size first))).size = doc.size + first.size := by
      rw [size_extended, size_modify, Tree.length_cells]
    have top : (Tree.place shift doc.size first).id = doc.size := by cases first <;> rfl
    rw [copyBelow, copyNode_eq (some id) doc first]
    simp only
    rw [modify_extended _ old, copyBelow_eq id _ (by rw [size]; exact Nat.lt_add_right _ old) rest,
      modify_extended _ (by rwa [size_modify]), modify_addChildren, size, ← extended_append, Tree.placeAll, List.map_cons,
      top, Tree.allCells, List.singleton_append]

end

theorem copyAll_eq (parent : Option NodeId) (doc : Document) (nodes : List Node) : copyAll shift parent doc nodes =
    ((doc.importShifted shift nodes parent).1.map Tree.id, (doc.importShifted shift nodes parent).2) := by
  induction nodes generalizing doc with
  | nil => rw [copyAll, importShifted_eq, Tree.placeAll, Tree.allCells, extended_nil]; rfl
  | cons first rest ih =>
    have top : (Tree.place shift doc.size first).id = doc.size := by cases first <;> rfl
    rw [copyAll, copyNode_eq]
    simp only
    rw [ih, importShifted_eq, importShifted_eq, size_extended, Tree.length_cells, ← extended_append, Tree.placeAll,
      List.map_cons, top, Tree.allCells]

end Stepwise

-- Nodes were copied into a document, below a parent, and the trees with the positions of the copies were handed back.
structure Copied (doc : Document) (shift : Nat) (nodes : List Node) (parent : Option NodeId)
    (trees : List Tree) (next : Document) : Prop where
  read : next.treesWithin next.size (trees.map Tree.id) = trees
  -- The trees that one reads from the roots are the nodes with their identities moved. Nothing hangs below a leaf.
  rebuilt : Sketch.plains (Tree.sketches trees) = Node.movedAll shift nodes
  shape : Tree.sketches trees = Sketch.ofNodes shift nodes
  -- The copies stand one behind the other, each before those below it, and nothing else is new.
  order : Tree.allPositions trees = List.range' doc.size (Node.totalSize nodes)
  bounded : next.size = doc.size + Node.totalSize nodes
  kept : ∀ id : Nat, id < doc.size → next.cell? id = doc.cell? id
  -- The roots have the given parent. The parent of any other copy is the one that has it among its children.
  linked : Grown next doc.size next.size parent (trees.map Tree.id)
  largest : next.maxIdentity = (Node.allIdentities (Node.movedAll shift nodes)).foldl max doc.maxIdentity
  stepwise : (trees.map Tree.id, next) = copyAll shift parent doc nodes

theorem copied_importShifted (doc : Document) (shift : Nat) (nodes : List Node) (parent : Option NodeId) :
    Copied doc shift nodes parent (doc.importShifted shift nodes parent).1 (doc.importShifted shift nodes parent).2 where
  read := by
    have held := doc.holds_importShifted shift nodes parent
    exact held.read doc.size _ (Tree.allRise_placeAll shift doc.size nodes) (Nat.le_add_right _ _)
  rebuilt := by rw [importShifted_eq, Tree.sketches_placeAll, Sketch.plains_ofNodes]
  shape := Tree.sketches_placeAll shift doc.size nodes
  order := Tree.allPositions_placeAll shift doc.size nodes
  bounded := doc.size_importShifted shift nodes parent
  kept _ old := doc.cell?_importShifted shift nodes parent old
  linked := by
    rw [size_importShifted]
    exact (doc.holds_importShifted shift nodes parent).grown
  largest := by rw [maxIdentity_importShifted, Node.largestOf_eq]
  stepwise := (copyAll_eq shift parent doc nodes).symm

-- A page is copied as it is, and any other file with its identities moved past those that are taken.
theorem imports_copy (doc : Document) (nodes : List Node) (parent : Option NodeId) :
    Copied doc 0 nodes parent (doc.importPage nodes parent).1 (doc.importPage nodes parent).2 ∧
    Node.movedAll 0 nodes = nodes ∧
    Copied doc (min (doc.maxIdentity + 1) identityLimit) nodes parent (doc.importFresh nodes parent).1
      (doc.importFresh nodes parent).2 :=
  ⟨copied_importShifted doc 0 nodes parent, Node.movedAll_zero nodes, copied_importShifted doc _ nodes parent⟩

end Document

end Stencil
