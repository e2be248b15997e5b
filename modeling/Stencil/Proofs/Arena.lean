import Stencil.Proofs.Outline

-- What a document holds. A tree is held if each of its nodes stands at its position with the links that the
-- tree shows. Changes elsewhere do not matter to it, and a held tree whose positions grow downwards is what one
-- reads back from its top.

namespace Stencil

namespace Tree

mutual

def Within (allowed : Nat → Prop) : Tree → Prop
  | .node id _ children => allowed id ∧ AllWithin allowed children

def AllWithin (allowed : Nat → Prop) : List Tree → Prop
  | [] => True
  | tree :: rest => Within allowed tree ∧ AllWithin allowed rest

end

mutual

-- Positions start at the bound and grow from a node to those below it.
def Rises (bound : Nat) : Tree → Prop
  | .node id _ children => bound ≤ id ∧ AllRise (id + 1) children

def AllRise (bound : Nat) : List Tree → Prop
  | [] => True
  | tree :: rest => Rises bound tree ∧ AllRise bound rest

end

mutual

theorem Within.mono {allowed more : Nat → Prop} (weaker : ∀ id, allowed id → more id) :
    ∀ {tree : Tree}, Within allowed tree → Within more tree
  | .node id _ _, within => ⟨weaker id within.1, AllWithin.mono weaker within.2⟩

theorem AllWithin.mono {allowed more : Nat → Prop} (weaker : ∀ id, allowed id → more id) :
    ∀ {trees : List Tree}, AllWithin allowed trees → AllWithin more trees
  | [], _ => trivial
  | _ :: _, within => ⟨within.1.mono weaker, AllWithin.mono weaker within.2⟩

end

theorem AllWithin.append {allowed : Nat → Prop} {front back : List Tree} (first : AllWithin allowed front)
    (second : AllWithin allowed back) : AllWithin allowed (front ++ back) := by
  induction front with
  | nil => exact second
  | cons tree rest ih => exact ⟨first.1, ih first.2⟩

theorem AllWithin.id {allowed : Nat → Prop} {trees : List Tree} (within : AllWithin allowed trees) :
    ∀ id ∈ trees.map Tree.id, allowed id := by
  induction trees with
  | nil => simp
  | cons tree rest ih =>
    obtain ⟨position, item, children⟩ := tree
    intro id member
    rcases List.mem_cons.mp member with rfl | later
    · exact within.1.1
    · exact ih within.2 id later

mutual

theorem Within.and {allowed also : Nat → Prop} : ∀ {tree : Tree}, Within allowed tree → Within also tree →
    Within (fun id => allowed id ∧ also id) tree
  | .node _ _ _, first, second => ⟨⟨first.1, second.1⟩, AllWithin.and first.2 second.2⟩

theorem AllWithin.and {allowed also : Nat → Prop} : ∀ {trees : List Tree}, AllWithin allowed trees →
    AllWithin also trees → AllWithin (fun id => allowed id ∧ also id) trees
  | [], _, _ => trivial
  | _ :: _, first, second => ⟨first.1.and second.1, AllWithin.and first.2 second.2⟩

end

theorem Rises.mono {bound less : Nat} (le : less ≤ bound) {tree : Tree} (rises : Rises bound tree) :
    Rises less tree := by
  obtain ⟨id, item, children⟩ := tree
  exact ⟨Nat.le_trans le rises.1, rises.2⟩

theorem AllRise.mono {bound less : Nat} (le : less ≤ bound) {trees : List Tree} (rise : AllRise bound trees) :
    AllRise less trees := by
  induction trees with
  | nil => trivial
  | cons tree rest ih => exact ⟨rise.1.mono le, ih rise.2⟩

mutual

theorem Rises.within : ∀ {bound : Nat} {tree : Tree}, Rises bound tree → Within (bound ≤ ·) tree
  | _, .node _ _ _, rises =>
    ⟨rises.1, (AllRise.within rises.2).mono fun _ later => Nat.le_trans rises.1 (Nat.le_of_lt later)⟩

theorem AllRise.within : ∀ {bound : Nat} {trees : List Tree}, AllRise bound trees → AllWithin (bound ≤ ·) trees
  | _, [], _ => trivial
  | _, _ :: _, rise => ⟨rise.1.within, AllRise.within rise.2⟩

end

theorem AllRise.append {bound : Nat} {front back : List Tree} (first : AllRise bound front)
    (second : AllRise bound back) : AllRise bound (front ++ back) := by
  induction front with
  | nil => exact second
  | cons tree rest ih => exact ⟨first.1, ih first.2⟩

theorem sketches_append (front back : List Tree) : sketches (front ++ back) = sketches front ++ sketches back := by
  induction front with
  | nil => rfl
  | cons tree rest ih => simp [sketches, ih]

theorem isEmpty_sketches (trees : List Tree) : (sketches trees).isEmpty = trees.isEmpty := by
  cases trees <;> rfl

end Tree

namespace Document

mutual

-- The node stands at its position, below parent, and so does all that lies below it.
def Holds (doc : Document) (parent : Option Nat) : Tree → Prop
  | .node id item children => doc.cell? id = some ⟨item, parent, children.map Tree.id⟩ ∧ HoldsAll doc (some id) children

def HoldsAll (doc : Document) (parent : Option Nat) : List Tree → Prop
  | [] => True
  | tree :: rest => Holds doc parent tree ∧ HoldsAll doc parent rest

end

variable {doc next : Document} {parent : Option Nat}

mutual

-- A tree stays where it is as long as its positions are left alone.
theorem Holds.transfer {allowed : Nat → Prop} (same : ∀ id, allowed id → next.cell? id = doc.cell? id) :
    ∀ {parent : Option Nat} {tree : Tree}, Tree.Within allowed tree → Holds doc parent tree → Holds next parent tree
  | _, .node id _ _, within, holds =>
    ⟨(same id within.1).trans holds.1, HoldsAll.transfer same within.2 holds.2⟩

theorem HoldsAll.transfer {allowed : Nat → Prop} (same : ∀ id, allowed id → next.cell? id = doc.cell? id) :
    ∀ {parent : Option Nat} {trees : List Tree}, Tree.AllWithin allowed trees →
      HoldsAll doc parent trees → HoldsAll next parent trees
  | _, [], _, _ => trivial
  | _, _ :: _, within, holds => ⟨holds.1.transfer same within.1, HoldsAll.transfer same within.2 holds.2⟩

end

theorem HoldsAll.append {front back : List Tree} (first : HoldsAll doc parent front)
    (second : HoldsAll doc parent back) : HoldsAll doc parent (front ++ back) := by
  induction front with
  | nil => exact second
  | cons tree rest ih => exact ⟨first.1, ih first.2⟩

theorem cell?_lt {id : Nat} {cell : Cell} (found : doc.cell? id = some cell) : id < doc.size := by
  obtain ⟨bound, _⟩ := Array.getElem?_eq_some_iff.mp found
  exact bound

mutual

theorem Holds.within : ∀ {parent : Option Nat} {tree : Tree}, Holds doc parent tree →
    Tree.Within (· < doc.size) tree
  | _, .node _ _ _, holds => ⟨cell?_lt holds.1, HoldsAll.within holds.2⟩

theorem HoldsAll.within : ∀ {parent : Option Nat} {trees : List Tree}, HoldsAll doc parent trees →
    Tree.AllWithin (· < doc.size) trees
  | _, [], _ => trivial
  | _, _ :: _, holds => ⟨holds.1.within, HoldsAll.within holds.2⟩

end

mutual

-- Each level moves the bound up by one, so the depth that is left to read suffices.
theorem Holds.read : ∀ {parent : Option Nat} {tree : Tree} (bound limit : Nat), Holds doc parent tree →
    tree.Rises bound → doc.size ≤ limit + bound → doc.treesWithin limit [tree.id] = [tree]
  | _, .node id item children, bound, limit, holds, rises, enough => by
    have inside := cell?_lt holds.1
    obtain ⟨least, below⟩ := rises
    cases limit with
    | zero => omega
    | succ limit =>
      have inner := HoldsAll.read (id + 1) limit holds.2 below (by omega)
      simp [treesWithin, Tree.id, holds.1, inner]

theorem HoldsAll.read : ∀ {parent : Option Nat} {trees : List Tree} (bound limit : Nat),
    HoldsAll doc parent trees → Tree.AllRise bound trees → doc.size ≤ limit + bound →
    doc.treesWithin limit (trees.map Tree.id) = trees
  | _, [], _, limit, _, _, _ => by cases limit <;> rfl
  | _, tree :: rest, bound, limit, holds, rise, enough => by
    have first := Holds.read bound limit holds.1 rise.1 enough
    have later := HoldsAll.read bound limit holds.2 rise.2 enough
    cases limit with
    | zero => simp [treesWithin] at first
    | succ limit =>
      simp only [treesWithin, List.map_cons] at first later ⊢
      rw [List.filterMap_cons]
      simp only [List.filterMap_cons, List.filterMap_nil] at first
      split at first
      · cases first
      · rename_i found same
        simp only [later]
        simp only [List.cons.injEq, and_true] at first
        rw [first]

end

-- What one reads below a node is what the document holds there.
theorem HoldsAll.treesBelow {id : Nat} {trees : List Tree} (holds : HoldsAll doc (some id) trees)
    (rise : Tree.AllRise (id + 1) trees) (linked : doc.children id = trees.map Tree.id) :
    doc.treesBelow id = trees := by
  rw [Document.treesBelow, linked]
  exact holds.read (id + 1) doc.size rise (by omega)

-- The given cells stand one after the other from a position on.
def Segment (doc : Document) (start : Nat) (cells : List Cell) : Prop :=
  ∀ k, k < cells.length → doc.cell? (start + k) = cells[k]?

theorem Segment.head {start : Nat} {cell : Cell} {rest : List Cell} (segment : Segment doc start (cell :: rest)) :
    doc.cell? start = some cell := by
  simpa using segment 0 (by simp)

theorem Segment.tail {start : Nat} {cell : Cell} {rest : List Cell} (segment : Segment doc start (cell :: rest)) :
    Segment doc (start + 1) rest := by
  intro k bound
  have found := segment (k + 1) (by simpa using bound)
  rwa [← Nat.add_assoc, Nat.add_right_comm, List.getElem?_cons_succ] at found

theorem Segment.front {start : Nat} {front back : List Cell} (segment : Segment doc start (front ++ back)) :
    Segment doc start front := by
  intro k bound
  rw [segment k (by simp; omega), List.getElem?_append_left bound]

theorem Segment.back {start : Nat} {front back : List Cell} (segment : Segment doc start (front ++ back)) :
    Segment doc (start + front.length) back := by
  intro k bound
  rw [Nat.add_assoc, segment _ (by simp; omega), List.getElem?_append_right (by omega), Nat.add_sub_cancel_left]

end Document

namespace Tree

variable (shift : Nat)

mutual

theorem length_cells : ∀ (start : Nat) (parent : Option Nat) (node : Node),
    (cells parent (place shift start node)).length = node.size
  | start, _, .tag _ _ children _ => by
    simp [place, cells, Node.size, length_allCells (start + 1) (some start) children, Nat.add_comm]
  | _, _, .leaf _ _ _ => rfl

theorem length_allCells : ∀ (start : Nat) (parent : Option Nat) (nodes : List Node),
    (allCells parent (placeAll shift start nodes)).length = Node.totalSize nodes
  | _, _, [] => rfl
  | start, parent, first :: rest => by
    simp [placeAll, allCells, Node.totalSize, length_cells start parent first,
      length_allCells (start + first.size) parent rest]

end

mutual

theorem holds_place {doc : Document} : ∀ {start : Nat} {parent : Option Nat} {node : Node},
    doc.Segment start (cells parent (place shift start node)) → doc.Holds parent (place shift start node)
  | _, _, .tag _ _ _ _, segment => ⟨segment.head, holds_placeAll segment.tail⟩
  | _, _, .leaf _ _ _, segment => ⟨segment.head, trivial⟩

theorem holds_placeAll {doc : Document} : ∀ {start : Nat} {parent : Option Nat} {nodes : List Node},
    doc.Segment start (allCells parent (placeAll shift start nodes)) →
    doc.HoldsAll parent (placeAll shift start nodes)
  | _, _, [], _ => trivial
  | start, parent, first :: rest, segment => by
    have behind := segment.back
    rw [length_cells] at behind
    exact ⟨holds_place segment.front, holds_placeAll behind⟩

end

mutual

theorem within_place : ∀ (start : Nat) (node : Node),
    Within (fun id => start ≤ id ∧ id < start + node.size) (place shift start node)
  | start, .tag _ _ children _ => by
    refine ⟨⟨Nat.le_refl _, by simp only [Node.size]; omega⟩, (within_placeAll (start + 1) children).mono ?_⟩
    intro id bounds
    simp only [Node.size]
    omega
  | start, .leaf _ _ _ => ⟨⟨Nat.le_refl _, Nat.lt_succ_self _⟩, trivial⟩

theorem within_placeAll : ∀ (start : Nat) (nodes : List Node),
    AllWithin (fun id => start ≤ id ∧ id < start + Node.totalSize nodes) (placeAll shift start nodes)
  | _, [] => trivial
  | start, first :: rest => by
    refine ⟨(within_place start first).mono ?_, (within_placeAll (start + first.size) rest).mono ?_⟩
    · intro id bounds
      simp only [Node.totalSize]
      omega
    · intro id bounds
      simp only [Node.totalSize]
      omega

end

mutual

theorem rises_place : ∀ (start : Nat) (node : Node), Rises start (place shift start node)
  | start, .tag _ _ children _ => ⟨Nat.le_refl _, allRise_placeAll (start + 1) children⟩
  | _, .leaf _ _ _ => ⟨Nat.le_refl _, trivial⟩

theorem allRise_placeAll : ∀ (start : Nat) (nodes : List Node), AllRise start (placeAll shift start nodes)
  | _, [] => trivial
  | start, first :: rest =>
    ⟨rises_place start first, (allRise_placeAll (start + first.size) rest).mono (Nat.le_add_right _ _)⟩

end

mutual

theorem sketch_place : ∀ (start : Nat) (node : Node), sketch (place shift start node) = Sketch.ofNode shift node
  | start, .tag _ _ children _ => by
    simp [place, sketch, Sketch.ofNode, sketches_placeAll (start + 1) children]
  | _, .leaf _ _ _ => rfl

theorem sketches_placeAll : ∀ (start : Nat) (nodes : List Node),
    sketches (placeAll shift start nodes) = Sketch.ofNodes shift nodes
  | _, [] => rfl
  | start, first :: rest => by
    simp [placeAll, sketches, Sketch.ofNodes, sketch_place start first, sketches_placeAll (start + first.size) rest]

end

mutual

theorem largest_cells : ∀ (start : Nat) (parent : Option Nat) (known : Nat) (node : Node),
    (cells parent (place shift start node)).foldl (fun largest cell => max largest cell.item.identity) known =
      node.largest shift known
  | start, _, known, .tag identity _ children _ =>
    largestOf_cells (start + 1) (some start) (max known (shifted shift identity)) children
  | _, _, _, .leaf _ _ _ => rfl

theorem largestOf_cells : ∀ (start : Nat) (parent : Option Nat) (known : Nat) (nodes : List Node),
    (allCells parent (placeAll shift start nodes)).foldl (fun largest cell => max largest cell.item.identity) known =
      Node.largestOf shift known nodes
  | _, _, _, [] => rfl
  | start, parent, known, first :: rest => by
    simp only [placeAll, allCells, List.foldl_append, Node.largestOf, largest_cells start parent known first,
      largestOf_cells (start + first.size) parent _ rest]

end

end Tree

end Stencil
