import Stencil.Proofs.Arena

-- What the steps of a compilation do to the document: copying a file in, putting it in the place of a tag, and
-- making a copy in a fragment.

namespace Stencil

namespace Document

variable (doc : Document)

@[simp] theorem size_push (cell : Cell) : (doc.push cell).2.size = doc.size + 1 := by
  simp [push, size]

theorem cell?_push (cell : Cell) (id : Nat) :
    (doc.push cell).2.cell? id = if id = doc.size then some cell else doc.cell? id := by
  by_cases last : id = doc.size
  · subst last
    simp [push, cell?, size]
  · have other : id ≠ doc.cells.size := last
    simp [push, cell?, Array.getElem?_push, last, other]

@[simp] theorem size_modify (id : Nat) (change : Cell → Cell) : (doc.modify id change).size = doc.size := by
  simp [modify, size]

theorem cell?_modify (target : Nat) (change : Cell → Cell) (id : Nat) :
    (doc.modify target change).cell? id = if id = target then (doc.cell? id).map change else doc.cell? id := by
  by_cases same : id = target
  · subst same
    simp [modify, cell?, Array.getElem?_modify]
  · simp [modify, cell?, Array.getElem?_modify, same, Ne.symm same]

section Import

variable (shift : Nat) (nodes : List Node) (parent : Option Nat)

theorem size_importShifted : (doc.importShifted shift nodes parent).2.size = doc.size + Node.totalSize nodes := by
  simp [importShifted, size, Tree.length_allCells]

theorem cell?_importShifted {id : Nat} (old : id < doc.size) :
    (doc.importShifted shift nodes parent).2.cell? id = doc.cell? id := by
  simp only [importShifted, cell?]
  rw [Array.getElem?_append_left old]

theorem holds_importShifted :
    (doc.importShifted shift nodes parent).2.HoldsAll parent (Tree.placeAll shift doc.size nodes) := by
  refine Tree.holds_placeAll shift ?_
  intro k _
  simp only [importShifted, cell?, size]
  rw [Array.getElem?_append_right (Nat.le_add_right _ _)]
  simp

theorem maxIdentity_importShifted :
    (doc.importShifted shift nodes parent).2.maxIdentity = Node.largestOf shift doc.maxIdentity nodes :=
  Tree.largestOf_cells shift doc.size parent doc.maxIdentity nodes

end Import

section Splice

variable (parent : Option Nat)

theorem size_setParents (roots : List Nat) : (roots.foldl (setParent · parent) doc).size = doc.size := by
  induction roots generalizing doc with
  | nil => rfl
  | cons root rest ih => rw [List.foldl_cons, ih, setParent, size_modify]

theorem cell?_setParents (roots : List Nat) (id : Nat) :
    (roots.foldl (setParent · parent) doc).cell? id =
      if id ∈ roots then (doc.cell? id).map fun cell => { cell with parent := parent } else doc.cell? id := by
  induction roots generalizing doc with
  | nil => simp
  | cons root rest ih =>
    rw [List.foldl_cons, ih, setParent, cell?_modify]
    by_cases first : id = root
    · subst first
      by_cases later : id ∈ rest <;> simp [later, Function.comp_def]
    · by_cases later : id ∈ rest <;> simp [first, later]

theorem size_splice (target : Nat) (roots : List Nat) : (doc.splice target roots).size = doc.size := by
  unfold splice
  cases doc.parent? target <;> simp [setParent, size_setParents]

theorem maxIdentity_splice (target : Nat) (roots : List Nat) :
    (doc.splice target roots).maxIdentity = doc.maxIdentity := by
  have moved : ∀ (d : Document), (roots.foldl (setParent · (doc.parent? target)) d).maxIdentity = d.maxIdentity := by
    induction roots with
    | nil => exact fun _ => rfl
    | cons root rest ih => exact fun d => ih (d.setParent _ root)
  unfold splice
  cases found : doc.parent? target <;> simp [setParent, modify] <;> exact found ▸ moved doc

-- Away from the target, a splice changes the parents of the roots and the children of the target's parent.
theorem cell?_splice {target id : Nat} (roots : List Nat) (other : id ≠ target) (outside : id ∉ roots) :
    (doc.splice target roots).cell? id =
      if doc.parent? target = some id then
        (doc.cell? id).map fun cell => { cell with children := replaceFirst target roots cell.children }
      else doc.cell? id := by
  unfold splice
  cases found : doc.parent? target with
  | none => simp [setParent, cell?_modify, other, cell?_setParents, outside]
  | some above =>
    by_cases same : id = above
    · subst same
      simp [setParent, cell?_modify, other, cell?_setParents, outside]
    · simp [setParent, cell?_modify, other, cell?_setParents, outside, same, Ne.symm same]

theorem cell?_splice_root {target id : Nat} {roots : List Nat} (other : id ≠ target) (root : id ∈ roots)
    (apart : doc.parent? target ≠ some id) :
    (doc.splice target roots).cell? id =
      (doc.cell? id).map fun cell => { cell with parent := doc.parent? target } := by
  unfold splice
  cases found : doc.parent? target with
  | none => simp [setParent, cell?_modify, other, cell?_setParents, root]
  | some above =>
    have same : id ≠ above := fun equal => apart (equal ▸ found)
    simp [setParent, cell?_modify, other, cell?_setParents, root, same]

theorem HoldsAll.root {doc : Document} {parent : Option Nat} {trees : List Tree} (holds : doc.HoldsAll parent trees)
    {id : Nat} (member : id ∈ trees.map Tree.id) : ∃ item children, doc.cell? id = some ⟨item, parent, children⟩ := by
  induction trees with
  | nil => cases member
  | cons tree rest ih =>
    obtain ⟨position, item, children⟩ := tree
    rcases List.mem_cons.mp member with rfl | later
    · exact ⟨item, children.map Tree.id, holds.1.1⟩
    · exact ih holds.2 later

end Splice

section Inlining

variable (shift : Nat) (nodes : List Node) (target : Nat)

def inlining : Document :=
  (doc.importShifted shift nodes (doc.parent? target)).2.splice target
    ((Tree.placeAll shift doc.size nodes).map Tree.id)

theorem size_inlining : (doc.inlining shift nodes target).size = doc.size + Node.totalSize nodes := by
  rw [inlining, size_splice, size_importShifted]

theorem maxIdentity_inlining :
    (doc.inlining shift nodes target).maxIdentity = Node.largestOf shift doc.maxIdentity nodes := by
  rw [inlining, maxIdentity_splice, maxIdentity_importShifted]

theorem parent?_importShifted (parent : Option Nat) {target : Nat} (old : target < doc.size) :
    (doc.importShifted shift nodes parent).2.parent? target = doc.parent? target := by
  rw [parent?, cell?_importShifted doc shift nodes parent old, ← parent?]

theorem roots_new {id : Nat} (root : id ∈ (Tree.placeAll shift doc.size nodes).map Tree.id) : doc.size ≤ id :=
  ((Tree.within_placeAll shift doc.size nodes).id id root).1

variable {target}

theorem cell?_inlining (old : target < doc.size) {id : Nat} (before : id < doc.size) (other : id ≠ target) :
    (doc.inlining shift nodes target).cell? id =
      if doc.parent? target = some id then
        (doc.cell? id).map fun cell =>
          { cell with children := replaceFirst target ((Tree.placeAll shift doc.size nodes).map Tree.id) cell.children }
      else doc.cell? id := by
  have outside : id ∉ (Tree.placeAll shift doc.size nodes).map Tree.id :=
    fun root => absurd (doc.roots_new shift nodes root) (Nat.not_le_of_lt before)
  rw [inlining, cell?_splice _ _ other outside, parent?_importShifted _ _ _ _ old,
    cell?_importShifted _ _ _ _ before]

theorem holds_inlining (old : target < doc.size) (above : ∀ id, doc.parent? target = some id → id < doc.size) :
    (doc.inlining shift nodes target).HoldsAll (doc.parent? target) (Tree.placeAll shift doc.size nodes) := by
  have held := doc.holds_importShifted shift nodes (doc.parent? target)
  refine held.transfer (fun id new => ?_) ((Tree.within_placeAll shift doc.size nodes).mono fun id bounds => bounds.1)
  have parent := doc.parent?_importShifted shift nodes (doc.parent? target) old
  have other : id ≠ target := by omega
  have apart : doc.parent? target ≠ some id := fun same => absurd (above id same) (Nat.not_lt_of_le new)
  by_cases root : id ∈ (Tree.placeAll shift doc.size nodes).map Tree.id
  · -- The roots were copied in below the parent that the splice gives them.
    obtain ⟨item, children, found⟩ := held.root root
    rw [inlining, cell?_splice_root _ other root (by rwa [parent]), found, parent]
    rfl
  · rw [inlining, cell?_splice _ _ other root, parent, if_neg apart]

end Inlining

end Document

namespace Fragments

variable (fragments : Fragments) (doc : Document)

section Append

variable {fragment id : Nat} (name : String) (advance : Bool) {cell : Cell}

def appended (fragment id : Nat) : Document :=
  (fragments.append doc fragment id name advance).2.2

theorem append_eq (found : doc.cell? id = some cell) : fragments.append doc fragment id name advance =
    (doc.size, if advance then fragments.setCursor fragment doc.size else fragments,
      fragments.appended doc name advance fragment id) := by
  simp [appended, append, Document.cloneDetached, found, Document.push]

theorem size_appended (found : doc.cell? id = some cell) :
    (fragments.appended doc name advance fragment id).size = doc.size + 1 := by
  simp [appended, append, Document.cloneDetached, found, Document.appendChild, Document.setParent]

theorem maxIdentity_appended (found : doc.cell? id = some cell) :
    (fragments.appended doc name advance fragment id).maxIdentity = doc.maxIdentity := by
  simp [appended, append, Document.cloneDetached, found, Document.appendChild, Document.setParent, Document.modify,
    Document.push]

theorem cell?_appended (found : doc.cell? id = some cell) (old : fragments.cursor fragment < doc.size) (k : Nat) :
    (fragments.appended doc name advance fragment id).cell? k =
      if k = doc.size then some ⟨Document.renamed name cell.item, some (fragments.cursor fragment), []⟩
      else if k = fragments.cursor fragment then
        (doc.cell? k).map fun cell => { cell with children := cell.children ++ [doc.size] }
      else doc.cell? k := by
  have apart : doc.size ≠ fragments.cursor fragment := Nat.ne_of_gt old
  have copied : (doc.push ⟨Document.renamed name cell.item, none, []⟩).1 = doc.size := rfl
  simp only [appended, append, Document.cloneDetached, found, Document.appendChild, Document.setParent, copied,
    Document.cell?_modify, Document.cell?_push]
  by_cases last : k = doc.size
  · subst last
    simp [apart]
  · simp [last]

end Append

section Link

variable {tag : Nat}

-- The fragments after a tag without a fragment was given one, at the end of the document.
def linked (tag : Nat) : Fragments :=
  ⟨fragments.byTag.insert tag doc.size, fragments.cursors.insert doc.size doc.size, fragments.nextIdentity + 1⟩

def top (identity : Nat) (location : Location) : Cell := ⟨⟨identity, .tag ⟨tagName, [], false⟩, location⟩, none, []⟩

theorem link_eq (unknown : fragments.get? tag = none) : ∃ location, fragments.link doc tag =
    (doc.size, fragments.linked doc tag, (doc.push (top fragments.nextIdentity location)).2) := by
  refine ⟨((doc.cell? tag).map fun cell => cell.item.location).getD .zero, ?_⟩
  simp only [link, unknown]
  rfl

theorem unlink_eq {fragment : Nat} (known : fragments.get? tag = some fragment) : fragments.unlink tag =
    { fragments with byTag := fragments.byTag.erase tag, cursors := fragments.cursors.erase fragment } := by
  simp only [unlink, known]

end Link

end Fragments

end Stencil
