import Stencil.Proofs.ArenaSteps
import Stencil.Proofs.Chronicle

-- Consistent documents. The children of a node are the nodes that have it as their parent, each once, and a parent stands
-- before its children. Every change that a compilation makes to its document keeps it consistent, and so no search
-- upwards goes on for ever.

namespace Stencil

namespace Document

structure Consistent (doc : Document) : Prop where
  linked : ∀ p c : Nat, c ∈ doc.children p ↔ doc.parent? c = some p
  distinct : ∀ p : Nat, (doc.children p).Nodup
  rising : ∀ p c : Nat, doc.parent? c = some p → p < c

section Links

variable {doc next : Document}

theorem parent?_of_cell? {id : Nat} {cell : Cell} (found : doc.cell? id = some cell) : doc.parent? id = cell.parent := by
  rw [parent?, found, Option.bind_some]

theorem children_of_cell? {id : Nat} {cell : Cell} (found : doc.cell? id = some cell) :
    doc.children id = cell.children := by
  rw [children, found]

theorem cell?_of_lt {id : Nat} (bound : id < doc.size) : ∃ cell, doc.cell? id = some cell :=
  ⟨doc.cells[id], Array.getElem?_eq_getElem bound⟩

theorem lt_of_parent? {p c : Nat} (above : doc.parent? c = some p) : c < doc.size := by
  obtain ⟨cell, found, _⟩ := Option.bind_eq_some_iff.mp above
  exact cell?_lt found

theorem lt_of_mem_children {p c : Nat} (member : c ∈ doc.children p) : p < doc.size := by
  cases found : doc.cell? p with
  | none => simp [children, found] at member
  | some cell => exact cell?_lt found

theorem parent?_of_size_le {id : Nat} (beyond : doc.size ≤ id) : doc.parent? id = none := by
  cases found : doc.parent? id with
  | none => rfl
  | some p => exact absurd (lt_of_parent? found) (Nat.not_lt_of_le beyond)

theorem children_of_size_le {id : Nat} (beyond : doc.size ≤ id) : doc.children id = [] := by
  rw [children, cell?, Array.getElem?_eq_none beyond]

theorem children_congr {id other : Nat} (same : next.cell? id = doc.cell? other) :
    next.children id = doc.children other := by
  rw [children, same, children]

end Links

namespace Consistent

variable {doc : Document}

theorem above (consistent : doc.Consistent) {p c : Nat} (member : c ∈ doc.children p) : p < c ∧ c < doc.size :=
  have linked := (consistent.linked p c).mp member
  ⟨consistent.rising p c linked, lt_of_parent? linked⟩

-- No node is in two lists of children.
theorem unique (consistent : doc.Consistent) {p q c : Nat} (first : c ∈ doc.children p) (second : c ∈ doc.children q) :
    p = q := by
  have left := (consistent.linked p c).mp first
  rw [(consistent.linked q c).mp second] at left
  exact (Option.some.inj left).symm

theorem empty : Document.empty.Consistent where
  linked p c := by simp [children, parent?, cell?, Document.empty]
  distinct p := by simp [children, cell?, Document.empty]
  rising p c above := by simp [parent?, cell?, Document.empty] at above

end Consistent

-- The nodes from one position to another are linked among themselves, apart from the roots, which have a parent
-- elsewhere.
structure Grown (doc : Document) (start stop : Nat) (parent : Option Nat) (roots : List Nat) : Prop where
  within : ∀ r ∈ roots, start ≤ r ∧ r < stop
  apart : roots.Nodup
  top : ∀ r ∈ roots, doc.parent? r = parent
  up : ∀ c, start ≤ c → c < stop → c ∉ roots → ∃ p, start ≤ p ∧ p < c ∧ doc.parent? c = some p ∧ c ∈ doc.children p
  down : ∀ p, start ≤ p → p < stop → ∀ c : Nat, c ∈ doc.children p → p < c ∧ c < stop ∧ doc.parent? c = some p
  distinct : ∀ p, start ≤ p → p < stop → (doc.children p).Nodup

namespace Grown

variable {doc : Document} {start middle stop : Nat} {parent : Option Nat}

theorem nil : Grown doc start start parent [] where
  within := nofun
  apart := .nil
  top := nofun
  up c least most := by omega
  down p least most := by omega
  distinct p least most := by omega

theorem append {front back : List Nat} (first : Grown doc start middle parent front)
    (second : Grown doc middle stop parent back) (order : start ≤ middle ∧ middle ≤ stop) :
    Grown doc start stop parent (front ++ back) where
  within r member := by
    rcases List.mem_append.mp member with early | late
    · have := first.within r early
      omega
    · have := second.within r late
      omega
  apart := by
    refine List.nodup_append.mpr ⟨first.apart, second.apart, ?_⟩
    intro r early q late same
    have := first.within r early
    have := second.within q late
    omega
  top r member := (List.mem_append.mp member).elim (first.top r) (second.top r)
  up c least most other := by
    rw [List.mem_append, not_or] at other
    by_cases early : c < middle
    · exact first.up c least early other.1
    · obtain ⟨p, bound, linked⟩ := second.up c (by omega) most other.2
      exact ⟨p, by omega, linked⟩
  down p least most c member := by
    by_cases early : p < middle
    · obtain ⟨later, bound, linked⟩ := first.down p least early c member
      exact ⟨later, by omega, linked⟩
    · exact second.down p (by omega) most c member
  distinct p least most := by
    by_cases early : p < middle
    · exact first.distinct p least early
    · exact second.distinct p (by omega) most

theorem node {item : Item} {roots : List Nat} (found : doc.cell? start = some ⟨item, parent, roots⟩)
    (below : Grown doc (start + 1) stop (some start) roots) (order : start < stop) :
    Grown doc start stop parent [start] where
  within r member := by
    have same := List.mem_singleton.mp member
    omega
  apart := by simp
  top r member := by rw [List.mem_singleton.mp member, parent?_of_cell? found]
  up c least most other := by
    have later : start ≠ c := fun same => other (by simp [same])
    by_cases root : c ∈ roots
    · refine ⟨start, Nat.le_refl _, by omega, below.top c root, ?_⟩
      rwa [children_of_cell? found]
    · obtain ⟨p, bound, linked⟩ := below.up c (by omega) most root
      exact ⟨p, by omega, linked⟩
  down p least most c member := by
    by_cases same : p = start
    · subst same
      rw [children_of_cell? found] at member
      have bounds := below.within c member
      exact ⟨by omega, bounds.2, below.top c member⟩
    · exact below.down p (by omega) most c member
  distinct p least most := by
    by_cases same : p = start
    · subst same
      rw [children_of_cell? found]
      exact below.apart
    · exact below.distinct p (by omega) most

end Grown

mutual

theorem Holds.grown {doc : Document} {shift : Nat} : ∀ {start : Nat} {parent : Option Nat} {node : Node},
    doc.Holds parent (Tree.place shift start node) → Grown doc start (start + node.size) parent [start]
  | start, parent, .tag identity tag children location, holds => by
    have below := HoldsAll.grown holds.2
    refine .node holds.1 ?_ (by simp only [Node.size]; omega)
    rwa [Nat.add_assoc] at below
  | start, parent, .leaf identity leaf location, holds => .node holds.1 .nil (by simp only [Node.size]; omega)

theorem HoldsAll.grown {doc : Document} {shift : Nat} : ∀ {start : Nat} {parent : Option Nat} {nodes : List Node},
    doc.HoldsAll parent (Tree.placeAll shift start nodes) →
    Grown doc start (start + Node.totalSize nodes) parent ((Tree.placeAll shift start nodes).map Tree.id)
  | start, parent, [], _ => .nil
  | start, parent, first :: rest, holds => by
    have head := Holds.grown holds.1
    have tail := HoldsAll.grown holds.2
    rw [Nat.add_assoc] at tail
    have both := head.append tail ⟨by omega, by omega⟩
    cases first <;> exact both

end

section Steps

variable {doc next : Document}

theorem Consistent.of_grown {roots : List Nat} (grown : Grown doc 0 doc.size none roots) : doc.Consistent where
  linked p c := by
    refine ⟨fun member => (grown.down p (Nat.zero_le _) (lt_of_mem_children member) c member).2.2, fun linked => ?_⟩
    have bound := lt_of_parent? linked
    by_cases root : c ∈ roots
    · rw [grown.top c root] at linked
      cases linked
    · obtain ⟨q, _, _, same, member⟩ := grown.up c (Nat.zero_le _) bound root
      rw [linked] at same
      cases same
      exact member
  distinct p := by
    by_cases bound : p < doc.size
    · exact grown.distinct p (Nat.zero_le _) bound
    · rw [children_of_size_le (Nat.le_of_not_lt bound)]
      exact .nil
  rising p c linked := by
    by_cases root : c ∈ roots
    · rw [grown.top c root] at linked
      cases linked
    · obtain ⟨q, _, less, same, _⟩ := grown.up c (Nat.zero_le _) (lt_of_parent? linked) root
      rw [linked] at same
      cases same
      exact less

-- A page is copied into the empty document.
theorem consistent_imported (nodes : List Node) : (Operation.apply .empty (.imported nodes)).Consistent := by
  have grown := (holds_importShifted .empty 0 nodes none).grown
  have size := size_importShifted .empty 0 nodes none
  rw [← size] at grown
  exact .of_grown grown

section Pushed

variable {cell : Cell}

theorem parent?_push (alone : cell.parent = none) (id : Nat) : (doc.push cell).2.parent? id = doc.parent? id := by
  rw [parent?, cell?_push]
  split
  · rename_i last
    rw [last, Option.bind_some, alone, parent?_of_size_le (Nat.le_refl _)]
  · rfl

theorem children_push (childless : cell.children = []) (id : Nat) :
    (doc.push cell).2.children id = doc.children id := by
  by_cases last : id = doc.size
  · rw [children_of_cell? (by rw [cell?_push, if_pos last]), childless, last, children_of_size_le (Nat.le_refl _)]
  · exact children_congr (by rw [cell?_push, if_neg last])

-- A new node without links.
theorem Consistent.push (consistent : doc.Consistent) (alone : cell.parent = none) (childless : cell.children = []) :
    (doc.push cell).2.Consistent := by
  refine ⟨fun p c => ?_, fun p => ?_, fun p c => ?_⟩
  · rw [children_push childless, parent?_push alone]
    exact consistent.linked p c
  · rw [children_push childless]
    exact consistent.distinct p
  · rw [parent?_push alone]
    exact consistent.rising p c

end Pushed

theorem consistent_linked (consistent : doc.Consistent) (fragments : Fragments) (tag : Nat) :
    (Operation.apply doc (.linked fragments tag)).Consistent := by
  show (fragments.link doc tag).2.2.Consistent
  unfold Fragments.link
  split
  · exact consistent
  · exact consistent.push rfl rfl

section Appended

variable {fragments : Fragments} {fragment id : Nat} {name : String} {advance : Bool}

theorem parent?_appended (old : id < doc.size) (placed : fragments.cursor fragment < doc.size) (k : Nat) :
    (fragments.appended doc name advance fragment id).parent? k =
      if k = doc.size then some (fragments.cursor fragment) else doc.parent? k := by
  obtain ⟨cell, found⟩ := cell?_of_lt old
  rw [parent?, fragments.cell?_appended doc name advance found placed]
  split
  · rfl
  · split
    · rw [parent?]
      cases doc.cell? k <;> rfl
    · rfl

theorem children_appended (old : id < doc.size) (placed : fragments.cursor fragment < doc.size) (k : Nat) :
    (fragments.appended doc name advance fragment id).children k =
      if k = fragments.cursor fragment then doc.children k ++ [doc.size] else doc.children k := by
  obtain ⟨cell, found⟩ := cell?_of_lt old
  rw [children, fragments.cell?_appended doc name advance found placed]
  by_cases last : k = doc.size
  · subst last
    rw [if_pos rfl, if_neg (Nat.ne_of_gt placed), children_of_size_le (Nat.le_refl _)]
  · rw [if_neg last]
    by_cases here : k = fragments.cursor fragment
    · subst here
      obtain ⟨top, there⟩ := cell?_of_lt placed
      rw [if_pos rfl, if_pos rfl, there, children_of_cell? there]
      rfl
    · rw [if_neg here, if_neg here, children]

-- A copy becomes the last child of the node at the cursor.
theorem consistent_appended (consistent : doc.Consistent) (old : id < doc.size)
    (placed : fragments.cursor fragment < doc.size) :
    (fragments.appended doc name advance fragment id).Consistent := by
  have outside : ∀ p, doc.size ∉ doc.children p := by
    intro p member
    exact absurd (consistent.above member).2 (Nat.lt_irrefl _)
  refine ⟨fun p c => ?_, fun p => ?_, fun p c linked => ?_⟩
  · rw [children_appended old placed, parent?_appended old placed]
    by_cases last : c = doc.size
    · subst last
      rw [if_pos rfl]
      split
      · rename_i here
        simp [here]
      · rename_i other
        simp [outside p, Ne.symm other]
    · rw [if_neg last, ← consistent.linked p c]
      split
      · simp [last]
      · rfl
  · rw [children_appended old placed]
    split
    · refine List.nodup_append.mpr ⟨consistent.distinct p, by simp, ?_⟩
      intro c member d single same
      rw [List.mem_singleton] at single
      exact outside p (by rwa [← single, ← same])
    · exact consistent.distinct p
  · rw [parent?_appended old placed] at linked
    split at linked
    · rename_i last
      cases linked
      rwa [last]
    · exact consistent.rising p c linked

end Appended

section Inlined

variable (shift : Nat) (nodes : List Node) {target : Nat}

theorem children_modify (doc : Document) (key : Nat) (change : Cell → Cell) (id : Nat) :
    (doc.modify key change).children id =
      if id = key then ((doc.cell? id).map fun cell => (change cell).children).getD [] else doc.children id := by
  rw [children, cell?_modify]
  by_cases same : id = key
  · rw [if_pos same, if_pos same]
    cases doc.cell? id <;> rfl
  · rw [if_neg same, if_neg same, children]

theorem children_setParent (doc : Document) (parent : Option Nat) (key id : Nat) :
    (doc.setParent parent key).children id = doc.children id := by
  rw [setParent, children_modify, children]
  split <;> cases doc.cell? id <;> rfl

theorem children_setParents (doc : Document) (parent : Option Nat) (roots : List Nat) (id : Nat) :
    (roots.foldl (setParent · parent) doc).children id = doc.children id := by
  induction roots generalizing doc with
  | nil => rfl
  | cons root rest ih => rw [List.foldl_cons, ih, children_setParent]

-- A splice changes the children of one node.
theorem children_splice (doc : Document) (target : Nat) (roots : List Nat) (id : Nat) :
    (doc.splice target roots).children id =
      if doc.parent? target = some id then replaceFirst target roots (doc.children id) else doc.children id := by
  unfold splice
  cases doc.parent? target with
  | none => rw [children_setParent, children_setParents, if_neg (by simp)]
  | some above =>
    rw [children_setParent, children_modify, children_setParents]
    by_cases same : id = above
    · rw [if_pos same, if_pos (congrArg some same.symm), children, cell?_setParents]
      cases found : doc.cell? id with
      | none => split <;> rfl
      | some cell => split <;> rfl
    · rw [if_neg same, if_neg fun other => same (Option.some.inj other).symm]

theorem parent?_splice_target (doc : Document) (target : Nat) (roots : List Nat) :
    (doc.splice target roots).parent? target = none := by
  rw [splice, setParent, parent?, cell?_modify, if_pos rfl, Option.bind_map]
  exact Option.bind_fun_none _

theorem parent?_inlining (old : target < doc.size) {id : Nat} (before : id < doc.size) :
    (doc.inlining shift nodes target).parent? id = if id = target then none else doc.parent? id := by
  split
  · rename_i same
    rw [same, inlining, parent?_splice_target]
  · rename_i other
    rw [parent?, cell?_inlining doc shift nodes old before other]
    split
    · rw [parent?]
      cases doc.cell? id <;> rfl
    · rfl

theorem children_importShifted (parent : Option Nat) {id : Nat} (before : id < doc.size) :
    (doc.importShifted shift nodes parent).2.children id = doc.children id :=
  children_congr (doc.cell?_importShifted shift nodes parent before)

theorem children_inlining (old : target < doc.size) {id : Nat} (before : id < doc.size) :
    (doc.inlining shift nodes target).children id = if doc.parent? target = some id then
      replaceFirst target ((Tree.placeAll shift doc.size nodes).map Tree.id) (doc.children id) else doc.children id := by
  rw [inlining, children_splice, doc.parent?_importShifted _ _ _ old, children_importShifted _ _ _ before]

theorem grown_inlining (old : target < doc.size) (above : ∀ id, doc.parent? target = some id → id < doc.size) :
    Grown (doc.inlining shift nodes target) doc.size (doc.size + Node.totalSize nodes) (doc.parent? target)
      ((Tree.placeAll shift doc.size nodes).map Tree.id) :=
  (holds_inlining doc shift nodes old above).grown

-- The first occurrence is replaced where it stands.
theorem replaceFirst_append {roots front back : List Nat} (first : target ∉ front) :
    replaceFirst target roots (front ++ target :: back) = front ++ roots ++ back := by
  induction front with
  | nil => simp [replaceFirst]
  | cons id rest ih =>
    rw [List.mem_cons, not_or] at first
    rw [List.cons_append, replaceFirst, if_neg (Ne.symm first.1), ih first.2]
    rfl

theorem nodup_replaced {roots front back : List Nat} {bound : Nat} (distinct : (front ++ target :: back).Nodup)
    (apart : roots.Nodup) (below : ∀ c ∈ front ++ target :: back, c < bound) (above : ∀ c ∈ roots, bound ≤ c) :
    (front ++ roots ++ back).Nodup := by
  obtain ⟨first, rest, other⟩ := List.nodup_append.mp distinct
  refine List.nodup_append.mpr ⟨List.nodup_append.mpr ⟨first, apart, ?_⟩, (List.nodup_cons.mp rest).2, ?_⟩
  · intro c early r root same
    have := below c (List.mem_append_left _ early)
    have := above r root
    omega
  · intro c member d late same
    rcases List.mem_append.mp member with early | root
    · exact other c early d (List.mem_cons_of_mem _ late) same
    · have := below d (List.mem_append_right _ (List.mem_cons_of_mem _ late))
      have := above c root
      omega

theorem Consistent.split (consistent : doc.Consistent) {p : Nat} (above : doc.parent? target = some p) :
    ∃ front back, doc.children p = front ++ target :: back ∧ target ∉ front ∧ target ∉ back := by
  obtain ⟨front, back, same⟩ := List.append_of_mem ((consistent.linked p target).mpr above)
  have distinct := consistent.distinct p
  rw [same, List.nodup_append] at distinct
  refine ⟨front, back, same, fun early => ?_, (List.nodup_cons.mp distinct.2.1).1⟩
  exact distinct.2.2 target early target List.mem_cons_self rfl

-- The roots stand in the place of the target, in their order. No other list of children changes, and the target has no
-- parent any more.
structure Replaces (doc next : Document) (target : Nat) (roots : List Nat) : Prop where
  here : ∀ p : Nat, doc.parent? target = some p → ∃ front back, doc.children p = front ++ target :: back ∧
    target ∉ front ∧ target ∉ back ∧ next.children p = front ++ roots ++ back
  others : ∀ p : Nat, doc.parent? target ≠ some p → next.children p = doc.children p
  detached : next.parent? target = none

theorem Consistent.replaces (consistent : doc.Consistent) (old : target < doc.size) :
    Replaces (doc.importShifted shift nodes (doc.parent? target)).2 (doc.inlining shift nodes target) target
      ((Tree.placeAll shift doc.size nodes).map Tree.id) where
  here p above := by
    rw [doc.parent?_importShifted _ _ _ old] at above
    obtain ⟨front, back, same, early, late⟩ := consistent.split above
    have before : p < doc.size := Nat.lt_trans (consistent.rising p target above) old
    refine ⟨front, back, ?_, early, late, ?_⟩
    · rw [children_importShifted _ _ _ before, same]
    · rw [children_inlining shift nodes old before, if_pos above, same, replaceFirst_append early]
  others p other := by rw [inlining, children_splice, if_neg other]
  detached := parent?_splice_target _ _ _

theorem Consistent.replaced (consistent : doc.Consistent) (old : target < doc.size) {p : Nat}
    (above : doc.parent? target = some p) : ∃ front back, doc.children p = front ++ target :: back ∧
      target ∉ front ∧ target ∉ back ∧ (doc.inlining shift nodes target).children p =
        front ++ (Tree.placeAll shift doc.size nodes).map Tree.id ++ back := by
  have found := (consistent.replaces shift nodes old).here p ((doc.parent?_importShifted _ _ _ old).trans above)
  rwa [children_importShifted _ _ _ (Nat.lt_trans (consistent.rising p target above) old)] at found

-- A node that was copied in is a root, with the parent of the target, or lies below another one.
theorem Consistent.root_or_below (consistent : doc.Consistent) (old : target < doc.size) {p c : Nat}
    (new : doc.size ≤ c) (linked : (doc.inlining shift nodes target).parent? c = some p) :
    c ∈ (Tree.placeAll shift doc.size nodes).map Tree.id ∧ doc.parent? target = some p ∨
      doc.size ≤ p ∧ p < c ∧ c ∈ (doc.inlining shift nodes target).children p := by
  have lower : ∀ p, doc.parent? target = some p → p < doc.size :=
    fun p above => Nat.lt_trans (consistent.rising p target above) old
  have grown := grown_inlining shift nodes old lower
  have bound := lt_of_parent? linked
  rw [doc.size_inlining shift nodes target] at bound
  by_cases root : c ∈ (Tree.placeAll shift doc.size nodes).map Tree.id
  · rw [grown.top c root] at linked
    exact .inl ⟨root, linked⟩
  · obtain ⟨q, least, less, same, member⟩ := grown.up c new bound root
    rw [linked] at same
    cases same
    exact .inr ⟨least, less, member⟩

theorem Consistent.lower (consistent : doc.Consistent) (old : target < doc.size) (p : Nat)
    (above : doc.parent? target = some p) : p < doc.size :=
  Nat.lt_trans (consistent.rising p target above) old

-- The links among the new nodes.
theorem Consistent.linked_new (consistent : doc.Consistent) (old : target < doc.size) {p : Nat} (new : doc.size ≤ p)
    (c : Nat) : c ∈ (doc.inlining shift nodes target).children p ↔
      (doc.inlining shift nodes target).parent? c = some p := by
  have grown := grown_inlining shift nodes old (consistent.lower old)
  refine ⟨fun member => ?_, fun linked => ?_⟩
  · have bound := lt_of_mem_children member
    rw [doc.size_inlining shift nodes target] at bound
    exact (grown.down p new bound c member).2.2
  · by_cases before : c < doc.size
    · rw [parent?_inlining shift nodes old before] at linked
      split at linked
      · cases linked
      · have less := consistent.rising p c linked
        omega
    · rcases consistent.root_or_below shift nodes old (Nat.le_of_not_lt before) linked with ⟨_, own⟩ | ⟨_, _, member⟩
      · exact absurd (consistent.lower old p own) (Nat.not_lt_of_le new)
      · exact member

-- The links of the node that has the roots in the place of the target.
theorem Consistent.linked_parent (consistent : doc.Consistent) (old : target < doc.size) {p : Nat}
    (above : doc.parent? target = some p) (c : Nat) : c ∈ (doc.inlining shift nodes target).children p ↔
      (doc.inlining shift nodes target).parent? c = some p := by
  have grown := grown_inlining shift nodes old (consistent.lower old)
  obtain ⟨front, back, same, early, late, replaced⟩ := consistent.replaced shift nodes old above
  have own : c ∈ front ∨ c ∈ back ↔ doc.parent? c = some p ∧ c ≠ target := by
    rw [← consistent.linked p c, same, List.mem_append, List.mem_cons]
    grind
  rw [replaced, List.mem_append, List.mem_append]
  by_cases before : c < doc.size
  · have outside : c ∉ (Tree.placeAll shift doc.size nodes).map Tree.id :=
      fun root => absurd (doc.roots_new shift nodes root) (Nat.not_le_of_lt before)
    rw [parent?_inlining shift nodes old before]
    simp only [outside, or_false, own]
    split
    · rename_i own
      simp [own]
    · rename_i other
      simp [other]
  · refine ⟨fun member => ?_, fun linked => ?_⟩
    · rcases member with (early | root) | late
      · exact absurd (lt_of_parent? (own.mp (.inl early)).1) before
      · rw [grown.top c root, above]
      · exact absurd (lt_of_parent? (own.mp (.inr late)).1) before
    · rcases consistent.root_or_below shift nodes old (Nat.le_of_not_lt before) linked with ⟨root, _⟩ | ⟨beyond, _⟩
      · exact .inl (.inr root)
      · exact absurd (consistent.lower old p above) (Nat.not_lt_of_le beyond)

-- The links of the others.
theorem Consistent.linked_other (consistent : doc.Consistent) (old : target < doc.size) {p : Nat} (before : p < doc.size)
    (other : doc.parent? target ≠ some p) (c : Nat) : c ∈ (doc.inlining shift nodes target).children p ↔
      (doc.inlining shift nodes target).parent? c = some p := by
  rw [children_inlining shift nodes old before, if_neg other, consistent.linked p c]
  refine ⟨fun linked => ?_, fun linked => ?_⟩
  · have apart : c ≠ target := fun same => other (same ▸ linked)
    rw [parent?_inlining shift nodes old (lt_of_parent? linked), if_neg apart, linked]
  · by_cases early : c < doc.size
    · rw [parent?_inlining shift nodes old early] at linked
      split at linked
      · cases linked
      · exact linked
    · rcases consistent.root_or_below shift nodes old (Nat.le_of_not_lt early) linked with ⟨_, own⟩ | ⟨beyond, _⟩
      · exact absurd own other
      · exact absurd before (Nat.not_lt_of_le beyond)

-- A file that takes the place of a tag.
theorem consistent_inlining (consistent : doc.Consistent) (old : target < doc.size) :
    (doc.inlining shift nodes target).Consistent := by
  have grown := grown_inlining shift nodes old (consistent.lower old)
  refine ⟨fun p c => ?_, fun p => ?_, fun p c linked => ?_⟩
  · by_cases before : p < doc.size
    · by_cases above : doc.parent? target = some p
      · exact consistent.linked_parent shift nodes old above c
      · exact consistent.linked_other shift nodes old before above c
    · exact consistent.linked_new shift nodes old (Nat.le_of_not_lt before) c
  · by_cases before : p < doc.size
    · by_cases above : doc.parent? target = some p
      · obtain ⟨front, back, same, _, _, replaced⟩ := consistent.replaced shift nodes old above
        have distinct := consistent.distinct p
        rw [same] at distinct
        rw [replaced]
        exact nodup_replaced distinct grown.apart
          (fun c member => (consistent.above (same ▸ member)).2) fun c root => doc.roots_new shift nodes root
      · rw [children_inlining shift nodes old before, if_neg above]
        exact consistent.distinct p
    · by_cases bound : p < (doc.inlining shift nodes target).size
      · rw [doc.size_inlining shift nodes target] at bound
        exact grown.distinct p (Nat.le_of_not_lt before) bound
      · rw [children_of_size_le (Nat.le_of_not_lt bound)]
        exact .nil
  · by_cases before : c < doc.size
    · rw [parent?_inlining shift nodes old before] at linked
      split at linked
      · cases linked
      · exact consistent.rising p c linked
    · rcases consistent.root_or_below shift nodes old (Nat.le_of_not_lt before) linked with ⟨_, own⟩ | ⟨_, less, _⟩
      · exact Nat.lt_of_lt_of_le (consistent.lower old p own) (Nat.le_of_not_lt before)
      · exact less

end Inlined

end Steps

section Items

-- What a node is, without its links.
def item? (doc : Document) (id : Nat) : Option Item := (doc.cell? id).map Cell.item

variable (doc : Document) (id : Nat)

theorem item?_modify (key : Nat) {change : Cell → Cell} (keeps : ∀ cell, (change cell).item = cell.item) :
    (doc.modify key change).item? id = doc.item? id := by
  rw [item?, item?, cell?_modify]
  split
  · cases doc.cell? id with
    | none => rfl
    | some cell => exact congrArg some (keeps cell)
  · rfl

theorem item?_setParents (parent : Option Nat) (roots : List Nat) :
    (roots.foldl (setParent · parent) doc).item? id = doc.item? id := by
  induction roots generalizing doc with
  | nil => rfl
  | cons root rest ih =>
    rw [List.foldl_cons, ih]
    exact doc.item?_modify id root fun _ => rfl

theorem item?_splice (target : Nat) (roots : List Nat) : (doc.splice target roots).item? id = doc.item? id := by
  refine Eq.trans (item?_modify _ id target fun _ => rfl) ?_
  split
  · exact Eq.trans (item?_modify _ id _ fun _ => rfl) (doc.item?_setParents id _ roots)
  · exact doc.item?_setParents id _ roots

variable {doc id}

theorem tagName?_of_item? {identity : Nat} {tag : Tag} {location : Location}
    (found : doc.item? id = some ⟨identity, .tag tag, location⟩) : doc.tagName? id = some tag.name := by
  obtain ⟨cell, here, same⟩ := Option.map_eq_some_iff.mp found
  obtain ⟨item, above, children⟩ := cell
  cases same
  rw [tagName?, here]

-- The name of a tag belongs to its item.
theorem tagName?_congr {next : Document} (same : next.item? id = doc.item? id) : next.tagName? id = doc.tagName? id := by
  rw [item?, item?] at same
  rw [tagName?, tagName?]
  cases before : doc.cell? id with
  | none =>
    rw [before, Option.map_none, Option.map_eq_none_iff] at same
    rw [same]
  | some cell =>
    rw [before, Option.map_some, Option.map_eq_some_iff] at same
    obtain ⟨⟨item, above, children⟩, after, rfl⟩ := same
    rw [after]
    obtain ⟨⟨identity, content, location⟩, _, _⟩ := cell
    cases content <;> rfl

theorem item?_push (cell : Cell) (bound : id < doc.size) : (doc.push cell).2.item? id = doc.item? id := by
  rw [item?, cell?_push, if_neg (Nat.ne_of_lt bound), item?]

-- No change touches the items that are there.
theorem item?_apply (operation : Operation) (bound : id < doc.size) :
    (operation.apply doc).item? id = doc.item? id := by
  cases operation with
  | imported nodes => rw [item?, Operation.apply, importPage, cell?_importShifted _ _ _ _ bound, item?]
  | included target nodes =>
    rw [Operation.apply, item?_splice, item?, importFresh, cell?_importShifted _ _ _ _ bound, item?]
  | linked fragments tag =>
    rw [Operation.apply, Fragments.link]
    split
    · rfl
    · exact item?_push _ bound
  | appended fragments fragment original name advance =>
    refine Eq.trans (item?_modify _ id _ fun _ => rfl) (Eq.trans (item?_modify _ id _ fun _ => rfl) ?_)
    show (doc.cloneDetached original name).2.item? id = doc.item? id
    rw [cloneDetached]
    split
    · exact item?_push _ bound
    · rfl

end Items

section Reading

variable {doc : Document}

-- A search upwards from a node for the nearest one above that is neither control flow nor an attribute.
inductive Above (doc : Document) : Nat → Option Nat → Prop
  | top {id : Nat} (alone : doc.parent? id = none) : Above doc id none
  | found {id p : Nat} (linked : doc.parent? id = some p) (other : (doc.tagName? p).any TagKind.isReserved = false) :
    Above doc id (some p)
  | further {id p : Nat} {result : Option Nat} (linked : doc.parent? id = some p)
    (reserved : (doc.tagName? p).any TagKind.isReserved = true) (rest : Above doc p result) : Above doc id result

-- The positions become smaller, so the search comes to an end.
theorem Consistent.exists_above (consistent : doc.Consistent) (id : Nat) : ∃ result, Above doc id result := by
  induction id using Nat.strongRecOn with
  | ind id ih =>
    cases linked : doc.parent? id with
    | none => exact ⟨none, .top linked⟩
    | some p =>
      cases reserved : (doc.tagName? p).any TagKind.isReserved with
      | false => exact ⟨some p, .found linked reserved⟩
      | true =>
        obtain ⟨result, rest⟩ := ih p (consistent.rising p id linked)
        exact ⟨result, .further linked reserved rest⟩

-- A search upwards for the topmost node.
inductive Tops (doc : Document) : Nat → Nat → Prop
  | top {id : Nat} (alone : doc.parent? id = none) : Tops doc id id
  | further {id p root : Nat} (linked : doc.parent? id = some p) (rest : Tops doc p root) : Tops doc id root

theorem Consistent.tops_climb (consistent : doc.Consistent) {limit id : Nat} (enough : id ≤ limit) :
    Tops doc id (doc.climb limit id) := by
  induction limit generalizing id with
  | zero =>
    cases linked : doc.parent? id with
    | none => exact .top linked
    | some p =>
      have less := consistent.rising p id linked
      omega
  | succ limit ih =>
    rw [climb]
    cases linked : doc.parent? id with
    | none => exact .top linked
    | some p =>
      have less := consistent.rising p id linked
      exact .further linked (ih (by omega))

-- The topmost node is reached before the limit is.
theorem Consistent.tops_rootOf (consistent : doc.Consistent) (id : Nat) : Tops doc id (doc.rootOf id) := by
  by_cases bound : id < doc.size
  · exact consistent.tops_climb (Nat.le_of_lt bound)
  · have alone : doc.parent? id = none := parent?_of_size_le (Nat.le_of_not_lt bound)
    rw [rootOf]
    cases doc.size with
    | zero => exact .top alone
    | succ limit =>
      rw [climb, alone]
      exact .top alone

theorem within_treesWithin (limit : Nat) (ids : List Nat) :
    Tree.AllWithin (· < doc.size) (doc.treesWithin limit ids) := by
  induction limit generalizing ids with
  | zero => trivial
  | succ limit ih =>
    rw [treesWithin]
    induction ids with
    | nil => trivial
    | cons id rest tail =>
      rw [List.filterMap_cons]
      cases found : doc.cell? id with
      | none => exact tail
      | some cell => exact ⟨⟨cell?_lt found, ih cell.children⟩, tail⟩

theorem Consistent.allRise_treesWithin (consistent : doc.Consistent) (limit : Nat) {ids : List Nat} {bound : Nat}
    (least : ∀ id ∈ ids, bound ≤ id) : Tree.AllRise bound (doc.treesWithin limit ids) := by
  induction limit generalizing ids bound with
  | zero => trivial
  | succ limit ih =>
    rw [treesWithin]
    induction ids with
    | nil => trivial
    | cons id rest tail =>
      have behind := tail fun other member => least other (List.mem_cons_of_mem _ member)
      rw [List.filterMap_cons]
      cases found : doc.cell? id with
      | none => exact behind
      | some cell =>
        refine ⟨⟨least id List.mem_cons_self, ih fun child member => ?_⟩, behind⟩
        rw [← children_of_cell? found] at member
        exact (consistent.above member).1

-- What is read below a node stands behind it.
theorem Consistent.allRise_treesBelow (consistent : doc.Consistent) (id : Nat) :
    Tree.AllRise (id + 1) (doc.treesBelow id) :=
  consistent.allRise_treesWithin doc.size fun _ member => (consistent.above member).1

end Reading

end Document

end Stencil
