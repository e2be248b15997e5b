import Stencil.Proofs.Standing

-- What the walk hands down to a node, and what a search upwards from the node finds. A node of the content is given the
-- fragment that takes its attributes and the switch that is its parent; a node of a fragment is given the number of the
-- attributes it belongs to. The document has the same answers, as long as those above a node stay where they are.

namespace Stencil

namespace Document

variable {doc next : Document} {parent : Option Nat}

-- The parent of a node, if it is a switch.
def switchAt (doc : Document) (parent : Option Nat) : Option Nat :=
  parent.filter fun p => (doc.tagName? p).any TagKind.isSwitch

mutual

-- The trees stand in the document below a parent. Nothing is said of what else stands there.
def Carries (doc : Document) (parent : Option Nat) : Tree → Prop
  | .node id item children => (doc.parent? id = parent ∧ doc.item? id = some item) ∧ CarriesAll doc (some id) children

def CarriesAll (doc : Document) (parent : Option Nat) : List Tree → Prop
  | [] => True
  | tree :: rest => Carries doc parent tree ∧ CarriesAll doc parent rest

end

mutual

theorem Holds.carries : ∀ {parent : Option Nat} {tree : Tree}, Holds doc parent tree → Carries doc parent tree
  | _, .node _ _ _, holds => by
    refine ⟨⟨parent?_of_cell? holds.1, ?_⟩, HoldsAll.carries holds.2⟩
    rw [item?, holds.1]
    rfl

theorem HoldsAll.carries : ∀ {parent : Option Nat} {trees : List Tree}, HoldsAll doc parent trees →
    CarriesAll doc parent trees
  | _, [], _ => trivial
  | _, _ :: _, holds => ⟨holds.1.carries, HoldsAll.carries holds.2⟩

end

mutual

theorem Carries.transfer {allowed : Nat → Prop}
    (same : ∀ id, allowed id → next.parent? id = doc.parent? id ∧ next.item? id = doc.item? id) :
    ∀ {parent : Option Nat} {tree : Tree}, Tree.Within allowed tree → Carries doc parent tree → Carries next parent tree
  | _, .node id _ _, within, carries =>
    ⟨⟨(same id within.1).1.trans carries.1.1, (same id within.1).2.trans carries.1.2⟩,
      CarriesAll.transfer same within.2 carries.2⟩

theorem CarriesAll.transfer {allowed : Nat → Prop}
    (same : ∀ id, allowed id → next.parent? id = doc.parent? id ∧ next.item? id = doc.item? id) :
    ∀ {parent : Option Nat} {trees : List Tree}, Tree.AllWithin allowed trees → CarriesAll doc parent trees →
      CarriesAll next parent trees
  | _, [], _, _ => trivial
  | _, _ :: _, within, carries => ⟨carries.1.transfer same within.1, CarriesAll.transfer same within.2 carries.2⟩

end

theorem CarriesAll.root {trees : List Tree} (carries : doc.CarriesAll parent trees) :
    ∀ tree ∈ trees, doc.parent? tree.id = parent := by
  induction trees with
  | nil => exact List.forall_mem_nil _
  | cons tree rest ih =>
    obtain ⟨id, item, children⟩ := tree
    exact List.forall_mem_cons.mpr ⟨carries.1.1.1, ih carries.2⟩

-- What is read below a node stands there.
theorem Consistent.carries_treesWithin (consistent : doc.Consistent) (limit : Nat) {ids : List Nat} {parent : Option Nat}
    (below : ∀ id ∈ ids, doc.parent? id = parent) : doc.CarriesAll parent (doc.treesWithin limit ids) := by
  induction limit generalizing ids parent with
  | zero => trivial
  | succ limit ih =>
    rw [treesWithin]
    induction ids with
    | nil => trivial
    | cons id rest tail =>
      obtain ⟨here, behind⟩ := List.forall_mem_cons.mp below
      rw [List.filterMap_cons]
      cases found : doc.cell? id with
      | none => exact tail behind
      | some cell =>
        refine ⟨⟨⟨here, by rw [item?, found]; rfl⟩, ih fun child member => ?_⟩, tail behind⟩
        rw [← children_of_cell? found] at member
        exact (consistent.linked id child).mp member

theorem Consistent.carries_treesBelow (consistent : doc.Consistent) (id : Nat) :
    doc.CarriesAll (some id) (doc.treesBelow id) :=
  consistent.carries_treesWithin doc.size fun child member => (consistent.linked id child).mp member

section Searches

-- The searches only read what stands above a node, which is all in front of its parent.

-- From a node whose parent is the same, also in another document.
theorem Above.transfer (consistent : doc.Consistent) {id other : Nat} {result : Option Nat} (above : Above doc id result)
    (own : next.parent? other = doc.parent? id)
    (same : ∀ p k : Nat, doc.parent? id = some p → k ≤ p →
      next.parent? k = doc.parent? k ∧ next.item? k = doc.item? k) : Above next other result := by
  induction above generalizing other with
  | top alone => exact .top (own.trans alone)
  | @found id p linked name =>
    refine .found (own.trans linked) ?_
    rw [tagName?_congr (same p p linked (Nat.le_refl p)).2, name]
  | @further id p result linked reserved rest ih =>
    obtain ⟨kept, item⟩ := same p p linked (Nat.le_refl p)
    refine .further (own.trans linked) ?_ (ih kept fun q k higher low => same p k linked ?_)
    · rw [tagName?_congr item, reserved]
    · exact Nat.le_trans low (Nat.le_of_lt (consistent.rising q p higher))

theorem Tops.transfer (consistent : doc.Consistent) {id root : Nat} (tops : Tops doc id root)
    (own : next.parent? id = doc.parent? id)
    (same : ∀ p k : Nat, doc.parent? id = some p → k ≤ p → next.parent? k = doc.parent? k) : Tops next id root := by
  induction tops with
  | top alone => exact .top (own.trans alone)
  | @further id p root linked rest ih =>
    refine .further (own.trans linked) (ih (same p p linked (Nat.le_refl p)) fun q k higher low => same p k linked ?_)
    exact Nat.le_trans low (Nat.le_of_lt (consistent.rising q p higher))

theorem switchAt_transfer {id other : Nat} (own : next.parent? other = doc.parent? id)
    (same : ∀ p : Nat, doc.parent? id = some p → next.item? p = doc.item? p) :
    next.switchAt (next.parent? other) = doc.switchAt (doc.parent? id) := by
  rw [own]
  cases linked : doc.parent? id with
  | none => rfl
  | some p => rw [switchAt, switchAt, Option.filter_some, Option.filter_some, tagName?_congr (same p linked)]

theorem Tops.unique {id first second : Nat} (one : Tops doc id first) (two : Tops doc id second) : first = second := by
  induction one with
  | top alone =>
    cases two with
    | top _ => rfl
    | further linked _ => exact absurd (alone.symm.trans linked) (by simp)
  | further linked _ ih =>
    cases two with
    | top alone => exact absurd (alone.symm.trans linked) (by simp)
    | further again rest =>
      cases linked.symm.trans again
      exact ih rest

theorem Tops.le (consistent : doc.Consistent) {id root : Nat} (tops : Tops doc id root) : root ≤ id := by
  induction tops with
  | top _ => exact Nat.le_refl _
  | further linked _ ih => exact Nat.le_trans ih (Nat.le_of_lt (consistent.rising _ _ linked))

theorem Tops.rootOf (consistent : doc.Consistent) {id root : Nat} (tops : Tops doc id root) : doc.rootOf id = root :=
  (consistent.tops_rootOf id).unique tops

end Searches

end Document

-- The switch that the children of a tag of control flow are directly in.
def Control.opens (kind : Control) (id : Nat) : Option Nat :=
  match kind with
  | .switch => some id
  | _ => none

namespace Session

open Document

variable {s t : Session} {place : Place} {parent : Option Nat} {id : Nat} {item : Item} {trees children : List Tree}

-- A place is what the searches upwards from a node find, and the node does not belong to a fragment.
structure Owned (s : Session) (place : Place) (id : Nat) : Prop where
  owner : ∃ tag, Above s.document id tag ∧ place.owner = tag.bind s.fragments.get?
  inside : place.inside = s.document.switchAt (s.document.parent? id)
  root : ∃ root, Tops s.document id root ∧ s.fragments.cursors.get? root = none

-- Trees of a file, in their place.
structure Placed (s : Session) (place : Place) (parent : Option Nat) (trees : List Tree) : Prop where
  carries : s.document.CarriesAll parent trees
  laid : ∃ shift start nodes, trees = Tree.placeAll shift start nodes
  owned : ∀ tree ∈ trees, s.Owned place tree.id

-- Trees of a fragment, with the number of the attributes.
structure Hung (s : Session) (attrsOf : Nat) (inside : Option Nat) (fragment parent : Nat) (trees : List Tree) : Prop where
  carries : s.document.CarriesAll (some parent) trees
  top : Tops s.document parent fragment
  live : (s.fragments.cursors.get? fragment).isSome = true
  number : (s.document.item? fragment).map Item.identity = some attrsOf
  inside : inside = s.document.switchAt (some parent)

-- What an owner is does not change if the same tags have fragments.
theorem owner_eq {owner tag : Option Nat} (linked : ∀ id : Nat, t.fragments.byTag.get? id = s.fragments.byTag.get? id)
    (found : owner = tag.bind s.fragments.get?) : owner = tag.bind t.fragments.get? := by
  rw [found]
  cases tag with
  | none => rfl
  | some tag => exact (linked tag).symm

-- Neither the node nor those above it are in the trees that may change.
theorem Owned.frame {other : List Tree} (owned : s.Owned place id) (consistent : s.document.Consistent)
    (bound : id < s.document.size) (frame : Frame other s t) (own : Tree.AllWithin (· ≠ id) other)
    (above : ∀ p k : Nat, s.document.parent? id = some p → k ≤ p → Tree.AllWithin (· ≠ k) other) : t.Owned place id := by
  have stays : t.document.parent? id = s.document.parent? id := frame.parents id bound own
  have same (p k : Nat) (linked : s.document.parent? id = some p) (low : k ≤ p) :
      t.document.parent? k = s.document.parent? k ∧ t.document.item? k = s.document.item? k := by
    have less := consistent.rising p id linked
    have old : k < s.document.size := by omega
    exact ⟨frame.parents k old (above p k linked low), frame.items k old⟩
  obtain ⟨⟨tag, search, owner⟩, inside, root, top, dead⟩ := owned
  refine ⟨⟨tag, search.transfer consistent stays same, owner_eq frame.linked owner⟩, ?_, root, ?_, ?_⟩
  · rw [inside, switchAt_transfer stays fun p linked => (same p p linked (Nat.le_refl p)).2]
  · exact top.transfer consistent stays fun p k linked low => (same p k linked low).1
  · exact (isSome_eq_false_iff (frame.live root)).mpr dead

section Trees

-- A tree and those behind it.

theorem Placed.head {tree : Tree} {rest : List Tree} (placed : Placed s place parent (tree :: rest)) :
    Placed s place parent [tree] := by
  obtain ⟨shift, start, nodes, laid⟩ := placed.laid
  refine ⟨⟨placed.carries.1, trivial⟩, ?_, fun other member => placed.owned other ?_⟩
  · cases nodes with
    | nil => cases laid
    | cons first more =>
      rw [Tree.placeAll] at laid
      exact ⟨shift, start, [first], congrArg (fun trees => [trees]) (List.cons.inj laid).1⟩
  · rw [List.mem_singleton.mp member]
    exact List.mem_cons_self

-- No position is in two trees.
theorem Placed.apart {tree : Tree} {rest : List Tree} (placed : Placed s place parent (tree :: rest)) :
    Tree.AllWithin (fun id => Tree.AllWithin (· ≠ id) [tree]) rest := by
  obtain ⟨shift, start, nodes, laid⟩ := placed.laid
  cases nodes with
  | nil => cases laid
  | cons first more =>
    rw [Tree.placeAll] at laid
    obtain ⟨rfl, rfl⟩ := List.cons.inj laid
    refine (Tree.within_placeAll shift (start + first.size) more).mono fun id later => ⟨?_, trivial⟩
    exact (Tree.within_place shift start first).mono fun other here => by omega

theorem Placed.tail {tree : Tree} {rest : List Tree} (placed : Placed s place parent (tree :: rest)) :
    Placed s place parent rest := by
  obtain ⟨shift, start, nodes, laid⟩ := placed.laid
  refine ⟨placed.carries.2, ?_, fun other member => placed.owned other (List.mem_cons_of_mem _ member)⟩
  cases nodes with
  | nil => cases laid
  | cons first more =>
    rw [Tree.placeAll] at laid
    exact ⟨shift, start + first.size, more, (List.cons.inj laid).2⟩

-- Trees stay in their place if neither they nor those above them may change.
theorem Placed.frame {other : List Tree} (placed : Placed s place parent trees) (fit : Fit s place trees)
    (frame : Frame other s t) (apart : Tree.AllWithin (fun id => Tree.AllWithin (· ≠ id) other) trees)
    (above : ∀ p k : Nat, parent = some p → k ≤ p → Tree.AllWithin (· ≠ k) other) : Placed t place parent trees := by
  have old := fit.fresh.and apart
  refine ⟨placed.carries.transfer (fun id known => ?_) old, placed.laid, fun tree member => ?_⟩
  · exact ⟨frame.parents id known.1.1 known.2, frame.items id known.1.1⟩
  · obtain ⟨known, own⟩ := old.id tree.id (List.mem_map_of_mem member)
    refine (placed.owned tree member).frame fit.sound.consistent known.1 frame own fun p k linked low => ?_
    exact above p k ((placed.carries.root tree member).symm.trans linked) low

-- The trees behind the first have its parent, which stands in front of it.
theorem Placed.behind {tree : Tree} {rest : List Tree} (placed : Placed s place parent (tree :: rest))
    (fit : Fit s place (tree :: rest)) (frame : Frame [tree] s t) : Placed t place parent rest := by
  refine placed.tail.frame fit.tail frame placed.apart fun p k same low => ?_
  have linked := (placed.carries.root tree List.mem_cons_self).trans same
  have less := fit.sound.consistent.rising p tree.id linked
  obtain ⟨id, item, children⟩ := tree
  have behind : Tree.AllRise id [.node id item children] := ⟨⟨Nat.le_refl id, fit.rise.1.2⟩, trivial⟩
  exact behind.within.mono fun other later => by
    have : k < id := Nat.lt_of_le_of_lt low less
    omega

-- Where nothing that trees read has changed.
theorem Placed.alike (placed : Placed s place parent trees) (document : t.document = s.document)
    (fragments : t.fragments = s.fragments) : Placed t place parent trees := by
  refine ⟨document ▸ placed.carries, placed.laid, fun tree member => ?_⟩
  obtain ⟨owner, inside, root⟩ := placed.owned tree member
  exact ⟨by rwa [document, fragments], by rwa [document], by rwa [document, fragments]⟩

theorem Hung.alike {attrsOf fragment above : Nat} {inside : Option Nat} (hung : Hung s attrsOf inside fragment above trees)
    (document : t.document = s.document) (fragments : t.fragments = s.fragments) :
    Hung t attrsOf inside fragment above trees := by
  obtain ⟨carries, top, live, number, within⟩ := hung
  exact ⟨document ▸ carries, document ▸ top, fragments ▸ live, document ▸ number, document ▸ within⟩

end Trees

section Descents

variable {c : Nat} {name : String} {kind : Control} {flow : Flow}

theorem Placed.own (placed : Placed s place parent [.node id item children]) : s.Owned place id :=
  placed.owned _ List.mem_cons_self

theorem Placed.below (placed : Placed s place parent [.node id item children]) {inner : Place}
    (owned : ∀ c : Nat, s.document.parent? c = some id → s.Owned inner c) : Placed s inner (some id) children := by
  have carries := placed.carries.1.2
  obtain ⟨shift, start, nodes, laid⟩ := placed.laid
  refine ⟨carries, ?_, fun tree member => owned tree.id (carries.root tree member)⟩
  cases nodes with
  | nil => cases laid
  | cons first more =>
    cases first with
    | tag identity tag nodes location =>
      rw [Tree.placeAll, Tree.place] at laid
      cases (List.cons.inj laid).1
      exact ⟨shift, id + 1, nodes, rfl⟩
    | leaf identity leaf location =>
      rw [Tree.placeAll, Tree.place] at laid
      cases (List.cons.inj laid).1
      exact ⟨shift, id, [], rfl⟩

theorem switchAt_control (named : s.document.tagName? id = some name) (known : TagKind.ofName? name = some (.control kind flow)) :
    s.document.switchAt (some id) = kind.opens id := by
  have opens : TagKind.isSwitch name = (kind.opens id).isSome := by
    rw [TagKind.isSwitch, known]
    cases kind <;> rfl
  rw [switchAt, Option.filter_some, named, Option.any_some, opens]
  cases kind <;> rfl

-- Below control flow, the search goes on above it.
theorem Owned.control (owned : s.Owned place id) (named : s.document.tagName? id = some name)
    (known : TagKind.ofName? name = some (.control kind flow)) (linked : s.document.parent? c = some id) :
    s.Owned ⟨place.owner, kind.opens id⟩ c := by
  obtain ⟨⟨tag, search, owner⟩, _, root, top, dead⟩ := owned
  refine ⟨⟨tag, .further linked ?_ search, owner⟩, ?_, root, .further linked top, dead⟩
  · rw [named, Option.any_some, TagKind.isReserved, known]
  · rw [linked, switchAt_control named known]

-- Below any other tag, it ends there.
theorem Owned.other (owned : ∃ root, Tops s.document id root ∧ s.fragments.cursors.get? root = none)
    (named : s.document.tagName? id = some name) (other : TagKind.isReserved name = false)
    (linked : s.document.parent? c = some id) : s.Owned ⟨s.fragments.get? id, none⟩ c := by
  obtain ⟨root, top, dead⟩ := owned
  refine ⟨⟨some id, .found linked ?_, rfl⟩, ?_, root, .further linked top, dead⟩
  · rw [named, Option.any_some, other]
  · have closed : TagKind.isSwitch name = false := by
      rw [TagKind.isReserved] at other
      rw [TagKind.isSwitch]
      split at other <;> simp_all
    rw [linked, switchAt, Option.filter_some, named, Option.any_some, closed]
    rfl

theorem Placed.linking (placed : Placed s place parent [.node id item children])
    (fit : Fit s place [.node id item children]) (named : s.document.tagName? id = some name)
    (other : TagKind.isReserved name = false) :
    Placed (s.linking id) ⟨some s.document.size, none⟩ (some id) children := by
  have links := fit.links
  have same (k : Nat) (bound : k < s.document.size) : (s.linking id).document.parent? k = s.document.parent? k ∧
      (s.linking id).document.item? k = s.document.item? k := ⟨links.parent k, links.item k bound⟩
  have carries := placed.carries.1.2.transfer same (fit.fresh.1.2.mono fun _ known => known.1)
  obtain ⟨root, top, dead⟩ := placed.own.root
  have own : (s.linking id).fragments.get? id = some s.document.size := by
    rw [Fragments.get?, links.linked, if_pos rfl]
  have before : Placed s ⟨s.fragments.get? id, none⟩ (some id) children :=
    placed.below fun _ linked => Owned.other ⟨root, top, dead⟩ named other linked
  refine ⟨carries, before.laid, fun tree member => ?_⟩
  rw [← own]
  refine Owned.other ⟨root, ?_, ?_⟩ ?_ other (carries.root tree member)
  · exact top.transfer fit.sound.consistent (links.parent id) fun p k _ _ => links.parent k
  · have low : root ≤ id := top.le fit.sound.consistent
    have bound := fit.own.1
    rw [links.live, if_neg (by omega), dead]
  · rw [tagName?_congr (links.item id fit.own.1), named]

-- The nodes of a file stand where the tag stood that includes it.
theorem Placed.entering (placed : Placed s place parent [.node id item children])
    (fit : Fit s place [.node id item children]) (nodes : List Node) (path : Path) :
    Placed (s.entering id nodes path) place (s.document.parent? id) (s.entered id nodes) := by
  have consistent := fit.sound.consistent
  have bound := fit.own.1
  have same (p k : Nat) (linked : s.document.parent? id = some p) (low : k ≤ p) :
      (s.entering id nodes path).document.parent? k = s.document.parent? k ∧
        (s.entering id nodes path).document.item? k = s.document.item? k := by
    have less := consistent.rising p id linked
    refine ⟨?_, item?_apply (.included id nodes) (by omega)⟩
    exact (parent?_inlining _ nodes bound (by omega)).trans (if_neg (by omega))
  have carries : (s.entering id nodes path).document.CarriesAll (s.document.parent? id) (s.entered id nodes) :=
    (s.document.holds_inlining _ nodes bound fun p linked => Nat.lt_trans (consistent.rising p id linked) bound).carries
  obtain ⟨⟨tag, search, owner⟩, inside, root, top, dead⟩ := placed.own
  refine ⟨carries, ⟨_, _, nodes, rfl⟩, fun tree member => ?_⟩
  have own := carries.root tree member
  refine ⟨⟨tag, search.transfer consistent own same, owner⟩, ?_, ?_⟩
  · rw [inside]
    exact (switchAt_transfer own fun p linked => (same p p linked (Nat.le_refl p)).2).symm
  · cases top with
    | top alone =>
      refine ⟨tree.id, .top (own.trans alone), ?_⟩
      have new := (within_entered nodes).id tree.id (List.mem_map_of_mem member)
      cases found : s.fragments.cursors.get? tree.id with
      | none => exact found
      | some cursor => exact absurd (fit.sound.live _ cursor found).1 (Nat.not_lt_of_le new.1)
    | @further _ p _ linked rest =>
      refine ⟨root, .further (own.trans linked) (rest.transfer consistent ?_ fun q k higher low => ?_), dead⟩
      · exact (same p p linked (Nat.le_refl p)).1
      · have less := consistent.rising q p higher
        exact (same p k linked (by omega)).1

end Descents

section Fragments

variable {attrsOf fragment above : Nat} {inside : Option Nat} {name : String} {kind : Control} {flow : Flow}

-- What a fragment holds belongs to the attributes whose number the fragment has.
theorem Hung.start (fit : Fit s place [.node id item children]) (frame : Frame trees (s.linking id) t)
    (apart : Tree.AllWithin (· ≠ s.document.size) trees) :
    Hung t s.fragments.nextIdentity none s.document.size s.document.size (t.document.treesBelow s.document.size) := by
  have links := fit.links
  obtain ⟨location, own⟩ := links.own
  have bound : s.document.size < (s.linking id).document.size := by
    rw [links.size]
    exact Nat.lt_succ_self _
  have item := (frame.items _ bound).trans own
  have alone : t.document.parent? s.document.size = none := by
    rw [frame.parents _ bound apart, links.parent, parent?_of_size_le (Nat.le_refl _)]
  refine ⟨frame.sound.consistent.carries_treesBelow _, .top alone, ?_, by rw [item]; rfl, ?_⟩
  · rw [frame.live, links.live, if_pos rfl]
    rfl
  · rw [switchAt, Option.filter_some, tagName?_of_item? item]
    rfl

theorem Hung.head {tree : Tree} {rest : List Tree} (hung : Hung s attrsOf inside fragment above (tree :: rest)) :
    Hung s attrsOf inside fragment above [tree] :=
  { hung with carries := ⟨hung.carries.1, trivial⟩ }

theorem Hung.tail {tree : Tree} {rest : List Tree} (hung : Hung s attrsOf inside fragment above (tree :: rest)) :
    Hung s attrsOf inside fragment above rest :=
  { hung with carries := hung.carries.2 }

theorem Hung.control (hung : Hung s attrsOf inside fragment above [.node id item children])
    (named : s.document.tagName? id = some name) (known : TagKind.ofName? name = some (.control kind flow)) :
    Hung s attrsOf (kind.opens id) fragment id children where
  carries := hung.carries.1.2
  top := .further hung.carries.1.1.1 hung.top
  live := hung.live
  number := hung.number
  inside := (switchAt_control named known).symm

-- It makes no difference where the cursor of a fragment is put while its attributes are read: it is forgotten with the
-- fragment.
theorem run_attrBlock_setCursor {linked : Walk.Linked} {attrs : List Attr} {location : Location}
    (known : s.fragments.get? id = some linked.fragment) (cursor : Nat) :
    (Walk.ensuring (Walk.attrBlock linked attrs location) fun t => { t with fragments := t.fragments.unlink id }).run.run
        { s with fragments := s.fragments.setCursor linked.fragment cursor } =
      (Walk.ensuring (Walk.attrBlock linked attrs location) fun t => { t with fragments := t.fragments.unlink id }).run.run
        s := by
  have aloof := Walk.aloof_attrBlock linked attrs location
  have forgotten : (s.fragments.setCursor linked.fragment cursor).unlink id = s.fragments.unlink id := by
    have still : (s.fragments.setCursor linked.fragment cursor).get? id = some linked.fragment := known
    rw [Fragments.unlink_eq _ still, Fragments.unlink_eq _ known, Fragments.setCursor, Table.erase_insert]
  rw [run_ensuring, run_ensuring, (aloof s).2, aloof.fragments s]
  exact congrArg (fun fragments => (_, { ((Walk.attrBlock linked attrs location).run.run s).2 with fragments := fragments }))
    forgotten

end Fragments

end Session

-- What a visit is given is what can be found in the document, upwards from the node.
def Visit.Finds (before : Session) : Visit → Prop
  | .content _ place _ tree =>
    (∃ tag, Document.Above before.document tree.id tag ∧ place.owner = tag.bind before.fragments.get?) ∧
      place.inside = before.document.switchAt (before.document.parent? tree.id) ∧
      before.fragments.isFragment (before.document.rootOf tree.id) = false
  | .applied attrsOf inside tree =>
    inside = before.document.switchAt (before.document.parent? tree.id) ∧
      before.fragments.isFragment (before.document.rootOf tree.id) = true ∧
      (before.document.item? (before.document.rootOf tree.id)).map Item.identity = some attrsOf

namespace Session

open Document

variable {s : Session} {tree : Tree}

theorem Placed.finds {env : Env} {place : Place} {sink : Nat} {parent : Option Nat} (placed : Placed s place parent [tree])
    (consistent : s.document.Consistent) : Visit.Finds s (.content env place sink tree) := by
  obtain ⟨owner, inside, root, top, dead⟩ := placed.owned tree List.mem_cons_self
  refine ⟨owner, inside, ?_⟩
  rw [top.rootOf consistent, Fragments.isFragment, Table.contains_eq, dead]
  rfl

theorem Hung.finds {attrsOf fragment above : Nat} {inside : Option Nat} (hung : Hung s attrsOf inside fragment above [tree])
    (consistent : s.document.Consistent) : Visit.Finds s (.applied attrsOf inside tree) := by
  have linked := hung.carries.root tree List.mem_cons_self
  have top : Tops s.document tree.id fragment := .further linked hung.top
  refine ⟨by rw [linked, hung.inside], ?_, ?_⟩
  · rw [top.rootOf consistent, Fragments.isFragment, Table.contains_eq, hung.live]
  · rw [top.rootOf consistent, hung.number]

end Session

end Stencil
