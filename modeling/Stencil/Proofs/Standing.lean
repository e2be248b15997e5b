import Stencil.Proofs.Consistency
import Stencil.Proofs.Quiet

-- What stands around a part of the walk: the document, the files that include one another, the tags with fragments, the
-- cursors and the open switches. A part of the walk leaves it standing if, at its end, the same tags have fragments, the
-- same switches are open and the same file is compiled as at its beginning. Here are the steps that open something and
-- close it again.

namespace Stencil

namespace Session

-- What the tables of a session name is in its document, and the document is consistent.
structure Sound (s : Session) : Prop where
  consistent : s.document.Consistent
  linked : ∀ id f : Nat, s.fragments.byTag.get? id = some f → id < s.document.size
  live : ∀ f c : Nat, s.fragments.cursors.get? f = some c → f < s.document.size ∧ c < s.document.size
  opened : ∀ (id : Nat) (state : Switch), Table.get? s.switches id = some state → id < s.document.size

-- The same files include one another, the same tags have fragments, and the same switches are open.
structure Bracketed (s t : Session) : Prop where
  file : t.file = s.file
  including : t.including = s.including
  linked : ∀ id : Nat, t.fragments.byTag.get? id = s.fragments.byTag.get? id
  live : ∀ f : Nat, (t.fragments.cursors.get? f).isSome = (s.fragments.cursors.get? f).isSome
  opened : ∀ id : Nat, (Table.get? t.switches id).isSome = (Table.get? s.switches id).isSome

-- Besides, nodes only come in, none becomes another, and those that are not in the given trees keep their parents.
structure Frame (trees : List Tree) (s t : Session) : Prop extends Bracketed s t where
  sound : t.Sound
  grown : s.document.size ≤ t.document.size
  parents : ∀ id : Nat, id < s.document.size → Tree.AllWithin (· ≠ id) trees →
    t.document.parent? id = s.document.parent? id
  items : ∀ id : Nat, id < s.document.size → t.document.item? id = s.document.item? id

-- All cursors are where they were.
def Settled (s : Session) (fragments : Fragments) : Prop :=
  ∀ f : Nat, fragments.cursors.get? f = s.fragments.cursors.get? f

-- Trees that can be compiled in a place: they are in the document, none of their nodes has a fragment or is an open
-- switch, and what the place names is live and open.
structure Fit (s : Session) (place : Place) (trees : List Tree) : Prop where
  sound : s.Sound
  fresh : Tree.AllWithin (fun id => id < s.document.size ∧ s.fragments.byTag.get? id = none ∧
    Table.get? s.switches id = none) trees
  rise : Tree.AllRise 0 trees
  owner : ∀ f : Nat, place.owner = some f → (s.fragments.cursors.get? f).isSome = true
  inside : ∀ switch : Nat, place.inside = some switch → (Table.get? s.switches switch).isSome = true

section Frames

variable {s t u : Session} {trees : List Tree}

theorem Bracketed.trans (first : Bracketed s t) (second : Bracketed t u) : Bracketed s u where
  file := second.file.trans first.file
  including := second.including.trans first.including
  linked id := (second.linked id).trans (first.linked id)
  live f := (second.live f).trans (first.live f)
  opened id := (second.opened id).trans (first.opened id)

theorem Frame.refl (sound : s.Sound) : Frame trees s s where
  file := rfl
  including := rfl
  linked _ := rfl
  live _ := rfl
  opened _ := rfl
  sound := sound
  grown := Nat.le_refl _
  parents _ _ _ := rfl
  items _ _ := rfl

theorem Frame.trans (first : Frame trees s t) (second : Frame trees t u) : Frame trees s u where
  toBracketed := first.toBracketed.trans second.toBracketed
  sound := second.sound
  grown := Nat.le_trans first.grown second.grown
  parents id bound outside :=
    (second.parents id (Nat.lt_of_lt_of_le bound first.grown) outside).trans (first.parents id bound outside)
  items id bound := (second.items id (Nat.lt_of_lt_of_le bound first.grown)).trans (first.items id bound)

-- Fewer nodes may change their parents.
theorem Frame.mono {more : List Tree} (frame : Frame trees s t)
    (fewer : ∀ id : Nat, Tree.AllWithin (· ≠ id) more → Tree.AllWithin (· ≠ id) trees) : Frame more s t :=
  { frame with parents := fun id bound outside => frame.parents id bound (fewer id outside) }

theorem Frame.node {id : Nat} {item : Item} {children : List Tree} (frame : Frame children s t) :
    Frame [.node id item children] s t :=
  frame.mono fun _ outside => outside.1.2

theorem Frame.head {tree : Tree} {rest : List Tree} (frame : Frame [tree] s t) : Frame (tree :: rest) s t :=
  frame.mono fun _ outside => ⟨outside.1, trivial⟩

theorem Frame.tail {tree : Tree} {rest : List Tree} (frame : Frame rest s t) : Frame (tree :: rest) s t :=
  frame.mono fun _ outside => outside.2

-- Neither the scope nor the registry stands around anything.
theorem Sound.steady (sound : s.Sound) (steady : Steady s t) : t.Sound := by
  obtain ⟨⟨document, fragments, _, _⟩, switches⟩ := steady
  refine ⟨?_, ?_, ?_, ?_⟩
  · rw [document]
    exact sound.consistent
  · rw [document, fragments]
    exact sound.linked
  · rw [document, fragments]
    exact sound.live
  · rw [document, switches]
    exact sound.opened

theorem Frame.of_steady (sound : s.Sound) (steady : Steady s t) : Frame trees s t where
  file := steady.file
  including := steady.including
  linked _ := by rw [steady.fragments]
  live _ := by rw [steady.fragments]
  opened _ := by rw [steady.switches]
  sound := sound.steady steady
  grown := Nat.le_of_eq (congrArg Document.size steady.document.symm)
  parents _ _ _ := by rw [steady.document]
  items _ _ := by rw [steady.document]

theorem isSome_eq_false_iff {α : Type} {x y : Option α} (same : x.isSome = y.isSome) : x = none ↔ y = none := by
  cases x <;> cases y <;> simp_all

theorem Fit.frame {place : Place} {other : List Tree} (fit : Fit s place trees) (frame : Frame other s t) :
    Fit t place trees where
  sound := frame.sound
  fresh := fit.fresh.mono fun id known =>
    ⟨Nat.lt_of_lt_of_le known.1 frame.grown, (frame.linked id).trans known.2.1,
      (isSome_eq_false_iff (frame.opened id)).mpr known.2.2⟩
  rise := fit.rise
  owner f found := (frame.live f).trans (fit.owner f found)
  inside switch found := (frame.opened switch).trans (fit.inside switch found)

variable {place : Place}

theorem Fit.head {tree : Tree} {rest : List Tree} (fit : Fit s place (tree :: rest)) : Fit s place [tree] :=
  ⟨fit.sound, ⟨fit.fresh.1, trivial⟩, ⟨fit.rise.1, trivial⟩, fit.owner, fit.inside⟩

theorem Fit.tail {tree : Tree} {rest : List Tree} (fit : Fit s place (tree :: rest)) : Fit s place rest :=
  ⟨fit.sound, fit.fresh.2, fit.rise.2, fit.owner, fit.inside⟩

variable {id : Nat} {item : Item} {children : List Tree}

-- The node itself.
theorem Fit.own (fit : Fit s place [.node id item children]) : id < s.document.size ∧
    s.fragments.byTag.get? id = none ∧ Table.get? s.switches id = none := fit.fresh.1.1

-- The nodes below are others.
theorem Fit.below (fit : Fit s place [.node id item children]) : Tree.AllWithin (· ≠ id) children :=
  fit.rise.1.2.within.mono fun _ later => Nat.ne_of_gt later

theorem Fit.inner (fit : Fit s place [.node id item children]) : Fit s ⟨place.owner, none⟩ children :=
  ⟨fit.sound, fit.fresh.1.2, fit.rise.1.2.mono (Nat.zero_le _), fit.owner, nofun⟩

-- The cursor of the owner.
theorem Fit.cursor (fit : Fit s place trees) {fragment : Nat} (owner : place.owner = some fragment) :
    ∃ cursor, s.fragments.cursors.get? fragment = some cursor :=
  Option.isSome_iff_exists.mp (fit.owner fragment owner)

theorem Fit.outermost (fit : Fit s place trees) : Fit s .outermost trees :=
  ⟨fit.sound, fit.fresh, fit.rise, nofun, nofun⟩

end Frames

section Branches

variable {s : Session} {trees : List Tree}

-- Only the branches of open switches change.
theorem Frame.switches (sound : s.Sound) {switches : Switches}
    (same : ∀ id : Nat, (Table.get? switches id).isSome = (Table.get? s.switches id).isSome) :
    Frame trees s { s with switches := switches } where
  file := rfl
  including := rfl
  linked _ := rfl
  live _ := rfl
  opened := same
  sound := by
    refine ⟨sound.consistent, sound.linked, sound.live, fun id state found => ?_⟩
    have known := same id
    rw [found] at known
    obtain ⟨other, before⟩ := Option.isSome_iff_exists.mp known.symm
    exact sound.opened id other before
  grown := Nat.le_refl _
  parents _ _ _ := rfl
  items _ _ := rfl

theorem isSome_insert {α : Type} {table : Table α} {key : Nat} (known : (table.get? key).isSome = true) (value : α)
    (id : Nat) : ((Table.insert key value table).get? id).isSome = (table.get? id).isSome := by
  rw [Table.get?_insert]
  split
  · rename_i same
    rw [same, known]
    rfl
  · rfl

variable {place : Place} {id : Nat} {item : Item} {children : List Tree}

-- A switch is opened for its children.
theorem Fit.opening (fit : Fit s place [.node id item children]) :
    Fit { s with switches := s.switches.opened id } ⟨place.owner, some id⟩ children where
  sound := by
    refine ⟨fit.sound.consistent, fit.sound.linked, fit.sound.live, fun key state found => ?_⟩
    rw [Switches.opened, Table.get?_insert] at found
    split at found
    · rename_i same
      rw [same]
      exact fit.own.1
    · exact fit.sound.opened key state found
  fresh := (fit.fresh.1.2.and fit.below).mono fun key known => by
    refine ⟨known.1.1, known.1.2.1, ?_⟩
    rw [Switches.opened, Table.get?_insert, if_neg known.2]
    exact known.1.2.2
  rise := fit.inner.rise
  owner := fit.owner
  inside switch same := by
    cases same
    rw [Switches.opened, Table.get?_insert, if_pos rfl]
    rfl

-- It is closed again.
theorem Frame.closing {t : Session} (unopened : Table.get? s.switches id = none)
    (frame : Frame trees { s with switches := s.switches.opened id } t) :
    Frame trees s { t with switches := t.switches.closed id } where
  file := frame.file
  including := frame.including
  linked := frame.linked
  live := frame.live
  opened key := by
    rw [Switches.closed, Table.get?_erase]
    split
    · rename_i same
      rw [same, unopened]
    · rename_i other
      rw [frame.opened key, Switches.opened, Table.get?_insert, if_neg other]
  sound := by
    refine ⟨frame.sound.consistent, frame.sound.linked, frame.sound.live, fun key state found => ?_⟩
    rw [Switches.closed, Table.get?_erase] at found
    split at found
    · cases found
    · exact frame.sound.opened key state found
  grown := frame.grown
  parents := frame.parents
  items := frame.items

end Branches

section Fragments

variable {s t : Session} {place : Place} {id : Nat} {item : Item} {children trees : List Tree}

-- The session after a tag was given its fragment.
def linking (s : Session) (id : Nat) : Session :=
  { s with
    fragments := (s.fragments.link s.document id).2.1
    document := (s.fragments.link s.document id).2.2 }

-- A tag without a fragment gets one behind all nodes.
structure Links (s : Session) (id : Nat) (t : Session) : Prop where
  size : t.document.size = s.document.size + 1
  parent : ∀ k : Nat, t.document.parent? k = s.document.parent? k
  item : ∀ k : Nat, k < s.document.size → t.document.item? k = s.document.item? k
  own : ∃ location, t.document.item? s.document.size =
    some ⟨s.fragments.nextIdentity, .tag ⟨Fragments.tagName, [], false⟩, location⟩
  linked : ∀ k : Nat, t.fragments.byTag.get? k = if k = id then some s.document.size else s.fragments.byTag.get? k
  live : ∀ k : Nat, t.fragments.cursors.get? k =
    if k = s.document.size then some s.document.size else s.fragments.cursors.get? k
  consistent : s.document.Consistent → t.document.Consistent

theorem links_linking (unknown : s.fragments.byTag.get? id = none) : Links s id (s.linking id) := by
  obtain ⟨location, same⟩ := s.fragments.link_eq s.document unknown
  have fragments : (s.linking id).fragments = s.fragments.linked s.document id := by rw [linking, same]
  have document : (s.linking id).document =
      (s.document.push (Fragments.top s.fragments.nextIdentity location)).2 := by rw [linking, same]
  refine ⟨?_, fun k => ?_, fun k => Document.item?_apply (.linked s.fragments id), ⟨location, ?_⟩, fun k => ?_,
    fun k => ?_, fun consistent => ?_⟩
  · rw [document, Document.size_push]
  · rw [document, Document.parent?_push rfl]
  · rw [document, Document.item?, Document.cell?_push, if_pos rfl]
    rfl
  · rw [fragments, Fragments.linked, Table.get?_insert]
  · rw [fragments, Fragments.linked, Table.get?_insert]
  · rw [document]
    exact consistent.push rfl rfl

theorem Fit.links (fit : Fit s place [.node id item children]) : Links s id (s.linking id) := links_linking fit.own.2.1

theorem Fit.sound_linking (fit : Fit s place [.node id item children]) : (s.linking id).Sound := by
  have links := fit.links
  refine ⟨links.consistent fit.sound.consistent, fun key f found => ?_, fun f c found => ?_, fun key state found => ?_⟩
  · rw [links.linked] at found
    rw [links.size]
    split at found
    · rename_i same
      have := fit.own.1
      omega
    · have := fit.sound.linked key f found
      omega
  · rw [links.live] at found
    rw [links.size]
    split at found
    · cases found
      omega
    · have := fit.sound.live f c found
      omega
  · rw [links.size]
    have := fit.sound.opened key state found
    omega

-- The children are compiled with the fragment as their owner.
theorem Fit.linking (fit : Fit s place [.node id item children]) :
    Fit (s.linking id) ⟨some s.document.size, none⟩ children where
  sound := fit.sound_linking
  fresh := (fit.fresh.1.2.and fit.below).mono fun key known => by
    refine ⟨?_, ?_, known.1.2.2⟩
    · rw [fit.links.size]
      exact Nat.lt_succ_of_lt known.1.1
    · rw [fit.links.linked, if_neg known.2]
      exact known.1.2.1
  rise := fit.inner.rise
  owner f same := by
    cases same
    rw [fit.links.live, if_pos rfl]
    rfl
  inside := nofun

-- The fragment holds nothing that has a fragment or is an open switch, for all that came before it.
theorem Fit.fragment (fit : Fit s place [.node id item children]) (frame : Frame trees (s.linking id) t) :
    Fit t .outermost (t.document.treesBelow s.document.size) where
  sound := frame.sound
  fresh := by
    have known := @Document.within_treesWithin t.document t.document.size (t.document.children s.document.size)
    refine (known.and (frame.sound.consistent.allRise_treesBelow s.document.size).within).mono fun key bounds => ?_
    refine ⟨bounds.1, ?_, ?_⟩
    · rw [frame.linked, fit.links.linked]
      have := fit.own.1
      rw [if_neg (by omega)]
      cases found : s.fragments.byTag.get? key with
      | none => rfl
      | some f =>
        have := fit.sound.linked key f found
        omega
    · refine (isSome_eq_false_iff (frame.opened key)).mpr ?_
      cases found : Table.get? s.switches key with
      | none => exact found
      | some state =>
        have := fit.sound.opened key state found
        omega
  rise := (frame.sound.consistent.allRise_treesBelow s.document.size).mono (Nat.zero_le _)
  owner := nofun
  inside := nofun

theorem Frame.fragment {u : Session} (fit : Fit s place [.node id item children]) (frame : Frame trees (s.linking id) t)
    (behind : Frame (t.document.treesBelow s.document.size) t u) : Frame trees (s.linking id) u where
  toBracketed := frame.toBracketed.trans behind.toBracketed
  sound := behind.sound
  grown := Nat.le_trans frame.grown behind.grown
  parents k bound outside := by
    have apart : Tree.AllWithin (· ≠ k) (t.document.treesBelow s.document.size) := by
      refine (frame.sound.consistent.allRise_treesBelow s.document.size).within.mono fun other later => ?_
      rw [fit.links.size] at bound
      omega
    rw [behind.parents k (Nat.lt_of_lt_of_le bound frame.grown) apart, frame.parents k bound outside]
  items k bound := (behind.items k (Nat.lt_of_lt_of_le bound frame.grown)).trans (frame.items k bound)

theorem get?_unlink_byTag {fragments : Fragments} {f : Nat} (known : fragments.byTag.get? id = some f) (k : Nat) :
    (fragments.unlink id).byTag.get? k = if k = id then none else fragments.byTag.get? k := by
  rw [fragments.unlink_eq known, Table.get?_erase]

theorem get?_unlink_cursors {fragments : Fragments} {f : Nat} (known : fragments.byTag.get? id = some f) (k : Nat) :
    (fragments.unlink id).cursors.get? k = if k = f then none else fragments.cursors.get? k := by
  rw [fragments.unlink_eq known, Table.get?_erase]

theorem Fit.dead (fit : Fit s place [.node id item children]) : s.fragments.cursors.get? s.document.size = none := by
  cases found : s.fragments.cursors.get? s.document.size with
  | none => rfl
  | some c => exact absurd (fit.sound.live _ c found).1 (Nat.lt_irrefl _)

theorem Frame.linkedTo (fit : Fit s place [.node id item children]) (frame : Frame trees (s.linking id) t) :
    t.fragments.byTag.get? id = some s.document.size := by
  rw [frame.linked, fit.links.linked, if_pos rfl]

-- The fragment is forgotten.
theorem Frame.unlinking (fit : Fit s place [.node id item children]) (frame : Frame trees (s.linking id) t) :
    Frame trees s { t with fragments := t.fragments.unlink id } where
  file := frame.file
  including := frame.including
  linked key := by
    rw [get?_unlink_byTag (frame.linkedTo fit)]
    split
    · rename_i same
      rw [same, fit.own.2.1]
    · rename_i other
      rw [frame.linked, fit.links.linked, if_neg other]
  live key := by
    rw [get?_unlink_cursors (frame.linkedTo fit)]
    split
    · rename_i same
      rw [same, fit.dead]
    · rename_i other
      rw [frame.live, fit.links.live, if_neg other]
  opened := frame.opened
  sound := by
    refine ⟨frame.sound.consistent, fun key f found => ?_, fun f c found => ?_, frame.sound.opened⟩
    · rw [get?_unlink_byTag (frame.linkedTo fit)] at found
      split at found
      · cases found
      · exact frame.sound.linked key f found
    · rw [get?_unlink_cursors (frame.linkedTo fit)] at found
      split at found
      · cases found
      · exact frame.sound.live f c found
  grown := by
    have := frame.grown
    rw [fit.links.size] at this
    exact Nat.le_of_succ_le this
  parents key bound outside := by
    have less : key < (s.linking id).document.size := by
      rw [fit.links.size]
      exact Nat.lt_succ_of_lt bound
    rw [frame.parents key less outside, fit.links.parent]
  items key bound := by
    have less : key < (s.linking id).document.size := by
      rw [fit.links.size]
      exact Nat.lt_succ_of_lt bound
    rw [frame.items key less, fit.links.item key bound]

theorem Settled.unlinking (fit : Fit s place [.node id item children]) (frame : Frame trees (s.linking id) t)
    (settled : Settled (s.linking id) t.fragments) : Settled s (t.fragments.unlink id) := by
  intro key
  rw [get?_unlink_cursors (frame.linkedTo fit)]
  split
  · rename_i same
    rw [same, fit.dead]
  · rename_i other
    rw [settled key, fit.links.live, if_neg other]

end Fragments

section Copies

variable {s t : Session} {fragment cursor id : Nat} {name : String} {advance : Bool} {trees : List Tree}

-- The session after a node was copied into a fragment.
def copying (s : Session) (fragment id : Nat) (name : String) (advance : Bool) : Session :=
  { s with
    fragments := (s.fragments.append s.document fragment id name advance).2.1
    document := (s.fragments.append s.document fragment id name advance).2.2 }

-- The copy stands behind all nodes, below the cursor, which may move to it.
structure Copies (s : Session) (fragment cursor : Nat) (advance : Bool) (t : Session) : Prop where
  size : t.document.size = s.document.size + 1
  parent : ∀ k : Nat, t.document.parent? k = if k = s.document.size then some cursor else s.document.parent? k
  item : ∀ k : Nat, k < s.document.size → t.document.item? k = s.document.item? k
  linked : t.fragments.byTag = s.fragments.byTag
  live : ∀ k : Nat, t.fragments.cursors.get? k =
    if advance ∧ k = fragment then some s.document.size else s.fragments.cursors.get? k
  consistent : t.document.Consistent

theorem Sound.copies (sound : s.Sound) (known : s.fragments.cursors.get? fragment = some cursor)
    (old : id < s.document.size) : Copies s fragment cursor advance (s.copying fragment id name advance) := by
  obtain ⟨cell, found⟩ := Document.cell?_of_lt old
  have here : s.fragments.cursor fragment = cursor := by rw [Fragments.cursor, known, Option.getD_some]
  have placed : s.fragments.cursor fragment < s.document.size := by
    rw [here]
    exact (sound.live fragment cursor known).2
  have appended := @Fragments.append_eq s.fragments s.document fragment id name advance cell found
  have document : (s.copying fragment id name advance).document =
      s.fragments.appended s.document name advance fragment id := rfl
  have fragments : (s.copying fragment id name advance).fragments =
      if advance then s.fragments.setCursor fragment s.document.size else s.fragments := by rw [copying, appended]
  refine ⟨?_, fun k => ?_, fun k => Document.item?_apply (.appended s.fragments fragment id name advance), ?_,
    fun k => ?_, ?_⟩
  · rw [document, s.fragments.size_appended s.document name advance found]
  · rw [document, Document.parent?_appended old placed, here]
  · rw [fragments]
    cases advance <;> rfl
  · rw [fragments]
    cases advance with
    | false => simp
    | true =>
      rw [if_pos rfl, Fragments.setCursor, Table.get?_insert]
      simp
  · rw [document]
    exact Document.consistent_appended sound.consistent old placed

theorem Frame.copying (sound : s.Sound) (known : s.fragments.cursors.get? fragment = some cursor)
    (old : id < s.document.size) : Frame trees s (s.copying fragment id name advance) := by
  have copies : Copies s fragment cursor advance (s.copying fragment id name advance) := sound.copies known old
  refine ⟨⟨rfl, rfl, fun k => by rw [copies.linked], fun k => ?_, fun _ => rfl⟩, ⟨copies.consistent, fun k f found => ?_,
    fun f c found => ?_, fun k state found => ?_⟩, ?_, fun k bound _ => ?_, copies.item⟩
  · rw [copies.live]
    split
    · rename_i moved
      rw [moved.2, known]
      rfl
    · rfl
  · rw [copies.linked] at found
    rw [copies.size]
    exact Nat.lt_succ_of_lt (sound.linked k f found)
  · rw [copies.live] at found
    rw [copies.size]
    split at found
    · rename_i moved
      cases found
      rw [moved.2]
      exact ⟨Nat.lt_succ_of_lt (sound.live fragment cursor known).1, Nat.lt_succ_self _⟩
    · exact ⟨Nat.lt_succ_of_lt (sound.live f c found).1, Nat.lt_succ_of_lt (sound.live f c found).2⟩
  · rw [copies.size]
    exact Nat.lt_succ_of_lt (sound.opened k state found)
  · rw [copies.size]
    exact Nat.le_succ _
  · rw [copies.parent, if_neg (Nat.ne_of_lt bound)]

-- The cursor of a fragment moves up.
def leaving (s : Session) (fragment : Nat) : Session := { s with fragments := s.fragments.pop s.document fragment }

theorem get?_leaving (fragment k : Nat) : (s.leaving fragment).fragments.cursors.get? k =
    if k = fragment then some ((s.document.parent? (s.fragments.cursor fragment)).getD fragment)
    else s.fragments.cursors.get? k := by
  rw [leaving, Fragments.pop, Fragments.setCursor, Table.get?_insert]

theorem Frame.leaving (frame : Frame trees s t) (live : (s.fragments.cursors.get? fragment).isSome = true) :
    Frame trees s (t.leaving fragment) := by
  rw [← frame.live] at live
  obtain ⟨cursor, known⟩ := Option.isSome_iff_exists.mp live
  have placed := frame.sound.live fragment cursor known
  refine ⟨⟨frame.file, frame.including, frame.linked, fun k => ?_, frame.opened⟩, ⟨frame.sound.consistent,
    frame.sound.linked, fun f c found => ?_, frame.sound.opened⟩, frame.grown, frame.parents, frame.items⟩
  · rw [get?_leaving]
    split
    · rename_i same
      rw [same, ← frame.live, live]
      rfl
    · exact frame.live k
  · rw [get?_leaving] at found
    split at found
    · rename_i same
      rw [same]
      refine ⟨placed.1, ?_⟩
      have moved := Option.some.inj found
      rw [Fragments.cursor, known, Option.getD_some] at moved
      cases above : t.document.parent? cursor with
      | none =>
        rw [above, Option.getD_none] at moved
        rw [← moved]
        exact placed.1
      | some p =>
        rw [above, Option.getD_some] at moved
        rw [← moved]
        exact Nat.lt_trans (frame.sound.consistent.rising p cursor above) placed.2
    · exact frame.sound.live f c found

end Copies

section Includes

variable {s t : Session} {place : Place} {id : Nat} {item : Item} {children : List Tree}

-- The session when the nodes of a file have taken the place of a tag and are about to be compiled.
def entering (s : Session) (id : Nat) (nodes : List Node) (path : Path) : Session :=
  { s with
    document := Operation.apply s.document (.included id nodes)
    file := path
    including := s.file :: s.including }

-- The trees of the file.
def entered (s : Session) (id : Nat) (nodes : List Node) : List Tree :=
  (s.document.importFresh nodes (s.document.parent? id)).1

theorem within_entered (nodes : List Node) :
    Tree.AllWithin (fun k => s.document.size ≤ k ∧ k < s.document.size + Node.totalSize nodes) (s.entered id nodes) :=
  Tree.within_placeAll _ _ _

theorem size_entering (nodes : List Node) (path : Path) :
    (s.entering id nodes path).document.size = s.document.size + Node.totalSize nodes :=
  Document.size_inlining s.document _ nodes id

theorem Fit.sound_entering (fit : Fit s place [.node id item children]) (nodes : List Node) (path : Path) :
    (s.entering id nodes path).Sound := by
  refine ⟨Document.consistent_inlining _ nodes fit.sound.consistent fit.own.1, fun k f found => ?_, fun f c found => ?_,
    fun k state found => ?_⟩
  · rw [size_entering]
    exact Nat.lt_of_lt_of_le (fit.sound.linked k f found) (Nat.le_add_right _ _)
  · rw [size_entering]
    have known := fit.sound.live f c found
    exact ⟨Nat.lt_of_lt_of_le known.1 (Nat.le_add_right _ _), Nat.lt_of_lt_of_le known.2 (Nat.le_add_right _ _)⟩
  · rw [size_entering]
    exact Nat.lt_of_lt_of_le (fit.sound.opened k state found) (Nat.le_add_right _ _)

-- The nodes of a file are new.
theorem Fit.entering (fit : Fit s place [.node id item children]) (nodes : List Node) (path : Path) :
    Fit (s.entering id nodes path) place (s.entered id nodes) where
  sound := fit.sound_entering nodes path
  fresh := (within_entered nodes).mono fun k bounds => by
    rw [size_entering]
    refine ⟨bounds.2, ?_, ?_⟩
    · show s.fragments.byTag.get? k = none
      cases found : s.fragments.byTag.get? k with
      | none => rfl
      | some f => exact absurd (fit.sound.linked k f found) (Nat.not_lt_of_le bounds.1)
    · show Table.get? s.switches k = none
      cases found : Table.get? s.switches k with
      | none => rfl
      | some state => exact absurd (fit.sound.opened k state found) (Nat.not_lt_of_le bounds.1)
  rise := (Tree.allRise_placeAll _ _ _).mono (Nat.zero_le _)
  owner := fit.owner
  inside := fit.inside

-- The file that includes the other is compiled again.
theorem Frame.returning (fit : Fit s place [.node id item children]) {nodes : List Node} {path : Path}
    (frame : Frame (s.entered id nodes) (s.entering id nodes path) t) :
    Frame [.node id item children] s { t with file := s.file, including := s.including } where
  file := rfl
  including := rfl
  linked := frame.linked
  live := frame.live
  opened := frame.opened
  sound := ⟨frame.sound.consistent, frame.sound.linked, frame.sound.live, frame.sound.opened⟩
  grown := by
    have := frame.grown
    rw [size_entering] at this
    exact Nat.le_trans (Nat.le_add_right _ _) this
  parents k bound outside := by
    have less : k < (s.entering id nodes path).document.size := by
      rw [size_entering]
      exact Nat.lt_of_lt_of_le bound (Nat.le_add_right _ _)
    have apart : Tree.AllWithin (· ≠ k) (s.entered id nodes) :=
      (within_entered nodes).mono fun other bounds => Nat.ne_of_gt (Nat.lt_of_lt_of_le bound bounds.1)
    have own : k ≠ id := Ne.symm outside.1.1
    rw [frame.parents k less apart]
    exact (Document.parent?_inlining _ nodes fit.own.1 bound).trans (if_neg own)
  items k bound := by
    have less : k < (s.entering id nodes path).document.size := by
      rw [size_entering]
      exact Nat.lt_of_lt_of_le bound (Nat.le_add_right _ _)
    exact (frame.items k less).trans (Document.item?_apply (.included id nodes) bound)

end Includes

end Session

end Stencil
