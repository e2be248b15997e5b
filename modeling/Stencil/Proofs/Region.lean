import Stencil.Proofs.AppliedAgreement

-- The part of the document that the walk over some nodes may change. The nodes stand next to each other in it;
-- outside of it, the walk only touches the children of their parent, what the fragment's cursor points to, and
-- positions that are new.

namespace Stencil

open Session Document Tree

-- The nodes of a walk: the node that they are children of, the fragment that takes their attributes, and the
-- positions from start up to stop where they and all below them stand.
structure Site where
  parent : Option Nat
  owner : Option Nat
  start : Nat
  stop : Nat

def Session.cursor? (s : Session) (owner : Option Nat) : Option Nat :=
  owner.bind fun fragment => s.fragments.cursors.get? fragment

-- Positions that the walk leaves alone.
structure Site.Spares (site : Site) (s : Session) (id : Nat) : Prop where
  old : id < s.document.size
  outside : id < site.start ∨ site.stop ≤ id
  parent : site.parent ≠ some id
  cursor : s.cursor? site.owner ≠ some id

-- The nodes stand at the site, among the children of the parent; nothing is linked to them yet, and the fragment's
-- cursor points elsewhere.
structure Ready (site : Site) (trees : List Tree) (s : Session) : Prop where
  bounded : site.stop ≤ s.document.size
  holds : s.document.HoldsAll site.parent trees
  within : AllWithin (fun id => site.start ≤ id ∧ id < site.stop) trees
  rises : AllRise site.start trees
  listed : ∀ p, site.parent = some p → p < site.start ∧ ∃ item above before after,
    s.document.cell? p = some ⟨item, above, before ++ trees.map Tree.id ++ after⟩ ∧
    ∀ id : Nat, id ∈ before → id < s.document.size ∧ (id < site.start ∨ site.stop ≤ id)
  unlinked : ∀ id, site.start ≤ id → s.fragments.byTag.get? id = none
  uncursored : ∀ id, s.document.size ≤ id → s.fragments.cursors.get? id = none
  owned : site.owner.isSome → (s.cursor? site.owner).isSome
  cursor : ∀ c, s.cursor? site.owner = some c →
    c < s.document.size ∧ (c < site.start ∨ site.stop ≤ c) ∧ site.parent ≠ some c

-- Among the children of the parent, new nodes stand where the old ones stood.
def Replaces (site : Site) (old new : List Tree) (doc next : Document) : Prop :=
  ∀ p item above before after, site.parent = some p →
    (∀ id : Nat, id ∈ before → id < doc.size ∧ (id < site.start ∨ site.stop ≤ id)) →
    doc.cell? p = some ⟨item, above, before ++ old.map Tree.id ++ after⟩ →
    next.cell? p = some ⟨item, above, before ++ new.map Tree.id ++ after⟩

-- What the walk does to the document outside the fragment: in the end it holds nodes that look as given.
structure Moved (site : Site) (trees : List Tree) (flat : List Sketch) (s t : Session) : Prop where
  grows : s.document.size ≤ t.document.size
  file : t.file = s.file
  including : t.including = s.including
  byTag : ∀ id, t.fragments.byTag.get? id = s.fragments.byTag.get? id
  cursors : ∀ id, t.fragments.cursors.get? id = s.fragments.cursors.get? id
  spared : ∀ id, site.Spares s id → t.document.cell? id = s.document.cell? id
  content : ∃ new, t.document.HoldsAll site.parent new ∧ sketches new = flat ∧
    AllWithin (fun id => (site.start ≤ id ∧ id < site.stop) ∨ s.document.size ≤ id) new ∧
    AllRise site.start new ∧ Replaces site trees new s.document t.document

-- The node at the cursor gets copies that look as given, behind the children it has.
def Leaves (copied : List Sketch) (c : Nat) (doc next : Document) : Prop :=
  ∃ copies, next.HoldsAll (some c) copies ∧ sketches copies = copied ∧ AllRise doc.size copies ∧
    ∀ item above ids, doc.cell? c = some ⟨item, above, ids⟩ →
      next.cell? c = some ⟨item, above, ids ++ copies.map Tree.id⟩

-- What the walk does to the document, with its copies in the fragment.
structure Walked (site : Site) (trees : List Tree) (flat : List Sketch) (s t : Session) : Prop
    extends Moved site trees flat s t where
  copies : ∀ c, s.cursor? site.owner = some c → Leaves (Sketch.copies flat) c s.document t.document

theorem Ready.alike {site : Site} {trees : List Tree} {s t : Session} (ready : Ready site trees s)
    (alike : Alike s t) : Ready site trees t := by
  have same : t.cursor? site.owner = s.cursor? site.owner := by simp only [Session.cursor?, alike.fragments]
  obtain ⟨bounded, holds, within, rises, listed, unlinked, uncursored, owned, cursor⟩ := ready
  refine ⟨?_, ?_, within, rises, ?_, ?_, ?_, ?_, ?_⟩
  · rwa [alike.document]
  · rwa [alike.document]
  · rwa [alike.document]
  · rwa [alike.fragments]
  · rwa [alike.document, alike.fragments]
  · rwa [same]
  · rwa [same, alike.document]

theorem Moved.alike {site : Site} {trees : List Tree} {flat : List Sketch} {s t u : Session}
    (moved : Moved site trees flat s t) (alike : Alike t u) : Moved site trees flat s u := by
  obtain ⟨grows, file, including, byTag, cursors, spared, content⟩ := moved
  refine ⟨?_, alike.file.trans file, alike.including.trans including, ?_, ?_, ?_, ?_⟩
  · rwa [alike.document]
  · rwa [alike.fragments]
  · rwa [alike.fragments]
  · rwa [alike.document]
  · rwa [alike.document]

theorem Walked.alike {site : Site} {trees : List Tree} {flat : List Sketch} {s t u : Session}
    (walked : Walked site trees flat s t) (alike : Alike t u) : Walked site trees flat s u := by
  refine ⟨walked.toMoved.alike alike, ?_⟩
  rw [alike.document]
  exact walked.copies

theorem Walked.of_alike {site : Site} {trees : List Tree} {flat : List Sketch} {s t u : Session}
    (walked : Walked site trees flat t u) (alike : Alike s t) : Walked site trees flat s u := by
  have same : t.cursor? site.owner = s.cursor? site.owner := by simp only [Session.cursor?, alike.fragments]
  obtain ⟨⟨grows, file, including, byTag, cursors, spared, content⟩, copies⟩ := walked
  refine ⟨⟨?_, file.trans alike.file, including.trans alike.including, ?_, ?_, fun id spares => ?_, ?_⟩, ?_⟩
  · rwa [← alike.document]
  · rwa [← alike.fragments]
  · rwa [← alike.fragments]
  · rw [← alike.document]
    exact spared id ⟨alike.document ▸ spares.old, spares.outside, spares.parent, same ▸ spares.cursor⟩
  · rwa [← alike.document]
  · rwa [← alike.document, ← same]

section Cursor

variable {site : Site} {trees : List Tree} {flat : List Sketch} {s t : Session}

theorem Moved.cursor? (moved : Moved site trees flat s t) (owner : Option Nat) : t.cursor? owner = s.cursor? owner := by
  cases owner with
  | none => rfl
  | some fragment => exact moved.cursors fragment

-- A new position, or one at the site, is neither the parent nor under the cursor.
theorem Ready.apart (ready : Ready site trees s) {id : Nat}
    (place : (site.start ≤ id ∧ id < site.stop) ∨ s.document.size ≤ id) :
    site.parent ≠ some id ∧ s.cursor? site.owner ≠ some id := by
  have bounded := ready.bounded
  constructor
  · intro same
    obtain ⟨before, item, above, front, back, found, _⟩ := ready.listed id same
    have old := Document.cell?_lt found
    omega
  · intro same
    obtain ⟨old, outside, _⟩ := ready.cursor id same
    omega

end Cursor

theorem Ready.unmoved {site : Site} {trees : List Tree} {s : Session} (ready : Ready site trees s) :
    Moved site trees (sketches trees) s s :=
  ⟨Nat.le_refl _, rfl, rfl, fun _ => rfl, fun _ => rfl, fun _ _ => rfl,
    ⟨trees, ready.holds, rfl, ready.within.mono fun _ => .inl, ready.rises, fun _ _ _ _ _ _ _ found => found⟩⟩

theorem Leaves.none {c : Nat} {doc next : Document} (same : next.cell? c = doc.cell? c) : Leaves [] c doc next := by
  refine ⟨[], trivial, rfl, trivial, fun item above ids found => ?_⟩
  simp [same, found]

-- A node without copies that the walk leaves alone.
theorem Ready.quiet {site : Site} {tree : Tree} {s t : Session} (ready : Ready site [tree] s) (alike : Alike s t)
    (uncopied : Sketch.copies [tree.sketch] = []) : Walked site [tree] [tree.sketch] s t := by
  refine Walked.alike ⟨ready.unmoved, fun c _ => ?_⟩ alike
  show Leaves (Sketch.copies [tree.sketch]) c _ _
  rw [uncopied]
  exact .none rfl

theorem Ready.nothing {site : Site} {s : Session} (ready : Ready site [] s) : Walked site [] [] s s :=
  ⟨ready.unmoved, fun _ _ => .none rfl⟩

section Sequence

variable {parent owner : Option Nat} {start middle stop : Nat} {tree : Tree} {rest : List Tree} {s t u : Session}
  {flat more : List Sketch}

theorem Ready.first (ready : Ready ⟨parent, owner, start, stop⟩ (tree :: rest) s) (inside : middle ≤ stop)
    (within : Within (fun id => start ≤ id ∧ id < middle) tree) :
    Ready ⟨parent, owner, start, middle⟩ [tree] s where
  bounded := Nat.le_trans inside ready.bounded
  holds := ⟨ready.holds.1, trivial⟩
  within := ⟨within, trivial⟩
  rises := ⟨ready.rises.1, trivial⟩
  listed p same := by
    obtain ⟨least, item, above, before, after, found, apart⟩ := ready.listed p same
    refine ⟨least, item, above, before, rest.map Tree.id ++ after, by simpa using found, fun id member => ?_⟩
    obtain ⟨old, outside⟩ := apart id member
    exact ⟨old, outside.imp_right (Nat.le_trans inside)⟩
  unlinked := ready.unlinked
  uncursored := ready.uncursored
  owned := ready.owned
  cursor c same := by
    obtain ⟨old, outside, apart⟩ := ready.cursor c same
    exact ⟨old, outside.imp_right (Nat.le_trans inside), apart⟩

-- What stands at the site behind the first node is spared while the first node is walked.
theorem Ready.spares_behind (ready : Ready ⟨parent, owner, start, stop⟩ (tree :: rest) s) (order : start ≤ middle)
    {id : Nat} (place : middle ≤ id ∧ id < stop) : Site.Spares ⟨parent, owner, start, middle⟩ s id := by
  have spot : (start ≤ id ∧ id < stop) ∨ s.document.size ≤ id := .inl ⟨Nat.le_trans order place.1, place.2⟩
  obtain ⟨above, cursor⟩ := ready.apart spot
  exact ⟨Nat.lt_of_lt_of_le place.2 ready.bounded, .inr place.1, above, cursor⟩

theorem Ready.behind (ready : Ready ⟨parent, owner, start, stop⟩ (tree :: rest) s) (order : start ≤ middle)
    (inside : middle ≤ stop) (within : AllWithin (fun id => middle ≤ id ∧ id < stop) rest) (rises : AllRise middle rest)
    (moved : Moved ⟨parent, owner, start, middle⟩ [tree] flat s t) :
    Ready ⟨parent, owner, middle, stop⟩ rest t where
  bounded := Nat.le_trans ready.bounded moved.grows
  holds := ready.holds.2.transfer (fun _ place => moved.spared _ (ready.spares_behind order place)) within
  within := within
  rises := rises
  listed p same := by
    obtain ⟨least, item, above, before, after, found, apart⟩ := ready.listed p same
    obtain ⟨new, holds, _, place, _, replaces⟩ := moved.content
    refine ⟨Nat.lt_of_lt_of_le least order, item, above, before ++ new.map Tree.id, after, ?_, fun id member => ?_⟩
    · have replaced := replaces p item above before (rest.map Tree.id ++ after) same
        (fun id member => (apart id member).imp_right (Or.imp_right (Nat.le_trans inside))) (by simpa using found)
      simpa using replaced
    · have bounded : stop ≤ s.document.size := ready.bounded
      have grows := moved.grows
      rcases List.mem_append.mp member with old | added
      · obtain ⟨old, outside⟩ := apart id old
        exact ⟨Nat.lt_of_lt_of_le old grows, outside.imp_left fun before => Nat.lt_of_lt_of_le before order⟩
      · have inner := holds.within.id id added
        have least := place.id id added
        simp only at inner least ⊢
        omega
  unlinked id behind := by
    rw [moved.byTag]
    exact ready.unlinked id (Nat.le_trans order behind)
  uncursored id behind := by
    rw [moved.cursors]
    exact ready.uncursored id (Nat.le_trans moved.grows behind)
  owned has := by
    rw [moved.cursor?]
    exact ready.owned has
  cursor c same := by
    rw [moved.cursor?] at same
    obtain ⟨old, outside, apart⟩ := ready.cursor c same
    exact ⟨Nat.lt_of_lt_of_le old moved.grows, outside.imp_left fun before => Nat.lt_of_lt_of_le before order, apart⟩

-- What the walk over the first node left is spared while the others are walked.
theorem Ready.spares_front (ready : Ready ⟨parent, owner, start, stop⟩ (tree :: rest) s) (inside : middle ≤ stop)
    (moved : Moved ⟨parent, owner, start, middle⟩ [tree] flat s t) {id : Nat} (new : id < t.document.size)
    (place : (start ≤ id ∧ id < middle) ∨ s.document.size ≤ id) :
    Site.Spares ⟨parent, owner, middle, stop⟩ t id := by
  have bounded : stop ≤ s.document.size := ready.bounded
  have spot : (start ≤ id ∧ id < stop) ∨ s.document.size ≤ id :=
    place.imp_left fun front => ⟨front.1, Nat.lt_of_lt_of_le front.2 inside⟩
  obtain ⟨above, cursor⟩ := ready.apart spot
  refine ⟨new, ?_, above, ?_⟩
  · simp only
    omega
  · rwa [moved.cursor?]

theorem Sketch.copies_append (front back : List Sketch) : copies (front ++ back) = copies front ++ copies back := by
  induction front with
  | nil => rfl
  | cons first rest ih => simp [copies, ih]

theorem Leaves.append {front back : List Sketch} {c : Nat} {doc mid next : Document} (first : Leaves front c doc mid)
    (second : Leaves back c mid next) (grows : doc.size ≤ mid.size)
    (kept : ∀ id, id < mid.size → doc.size ≤ id → next.cell? id = mid.cell? id) :
    Leaves (front ++ back) c doc next := by
  obtain ⟨copies, holds, same, rise, extends_⟩ := first
  obtain ⟨copies', holds', same', rise', extends'⟩ := second
  refine ⟨copies ++ copies', ?_, ?_, rise.append (rise'.mono grows), fun item above ids found => ?_⟩
  · refine HoldsAll.append ?_ holds'
    exact holds.transfer (fun id place => kept id place.1 place.2) (holds.within.and rise.within)
  · rw [sketches_append, same, same']
  · have extended := extends' _ _ _ (extends_ _ _ _ found)
    simpa using extended

theorem Walked.append (ready : Ready ⟨parent, owner, start, stop⟩ (tree :: rest) s) (order : start ≤ middle)
    (inside : middle ≤ stop) (first : Walked ⟨parent, owner, start, middle⟩ [tree] flat s t)
    (second : Walked ⟨parent, owner, middle, stop⟩ rest more t u) :
    Walked ⟨parent, owner, start, stop⟩ (tree :: rest) (flat ++ more) s u := by
  have bounded : stop ≤ s.document.size := ready.bounded
  refine ⟨⟨Nat.le_trans first.grows second.grows, second.file.trans first.file, second.including.trans first.including,
    fun id => (second.byTag id).trans (first.byTag id), fun id => (second.cursors id).trans (first.cursors id),
    ?_, ?_⟩, ?_⟩
  · intro id spares
    obtain ⟨old, outside, above, cursor⟩ := spares
    have grows := first.grows
    simp only at outside
    have early : Site.Spares ⟨parent, owner, start, middle⟩ s id := ⟨old, by simp only; omega, above, cursor⟩
    have late : Site.Spares ⟨parent, owner, middle, stop⟩ t id :=
      ⟨by omega, by simp only; omega, above, by rwa [first.cursor?]⟩
    rw [second.spared id late, first.spared id early]
  · obtain ⟨new, holds, same, place, rise, replaces⟩ := first.content
    obtain ⟨new', holds', same', place', rise', replaces'⟩ := second.content
    have grows := first.grows
    refine ⟨new ++ new', ?_, ?_, ?_, rise.append (rise'.mono order), ?_⟩
    · refine HoldsAll.append ?_ holds'
      exact holds.transfer
        (fun id place => second.spared id (ready.spares_front inside first.toMoved place.1 place.2))
        (holds.within.and place)
    · rw [sketches_append, same, same']
    · refine AllWithin.append (place.mono fun id => ?_) (place'.mono fun id => ?_)
      · simp only
        omega
      · simp only
        omega
    · intro p item above before after parent apart found
      have once := replaces p item above before (rest.map Tree.id ++ after) parent
        (fun id member => (apart id member).imp_right (Or.imp_right (Nat.le_trans inside))) (by simpa using found)
      have twice := replaces' p item above (before ++ new.map Tree.id) after parent ?_ (by simpa using once)
      · simpa using twice
      · intro id member
        rcases List.mem_append.mp member with old | added
        · obtain ⟨old, outside⟩ := apart id old
          exact ⟨Nat.lt_of_lt_of_le old grows, outside.imp_left fun front => Nat.lt_of_lt_of_le front order⟩
        · have inner := holds.within.id id added
          have least := place.id id added
          simp only at inner least ⊢
          omega
  · intro c found
    rw [Sketch.copies_append]
    refine (first.copies c found).append (second.copies c ((first.cursor? owner).trans found)) first.grows
      fun id new old => ?_
    exact second.spared id (ready.spares_front inside first.toMoved new (.inr old))

end Sequence

-- A step from a tag to its children, whose attributes go to another owner: at most the node at the cursor changes,
-- and the new cursor points to a new node or stays where it was.
structure Enters (site : Site) (inner : Option Nat) (s t : Session) : Prop where
  grows : s.document.size ≤ t.document.size
  kept : ∀ id, id < s.document.size → s.cursor? site.owner ≠ some id → t.document.cell? id = s.document.cell? id
  unlinked : ∀ id, site.start < id → t.fragments.byTag.get? id = none
  uncursored : ∀ id, t.document.size ≤ id → t.fragments.cursors.get? id = none
  owned : inner.isSome → (t.cursor? inner).isSome
  cursor : ∀ c, t.cursor? inner = some c →
    (s.document.size ≤ c ∧ c < t.document.size) ∨ s.cursor? site.owner = some c

section Descent

variable {parent owner inner : Option Nat} {start stop : Nat} {item : Item} {children : List Tree}
  {s t u v : Session} {flat : List Sketch}

theorem Enters.same (ready : Ready ⟨parent, owner, start, stop⟩ [.node start item children] s)
    (enters : Enters ⟨parent, owner, start, stop⟩ inner s t) {id : Nat} (place : start ≤ id ∧ id < stop) :
    t.document.cell? id = s.document.cell? id :=
  enters.kept id (Nat.lt_of_lt_of_le place.2 ready.bounded) (ready.apart (.inl place)).2

theorem Enters.ready (ready : Ready ⟨parent, owner, start, stop⟩ [.node start item children] s)
    (enters : Enters ⟨parent, owner, start, stop⟩ inner s t) :
    Ready ⟨some start, inner, start + 1, stop⟩ children t := by
  have bounded : stop ≤ s.document.size := ready.bounded
  have grows := enters.grows
  have own : start < stop := ready.within.1.1.2
  have below : AllWithin (fun id => start + 1 ≤ id ∧ id < stop) children :=
    (ready.rises.1.2.within.and ready.within.1.2).mono fun id place => ⟨place.1, place.2.2⟩
  have kept : ∀ id, start ≤ id ∧ id < stop → t.document.cell? id = s.document.cell? id :=
    fun id place => enters.same ready place
  refine ⟨Nat.le_trans bounded grows, ?_, below, ready.rises.1.2, ?_, ?_, enters.uncursored, enters.owned, ?_⟩
  · exact ready.holds.1.2.transfer (fun id place => kept id ⟨by omega, place.2⟩) below
  · rintro _ ⟨⟩
    refine ⟨Nat.lt_succ_self start, item, parent, [], [], ?_, nofun⟩
    simpa using (kept start ⟨Nat.le_refl _, own⟩).trans ready.holds.1.1
  · exact fun id later => enters.unlinked id later
  · intro c found
    simp only
    rcases enters.cursor c found with new | old
    · refine ⟨new.2, by omega, fun same => ?_⟩
      cases same
      omega
    · obtain ⟨old, outside, _⟩ := ready.cursor c old
      simp only at outside
      refine ⟨by omega, by omega, fun same => ?_⟩
      cases same
      omega

-- The tag keeps its place, with the children that the walk over them leaves.
theorem Enters.tag (ready : Ready ⟨parent, owner, start, stop⟩ [.node start item children] s)
    (enters : Enters ⟨parent, owner, start, stop⟩ inner s t)
    (moved : Moved ⟨some start, inner, start + 1, stop⟩ children flat t u) :
    ∃ new, u.document.cell? start = some ⟨item, parent, new.map Tree.id⟩ ∧ u.document.HoldsAll (some start) new ∧
      sketches new = flat ∧ AllWithin (fun id => (start ≤ id ∧ id < stop) ∨ s.document.size ≤ id) new ∧
      AllRise (start + 1) new := by
  have grows := enters.grows
  obtain ⟨new, holds, same, place, rise, replaces⟩ := moved.content
  refine ⟨new, ?_, holds, same, place.mono fun id => ?_, rise⟩
  · have own : t.document.cell? start = some ⟨item, parent, children.map Tree.id⟩ :=
      (enters.same ready ready.within.1.1).trans ready.holds.1.1
    simpa using replaces start item parent [] [] rfl nofun (by simpa using own)
  · simp only
    omega

theorem Enters.isEmpty (ready : Ready ⟨parent, owner, start, stop⟩ [.node start item children] s)
    (enters : Enters ⟨parent, owner, start, stop⟩ inner s t)
    (moved : Moved ⟨some start, inner, start + 1, stop⟩ children flat t u) :
    (u.document.children start).isEmpty = flat.isEmpty := by
  obtain ⟨new, found, _, same, _⟩ := enters.tag ready moved
  rw [Document.children, found, ← same, isEmpty_sketches]
  simp

-- Positions that the walk over a tag spares are left alone by the walk over its children.
theorem Enters.spared (enters : Enters ⟨parent, owner, start, stop⟩ inner s t)
    (moved : Moved ⟨some start, inner, start + 1, stop⟩ children flat t u) {id : Nat} (old : id < s.document.size)
    (outside : id < start ∨ stop ≤ id) (own : start < stop) (cursor : t.cursor? inner ≠ some id) :
    u.document.cell? id = t.document.cell? id := by
  have grows := enters.grows
  refine moved.spared id ⟨by omega, by simp only; omega, fun same => ?_, cursor⟩
  cases same
  omega

-- Back from the children: the tables of the fragments are as before the tag, and so are the files.
structure Exits (s u v : Session) : Prop where
  document : v.document = u.document
  file : v.file = s.file
  including : v.including = s.including
  byTag : ∀ id, v.fragments.byTag.get? id = s.fragments.byTag.get? id
  cursors : ∀ id, v.fragments.cursors.get? id = s.fragments.cursors.get? id

theorem Enters.moved (ready : Ready ⟨parent, owner, start, stop⟩ [.node start item children] s)
    (enters : Enters ⟨parent, owner, start, stop⟩ inner s t)
    (moved : Moved ⟨some start, inner, start + 1, stop⟩ children flat t u) (exits : Exits s u v) :
    Moved ⟨parent, owner, start, stop⟩ [.node start item children] [.node item flat] s v := by
  have own : start < stop := ready.within.1.1.2
  have apart : ∀ id, id < s.document.size → s.cursor? owner ≠ some id → t.cursor? inner ≠ some id := by
    intro id old other same
    rcases enters.cursor id same with new | same
    · omega
    · exact other same
  have spared : ∀ id, id < s.document.size → (id < start ∨ stop ≤ id) → s.cursor? owner ≠ some id →
      v.document.cell? id = s.document.cell? id := by
    intro id old outside cursor
    rw [exits.document, enters.spared moved old outside own (apart id old cursor), enters.kept id old cursor]
  refine ⟨?_, exits.file, exits.including, exits.byTag, exits.cursors, ?_, ?_⟩
  · rw [exits.document]
    exact Nat.le_trans enters.grows moved.grows
  · rintro id ⟨old, outside, _, cursor⟩
    exact spared id old outside cursor
  · obtain ⟨new, found, holds, same, place, rise⟩ := enters.tag ready moved
    refine ⟨[.node start item new], ?_, by simp [sketches, sketch, same], ?_, ⟨⟨Nat.le_refl _, rise⟩, trivial⟩, ?_⟩
    · rw [exits.document]
      exact ⟨⟨found, holds⟩, trivial⟩
    · exact ⟨⟨.inl ready.within.1.1, place⟩, trivial⟩
    · intro p _ _ _ _ same _ found
      have least : p < start := (ready.listed p same).1
      have old := cell?_lt found
      rw [spared p old (.inl least) fun at_ => (ready.cursor p at_).2.2 same]
      exact found

end Descent

end Stencil
