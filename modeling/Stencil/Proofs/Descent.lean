import Stencil.Proofs.Region

-- From a tag to its children and back. The walk goes down in the place it stands in, outside of any tag, into a
-- new fragment, or into the copy of a control tag; on the way back it has left copies in the fragment around.

namespace Stencil

open Session Document Tree

section Plain

variable {parent owner inner : Option Nat} {start stop : Nat} {item : Item} {children : List Tree}
  {s t u v : Session} {flat : List Sketch}

theorem Ready.stays (ready : Ready ⟨parent, owner, start, stop⟩ [.node start item children] s) :
    Enters ⟨parent, owner, start, stop⟩ owner s s :=
  ⟨Nat.le_refl _, fun _ _ _ => rfl, fun id later => ready.unlinked id (Nat.le_of_lt later), ready.uncursored,
    ready.owned, fun _ found => .inr found⟩

theorem Ready.leaves (ready : Ready ⟨parent, owner, start, stop⟩ [.node start item children] s) :
    Enters ⟨parent, owner, start, stop⟩ none s s :=
  ⟨Nat.le_refl _, fun _ _ _ => rfl, fun id later => ready.unlinked id (Nat.le_of_lt later), ready.uncursored, nofun,
    nofun⟩

-- The walk over the children of a tag that leaves no copies does not come near the cursor.
theorem Enters.apart (ready : Ready ⟨parent, owner, start, stop⟩ [.node start item children] s)
    (enters : Enters ⟨parent, owner, start, stop⟩ inner s t)
    (moved : Moved ⟨some start, inner, start + 1, stop⟩ children flat t u) (exits : Exits s u v)
    (kept : ∀ id, id < s.document.size → t.document.cell? id = s.document.cell? id)
    (fresh : ∀ c, t.cursor? inner = some c → s.document.size ≤ c) (uncopied : Sketch.copies [.node item flat] = []) :
    Walked ⟨parent, owner, start, stop⟩ [.node start item children] [.node item flat] s v := by
  refine ⟨enters.moved ready moved exits, fun c found => ?_⟩
  obtain ⟨old, outside, _⟩ := ready.cursor c found
  rw [uncopied]
  refine .none ?_
  rw [exits.document, ← kept c old]
  exact enters.spared moved old outside ready.within.1.1.2 fun same => Nat.not_le_of_lt old (fresh c same)

-- A tag that only passes on the copies of its children.
theorem Ready.passes (ready : Ready ⟨parent, owner, start, stop⟩ [.node start item children] s)
    (walked : Walked ⟨some start, owner, start + 1, stop⟩ children flat s u)
    (copied : owner.isSome → Sketch.copies [.node item flat] = Sketch.copies flat) :
    Walked ⟨parent, owner, start, stop⟩ [.node start item children] [.node item flat] s u := by
  have exits : Exits s u u := ⟨rfl, walked.file, walked.including, walked.byTag, walked.cursors⟩
  refine ⟨ready.stays.moved ready walked.toMoved exits, fun c found => ?_⟩
  have owned : owner.isSome := by
    cases owner with
    | none => cases found
    | some fragment => rfl
  rw [copied owned]
  exact walked.copies c found

end Plain

section Linked

variable {parent owner : Option Nat} {start stop : Nat} {item : Item} {children : List Tree} {s u : Session}
  {flat : List Sketch}

def Session.linked (s : Session) (tag : Nat) (location : Location) : Session :=
  { s with
    document := (s.document.push (Fragments.top s.fragments.nextIdentity location)).2,
    fragments := s.fragments.linked s.document tag }

theorem run_link {id : Nat} (unknown : s.fragments.byTag.get? id = none) : ∃ location, (Walk.link id).run.run s =
    (.ok ⟨s.document.size, s.fragments.nextIdentity⟩, s.linked id location) := by
  obtain ⟨location, linked⟩ := s.fragments.link_eq s.document unknown
  refine ⟨location, ?_⟩
  have found := s.document.cell?_push (Fragments.top s.fragments.nextIdentity location) s.document.size
  rw [if_pos rfl] at found
  have ran : ∀ made, s.fragments.link s.document id = made → (Walk.link id).run.run s =
      (.ok ⟨made.1, ((made.2.2.cell? made.1).map fun cell => cell.item.identity).getD 0⟩,
        { s with fragments := made.2.1, document := made.2.2 }) := by
    rintro _ rfl
    rfl
  rw [ran _ linked]
  simp only [found]
  rfl

theorem cursor?_linked (s : Session) (tag : Nat) (location : Location) :
    (s.linked tag location).cursor? (some s.document.size) = some s.document.size := by
  simp [Session.cursor?, Session.linked, Fragments.linked, Table.get?_insert]

theorem Ready.links (ready : Ready ⟨parent, owner, start, stop⟩ [.node start item children] s) (location : Location) :
    Enters ⟨parent, owner, start, stop⟩ (some s.document.size) s (s.linked start location) := by
  have size : (s.linked start location).document.size = s.document.size + 1 := size_push _ _
  refine ⟨by omega, fun id old _ => ?_, fun id later => ?_, fun id later => ?_, fun _ => ?_, fun c found => ?_⟩
  · rw [Session.linked, cell?_push, if_neg (Nat.ne_of_lt old)]
  · rw [Session.linked, Fragments.linked, Table.get?_insert, if_neg (Nat.ne_of_gt later)]
    exact ready.unlinked id (Nat.le_of_lt later)
  · rw [size] at later
    rw [Session.linked, Fragments.linked, Table.get?_insert, if_neg (by omega)]
    exact ready.uncursored id (by omega)
  · simp [cursor?_linked]
  · rw [cursor?_linked] at found
    cases found
    exact .inl ⟨Nat.le_refl _, by omega⟩

-- When the fragment is forgotten, no trace of it is left in the tables.
theorem Ready.unlinks (ready : Ready ⟨parent, owner, start, stop⟩ [.node start item children] s) (location : Location)
    (file : u.file = s.file) (including : u.including = s.including)
    (byTag : ∀ id, u.fragments.byTag.get? id = (s.linked start location).fragments.byTag.get? id)
    (cursors : ∀ id, u.fragments.cursors.get? id = (s.linked start location).fragments.cursors.get? id) :
    Exits s u { u with fragments := u.fragments.unlink start } := by
  have known : u.fragments.get? start = some s.document.size := by
    show u.fragments.byTag.get? start = _
    rw [byTag, Session.linked, Fragments.linked, Table.get?_insert, if_pos rfl]
  refine ⟨rfl, file, including, fun id => ?_, fun id => ?_⟩
  · simp only [Fragments.unlink_eq _ known, Table.get?_erase, byTag, Session.linked, Fragments.linked, Table.get?_insert]
    by_cases same : id = start
    · subst same
      simp [ready.unlinked id (Nat.le_refl _)]
    · simp [same]
  · simp only [Fragments.unlink_eq _ known, Table.get?_erase, cursors, Session.linked, Fragments.linked,
      Table.get?_insert]
    by_cases same : id = s.document.size
    · subst same
      simp [ready.uncursored _ (Nat.le_refl _)]
    · simp [same]

end Linked

section Copied

variable {parent : Option Nat} {fragment c start stop : Nat} {item : Item} {children : List Tree}
  {s u : Session} {flat : List Sketch} {name : String}

def Session.copied (s : Session) (fragment id : Nat) (name : String) (advance : Bool) : Session :=
  { s with
    document := s.fragments.appended s.document name advance fragment id,
    fragments := if advance then s.fragments.setCursor fragment s.document.size else s.fragments }

theorem run_copyInto {e : Element} {cell : Cell} {advance : Bool} (found : s.document.cell? e.id = some cell) :
    (Walk.copyInto fragment e advance).run.run s =
      (.ok (), s.copied fragment e.id (TagKind.appliedName e.tag.name) advance) := by
  have ran : ∀ made, s.fragments.append s.document fragment e.id (TagKind.appliedName e.tag.name) advance = made →
      (Walk.copyInto fragment e advance).run.run s =
        (.ok (), { s with fragments := made.2.1, document := made.2.2 }) := by
    rintro _ rfl
    rfl
  exact ran _ (s.fragments.append_eq s.document _ advance found)

section Cells

variable (ready : Ready ⟨parent, some fragment, start, stop⟩ [.node start item children] s)
  (pointed : s.fragments.cursors.get? fragment = some c)
include ready

theorem Ready.size_copied (name : String) (advance : Bool) :
    (s.copied fragment start name advance).document.size = s.document.size + 1 :=
  s.fragments.size_appended s.document name advance ready.holds.1.1

include pointed

theorem Ready.cell?_copied (name : String) (advance : Bool) (id : Nat) : (s.copied fragment start name advance).document.cell? id =
    if id = s.document.size then some ⟨renamed name item, some c, []⟩
    else if id = c then (s.document.cell? id).map fun cell => { cell with children := cell.children ++ [s.document.size] }
    else s.document.cell? id := by
  have cursor : s.fragments.cursor fragment = c := by rw [Fragments.cursor, pointed]; rfl
  have old : c < s.document.size := (ready.cursor c pointed).1
  simp only [Session.copied, s.fragments.cell?_appended s.document name advance ready.holds.1.1 (cursor ▸ old), cursor]

theorem Ready.copies : Enters ⟨parent, some fragment, start, stop⟩ (some fragment) s
    (s.copied fragment start name true) := by
  have size := ready.size_copied name true
  have moved : ∀ id, (s.copied fragment start name true).fragments.cursors.get? id =
      if id = fragment then some s.document.size else s.fragments.cursors.get? id :=
    Table.get?_insert s.fragments.cursors fragment s.document.size
  refine ⟨by omega, fun id old other => ?_, fun id later => ready.unlinked id (Nat.le_of_lt later), fun id later => ?_,
    fun _ => ?_, fun c found => ?_⟩
  · have apart : id ≠ c := by
      rintro rfl
      exact other pointed
    rw [ready.cell?_copied pointed name true, if_neg (Nat.ne_of_lt old), if_neg apart]
  · have other : id ≠ fragment := by
      rintro rfl
      rw [ready.uncursored id (by omega)] at pointed
      cases pointed
    rw [moved, if_neg other]
    exact ready.uncursored id (by omega)
  · simp [Session.cursor?, moved]
  · simp only [Session.cursor?, moved, Option.bind_some, if_true] at found
    cases found
    exact .inl ⟨Nat.le_refl _, by omega⟩

-- A node with a copy of its own, under which its children leave theirs; then the cursor goes back.
theorem Ready.copied (walked : Walked ⟨some start, some fragment, start + 1, stop⟩ children flat
      (s.copied fragment start name true) u)
    (copied : Sketch.copies [.node item flat] = [.node (renamed name item) (Sketch.copies flat)]) :
    Walked ⟨parent, some fragment, start, stop⟩ [.node start item children] [.node item flat] s
      { u with fragments := u.fragments.pop u.document fragment } := by
  have enters : Enters _ _ s (s.copied fragment start name true) := ready.copies pointed
  have size := ready.size_copied name true
  have cells := ready.cell?_copied pointed name true
  have at_copy : (s.copied fragment start name true).fragments.cursors.get? fragment = some s.document.size := by
    simp [Session.copied, Fragments.setCursor, Table.get?_insert]
  obtain ⟨old, outside, _⟩ := ready.cursor c pointed
  obtain ⟨copies, holds, same, rise, extended⟩ := walked.copies s.document.size at_copy
  have copy : u.document.cell? s.document.size = some ⟨renamed name item, some c, copies.map Tree.id⟩ := by
    refine extended _ _ [] ?_
    rw [cells, if_pos rfl]
  have back : Exits s u { u with fragments := u.fragments.pop u.document fragment } := by
    refine ⟨rfl, walked.file, walked.including, walked.byTag, fun id => ?_⟩
    have cursor : u.fragments.cursor fragment = s.document.size := by
      rw [Fragments.cursor, walked.cursors, at_copy]
      rfl
    have above : u.document.parent? s.document.size = some c := by
      rw [Document.parent?, copy]
      rfl
    simp only [Fragments.pop, Fragments.setCursor, Table.get?_insert, cursor, above, Option.getD_some]
    by_cases own : id = fragment
    · rw [if_pos own, own, pointed]
    · rw [if_neg own, walked.cursors]
      simp [Session.copied, Fragments.setCursor, Table.get?_insert, own]
  refine ⟨enters.moved ready walked.toMoved back, fun c' found => ?_⟩
  obtain rfl : c = c' := Option.some.inj (pointed.symm.trans found)
  rw [copied]
  refine ⟨[.node s.document.size (renamed name item) copies], ⟨⟨copy, holds⟩, trivial⟩, by simp [sketches, sketch, same],
    ⟨⟨Nat.le_refl _, size ▸ rise⟩, trivial⟩, fun top above ids found => ?_⟩
  have spared : u.document.cell? c = (s.copied fragment start name true).document.cell? c := by
    refine enters.spared walked.toMoved old outside ready.within.1.1.2 fun same => ?_
    have moved : some s.document.size = some c := at_copy.symm.trans same
    cases moved
    omega
  rw [spared, cells, if_neg (Nat.ne_of_lt old), if_pos rfl, found]
  rfl

-- A node with a copy of its own, whose children the walk passes by.
theorem Ready.attribute (copied : Sketch.copies [.node item (sketches children)] = [.node (renamed name item) []]) :
    Walked ⟨parent, some fragment, start, stop⟩ [.node start item children] [.node item (sketches children)] s
      (s.copied fragment start name false) := by
  have size := ready.size_copied name false
  have cells := ready.cell?_copied pointed name false
  have kept : ∀ id, id < s.document.size → s.cursor? (some fragment) ≠ some id →
      (s.copied fragment start name false).document.cell? id = s.document.cell? id := by
    intro id old other
    have apart : id ≠ c := by
      rintro rfl
      exact other pointed
    rw [cells, if_neg (Nat.ne_of_lt old), if_neg apart]
  have bounded : stop ≤ s.document.size := ready.bounded
  obtain ⟨old, outside, _⟩ := ready.cursor c pointed
  refine ⟨⟨by omega, rfl, rfl, fun _ => rfl, fun _ => rfl, fun id spares => kept id spares.old spares.cursor, ?_⟩, ?_⟩
  · refine ⟨[.node start item children], ?_, rfl, ready.within.mono fun _ => .inl, ready.rises, ?_⟩
    · refine ready.holds.transfer (fun id place => kept id ?_ ?_) ready.within
      · exact Nat.lt_of_lt_of_le place.2 bounded
      · exact (ready.apart (.inl place)).2
    · intro p _ _ _ _ same _ found
      rw [kept p (cell?_lt found) fun at_ => (ready.cursor p at_).2.2 same]
      exact found
  · intro c' found
    obtain rfl : c = c' := Option.some.inj (pointed.symm.trans found)
    rw [copied]
    refine ⟨[.node s.document.size (renamed name item) []], ⟨⟨?_, trivial⟩, trivial⟩, rfl,
      ⟨⟨Nat.le_refl _, trivial⟩, trivial⟩, fun top above ids found => ?_⟩
    · rw [cells, if_pos rfl]
      rfl
    · rw [cells, if_neg (Nat.ne_of_lt old), if_pos rfl, found]
      rfl

end Cells

end Copied

section Included

variable {parent owner : Option Nat} {start stop : Nat} {item : Item} {children : List Tree} {s u : Session}
  {flat : List Sketch}

def Session.included (s : Session) (path : Path) (shift : Nat) (nodes : List Node) (target : Nat) : Session :=
  { s with
    document := s.document.inlining shift nodes target,
    file := path,
    including := s.file :: s.including }

theorem replaceFirst_append {target : Nat} {before : List Nat} (fresh : target ∉ before) (roots after : List Nat) :
    replaceFirst target roots (before ++ [target] ++ after) = before ++ roots ++ after := by
  induction before with
  | nil => simp [replaceFirst]
  | cons id rest ih =>
    have other : id ≠ target := fun same => fresh (same ▸ List.mem_cons_self)
    have later := ih fun member => fresh (List.mem_cons_of_mem id member)
    simpa [replaceFirst, other] using later

variable (ready : Ready ⟨parent, owner, start, stop⟩ [.node start item children] s) (path : Path) (shift : Nat)
  (nodes : List Node)
include ready

theorem Ready.parent? : s.document.parent? start = parent := by
  rw [Document.parent?, ready.holds.1.1]
  rfl

theorem Ready.cell?_included {id : Nat} (old : id < s.document.size) (outside : id < start ∨ stop ≤ id)
    (other : parent ≠ some id) :
    (s.included path shift nodes start).document.cell? id = s.document.cell? id := by
  have own : start < stop := ready.within.1.1.2
  rw [Session.included, cell?_inlining _ _ _ (cell?_lt ready.holds.1.1) old (by omega), ready.parent?, if_neg other]

theorem Ready.replaced_included : Replaces ⟨parent, owner, start, stop⟩ [.node start item children]
    (placeAll shift s.document.size nodes) s.document (s.included path shift nodes start).document := by
  intro p item above before after same apart found
  have own : start < stop := ready.within.1.1.2
  have least : p < start := (ready.listed p same).1
  have fresh : start ∉ before := by
    intro member
    have outside := (apart start member).2
    simp only at outside
    omega
  rw [Session.included, cell?_inlining _ _ _ (cell?_lt ready.holds.1.1) (cell?_lt found) (Nat.ne_of_lt least),
    ready.parent?, if_pos same, found]
  simp only [Option.map_some, List.map_cons, List.map_nil]
  exact congrArg (fun ids => some (Cell.mk item above ids)) (replaceFirst_append fresh _ after)

theorem Ready.included : Ready ⟨parent, owner, s.document.size, s.document.size + Node.totalSize nodes⟩
    (placeAll shift s.document.size nodes) (s.included path shift nodes start) := by
  have size : (s.included path shift nodes start).document.size = _ := size_inlining s.document shift nodes start
  have bounded : stop ≤ s.document.size := ready.bounded
  have own : start < stop := ready.within.1.1.2
  refine ⟨Nat.le_of_eq size.symm, ?_, within_placeAll shift _ nodes, allRise_placeAll shift _ nodes, ?_, ?_, ?_,
    ready.owned, ?_⟩
  · have held := s.document.holds_inlining shift nodes (cell?_lt ready.holds.1.1) ?_
    · rwa [ready.parent?] at held
    · rw [ready.parent?]
      intro p same
      obtain ⟨_, _, _, _, _, found, _⟩ := ready.listed p same
      exact cell?_lt found
  · intro p same
    obtain ⟨least, item, above, before, after, found, apart⟩ := ready.listed p same
    refine ⟨Nat.lt_trans least (Nat.lt_of_lt_of_le own bounded), item, above, before, after, ?_, fun id member => ?_⟩
    · exact ready.replaced_included path shift nodes p item above before after same apart found
    · obtain ⟨old, _⟩ := apart id member
      simp only
      omega
  · exact fun id later => ready.unlinked id (Nat.le_trans (by simp only; omega) later)
  · exact fun id later => ready.uncursored id (by omega)
  · intro c found
    obtain ⟨old, _, apart⟩ := ready.cursor c found
    simp only
    exact ⟨by omega, .inl old, apart⟩

-- The nodes that the walk leaves in the place of the file are those that it leaves in the place of the tag.
theorem Ready.walked_included (walked : Walked ⟨parent, owner, s.document.size, s.document.size + Node.totalSize nodes⟩
      (placeAll shift s.document.size nodes) flat (s.included path shift nodes start) u) :
    Walked ⟨parent, owner, start, stop⟩ [.node start item children] flat s
      { u with file := s.file, including := s.including } := by
  have size : (s.included path shift nodes start).document.size = _ := size_inlining s.document shift nodes start
  have grows := walked.grows
  have bounded : stop ≤ s.document.size := ready.bounded
  have own : start < stop := ready.within.1.1.2
  refine ⟨⟨by simp only; omega, rfl, rfl, walked.byTag, walked.cursors, ?_, ?_⟩, ?_⟩
  · rintro id ⟨old, outside, other, cursor⟩
    rw [walked.spared id ⟨by omega, .inl old, other, cursor⟩]
    exact ready.cell?_included path shift nodes old outside other
  · obtain ⟨new, holds, same, place, rise, replaces⟩ := walked.content
    refine ⟨new, holds, same, place.mono fun id => ?_, rise.mono (by simp only; omega), ?_⟩
    · simp only
      omega
    · intro p item above before after same apart found
      refine replaces p item above before after same (fun id member => ?_)
        (ready.replaced_included path shift nodes p item above before after same apart found)
      have old := (apart id member).1
      exact ⟨by omega, .inl old⟩
  · intro c found
    obtain ⟨old, outside, other⟩ := ready.cursor c found
    obtain ⟨copies, holds, same, rise, extended⟩ := walked.copies c found
    refine ⟨copies, holds, same, rise.mono (by omega), fun top above ids found => extended top above ids ?_⟩
    rw [ready.cell?_included path shift nodes old outside other, found]

end Included

end Stencil
