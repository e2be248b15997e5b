import Stencil.Proofs.Descent

-- The walk over the content of a template and the draft of its outline. Both follow the nodes; by induction on
-- them, what holds for the children of a tag is carried over to the tag.

namespace Stencil

open Session Document Tree

def Session.stack (s : Session) : Stack := ⟨s.file, s.including⟩

def Element.item (e : Element) : Item := ⟨e.identity, .tag e.tag, e.location⟩

-- Lines are written, and the document is what the walk over the site makes of it.
structure Finishes (site : Site) (inside : Option NodeId) (trees : List Tree) (flat : List Sketch) (known : Nat)
    (s : Session) (code : Code) (lines : List Line) (t : Session) : Prop where
  written : code = Line.codes lines
  walked : Walked site trees flat s t
  kept : KeepsBelow site.start inside s t
  taken : t.document.maxIdentity = known

-- When the walk comes to the children of a tag without a meaning of its own, the tag stands there with these
-- children, and has an empty fragment.
def Opened (e : Element) (children : List Tree) (place : Place) (s : Session) : Prop :=
  TagKind.ofName? e.tag.name = none →
    (∃ item above, s.document.cell? e.id = some ⟨item, above, children.map Tree.id⟩) ∧
    ∃ fragment item, place.owner = some fragment ∧ s.fragments.byTag.get? e.id = some fragment ∧
      s.fragments.cursors.get? fragment = some fragment ∧ s.document.cell? fragment = some ⟨item, none, []⟩

-- The two readings of what lies below a tag agree, in whatever place and for whatever accumulator.
def BelowAgrees (s : Session) (e : Element) (stop : Nat) (children : List Tree) (flat : List Sketch) (known : Nat)
    (body : Place → Nat → Walk Code) (draft : Bool → Nat → Draft (List Line)) : Prop :=
  ∀ (place : Place) (sink : Nat) (t : Session), Ready ⟨some e.id, place.owner, e.id + 1, stop⟩ children t →
    Opened e children place t → t.stack = s.stack → t.document.maxIdentity = s.document.maxIdentity →
    (∀ id : Nat, place.inside = some id → id < e.id + 1) →
    Agrees place.inside (body place sink) (draft place.owner.isSome sink) t
      (Finishes ⟨some e.id, place.owner, e.id + 1, stop⟩ place.inside children flat known t)

section Control

variable {parent : Option Nat} {stop known sink : Nat} {e : Element} {place : Place} {children : List Tree}
  {flat : List Sketch} {s : Session} {file : Path} {body : Place → Nat → Walk Code}
  {draft : Bool → Nat → Draft (List Line)}

-- What the walk over a tag of control flow leaves behind.
structure Enclosed (parent : Option Nat) (stop known : Nat) (e : Element) (place : Place) (children : List Tree)
    (flat : List Sketch) (s u : Session) : Prop where
  walked : Walked ⟨parent, place.owner, e.id, stop⟩ [.node e.id e.item children] [.node e.item flat] s u
  childless : (u.document.children e.id).isEmpty = flat.isEmpty
  taken : u.document.maxIdentity = known

theorem Enclosed.alike {t u : Session} (enclosed : Enclosed parent stop known e place children flat s t)
    (alike : Alike t u) : Enclosed parent stop known e place children flat s u := by
  obtain ⟨walked, childless, taken⟩ := enclosed
  refine ⟨walked.alike alike, ?_, ?_⟩
  · rwa [alike.document]
  · rwa [alike.document]

theorem BelowAgrees.passing (below : BelowAgrees s e stop children flat known body draft)
    (ready : Ready ⟨parent, place.owner, e.id, stop⟩ [.node e.id e.item children] s)
    (named : TagKind.ofName? e.tag.name ≠ none)
    (copied : place.owner.isSome → Sketch.copies [.node e.item flat] = Sketch.copies flat) :
    BodyAgrees e s flat.isEmpty (fun inner => body { place with inside := inner } sink)
      (draft place.owner.isSome sink) (Enclosed parent stop known e place children flat s) where
  alike := Enclosed.alike
  childless := Enclosed.childless
  file holds := holds.walked.file
  agrees inner t alike own := by
    have here : Ready ⟨parent, place.owner, e.id, stop⟩ [.node e.id e.item children] t := ready.alike alike
    refine (below { place with inside := inner } sink t (here.stays.ready here) (absurd · named) ?_ ?_ (below_or_at own)).mono ?_
    · simp only [Session.stack, alike.file, alike.including]
    · rw [alike.document]
    rintro code lines u ⟨written, walked, kept, taken⟩
    exact ⟨written, ⟨(here.passes walked copied).of_alike alike, here.stays.isEmpty here walked.toMoved, taken⟩, kept⟩

-- The children of a tag with a copy of its own, up to the place where the walk leaves the copy.
theorem BelowAgrees.copying {fragment : Nat} {inside : Option Nat}
    (below : BelowAgrees s e stop children flat known body draft)
    (ready : Ready ⟨parent, some fragment, e.id, stop⟩ [.node e.id e.item children] s)
    (named : TagKind.ofName? e.tag.name ≠ none)
    (copied : Sketch.copies [.node e.item flat] =
      [.node (renamed (TagKind.appliedName e.tag.name) e.item) (Sketch.copies flat)]) :
    BodyAgrees e (s.copied fragment e.id (TagKind.appliedName e.tag.name) true) flat.isEmpty
      (fun inner => do
        let code ← body ⟨some fragment, inner⟩ sink
        Walk.leaveCopy ⟨some fragment, inside⟩
        return code)
      (draft true sink) (Enclosed parent stop known e ⟨some fragment, inside⟩ children flat s) where
  alike := Enclosed.alike
  childless := Enclosed.childless
  file holds := holds.walked.file
  agrees inner t alike own := by
    obtain ⟨c, pointed⟩ := Option.isSome_iff_exists.mp (ready.owned rfl)
    have enters : Enters _ _ s (s.copied fragment e.id (TagKind.appliedName e.tag.name) true) := ready.copies pointed
    rw [← bind_pure (draft true sink)]
    refine (below ⟨some fragment, inner⟩ sink t ((enters.ready ready).alike alike) (absurd · named) ?_ ?_
      (below_or_at own)).bind ?_
    · simp only [Session.stack, alike.file, alike.including, Session.copied]
    · rw [alike.document]
      exact s.fragments.maxIdentity_appended s.document _ true ready.holds.1.1
    rintro code lines u ⟨written, walked, kept, taken⟩
    have walked := walked.of_alike alike
    have childless : (u.document.children e.id).isEmpty = flat.isEmpty := enters.isEmpty ready walked.toMoved
    refine Agrees.step (t := { u with fragments := u.fragments.pop u.document fragment }) rfl rfl (.pure ⟨written, ?_, kept⟩)
    exact ⟨ready.copied pointed walked copied, childless, taken⟩

theorem Enclosed.finishes {inside : Option NodeId} {code : Code} {lines : List Line} {t : Session}
    (passes : Passes e inside (Enclosed parent stop known e place children flat s) s code lines t) :
    Finishes ⟨parent, place.owner, e.id, stop⟩ inside [.node e.id e.item children] [.node e.item flat] known s code
      lines t :=
  ⟨passes.1, passes.2.1.walked, passes.2.2, passes.2.1.taken⟩

theorem Agrees.appliedControl {kind : Control} (below : BelowAgrees s e stop children flat known body draft)
    (ready : Ready ⟨parent, place.owner, e.id, stop⟩ [.node e.id e.item children] s)
    (named : TagKind.ofName? e.tag.name = some (.control kind .applied)) (here : s.file = file)
    (outer : ∀ id : Nat, place.inside = some id → id < e.id) :
    Agrees place.inside (Walk.control kind e place.inside fun inner => body { place with inside := inner } sink)
      (Draft.control kind file e.header flat.isEmpty (draft place.owner.isSome sink)) s
      (Finishes ⟨parent, place.owner, e.id, stop⟩ place.inside [.node e.id e.item children] [.node e.item flat] known s) := by
  have copied : Sketch.copies [.node e.item flat] = Sketch.copies flat := by
    simp [Sketch.copies, Sketch.copy, Element.item, named]
  exact (Agrees.control kind (below.passing ready (by simp [named]) fun _ => copied) here outer).mono fun _ _ _ => Enclosed.finishes

theorem Agrees.contentControl {kind : Control} (below : BelowAgrees s e stop children flat known body draft)
    (ready : Ready ⟨parent, place.owner, e.id, stop⟩ [.node e.id e.item children] s)
    (named : TagKind.ofName? e.tag.name = some (.control kind .content)) (here : s.file = file)
    (outer : ∀ id : Nat, place.inside = some id → id < e.id) :
    Agrees place.inside (Walk.contentControl kind place sink e body)
      (Draft.control kind file e.header flat.isEmpty (draft place.owner.isSome sink)) s
      (Finishes ⟨parent, place.owner, e.id, stop⟩ place.inside [.node e.id e.item children] [.node e.item flat] known s) := by
  obtain ⟨owner, inside⟩ := place
  cases owner with
  | none =>
    have plain : Walk.contentControl kind ⟨none, inside⟩ sink e body =
        Walk.control kind e inside fun inner => body ⟨none, inner⟩ sink := by
      simp [Walk.contentControl, Walk.enterCopy, Walk.leaveCopy]
    rw [plain]
    exact (Agrees.control kind (below.passing ready (by simp [named]) nofun) here outer).mono fun _ _ _ => Enclosed.finishes
  | some fragment =>
    have copied : Sketch.copies [.node e.item flat] =
        [.node (renamed (TagKind.appliedName e.tag.name) e.item) (Sketch.copies flat)] := by
      simp [Sketch.copies, Sketch.copy, Element.item, named, renamed]
    refine Agrees.step (run_copyInto ready.holds.1.1) rfl ?_
    exact (Agrees.control kind (below.copying ready (by simp [named]) copied) here outer).mono fun _ _ _ => Enclosed.finishes

-- An attribute goes into the fragment of its owner.
theorem Agrees.ownerAttribute (ready : Ready ⟨parent, place.owner, e.id, stop⟩ [.node e.id e.item children] s)
    (named : TagKind.ofName? e.tag.name = some (.attr .content)) (here : s.file = file) :
    Agrees place.inside (Walk.ownerAttribute place e) (Draft.ownerAttribute file place.owner.isSome e.header) s
      (Finishes ⟨parent, place.owner, e.id, stop⟩ place.inside [.node e.id e.item children]
        [.node e.item (sketches children)] s.document.maxIdentity s) := by
  refine (Agrees.require here e "name").bind ?_
  rintro _ _ _ ⟨rfl, rfl⟩
  refine (Agrees.require here e "value").bind ?_
  rintro _ _ _ ⟨rfl, rfl⟩
  obtain ⟨owner, inside⟩ := place
  cases owner with
  | none => exact .fail here _ _
  | some fragment =>
    obtain ⟨c, pointed⟩ := Option.isSome_iff_exists.mp (ready.owned rfl)
    have copied : Sketch.copies [.node e.item (sketches children)] =
        [.node (renamed (TagKind.appliedName e.tag.name) e.item) []] := by
      simp [Sketch.copies, Sketch.copy, Element.item, named, renamed]
    refine Agrees.step (run_copyInto ready.holds.1.1) rfl (.pure ⟨rfl, ready.attribute pointed copied, ?_, ?_⟩)
    · exact fun _ _ _ => rfl
    · exact s.fragments.maxIdentity_appended s.document _ false ready.holds.1.1

theorem Agrees.template (below : BelowAgrees s e stop children flat known body draft)
    (ready : Ready ⟨parent, place.owner, e.id, stop⟩ [.node e.id e.item children] s)
    (named : TagKind.ofName? e.tag.name = some .template) (here : s.file = file)
    (outer : ∀ id : Nat, place.inside = some id → id < e.id) :
    Agrees place.inside (Walk.template e (body .outermost)) (Draft.template file e.header (draft false e.identity)) s
      (Finishes ⟨parent, place.owner, e.id, stop⟩ place.inside [.node e.id e.item children] [.node e.item flat] known s) := by
  refine (Agrees.require here e "name").bind ?_
  rintro name _ _ ⟨rfl, rfl⟩
  cases closed : e.tag.selfClosing with
  | true =>
    simp only [Element.header, closed, if_true]
    exact .fail_bind here _ _ _ _
  | false =>
    simp only [Element.header, closed, Bool.false_eq_true, if_false]
    have meant : TagKind.ofName? e.tag.name ≠ none := by simp [named]
    refine Agrees.bind
      ((below .outermost e.identity s (ready.leaves.ready ready) (absurd · meant) rfl rfl (by simp [Place.outermost])).within rfl ?_) ?_
    · rintro _ _ t finishes
      exact finishes.kept.branch fun id same => ⟨Nat.lt_succ_of_lt (outer id same), (Option.some_ne_none id).symm⟩
    rintro _ lines t ⟨rfl, walked, kept, taken⟩
    refine (Agrees.target (walked.file.trans here) (.target true) name e.location).bind ?_
    rintro target _ u ⟨rfl, steady⟩
    have exits : Exits s t t := ⟨rfl, walked.file, walked.including, walked.byTag, walked.cursors⟩
    have uncopied : Sketch.copies [.node e.item flat] = [] := by
      simp [Sketch.copies, Sketch.copy, Element.item, named]
    have enclosed := ready.leaves.apart ready walked.toMoved exits (fun _ _ => rfl)
      (fun c same => absurd same (Option.some_ne_none c).symm) uncopied
    refine .pure ⟨by simp [Line.code], enclosed.alike steady.toAlike, fun id before _ => ?_, ?_⟩
    · rw [steady.switches]
      exact kept.outermost (Nat.lt_succ_of_lt before)
    · rw [steady.document, taken]

end Control

section Fragment

variable {parent : Option Nat} {stop known sink : Nat} {e : Element} {place : Place} {children : List Tree}
  {flat : List Sketch} {s : Session} {file : Path}

theorem Agrees.link {inside : Option NodeId} {id : Nat} (unknown : s.fragments.byTag.get? id = none) :
    Agrees inside (Walk.link id) Draft.fragment s fun linked attrsOf t =>
      linked = ⟨s.document.size, attrsOf⟩ ∧ ∃ location, t = s.linked id location := by
  obtain ⟨location, ran⟩ := run_link unknown
  unfold Agrees
  rw [ran]
  exact ⟨rfl, rfl, location, rfl⟩

-- A node that has a fragment while it is read. What the walk does meanwhile to the node's children is given; the
-- fragment around stays untouched.
theorem Agrees.withFragment {α β : Type} {owner inside : Option Nat} {start : Nat} {item : Item}
    {action : Walk.Linked → Walk α} {draft : Nat → Draft β} {post : α → β → Prop}
    (ready : Ready ⟨parent, owner, start, stop⟩ [.node start item children] s)
    (uncopied : Sketch.copies [.node item flat] = [])
    (inner : ∀ attrsOf location, Agrees inside (action ⟨s.document.size, attrsOf⟩) (draft attrsOf)
      (s.linked start location) fun a b t => post a b ∧
        Moved ⟨some start, some s.document.size, start + 1, stop⟩ children flat (s.linked start location) t ∧
        KeepsBelow start inside s t ∧ t.document.maxIdentity = known) :
    Agrees inside (Walk.withFragment start action) (Draft.fragment >>= draft) s fun a b t => post a b ∧
      Walked ⟨parent, owner, start, stop⟩ [.node start item children] [.node item flat] s t ∧
      KeepsBelow start inside s t ∧ t.document.maxIdentity = known := by
  refine (Agrees.link (ready.unlinked start (Nat.le_refl _))).bind ?_
  rintro _ attrsOf _ ⟨rfl, location, rfl⟩
  refine (inner attrsOf location).ensuring (fun _ => rfl) ?_
  rintro a b t ⟨holds, moved, kept, taken⟩
  have exits := ready.unlinks location moved.file moved.including moved.byTag moved.cursors
  have known : t.fragments.get? start = some s.document.size := by
    show t.fragments.byTag.get? start = _
    rw [moved.byTag, Session.linked, Fragments.linked, Table.get?_insert, if_pos rfl]
  refine ⟨?_, holds, ?_, kept, taken⟩
  · simp only [Session.ledger, Fragments.unlink_eq _ known]
  · refine (ready.links location).apart ready moved exits (fun id old => ?_) (fun c found => ?_) uncopied
    · rw [Session.linked, cell?_push, if_neg (Nat.ne_of_lt old)]
    · rw [cursor?_linked] at found
      cases found
      exact Nat.le_refl _

-- The attributes of a node from its fragment, in which its children left copies.
theorem Agrees.linkedBlock {inside : Option Nat} {start attrsOf : Nat} {location : Location} {copied : List Sketch}
    {t : Session} (leaves : Leaves copied s.document.size (s.linked start location).document t.document)
    (here : t.file = file) (outer : ∀ id : Nat, inside = some id → id ≤ s.document.size) (attrs : List Attr)
    (place : Location) :
    Agrees inside (Walk.attrBlock ⟨s.document.size, attrsOf⟩ attrs place) (Draft.attrBlock file attrsOf copied attrs place)
      t (Reads (s.document.size + 1) none t) := by
  obtain ⟨copies, holds, same, rise, extended⟩ := leaves
  have size : (s.linked start location).document.size = s.document.size + 1 := size_push _ _
  have top : (s.linked start location).document.cell? s.document.size =
      some (Fragments.top s.fragments.nextIdentity location) := by
    rw [Session.linked, cell?_push, if_pos rfl]
  have linked : t.document.children s.document.size = copies.map Tree.id := by
    rw [Document.children, extended _ _ [] top]
    rfl
  rw [← same]
  exact Agrees.attrBlock holds (size ▸ rise) linked here outer attrs place

variable {body : Place → Nat → Walk Code} {draft : Bool → Nat → Draft (List Line)}

theorem Ready.opened (location : Location)
    (ready : Ready ⟨parent, place.owner, e.id, stop⟩ [.node e.id e.item children] s) :
    Opened e children ⟨some s.document.size, none⟩ (s.linked e.id location) := by
  intro _
  refine ⟨⟨e.item, parent, ?_⟩, s.document.size, (Fragments.top s.fragments.nextIdentity location).item, rfl, ?_,
    cursor?_linked s e.id location, ?_⟩
  · rw [(ready.links location).same ready ready.within.1.1, ready.holds.1.1]
  · rw [Session.linked, Fragments.linked, Table.get?_insert, if_pos rfl]
  · rw [Session.linked, cell?_push, if_pos rfl]
    rfl

-- The children of a tag with a fragment; those of a self-closing tag are passed by.
theorem Agrees.tagChildren {inside : Option Nat} (location : Location)
    (ready : Ready ⟨parent, place.owner, e.id, stop⟩ [.node e.id e.item children] s)
    (below : e.tag.selfClosing = false → BelowAgrees s e stop children flat known body draft)
    (closed : e.tag.selfClosing = true → flat = sketches children ∧ known = s.document.maxIdentity)
    (outer : ∀ id : Nat, inside = some id → id < e.id) :
    Agrees inside (if e.tag.selfClosing then Pure.pure Code.empty else body ⟨some s.document.size, none⟩ e.identity)
      (if e.tag.selfClosing then Pure.pure [] else Draft.within none (draft true e.identity))
      (s.linked e.id location) fun code lines t => code = Line.codes lines ∧
        Moved ⟨some e.id, some s.document.size, e.id + 1, stop⟩ children flat (s.linked e.id location) t ∧
        Leaves (if e.tag.selfClosing then [] else Sketch.copies flat) s.document.size
          (s.linked e.id location).document t.document ∧
        KeepsBelow e.id inside s t ∧ t.document.maxIdentity = known := by
  have inner := (ready.links location).ready ready
  cases single : e.tag.selfClosing with
  | true =>
    obtain ⟨rfl, rfl⟩ := closed single
    exact .pure ⟨rfl, inner.unmoved, .none rfl, fun _ _ _ => rfl, rfl⟩
  | false =>
    refine ((below single ⟨some s.document.size, none⟩ e.identity (s.linked e.id location) inner
      (ready.opened location) rfl rfl nofun).within rfl ?_).mono ?_
    · rintro _ _ t finishes
      exact finishes.kept.branch fun id same => ⟨Nat.lt_succ_of_lt (outer id same), nofun⟩
    · rintro _ lines t ⟨rfl, walked, kept, taken⟩
      refine ⟨rfl, walked.toMoved, walked.copies _ (cursor?_linked s e.id location), fun id before _ => ?_, taken⟩
      exact kept.outermost (Nat.lt_succ_of_lt before)

theorem Agrees.tagParts (ready : Ready ⟨parent, place.owner, e.id, stop⟩ [.node e.id e.item children] s)
    (below : e.tag.selfClosing = false → BelowAgrees s e stop children flat known body draft)
    (closed : e.tag.selfClosing = true → flat = sketches children ∧ known = s.document.maxIdentity)
    (named : TagKind.ofName? e.tag.name = none) (here : s.file = file)
    (outer : ∀ id : Nat, place.inside = some id → id < e.id) :
    Agrees place.inside (Walk.tagParts e body)
      (Draft.tagParts file e.header (Sketch.copies flat) (draft true e.identity)) s fun parts parts' t =>
        parts = (parts'.1, Line.codes parts'.2.1, Line.codes parts'.2.2) ∧
        Walked ⟨parent, place.owner, e.id, stop⟩ [.node e.id e.item children] [.node e.item flat] s t ∧
        KeepsBelow e.id place.inside s t ∧ t.document.maxIdentity = known := by
  have uncopied : Sketch.copies [.node e.item flat] = [] := by
    simp [Sketch.copies, Sketch.copy, Element.item, named]
  have old : e.id < s.document.size := cell?_lt ready.holds.1.1
  refine Agrees.withFragment ready uncopied fun attrsOf location => ?_
  refine (Agrees.tagChildren location ready below closed outer).bind_ite ?_
  rintro _ lines t ⟨rfl, moved, leaves, kept, taken⟩
  have around : ∀ id : Nat, place.inside = some id → id ≤ s.document.size :=
    fun id same => Nat.le_of_lt (Nat.lt_trans (outer id same) old)
  refine (Agrees.linkedBlock leaves (moved.file.trans here) around e.tag.attrs e.location).bind ?_
  rintro _ attrs u ⟨rfl, alike, after⟩
  refine .pure ⟨rfl, moved.alike alike, fun id before other => ?_, ?_⟩
  · rw [after.outermost (Nat.lt_succ_of_lt (Nat.lt_trans before old)), kept id before other]
  · rw [alike.document, taken]

theorem Agrees.literal (options : Options)
    (ready : Ready ⟨parent, place.owner, e.id, stop⟩ [.node e.id e.item children] s)
    (below : e.tag.selfClosing = false → BelowAgrees s e stop children flat known body draft)
    (closed : e.tag.selfClosing = true → flat = sketches children ∧ known = s.document.maxIdentity)
    (named : TagKind.ofName? e.tag.name = none) (here : s.file = file)
    (outer : ∀ id : Nat, place.inside = some id → id < e.id) :
    Agrees place.inside (Walk.literal options sink e body)
      (Draft.literal file options sink e.header (Sketch.copies flat) (draft true e.identity)) s
      (Finishes ⟨parent, place.owner, e.id, stop⟩ place.inside [.node e.id e.item children] [.node e.item flat] known s) := by
  refine (Agrees.tagParts ready below closed named here outer).bind ?_
  rintro _ ⟨attrsOf, attrs, lines⟩ t ⟨rfl, walked, kept, taken⟩
  cases single : Walk.isSingle options e.tag with
  | true =>
    simp only [Element.header, single, if_true]
    exact .pure ⟨by simp [Line.code], walked, kept, taken⟩
  | false =>
    simp only [Element.header, single, Bool.false_eq_true, if_false]
    exact .pure ⟨by simp [Line.code], walked, kept, taken⟩

theorem Agrees.component (options : Options)
    (ready : Ready ⟨parent, place.owner, e.id, stop⟩ [.node e.id e.item children] s)
    (below : e.tag.selfClosing = false → BelowAgrees s e stop children flat known body draft)
    (closed : e.tag.selfClosing = true → flat = sketches children ∧ known = s.document.maxIdentity)
    (named : TagKind.ofName? e.tag.name = none) (here : s.file = file)
    (outer : ∀ id : Nat, place.inside = some id → id < e.id) :
    Agrees place.inside (Walk.component options sink e body)
      (Draft.component file options sink e.header (Sketch.copies flat) (draft true e.identity)) s
      (Finishes ⟨parent, place.owner, e.id, stop⟩ place.inside [.node e.id e.item children] [.node e.item flat] known s) := by
  refine (Agrees.tagParts ready below closed named here outer).bind ?_
  rintro _ ⟨attrsOf, attrs, lines⟩ t ⟨rfl, walked, kept, taken⟩
  cases single : Walk.isSingle options e.tag with
  | true =>
    simp only [Element.header, single, if_true]
    exact .pure ⟨by simp [Line.code], walked, kept, taken⟩
  | false =>
    simp only [Element.header, single, Bool.false_eq_true, if_false]
    exact .pure ⟨by simp [Line.code], walked, kept, taken⟩

end Fragment

end Stencil
