import Stencil.Proofs.Placement

-- Whatever a part of the walk opens, it closes, whether it succeeds or fails. By induction on the nodes that are compiled,
-- every visit leaves the same files, fragments and switches as it found; every change of the document keeps it consistent;
-- a branch always joins a switch that is open; and what a visit is given can be found in the document.

namespace Stencil

open Session

-- What is asked of a change before it is made.
def Operation.Fits (doc : Document) : Operation → Prop
  | .included target _ => target < doc.size
  | _ => True

def Event.Good : Event → Prop
  | .visited visit before => Bracketed before (visit.walk.run.run before).2 ∧
      (visit.isContent = true → (visit.walk.run.run before).1.isOk = true →
        before.Settled (visit.walk.run.run before).2.fragments) ∧ visit.Finds before
  | .finished _ _ _ => True
  | .changed operation before => before.Consistent ∧ operation.Fits before ∧ (operation.apply before).Consistent
  | .branched switch switches => (Table.get? switches switch).isSome = true
  | .loaded _ => True

-- Each change begins with the document that the one before it left, and there is no other change.
def Event.Chained : List Event → Document → Document → Prop
  | [], doc, last => last = doc
  | .changed operation before :: rest, doc, last => before = doc ∧ Chained rest (operation.apply doc) last
  | _ :: rest, doc, last => Chained rest doc last

theorem Event.Chained.append {front back : List Event} {doc middle last : Document} (first : Chained front doc middle)
    (second : Chained back middle last) : Chained (front ++ back) doc last := by
  induction front generalizing doc with
  | nil =>
    cases first
    exact second
  | cons event rest ih =>
    cases event with
    | changed operation before => exact ⟨first.1, ih first.2⟩
    | _ => exact ih first

namespace Logged

variable {α β : Type}

-- From a session, the action ends as it should, all that happens is good, and all changes of the document are told.
structure Does (action : Logged α) (s : Session) (post : Except CompileError α → Session → Prop) : Prop where
  ends : post (action.walk.run.run s).1 (action.walk.run.run s).2
  good : ∀ event ∈ action.events s, event.Good
  told : Event.Chained (action.events s) s.document (action.walk.run.run s).2.document

-- What was open is open, and cursors are in order if there was no failure.
def Closes (trees : List Tree) (s : Session) (done : Fragments → Prop) (outcome : Except CompileError α) (t : Session) :
    Prop :=
  Frame trees s t ∧ (outcome.isOk = true → done t.fragments)

section Rules

variable {s : Session} {action : Logged α} {next : α → Logged β} {post : Except CompileError α → Session → Prop}

theorem Does.mono {weaker : Except CompileError α → Session → Prop} (does : Does action s post)
    (holds : ∀ o t, post o t → weaker o t) : Does action s weaker := ⟨holds _ _ does.ends, does.good, does.told⟩

theorem does_pure {a : α} (holds : post (.ok a) s) : Does (pure a) s post := ⟨holds, nofun, rfl⟩

theorem does_bind {final : Except CompileError β → Session → Prop} (first : Does action s post)
    (rest : ∀ a t, post (.ok a) t → Does (next a) t final) (failed : ∀ e t, post (.error e) t → final (.error e) t) :
    Does (action >>= next) s final := by
  obtain ⟨holds, good, told⟩ := first
  rcases reached : action.walk.run.run s with ⟨e | a, t⟩
  · obtain ⟨runs, events⟩ := @bind_of_error _ _ _ next _ _ _ reached
    rw [reached] at holds told
    refine ⟨?_, ?_, ?_⟩
    · rw [runs]
      exact failed e t holds
    · rwa [events]
    · rwa [events, runs]
  · obtain ⟨runs, events⟩ := @bind_of_ok _ _ _ next _ _ _ reached
    rw [reached] at holds told
    obtain ⟨ends, behind, later⟩ := rest a t holds
    refine ⟨?_, ?_, ?_⟩
    · rw [runs]
      exact ends
    · rw [events]
      exact List.forall_mem_append.mpr ⟨good, behind⟩
    · rw [events, runs]
      exact told.append later

-- An action whose result and session are known, in front of others.
theorem does_then {a : α} {t : Session} {final : Except CompileError β → Session → Prop}
    (first : Does action s fun o u => o = .ok a ∧ u = t) (rest : Does (next a) t final) :
    Does (action >>= next) s final := by
  refine does_bind first (fun b u reached => ?_) fun e u reached => ?_
  · obtain ⟨same, rfl⟩ := reached
    cases same
    exact rest
  · exact absurd reached.1 (by simp)

theorem does_plain {walk : Walk α} (plain : Walk.Plain walk) (holds : ∀ o t, Steady s t → post o t) :
    Does (quiet walk) s post := by
  obtain ⟨outcome, scope, runs, _⟩ := plain.run s
  refine ⟨?_, nofun, ?_⟩
  · rw [walk_quiet, runs]
    exact holds outcome _ ⟨⟨rfl, rfl, rfl, rfl⟩, rfl⟩
  · rw [walk_quiet, runs]
    rfl

theorem does_noted {event : Session → Event} {walk : Walk α} (good : (event s).Good)
    (told : Event.Chained [event s] s.document (walk.run.run s).2.document)
    (holds : post (walk.run.run s).1 (walk.run.run s).2) : Does (noted event walk) s post :=
  ⟨holds, List.forall_mem_singleton.mpr good, told⟩

-- Reading the session.
theorem does_get {next : Session → Logged β} {final : Except CompileError β → Session → Prop}
    (rest : Does (next s) s final) : Does (quiet get >>= next) s final := ⟨rest.ends, rest.good, rest.told⟩

theorem does_ensuring {cleanup : Session → Session} (does : Does action s fun o t => post o (cleanup t))
    (keeps : ∀ t, (cleanup t).document = t.document) : Does (ensuring action cleanup) s post :=
  ⟨does.ends, does.good, (keeps _).symm ▸ does.told⟩

end Rules

section Closing

variable {s : Session} {trees : List Tree} {done : Fragments → Prop}

-- An action in which nothing happens, in front of others.
theorem does_before {walk : Walk α} {next : α → Logged β} {start : Session} (plain : Walk.Plain walk)
    (frame : Frame trees s start) (rest : ∀ a t, Steady start t → Does (next a) t (Closes trees s done)) :
    Does (quiet walk >>= next) start (Closes trees s done) := by
  have first : Does (quiet walk) start fun _ t => Steady start t := does_plain plain fun _ _ steady => steady
  exact does_bind first rest fun e t steady => ⟨frame.trans (.of_steady frame.sound steady), nofun⟩

-- An action in which nothing happens, behind another.
theorem does_after {action : Logged α} {tail : α → Walk β} {start : Session} (plain : ∀ a, Walk.Plain (tail a))
    (does : Does action start (Closes trees s done)) :
    Does (action >>= fun a => quiet (tail a)) start (Closes trees s done) := by
  refine does_bind does (fun a t closes => does_plain (plain a) fun o u steady => ?_) fun e t closes => ⟨closes.1, nofun⟩
  refine ⟨closes.1.trans (.of_steady closes.1.sound steady), fun _ => ?_⟩
  rw [steady.fragments]
  exact closes.2 rfl

theorem does_map {action : Logged α} {f : α → β} {start : Session} (does : Does action start (Closes trees s done)) :
    Does (action >>= fun a => pure (f a)) start (Closes trees s done) :=
  does_after (fun a => Walk.plain_pure (f a)) does

theorem does_finishing {action : Logged α} {e : Element} {place : Place} {start : Session}
    (does : Does action start (Closes trees s done)) : Does (finishing e place action) start (Closes trees s done) := by
  refine does_bind does (fun a t closes => ?_) fun _ t closes => ⟨closes.1, nofun⟩
  have noted : Does (noted (fun s => .finished e place s) (pure ())) t fun o u => o = .ok () ∧ u = t :=
    does_noted trivial rfl ⟨rfl, rfl⟩
  exact does_then noted (does_pure ⟨closes.1, fun _ => closes.2 rfl⟩)

-- An action in which nothing happens, alone.
theorem does_quiet {walk : Walk α} (plain : Walk.Plain walk) (sound : s.Sound) :
    Does (quiet walk) s (Closes trees s s.Settled) :=
  does_plain plain fun _ t steady => ⟨.of_steady sound steady, fun _ _ => by rw [steady.fragments]⟩

-- A failure.
theorem does_fail {cause : Cause} {location : Location} {start : Session} (frame : Frame trees s start) :
    Does (quiet (Walk.fail cause location) : Logged α) start (Closes trees s done) :=
  ⟨⟨frame, nofun⟩, nofun, rfl⟩

-- What an action closes that begins later, or with other trees.
theorem Does.later {action : Logged α} {t : Session} {others : List Tree} (does : Does action t (Closes others t done))
    (before : Frame trees s t) (fewer : ∀ id : Nat, Tree.AllWithin (· ≠ id) trees → Tree.AllWithin (· ≠ id) others) :
    Does action t (Closes trees s done) :=
  does.mono fun _ _ closes => ⟨before.trans (closes.1.mono fewer), closes.2⟩

end Closing

section Controls

variable {s : Session} {place : Place} {e : Element} {item : Item} {children : List Tree} {done : Fragments → Prop}

-- A body is compiled when nothing but the scope and the branches of open switches has changed.
def Enters (body : Logged Code) (s : Session) (tree : Tree) (done : Fragments → Prop) : Prop :=
  ∀ t, t.document = s.document → t.fragments = s.fragments → Frame [tree] s t → Does body t (Closes [tree] s done)

variable {body : Logged Code}

theorem Enters.steady {tree : Tree} {start t : Session} (enters : Enters body s tree done)
    (frame : Frame [tree] s start) (document : start.document = s.document) (fragments : start.fragments = s.fragments)
    (steady : Steady start t) : Does body t (Closes [tree] s done) :=
  enters t (steady.document.trans document) (steady.fragments.trans fragments)
    (frame.trans (.of_steady frame.sound steady))

theorem does_conditional (fit : Fit s place [.node e.id item children])
    (enters : Enters body s (.node e.id item children) done) :
    Does (conditional e body) s (Closes [.node e.id item children] s done) :=
  does_before (Walk.plain_require e _) (.refl fit.sound) fun test _ steady =>
    does_after (Walk.plain_conditional e test) (enters.steady (.refl fit.sound) rfl rfl steady)

theorem does_loop (fit : Fit s place [.node e.id item children])
    (enters : Enters body s (.node e.id item children) done) :
    Does (loop e body) s (Closes [.node e.id item children] s done) := by
  refine does_before (Walk.plain_require e _) (.refl fit.sound) fun source t steady => ?_
  refine does_before (Walk.plain_require e _) (.of_steady fit.sound steady) fun item u later => ?_
  exact does_after (Walk.plain_loop e source item)
    (enters.steady (.refl fit.sound) rfl rfl (steady.trans later))

theorem does_switch (fit : Fit s place [.node e.id item children])
    (inner : Does body { s with switches := s.switches.opened e.id }
      (Closes children { s with switches := s.switches.opened e.id } done)) :
    Does (switch e body) s (Closes [.node e.id item children] s done) := by
  have opened : Does (quiet (modify fun s => { s with switches := s.switches.opened e.id })) s fun o t =>
      o = .ok () ∧ t = { s with switches := s.switches.opened e.id } := ⟨⟨rfl, rfl⟩, nofun, rfl⟩
  refine does_then opened (does_ensuring ((does_after (Walk.plain_chained e.id) inner).mono fun o t closes => ?_) fun _ => rfl)
  exact ⟨(closes.1.closing fit.own.2.2).node, closes.2⟩

theorem does_case (fit : Fit s place [.node e.id item children])
    (enters : Enters body s (.node e.id item children) done) :
    Does (case e place.inside body) s (Closes [.node e.id item children] s done) := by
  cases within : place.inside with
  | none => exact does_fail (.refl fit.sound)
  | some switch =>
    have known := fit.inside switch within
    have frame : Frame [.node e.id item children] s { s with switches := s.switches.withCase switch } :=
      .switches fit.sound (isSome_insert known _)
    have branched : Does (noted (fun s => .branched switch s.switches) (do
        let branch := (← get).switches.case? switch
        modify fun s => { s with switches := s.switches.withCase switch }
        return branch)) s fun o t => o = .ok (s.switches.case? switch) ∧
          t = { s with switches := s.switches.withCase switch } := does_noted known rfl ⟨rfl, rfl⟩
    refine does_then branched ?_
    cases s.switches.case? switch with
    | none => exact does_fail frame
    | some branch =>
      refine does_before (Walk.plain_require e _) frame fun test t steady => ?_
      exact does_after (Walk.plain_case e test branch) (enters.steady frame rfl rfl steady)

theorem does_default (fit : Fit s place [.node e.id item children])
    (enters : Enters body s (.node e.id item children) done) :
    Does (default e place.inside body) s (Closes [.node e.id item children] s done) := by
  cases within : place.inside with
  | none => exact does_fail (.refl fit.sound)
  | some switch =>
    have known := fit.inside switch within
    have frame : Frame [.node e.id item children] s { s with switches := s.switches.withDefault switch } :=
      .switches fit.sound (isSome_insert known _)
    have branched : Does (noted (fun s => .branched switch s.switches) (do
        let branch := (← get).switches.default switch
        modify fun s => { s with switches := s.switches.withDefault switch }
        return branch)) s fun o t => o = .ok (s.switches.default switch) ∧
          t = { s with switches := s.switches.withDefault switch } := does_noted known rfl ⟨rfl, rfl⟩
    exact does_then branched (does_map (enters _ rfl rfl frame))

-- Control flow closes what it opens, if its body does.
theorem does_control {kind : Control} {body : Option NodeId → Logged Code} (fit : Fit s place [.node e.id item children])
    (inner : ∀ t, t.document = s.document → t.fragments = s.fragments →
      Fit t ⟨place.owner, kind.opens e.id⟩ children → Does (body (kind.opens e.id)) t (Closes children t done)) :
    Does (control kind e place.inside body) s (Closes [.node e.id item children] s done) := by
  have enters (inner : ∀ t, t.document = s.document → t.fragments = s.fragments → Fit t ⟨place.owner, none⟩ children →
      Does (body none) t (Closes children t done)) : Enters (body none) s (.node e.id item children) done :=
    fun t document fragments frame =>
      (inner t document fragments (fit.inner.frame frame)).later frame fun _ outside => outside.1.2
  cases kind with
  | conditional => exact does_conditional fit (enters inner)
  | loop => exact does_loop fit (enters inner)
  | switch => exact does_switch fit (inner _ rfl rfl fit.opening)
  | case => exact does_case fit (enters inner)
  | default => exact does_default fit (enters inner)

end Controls

section Attributes

variable {s : Session}

-- A visit is good if it closes what it opens.
theorem does_visiting {visit : Visit} {action : Logged Code} {trees : List Tree} (same : action.walk = visit.walk)
    (finds : visit.Finds s) (does : Does action s (Closes trees s s.Settled)) :
    Does (visiting visit action) s (Closes trees s s.Settled) := by
  refine ⟨does.ends, List.forall_mem_cons.mpr ⟨?_, does.good⟩, does.told⟩
  have closes := does.ends
  rw [same] at closes
  exact ⟨closes.1.toBracketed, fun _ => closes.2, finds⟩

-- Trees one after the other.
theorem does_more {tree : Tree} {rest : List Tree} {first : Logged Code} {others : Logged Code}
    (head : Does first s (Closes [tree] s s.Settled))
    (tail : ∀ t, t = (first.walk.run.run s).2 → Frame [tree] s t → Does others t (Closes rest t t.Settled)) :
    Does (do let code ← first; return code ++ (← others)) s (Closes (tree :: rest) s s.Settled) := by
  have reached : Does first s fun o t => Closes [tree] s s.Settled o t ∧ t = (first.walk.run.run s).2 :=
    ⟨⟨head.ends, rfl⟩, head.good, head.told⟩
  refine does_bind reached (fun code t closes => does_map ?_) fun _ t closes => ⟨closes.1.1.head, nofun⟩
  refine ((tail t closes.2 closes.1.1).mono fun o u behind => ?_)
  exact ⟨closes.1.1.head.trans behind.1.tail, fun ok f => (behind.2 ok f).trans (closes.1.2 rfl f)⟩

mutual

theorem does_appliedTree (attrsOf : Nat) : ∀ {inside : Option NodeId} {fragment above : Nat} {tree : Tree} {s : Session},
    Fit s ⟨none, inside⟩ [tree] → Hung s attrsOf inside fragment above [tree] →
      Does (appliedTree attrsOf inside tree) s (Closes [tree] s s.Settled)
  | inside, fragment, above, .node id ⟨identity, .tag tag, location⟩ children, s, fit, hung => by
    have same := walk_appliedTree attrsOf inside (.node id ⟨identity, .tag tag, location⟩ children)
    rw [appliedTree] at same ⊢
    refine does_visiting same (hung.finds fit.sound.consistent) ?_
    have skipped : Does (pure Code.empty : Logged Code) s (Closes [.node id ⟨identity, .tag tag, location⟩ children] s s.Settled) :=
      does_pure ⟨.refl fit.sound, fun _ _ => rfl⟩
    cases known : TagKind.ofName? tag.name with
    | none => exact skipped
    | some meaning =>
      cases meaning with
      | attr flow =>
        cases flow with
        | content => exact skipped
        | applied => exact does_quiet (Walk.plain_appliedAttr attrsOf _) fit.sound
      | control kind flow =>
        cases flow with
        | content => exact skipped
        | applied =>
          have inner := hung.control (Document.tagName?_of_item? hung.carries.1.1.2) known
          refine does_control (e := ⟨id, identity, tag, location⟩) fit fun t document fragments below => ?_
          refine (does_appliedTrees attrsOf below (inner.alike document fragments)).mono fun o u closes => ?_
          exact ⟨closes.1, fun ok f => by rw [closes.2 ok f, fragments]⟩
      | _ => exact skipped
  | inside, fragment, above, .node id ⟨identity, .leaf leaf, location⟩ children, s, fit, hung => by
    have same := walk_appliedTree attrsOf inside (.node id ⟨identity, .leaf leaf, location⟩ children)
    rw [appliedTree] at same ⊢
    exact does_visiting same (hung.finds fit.sound.consistent) (does_pure ⟨.refl fit.sound, fun _ _ => rfl⟩)

theorem does_appliedTrees (attrsOf : Nat) : ∀ {inside : Option NodeId} {fragment above : Nat} {trees : List Tree}
    {s : Session}, Fit s ⟨none, inside⟩ trees → Hung s attrsOf inside fragment above trees →
      Does (appliedTrees attrsOf inside trees) s (Closes trees s s.Settled)
  | _, _, _, [], _, fit, _ => does_pure ⟨.refl fit.sound, fun _ _ => rfl⟩
  | inside, _, _, tree :: _, s, fit, hung => by
    refine does_more (does_appliedTree attrsOf fit.head hung.head) fun t reached frame => ?_
    rw [walk_appliedTree] at reached
    have aloof := Walk.aloof_appliedTree attrsOf inside tree
    refine does_appliedTrees attrsOf (fit.tail.frame frame) (hung.tail.alike ?_ ?_)
    · rw [reached, (aloof s).1]
    · rw [reached, aloof.fragments]

end

variable {place : Place} {id : Nat} {item : Item} {children trees : List Tree}

theorem good_linked (sound : s.Sound) : Event.Good (.changed (.linked s.fragments id) s.document) :=
  ⟨sound.consistent, trivial, Document.consistent_linked sound.consistent _ _⟩

-- A fragment is made and forgotten.
theorem does_withFragment (fit : Fit s place [.node id item children]) {action : Walk.Linked → Logged α}
    (inner : Does (action ⟨s.document.size, s.fragments.nextIdentity⟩) (s.linking id)
      (Closes trees (s.linking id) (s.linking id).Settled)) :
    Does (withFragment id action) s (Closes trees s s.Settled) := by
  have linked : Does (noted (fun s => .changed (.linked s.fragments id) s.document) (Walk.link id)) s
      fun o t => o = .ok ⟨s.document.size, s.fragments.nextIdentity⟩ ∧ t = s.linking id := by
    refine does_noted (good_linked fit.sound) ⟨rfl, rfl⟩ ⟨?_, rfl⟩
    obtain ⟨location, made⟩ := s.fragments.link_eq s.document fit.own.2.1
    obtain ⟨_, own⟩ := fit.links.own
    obtain ⟨cell, found, item⟩ := Option.map_eq_some_iff.mp own
    have fragment : (s.fragments.link s.document id).1 = s.document.size := congrArg Prod.fst made
    have number : (((s.linking id).document.cell? (s.fragments.link s.document id).1).map fun cell =>
        cell.item.identity).getD 0 = s.fragments.nextIdentity := by
      rw [fragment, found, Option.map_some, item, Option.getD_some]
    exact congrArg Except.ok (congr (congrArg Walk.Linked.mk fragment) number)
  refine does_then linked ?_
  refine does_ensuring (inner.mono fun o t closes => ?_) fun _ => rfl
  exact ⟨closes.1.unlinking fit, fun ok => Settled.unlinking fit closes.1 (closes.2 ok)⟩

-- What the fragment holds is compiled; it stands behind all that came before the fragment.
theorem does_attrBlock (fit : Fit s place [.node id item children]) {attrs : List Attr} {location : Location} {t : Session}
    (frame : Frame [.node id item children] (s.linking id) t) (settled : (s.linking id).Settled t.fragments) :
    Does (attrBlock ⟨s.document.size, s.fragments.nextIdentity⟩ attrs location) t
      (Closes [.node id item children] (s.linking id) (s.linking id).Settled) := by
  refine does_get (does_after (fun _ => (Walk.plain_ownAttrs _ _ _).bind fun _ => Walk.plain_pure _) ?_)
  have apart : Tree.AllWithin (· ≠ s.document.size) [.node id item children] :=
    fit.fresh.mono fun _ known => Nat.ne_of_lt known.1
  refine (does_appliedTrees _ (fit.fragment frame) (Hung.start fit frame apart)).mono fun o u closes => ?_
  exact ⟨frame.fragment fit closes.1, fun ok f => (closes.2 ok f).trans (settled f)⟩

end Attributes

section Contents

variable {s : Session} {place : Place} {e : Element} {item : Item} {children : List Tree}

theorem does_leafCode {sink id identity : Nat} {location : Location} {leaf : Leaf}
    (fit : Fit s place [.node id item children]) :
    Does (leafCode place sink id identity location leaf) s (Closes [.node id item children] s s.Settled) := by
  cases leaf with
  | script attrs body =>
    exact does_withFragment fit (does_map (does_attrBlock fit (.refl fit.sound_linking) fun _ => rfl))
  | _ => exact does_quiet (Walk.plain_leafCode _ _ _ _ _ nofun) fit.sound

theorem does_copyInto {fragment cursor : Nat} {advance : Bool} (sound : s.Sound)
    (known : s.fragments.cursors.get? fragment = some cursor) (old : e.id < s.document.size) :
    Does (copyInto fragment e advance) s fun o t => o = .ok () ∧
      t = s.copying fragment e.id (TagKind.appliedName e.tag.name) advance := by
  have copies : Copies s fragment cursor advance (s.copying fragment e.id (TagKind.appliedName e.tag.name) advance) :=
    sound.copies known old
  exact does_noted ⟨sound.consistent, trivial, copies.consistent⟩ ⟨rfl, rfl⟩ ⟨rfl, rfl⟩

theorem does_ownerAttribute (fit : Fit s place [.node e.id item children]) :
    Does (ownerAttribute place e) s (Closes [.node e.id item children] s s.Settled) := by
  refine does_before (Walk.plain_require e _) (.refl fit.sound) fun _ t steady => ?_
  have first : Frame [.node e.id item children] s t := .of_steady fit.sound steady
  refine does_before (Walk.plain_require e _) first fun _ u later => ?_
  have second : Frame [.node e.id item children] s u := .of_steady fit.sound (steady.trans later)
  cases owner : place.owner with
  | none => exact does_fail second
  | some fragment =>
    have here := fit.frame second
    obtain ⟨cursor, known⟩ := here.cursor owner
    refine does_map ((does_copyInto here.sound known here.own.1).mono fun o v reached => ?_)
    rw [reached.2]
    refine ⟨second.trans (.copying here.sound known here.own.1), fun _ f => ?_⟩
    have copies : Copies u fragment cursor false (u.copying fragment e.id (TagKind.appliedName e.tag.name) false) :=
      here.sound.copies known here.own.1
    rw [copies.live, if_neg (by simp), (steady.trans later).fragments]

-- What compiles the children of a tag closes what it opens.
def Tidies (body : Place → Nat → Logged Code) (children : List Tree) : Prop :=
  ∀ place sink parent s, Fit s place children → Placed s place parent children →
    Does (body place sink) s (Closes children s s.Settled)

variable {sink : Nat} {body : Place → Nat → Logged Code}

-- The copy of a tag of control flow is left at the end of its children, and the cursor is where it was.
theorem does_leaving {fragment cursor id : Nat} {inside outside : Option NodeId} {t : Session}
    (fit : Fit s place [.node id item children])
    (known : s.fragments.cursors.get? fragment = some cursor)
    (copies : Copies s fragment cursor true t) (below : Fit t ⟨some fragment, inside⟩ children)
    (placed : Placed t ⟨some fragment, inside⟩ (some id) children) (tidies : Tidies body children) :
    Does (do
      let code ← body ⟨some fragment, inside⟩ sink
      quiet (Walk.leaveCopy ⟨some fragment, outside⟩)
      return code) t (Closes children t s.Settled) := by
  refine does_bind (tidies _ _ _ _ below placed) (fun code u closes => does_map ?_) fun _ u closes => ⟨closes.1, nofun⟩
  have left : (Walk.leaveCopy ⟨some fragment, outside⟩).run.run u = (.ok (), u.leaving fragment) := rfl
  refine ⟨?_, nofun, rfl⟩
  rw [walk_quiet, left]
  refine ⟨closes.1.leaving (below.owner fragment rfl), fun _ k => ?_⟩
  have settled := closes.2 rfl
  have top : u.fragments.cursors.get? fragment = some s.document.size := by
    rw [settled fragment, copies.live, if_pos ⟨rfl, rfl⟩]
  have above : u.document.parent? s.document.size = some cursor := by
    have bound : s.document.size < t.document.size := by
      rw [copies.size]
      exact Nat.lt_succ_self _
    have apart : Tree.AllWithin (· ≠ s.document.size) children :=
      fit.fresh.1.2.mono fun _ known => Nat.ne_of_lt known.1
    rw [closes.1.parents _ bound apart, copies.parent, if_pos rfl]
  rw [get?_leaving]
  split
  · rename_i same
    rw [Fragments.cursor, top, Option.getD_some, above, Option.getD_some, same, known]
  · rename_i other
    rw [settled k, copies.live, if_neg (fun moved => other moved.2)]

-- The children of a tag of control flow.
theorem placed_control {kind : Control} {flow : Flow} {parent : Option Nat} {t : Session}
    (placed : Placed s place parent [.node e.id item children]) (named : s.document.tagName? e.id = some e.tag.name)
    (known : TagKind.ofName? e.tag.name = some (.control kind flow)) (document : t.document = s.document)
    (fragments : t.fragments = s.fragments) : Placed t ⟨place.owner, kind.opens e.id⟩ (some e.id) children :=
  (placed.below fun _ linked => placed.own.control named known linked).alike document fragments

theorem does_contentControl {kind : Control} {flow : Flow} {parent : Option Nat}
    (fit : Fit s place [.node e.id item children]) (placed : Placed s place parent [.node e.id item children])
    (named : s.document.tagName? e.id = some e.tag.name) (control : TagKind.ofName? e.tag.name = some (.control kind flow))
    (tidies : Tidies body children) :
    Does (contentControl kind place sink e body) s (Closes [.node e.id item children] s s.Settled) := by
  obtain ⟨owner, inside⟩ := place
  cases owner with
  | none =>
    have entered : Does (enterCopy ⟨none, inside⟩ e) s fun o t => o = .ok () ∧ t = s := does_pure ⟨rfl, rfl⟩
    refine does_then entered (does_control fit fun t document fragments below => ?_)
    refine does_bind (tidies _ _ _ _ below (placed_control placed named control document fragments))
      (fun code u closes => does_map ?_) fun _ u closes => ⟨closes.1, nofun⟩
    exact does_pure ⟨closes.1, fun _ f => by rw [closes.2 rfl f, fragments]⟩
  | some fragment =>
    obtain ⟨cursor, known⟩ := fit.cursor rfl
    have frame : Frame [.node e.id item children] s (s.copying fragment e.id (TagKind.appliedName e.tag.name) true) :=
      .copying fit.sound known fit.own.1
    have copies : Copies s fragment cursor true (s.copying fragment e.id (TagKind.appliedName e.tag.name) true) :=
      fit.sound.copies known fit.own.1
    have bare : Frame [] s (s.copying fragment e.id (TagKind.appliedName e.tag.name) true) :=
      .copying fit.sound known fit.own.1
    have there := placed.frame fit bare (fit.fresh.mono fun _ _ => trivial) fun _ _ _ _ => trivial
    have same : (s.copying fragment e.id (TagKind.appliedName e.tag.name) true).document.tagName? e.id =
        some e.tag.name := by
      rw [Document.tagName?_congr (copies.item e.id fit.own.1), named]
    refine does_then (does_copyInto fit.sound known fit.own.1) ?_
    refine Does.later (does_control (fit.frame frame) fun u document fragments below => ?_) frame
      fun _ outside => outside
    refine does_leaving fit known ?_ below (placed_control there same control document fragments) tidies
    exact ⟨document ▸ copies.size, document ▸ copies.parent, document ▸ copies.item, fragments ▸ copies.linked,
      fragments ▸ copies.live, document ▸ copies.consistent⟩

theorem does_importing {options : Options} (fit : Fit s place [.node e.id item children]) :
    Does (quiet (Walk.importing options e)) s (Closes [.node e.id item children] s s.Settled) := by
  have steady := Walk.steady_importing options e s
  exact ⟨⟨.of_steady fit.sound steady, fun _ f => by rw [walk_quiet, steady.fragments]⟩, nofun, steady.document⟩

theorem does_template {body : Nat → Logged Code} (fit : Fit s place [.node e.id item children])
    (tidies : ∀ sink t, t.document = s.document → t.fragments = s.fragments → Fit t .outermost children →
      Does (body sink) t (Closes children t t.Settled)) :
    Does (template e body) s (Closes [.node e.id item children] s s.Settled) := by
  refine does_before (Walk.plain_templateName e) (.refl fit.sound) fun name t steady => ?_
  have frame : Frame [.node e.id item children] s t := .of_steady fit.sound steady
  refine does_after (fun _ => (Walk.plain_target _ _ _).bind fun _ => Walk.plain_pure _) ?_
  refine (tidies e.identity t steady.document steady.fragments (fit.inner.outermost.frame frame)).mono fun o u closes => ?_
  exact ⟨frame.trans closes.1.node, fun ok f => by rw [closes.2 ok f, steady.fragments]⟩

-- So does what compiles the files that a template can include.
def Env.Tidy (env : Env) : Prop :=
  ∀ path template compiler, env.reach path = some (template, compiler) →
    ∀ trees, Tidies (fun place sink => compiler place sink trees) trees

theorem does_including {env : Env} {parent : Option Nat} (fit : Fit s place [.node e.id item children])
    (placed : Placed s place parent [.node e.id item children]) (files : env.Tidy) :
    Does (including env place sink e) s (Closes [.node e.id item children] s s.Settled) := by
  refine does_before (Walk.plain_require e _) (.refl fit.sound) fun source t steady => ?_
  have frame : Frame [.node e.id item children] s t := .of_steady fit.sound steady
  have here := fit.frame frame
  have there := placed.alike steady.document steady.fragments
  cases source.fixed? with
  | none => exact does_fail frame
  | some source =>
    refine does_get ?_
    by_cases cyclic : Walk.includePath t.file source ∈ t.file :: t.including
    · rw [if_pos cyclic]
      exact does_fail frame
    · rw [if_neg cyclic]
      cases reached : env.reach (Walk.includePath t.file source) with
      | none => exact does_fail frame
      | some found =>
        obtain ⟨template, compiler⟩ := found
        have loaded : Does (noted (fun _ => .loaded template) (pure ())) t fun o u => o = .ok () ∧ u = t :=
          does_noted trivial rfl ⟨rfl, rfl⟩
        refine does_then loaded ?_
        have entered : Does (noted (fun s => .changed (.included e.id template.nodes) s.document) (set
            (t.entering e.id template.nodes (Walk.includePath t.file source)))) t fun o u => o = .ok () ∧
              u = t.entering e.id template.nodes (Walk.includePath t.file source) :=
          does_noted ⟨here.sound.consistent, here.own.1, (here.sound_entering template.nodes t.file).consistent⟩
            ⟨rfl, rfl⟩ ⟨rfl, rfl⟩
        refine does_then entered ?_
        have below := files _ _ _ reached _ place sink _ _
          (here.entering template.nodes (Walk.includePath t.file source)) (there.entering here template.nodes _)
        refine does_ensuring (below.mono fun o v closes => ?_) fun _ => rfl
        refine ⟨frame.trans (.returning here closes.1), fun ok f => (closes.2 ok f).trans ?_⟩
        exact congrArg (·.cursors.get? f) steady.fragments

theorem does_ownChildren {fragment : Nat} {parent : Option Nat} (fit : Fit s ⟨some fragment, none⟩ children)
    (placed : Placed s ⟨some fragment, none⟩ parent children) (tidies : Tidies body children) :
    Does (ownChildren e fragment body) s (Closes children s s.Settled) := by
  rw [ownChildren]
  split
  · exact does_pure ⟨.refl fit.sound, fun _ _ => rfl⟩
  · exact tidies _ _ _ _ fit placed

-- The children of a tag come before its attributes, and both have its fragment.
theorem does_tagParts {parent : Option Nat} (fit : Fit s place [.node e.id item children])
    (placed : Placed s place parent [.node e.id item children]) (named : s.document.tagName? e.id = some e.tag.name)
    (other : TagKind.isReserved e.tag.name = false) (tidies : Tidies body children) :
    Does (tagParts e body) s (Closes [.node e.id item children] s s.Settled) := by
  refine does_withFragment fit ?_
  have below : Does (ownChildren e s.document.size body) (s.linking e.id)
      (Closes children (s.linking e.id) (s.linking e.id).Settled) :=
    does_ownChildren fit.linking (placed.linking fit named other) tidies
  refine does_bind below (fun code t closes => does_map ?_) fun _ t closes => ⟨closes.1.node, nofun⟩
  exact does_attrBlock fit closes.1.node (closes.2 rfl)

theorem does_kindCode {env : Env} {isComponent : String → Bool} {kind : TagKind} {parent : Option Nat}
    (classified : TagKind.classify isComponent e.tag.name = kind) (fit : Fit s place [.node e.id item children])
    (placed : Placed s place parent [.node e.id item children]) (named : s.document.tagName? e.id = some e.tag.name)
    (inner : Tidies body children) (files : env.Tidy) :
    Does (kindCode env place sink e body kind) s (Closes [.node e.id item children] s s.Settled) := by
  have meaning := TagKind.ofName?_of_classify classified
  cases kind with
  | parameter => exact does_quiet (Walk.plain_parameter e) fit.sound
  | assignment => exact does_quiet (Walk.plain_assignment e) fit.sound
  | attr flow =>
    cases flow with
    | content => exact does_ownerAttribute fit
    | applied => exact does_quiet (Walk.plain_strayAttribute e) fit.sound
  | control kind flow =>
    cases flow with
    | content => exact does_contentControl fit placed named (by simpa using meaning) inner
    | applied =>
      rw [kindCode]
      refine does_control fit fun t document fragments below => ?_
      have there := placed_control placed named (by simpa using meaning) document fragments
      refine (inner _ _ _ _ below there).mono fun o u closes => ⟨closes.1, fun ok f => ?_⟩
      rw [closes.2 ok f, fragments]
  | importing => exact does_importing fit
  | template =>
    have there : Placed s .outermost (some e.id) children := by
      refine placed.below fun c linked => ?_
      have found := Owned.other placed.own.root named (TagKind.isReserved_of_classify classified (.inl rfl)) linked
      rw [Fragments.get?, fit.own.2.1] at found
      exact found
    exact does_template fit fun sink t document fragments below => inner _ _ _ _ below (there.alike document fragments)
  | state => exact does_quiet (Walk.plain_useState e) fit.sound
  | including => exact does_including fit placed files
  | component =>
    exact does_map (does_tagParts fit placed named (TagKind.isReserved_of_classify classified (.inr (.inl rfl))) inner)
  | literal =>
    exact does_map (does_tagParts fit placed named (TagKind.isReserved_of_classify classified (.inr (.inr rfl))) inner)

variable {env : Env}

mutual

theorem does_contentTree (files : env.Tidy) : ∀ {place : Place} {sink : Nat} {parent : Option Nat} {tree : Tree}
    {s : Session}, Fit s place [tree] → Placed s place parent [tree] →
      Does (contentTree env place sink tree) s (Closes [tree] s s.Settled)
  | place, sink, _, .node id ⟨identity, .leaf leaf, location⟩ children, s, fit, placed => by
    have same := walk_contentTree env place sink (.node id ⟨identity, .leaf leaf, location⟩ children)
    rw [contentTree] at same ⊢
    exact does_visiting same (placed.finds fit.sound.consistent) (does_leafCode fit)
  | place, sink, _, .node id ⟨identity, .tag tag, location⟩ children, s, fit, placed => by
    have same := walk_contentTree env place sink (.node id ⟨identity, .tag tag, location⟩ children)
    rw [contentTree] at same ⊢
    have named := Document.tagName?_of_item? placed.carries.1.1.2
    refine does_visiting same (placed.finds fit.sound.consistent) (does_get ?_)
    refine does_kindCode (e := ⟨id, identity, tag, location⟩) rfl fit placed named ?_ files
    exact fun _ _ _ _ below there => does_finishing (does_contentTrees files below there)

theorem does_contentTrees (files : env.Tidy) : ∀ {place : Place} {sink : Nat} {parent : Option Nat} {trees : List Tree}
    {s : Session}, Fit s place trees → Placed s place parent trees →
      Does (contentTrees env place sink trees) s (Closes trees s s.Settled)
  | _, _, _, [], _, fit, _ => does_pure ⟨.refl fit.sound, fun _ _ => rfl⟩
  | _, _, _, _ :: _, _, fit, placed =>
    does_more (does_contentTree files fit.head placed.head) fun _ _ frame =>
      does_contentTrees files (fit.tail.frame frame) (placed.behind fit frame)

end

-- By induction on the number of files that can still be included.
theorem does_nodes (options : Options) (fault : Path → Fault) : ∀ (left : Nat) (templates : List (Path × Template))
    (trees : List Tree), Tidies (fun place sink => nodes options fault left templates place sink trees) trees
  | 0, _, _ => fun _ _ _ _ fit placed => does_contentTrees (fun _ _ _ reached => by cases reached) fit placed
  | left + 1, templates, trees => fun _ _ _ _ fit placed => by
    refine does_contentTrees (fun path template compiler reached => ?_) fit placed
    obtain ⟨found, _, same⟩ := Option.map_eq_some_iff.mp reached
    cases same
    exact does_nodes options fault left _

end Contents

end Logged

namespace Template

variable (template : Template) (options : Options) (loader : Loader) (shared : Names)

theorem fit_opened : Fit (template.opened options shared) .outermost (Tree.placeAll 0 0 template.nodes) where
  sound := ⟨Document.consistent_imported template.nodes, nofun, nofun, nofun⟩
  fresh := (Tree.within_placeAll 0 0 template.nodes).mono fun id bounds => by
    refine ⟨?_, rfl, rfl⟩
    have size := Document.size_importShifted .empty 0 template.nodes none
    exact Nat.lt_of_lt_of_eq bounds.2 size.symm
  rise := Tree.allRise_placeAll 0 0 template.nodes
  owner := nofun
  inside := nofun

-- The nodes of the page have nothing above them.
theorem placed_opened : Placed (template.opened options shared) .outermost none (Tree.placeAll 0 0 template.nodes) where
  carries := (Document.holds_importShifted .empty 0 template.nodes none).carries
  laid := ⟨0, 0, template.nodes, rfl⟩
  owned tree member := by
    have alone := (Document.holds_importShifted .empty 0 template.nodes none).carries.root tree member
    refine ⟨⟨none, .top alone, rfl⟩, ?_, tree.id, .top alone, rfl⟩
    exact (congrArg (Document.switchAt _) alone).symm

theorem does_logged : Logged.Does (template.logged options loader) (template.opened options shared)
    fun _ t => Bracketed (template.opened options shared) t :=
  (Logged.does_nodes options loader.fault loader.templates.length loader.templates _ .outermost Output.rootSink _ _
    (template.fit_opened options shared) (template.placed_opened options shared)).mono fun _ _ closes => closes.1.toBracketed

theorem good_chronicle : ∀ event ∈ template.chronicle options loader shared, event.Good := by
  refine List.forall_mem_cons.mpr ⟨?_, (template.does_logged options loader shared).good⟩
  exact ⟨.empty, trivial, Document.consistent_imported template.nodes⟩

theorem chained_chronicle : Event.Chained (template.chronicle options loader shared) .empty
    (template.walk options loader shared).2.document := by
  have told := (template.does_logged options loader shared).told
  rw [walk_logged] at told
  exact ⟨rfl, told⟩

-- A compilation changes its document by the operations of its chronicle, one after the other, and leaves it consistent
-- between any two of them: the children of a node are those that have it as their parent, each is in one list only, and
-- searches upwards come to an end. A file takes the place of the tag that includes it.
theorem compile_consistent : Event.Chained (template.chronicle options loader shared) .empty
      (template.walk options loader shared).2.document ∧
    ∀ operation before, .changed operation before ∈ template.chronicle options loader shared →
      (operation.apply before).Consistent ∧
      (∀ p q c : Nat, c ∈ (operation.apply before).children p → c ∈ (operation.apply before).children q → p = q) ∧
      (∀ id : Nat, Document.Tops (operation.apply before) id ((operation.apply before).rootOf id) ∧
        ∃ result, Document.Above (operation.apply before) id result) ∧
      ∀ target nodes, operation = .included target nodes →
        (∀ id : Nat, id < before.size →
          (before.importFresh nodes (before.parent? target)).2.children id = before.children id) ∧
        Document.Replaces (before.importFresh nodes (before.parent? target)).2 (operation.apply before) target
          ((before.importFresh nodes (before.parent? target)).1.map Tree.id) := by
  refine ⟨template.chained_chronicle options loader shared, fun operation before member => ?_⟩
  obtain ⟨consistent, fits, after⟩ := template.good_chronicle options loader shared _ member
  refine ⟨after, fun p q c => after.unique, fun id => ⟨after.tops_rootOf id, after.exists_above id⟩, ?_⟩
  intro target nodes included
  subst included
  exact ⟨fun id bound => Document.children_importShifted _ nodes _ bound, consistent.replaces _ nodes fits⟩

-- A switch below a tag, and a file with control flow.
def switchBesidePart : Template :=
  ⟨[.tag 1 ⟨"div", [], false⟩
    [.tag 2 ⟨"include", [⟨.literal "from", some (.literal "door.json"), .zero⟩], true⟩ [] .zero,
    .tag 3 ⟨"switch", [], false⟩
      [.tag 4 ⟨"case", [⟨.literal "test", some (.expression (.var "open" [])), .zero⟩], false⟩ [] .zero] .zero] .zero]⟩

def besideParts : Loader where
  templates :=
    [(Path.ofText "door.json",
      ⟨[.tag 1 ⟨"if", [⟨.literal "test", some (.expression (.var "shut" [])), .zero⟩], false⟩
        [.tag 2 ⟨"attribute", [⟨.literal "name", some (.literal "class"), .zero⟩,
          ⟨.literal "value", some (.literal "dark"), .zero⟩], true⟩ [] .zero] .zero,
        .leaf 3 (.text "x") .zero]⟩)]
  fault path := .unreadable path.text

theorem compile_consistent_switchBesidePart : ∃ nodes before, .changed (.included 1 nodes) before ∈ switchBesidePart.chronicle .standard besideParts [] ∧
    before.children 0 = [1, 2] ∧ (Operation.apply before (.included 1 nodes)).children 0 = [5, 7, 2] ∧
    (Operation.apply before (.included 1 nodes)).Consistent := by
  have found : (switchBesidePart.chronicle .standard besideParts []).any (fun event => match event with
      | .changed (.included 1 nodes) before =>
        before.children 0 = [1, 2] ∧ (Operation.apply before (.included 1 nodes)).children 0 = [5, 7, 2]
      | _ => false) = true := by decide +kernel
  obtain ⟨event, member, holds⟩ := List.any_eq_true.mp found
  split at holds
  · rename_i nodes before
    have known := of_decide_eq_true holds
    have consistent := (switchBesidePart.compile_consistent .standard besideParts []).2 _ before member
    exact ⟨nodes, before, member, known.1, known.2, consistent.1⟩
  · cases holds

-- What the walk hands down to a node is what a search finds there, in every compilation: in the content, the fragment of
-- the nearest tag above that is neither control flow nor an attribute, and the switch that is the node's parent; in a
-- fragment, that switch too, and the number of the fragment, which is at the top.
theorem compile_finds : ∀ visit before, .visited visit before ∈ template.chronicle options loader shared →
    visit.Finds before := by
  intro visit before member
  exact (template.good_chronicle options loader shared _ member).2.2

-- Each visit of a node leaves the files, the tags with fragments, the fragments and the open switches as they were,
-- whether it succeeds or fails, and so does the whole compilation. If a visit in the content succeeds, all cursors are
-- where they were. A branch joins a switch that is open.
theorem compile_brackets : Bracketed (Session.start options shared) (template.walk options loader shared).2 ∧
    (∀ visit before, .visited visit before ∈ template.chronicle options loader shared →
      Bracketed before (visit.walk.run.run before).2 ∧
      (visit.isContent = true → (visit.walk.run.run before).1.isOk = true →
        before.Settled (visit.walk.run.run before).2.fragments)) ∧
    ∀ switch switches, .branched switch switches ∈ template.chronicle options loader shared →
      (Table.get? switches switch).isSome = true := by
  have good := template.good_chronicle options loader shared
  refine ⟨?_, fun visit before member => ?_, fun switch switches member => good _ member⟩
  · have whole := (template.does_logged options loader shared).ends
    rw [walk_logged] at whole
    exact ⟨whole.file, whole.including, whole.linked, whole.live, whole.opened⟩
  · obtain ⟨bracketed, settled, _⟩ := good _ member
    exact ⟨bracketed, settled⟩

-- A visit in the content of an included file succeeds while the cursor of the tag around it is on its own fragment.
def visitsFile : Event → Bool
  | .visited (.content env place sink tree) before =>
    before.including = [(Path.ofText "").normalize] ∧ before.fragments.cursors.get? 4 = some 4 ∧
      ((Walk.contentTree env place sink tree).run.run before).1.isOk = true
  | _ => false

def branches : Event → Bool
  | .branched _ _ => true
  | _ => false

def failsVisit : Event → Bool
  | .visited visit before => (visit.walk.run.run before).1.isOk = false
  | _ => false

-- A node of the file is compiled while the fragment of the tag around it is live; the switch gets a branch; and without
-- the file, the tag around it fails.
theorem compile_brackets_switchBesidePart :
    (∃ visit before, .visited visit before ∈ switchBesidePart.chronicle .standard besideParts [] ∧
      before.including = [(Path.ofText "").normalize] ∧ Bracketed before (visit.walk.run.run before).2 ∧
      before.fragments.cursors.get? 4 = some 4 ∧ (visit.walk.run.run before).2.fragments.cursors.get? 4 = some 4) ∧
    (∃ switch switches, .branched switch switches ∈ switchBesidePart.chronicle .standard besideParts [] ∧
      (Table.get? switches switch).isSome = true) ∧
    ∃ visit before, .visited visit before ∈ switchBesidePart.chronicle .standard { besideParts with templates := [] } [] ∧
      (visit.walk.run.run before).1.isOk = false ∧ Bracketed before (visit.walk.run.run before).2 := by
  have visited : (switchBesidePart.chronicle .standard besideParts []).any visitsFile = true := by decide +kernel
  have branched : (switchBesidePart.chronicle .standard besideParts []).any branches = true := by decide +kernel
  have failed : (switchBesidePart.chronicle .standard { besideParts with templates := [] } []).any failsVisit = true := by decide +kernel
  refine ⟨?_, ?_, ?_⟩
  · obtain ⟨event, member, holds⟩ := List.any_eq_true.mp visited
    unfold visitsFile at holds
    split at holds
    · rename_i env place sink tree before
      obtain ⟨inside, cursor, succeeds⟩ := of_decide_eq_true holds
      obtain ⟨bracketed, settled⟩ := (switchBesidePart.compile_brackets .standard besideParts []).2.1 _ before member
      exact ⟨_, before, member, inside, bracketed, cursor, (settled rfl succeeds 4).trans cursor⟩
    · cases holds
  · obtain ⟨event, member, holds⟩ := List.any_eq_true.mp branched
    unfold branches at holds
    split at holds
    · rename_i switch switches
      exact ⟨switch, switches, member, (switchBesidePart.compile_brackets .standard besideParts []).2.2 _ _ member⟩
    · cases holds
  · obtain ⟨event, member, holds⟩ := List.any_eq_true.mp failed
    unfold failsVisit at holds
    split at holds
    · rename_i visit before
      obtain ⟨bracketed, _⟩ := (switchBesidePart.compile_brackets .standard { besideParts with templates := [] } []).2.1 _ before member
      exact ⟨visit, before, member, of_decide_eq_true holds, bracketed⟩
    · cases holds

end Template

end Stencil
