import Stencil.Proofs.Quiet
import Stencil.Proofs.Refinement

-- The fragment of each tag whose children are finished. Wherever the walk comes to the children of a tag, they stand
-- where walk and draft agree, so once they are compiled they have left in the fragment of the tag what the draft says
-- they leave. The induction is that of the walk, over the events of its chronicle.

namespace Stencil

open Session Document

theorem Agrees.of_ok {α β : Type} {inside : Option NodeId} {walk : Walk α} {draft : Draft β} {s t : Session} {a : α}
    {post : α → β → Session → Prop} (agrees : Agrees inside walk draft s post) (ran : walk.run.run s = (.ok a, t)) :
    ∃ b, post a b t := by
  unfold Agrees at agrees
  rw [ran] at agrees
  revert agrees
  rcases draft.run.run (s.ledger inside) with ⟨e | b, l⟩
  · exact False.elim
  · exact fun both => ⟨b, both.2⟩

section Content

variable {allowed : Tag → Prop}

theorem silent_idle : Silent allowed Walk.idle := fun _ _ _ _ => rfl

variable {env : Env} {reach : Path → Option (Template × Outline.Expander)}
  (reaches : ∀ path, ReachAgrees allowed env.options env.fault (env.reach path) (reach path))
include reaches

theorem contentTrees_agree (nodes : List Node) :
    NodesAgree allowed env.options env.fault (Walk.contentTrees env) (Outline.expandAll reach) nodes := by
  have same : Walk.watchedTrees Walk.idle env = Walk.contentTrees env := by
    funext place sink trees
    exact Walk.watchedTrees_idle env place sink trees
  exact same ▸ watchedTrees_agree silent_idle reaches nodes

-- What a tree that was compiled has done to the document.
theorem contentTree_moved {node : Node} (only : node.Only allowed) {place : Place} {sink shift start : Nat}
    {parent : Option Nat} {s t : Session} {code : Code}
    (ready : Ready ⟨parent, place.owner, start, start + node.size⟩ [Tree.place shift start node] s)
    (outer : ∀ id : Nat, place.inside = some id → id < start)
    (ran : (Walk.contentTree env place sink (Tree.place shift start node)).run.run s = (.ok code, t)) :
    ∃ flat, Moved ⟨parent, place.owner, start, start + node.size⟩ [Tree.place shift start node] flat s t := by
  have agrees := watchedTree_agrees silent_idle reaches node only place sink shift start parent s ready outer
  rw [Walk.watchedTree_idle] at agrees
  obtain ⟨lines, finishes⟩ := agrees.of_ok ran
  exact ⟨_, finishes.walked.toMoved⟩

-- The children of a tag, compiled from where the tag has got its fragment.
theorem Opened.reflected_of_ok {nodes : List Node} (only : Node.AllOnly allowed nodes) {e : Element} {place : Place}
    {sink shift : Nat} {s t : Session} {code : Code}
    (ready : Ready ⟨some e.id, place.owner, e.id + 1, e.id + 1 + Node.totalSize nodes⟩
      (Tree.placeAll shift (e.id + 1) nodes) s)
    (opened : Opened e (Tree.placeAll shift (e.id + 1) nodes) place s)
    (outer : ∀ id : Nat, place.inside = some id → id < e.id + 1)
    (ran : (Walk.contentTrees env place sink (Tree.placeAll shift (e.id + 1) nodes)).run.run s = (.ok code, t))
    (named : TagKind.ofName? e.tag.name = none) : Reflected allowed e place t := by
  have agrees := contentTrees_agree reaches nodes only place sink shift (e.id + 1) (some e.id) s ready outer
  obtain ⟨lines, finishes⟩ := agrees.of_ok ran
  have kept := Outline.only_expandAll (ReachAgrees.keeps reaches) s.stack shift s.document.maxIdentity nodes only
  exact opened.reflected finishes.walked kept named

end Content

theorem nodes_agree {allowed : Tag → Prop} (options : Options) (fault : Path → Fault) (left : Nat)
    {templates : List (Path × Template)} (only : ∀ entry ∈ templates, Node.AllOnly allowed entry.2.nodes)
    (nodes : List Node) : NodesAgree allowed options fault (Walk.nodes options fault left templates)
      (Outline.expander left templates) nodes :=
  Walk.watchedNodes_idle options fault left templates ▸ watchedNodes_agree silent_idle options fault left only nodes

-- A tag without a meaning of its own is reflected in its fragment when its children are finished.
def Event.Reflects (allowed : Tag → Prop) : Event → Prop
  | .finished e place after => TagKind.ofName? e.tag.name = none → Reflected allowed e place after
  | _ => True

namespace Logged

-- All tags that are finished are reflected.
def Reflects {α : Type} (allowed : Tag → Prop) (action : Logged α) (s : Session) : Prop :=
  ∀ event ∈ action.events s, event.Reflects allowed

variable {allowed : Tag → Prop}

section Rules

variable {α β : Type} {action : Logged α} {next : α → Logged β} {s : Session}

theorem reflects_pure (a : α) : Reflects allowed (pure a) s := fun _ member => absurd member List.not_mem_nil

theorem reflects_quiet (walk : Walk α) : Reflects allowed (quiet walk) s := fun _ member => absurd member List.not_mem_nil

theorem reflects_noted {event : Session → Event} {walk : Walk α} (own : (event s).Reflects allowed) :
    Reflects allowed (noted event walk) s :=
  fun _ member => List.mem_singleton.mp member ▸ own

theorem Reflects.visiting {visit : Visit} (inner : Reflects allowed action s) :
    Reflects allowed (visiting visit action) s := by
  intro event member
  rcases List.mem_cons.mp member with same | later
  · exact same ▸ trivial
  · exact inner event later

theorem Reflects.bind (first : Reflects allowed action s)
    (rest : ∀ a t, action.walk.run.run s = (.ok a, t) → Reflects allowed (next a) t) :
    Reflects allowed (action >>= next) s := by
  intro event member
  rcases reached : action.walk.run.run s with ⟨e | a, t⟩
  · rw [(bind_of_error reached).2] at member
    exact first event member
  · rw [(bind_of_ok reached).2] at member
    rcases List.mem_append.mp member with early | late
    · exact first event early
    · exact rest a t reached event late

-- Behind a part in which nothing happens.
theorem reflects_before {walk : Walk α} (plain : Walk.Plain walk)
    (rest : ∀ a t, Steady s t → Reflects allowed (next a) t) : Reflects allowed (quiet walk >>= next) s := by
  refine (reflects_quiet walk).bind fun a t reached => rest a t ?_
  have steady := plain.steady s
  rwa [← walk_quiet walk, reached] at steady

theorem Reflects.ensuring (inner : Reflects allowed action s) (cleanup : Session → Session) :
    Reflects allowed (ensuring action cleanup) s := inner

-- In front of a part in which nothing happens.
theorem Reflects.after (first : Reflects allowed action s) (tail : α → Walk β) :
    Reflects allowed (action >>= fun a => quiet (tail a)) s :=
  first.bind fun a _ _ => reflects_quiet (tail a)

theorem Reflects.map (first : Reflects allowed action s) (f : α → β) :
    Reflects allowed (action >>= fun a => pure (f a)) s :=
  first.bind fun a _ _ => reflects_pure (f a)

theorem Reflects.finishing {e : Element} {place : Place} (inner : Reflects allowed action s)
    (own : ∀ a t, action.walk.run.run s = (.ok a, t) → TagKind.ofName? e.tag.name = none → Reflected allowed e place t) :
    Reflects allowed (finishing e place action) s := by
  refine inner.bind fun a t reached => Reflects.bind (reflects_noted ?_) fun _ _ _ => reflects_pure a
  exact own a t reached

end Rules

-- The children of a tag of control flow are compiled with the document and the fragments as they are.
theorem reflects_control {kind : Control} {e : Element} {inside : Option NodeId} {body : Option NodeId → Logged Code}
    {s : Session}
    (inner : ∀ within t, within = none ∨ within = some e.id → Alike s t → Reflects allowed (body within) t) :
    Reflects allowed (control kind e inside body) s := by
  have plain (t : Session) (alike : Alike s t) : Reflects allowed (body none) t := inner none t (.inl rfl) alike
  cases kind with
  | conditional =>
    exact reflects_before (Walk.plain_require e _) fun test t steady => (plain t steady.toAlike).after _
  | loop =>
    refine reflects_before (Walk.plain_require e _) fun source t steady => ?_
    exact reflects_before (Walk.plain_require e _) fun item u later => (plain u (steady.trans later).toAlike).after _
  | switch =>
    refine (reflects_quiet _).bind fun _ t reached => ?_
    cases reached
    have opened : Alike s { s with switches := s.switches.opened e.id } := ⟨rfl, rfl, rfl, rfl⟩
    exact ((inner (some e.id) _ (.inr rfl) opened).after _).ensuring _
  | case =>
    cases inside with
    | none => exact reflects_quiet _
    | some switch =>
      refine Reflects.bind (reflects_noted trivial) fun branch t reached => ?_
      cases reached
      have joined : Alike s { s with switches := s.switches.withCase switch } := ⟨rfl, rfl, rfl, rfl⟩
      cases s.switches.case? switch with
      | none => exact reflects_quiet _
      | some branch =>
        exact reflects_before (Walk.plain_require e _) fun test u steady => (plain u (joined.trans steady.toAlike)).after _
  | default =>
    cases inside with
    | none => exact reflects_quiet _
    | some switch =>
      refine Reflects.bind (reflects_noted trivial) fun branch t reached => ?_
      cases reached
      have joined : Alike s { s with switches := s.switches.withDefault switch } := ⟨rfl, rfl, rfl, rfl⟩
      exact (plain _ joined).map _

section Attributes

mutual

theorem reflects_appliedTree (attrsOf : Nat) : ∀ (inside : Option NodeId) (tree : Tree) (s : Session),
    Reflects allowed (appliedTree attrsOf inside tree) s
  | inside, .node id ⟨identity, .tag tag, location⟩ children, s => by
    rw [appliedTree]
    refine Reflects.visiting ?_
    split
    · exact reflects_quiet _
    · exact reflects_control fun within t _ _ => reflects_appliedTrees attrsOf within children t
    · exact reflects_pure _
  | inside, .node id ⟨identity, .leaf leaf, location⟩ children, s => by
    rw [appliedTree]
    exact Reflects.visiting (reflects_pure _)

theorem reflects_appliedTrees (attrsOf : Nat) : ∀ (inside : Option NodeId) (trees : List Tree) (s : Session),
    Reflects allowed (appliedTrees attrsOf inside trees) s
  | _, [], _ => reflects_pure _
  | inside, tree :: rest, s => by
    rw [appliedTrees]
    exact (reflects_appliedTree attrsOf inside tree s).bind fun _ t _ =>
      (reflects_appliedTrees attrsOf inside rest t).map _

end

theorem reflects_attrBlock {s : Session} (linked : Walk.Linked) (attrs : List Attr) (location : Location) :
    Reflects allowed (attrBlock linked attrs location) s :=
  (reflects_quiet _).bind fun _ t _ => (reflects_appliedTrees _ _ _ t).after _

end Attributes

section Contents

variable {parent : Option Nat} {stop sink : Nat} {e : Element} {place : Place}
  {children : List Tree} {s : Session} {body : Place → Nat → Logged Code} {env : Env}

-- The children of a tag, wherever they stand ready, and below a tag with an empty fragment if it needs one.
def BelowReflects (allowed : Tag → Prop) (e : Element) (stop : Nat) (children : List Tree)
    (body : Place → Nat → Logged Code) : Prop :=
  ∀ place sink t, Ready ⟨some e.id, place.owner, e.id + 1, stop⟩ children t → Opened e children place t →
    (∀ id : Nat, place.inside = some id → id < e.id + 1) → Reflects allowed (body place sink) t

-- The nodes of a file.
def NodesReflect (allowed : Tag → Prop) (compiler : Compiler) (nodes : List Node) : Prop :=
  Node.AllOnly allowed nodes → ∀ (place : Place) (sink shift start : Nat) (parent : Option Nat) (s : Session),
    Ready ⟨parent, place.owner, start, start + Node.totalSize nodes⟩ (Tree.placeAll shift start nodes) s →
    (∀ id : Nat, place.inside = some id → id < start) →
    Reflects allowed (compiler place sink (Tree.placeAll shift start nodes)) s

-- The files that an environment leads to, which are those of the outlines.
structure Env.Reflects (allowed : Tag → Prop) (env : Env) (reach : Path → Option (Template × Outline.Expander)) : Prop where
  agrees : ∀ path, ReachAgrees allowed env.plain.options env.plain.fault (env.plain.reach path) (reach path)
  only : ∀ path template compiler, env.reach path = some (template, compiler) → Node.AllOnly allowed template.nodes
  nodes : ∀ path template compiler, env.reach path = some (template, compiler) →
    ∀ nodes, NodesReflect allowed compiler nodes

theorem reflects_appliedControl {kind : Control}
    (ready : Ready ⟨parent, place.owner, e.id, stop⟩ [.node e.id e.item children] s)
    (named : TagKind.ofName? e.tag.name ≠ none) (below : BelowReflects allowed e stop children body) :
    Reflects allowed (control kind e place.inside fun inner => body { place with inside := inner } sink) s :=
  reflects_control fun _ t own alike =>
    below _ sink t ((ready.stays.ready ready).alike alike) (absurd · named) (below_or_at own)

theorem reflects_contentControl {kind : Control}
    (ready : Ready ⟨parent, place.owner, e.id, stop⟩ [.node e.id e.item children] s)
    (named : TagKind.ofName? e.tag.name ≠ none) (below : BelowReflects allowed e stop children body) :
    Reflects allowed (contentControl kind place sink e body) s := by
  obtain ⟨owner, inside⟩ := place
  cases owner with
  | none =>
    refine (reflects_pure ()).bind fun _ t reached => ?_
    cases reached
    refine reflects_control fun inner t own alike => Reflects.bind ?_ fun _ _ _ => (reflects_quiet _).map _
    exact below ⟨none, inner⟩ sink t ((ready.stays.ready ready).alike alike) (absurd · named) (below_or_at own)
  | some fragment =>
    refine Reflects.bind (reflects_noted trivial) fun _ t reached => ?_
    have entered := (run_copyInto ready.holds.1.1).symm.trans reached
    cases entered
    obtain ⟨c, pointed⟩ := Option.isSome_iff_exists.mp (ready.owned rfl)
    have inside : Ready _ children (s.copied fragment e.id (TagKind.appliedName e.tag.name) true) :=
      (ready.copies pointed).ready ready
    refine reflects_control fun inner t own alike => Reflects.bind ?_ fun _ _ _ => (reflects_quiet _).map _
    exact below ⟨some fragment, inner⟩ sink t (inside.alike alike) (absurd · named) (below_or_at own)

theorem reflects_template (ready : Ready ⟨parent, place.owner, e.id, stop⟩ [.node e.id e.item children] s)
    (named : TagKind.ofName? e.tag.name ≠ none) (below : BelowReflects allowed e stop children body) :
    Reflects allowed (template e (body .outermost)) s := by
  refine reflects_before (Walk.plain_templateName e) fun name t steady => Reflects.after ?_ _
  exact below .outermost e.identity t ((ready.leaves.ready ready).alike steady.toAlike) (absurd · named)
    (by simp [Place.outermost])

theorem reflects_tagParts (ready : Ready ⟨parent, place.owner, e.id, stop⟩ [.node e.id e.item children] s)
    (below : BelowReflects allowed e stop children body) : Reflects allowed (tagParts e body) s := by
  refine Reflects.bind (reflects_noted trivial) fun linked t reached => Reflects.ensuring ?_ _
  obtain ⟨location, ran⟩ := run_link (ready.unlinked e.id (Nat.le_refl e.id))
  have linked := ran.symm.trans reached
  cases linked
  refine Reflects.bind ?_ fun _ u _ => (reflects_attrBlock _ _ _).map _
  unfold ownChildren
  split
  · exact reflects_pure _
  · exact below _ _ _ ((ready.links location).ready ready) (ready.opened location) (by simp)

variable {reach : Path → Option (Template × Outline.Expander)}

theorem reflects_including (files : Env.Reflects allowed env reach)
    (ready : Ready ⟨parent, place.owner, e.id, stop⟩ [.node e.id e.item children] s)
    (outer : ∀ id : Nat, place.inside = some id → id < e.id) : Reflects allowed (including env place sink e) s := by
  refine reflects_before (Walk.plain_require e _) fun source t steady => ?_
  cases source.fixed? with
  | none => exact reflects_quiet _
  | some source =>
    refine (reflects_quiet get).bind fun u v reached => ?_
    cases reached
    have here := ready.alike steady.toAlike
    by_cases cyclic : Walk.includePath t.file source ∈ t.file :: t.including
    · simp only [cyclic, if_true]
      exact reflects_quiet _
    · simp only [cyclic, if_false]
      cases reached : env.reach (Walk.includePath t.file source) with
      | none => exact reflects_quiet _
      | some found =>
        obtain ⟨template, compiler⟩ := found
        refine Reflects.bind (reflects_noted trivial) fun _ u loaded => ?_
        cases loaded
        refine Reflects.bind (reflects_noted trivial) fun _ u entered => Reflects.ensuring ?_ _
        cases entered
        have old : e.id < t.document.size := cell?_lt here.holds.1.1
        exact files.nodes _ _ _ reached template.nodes (files.only _ _ _ reached) place sink _ _ parent _
          (here.included _ _ template.nodes) fun id same => Nat.lt_trans (outer id same) old

theorem reflects_kindCode {kind : TagKind} {isComponent : String → Bool}
    (classified : TagKind.classify isComponent e.tag.name = kind) (files : Env.Reflects allowed env reach)
    (ready : Ready ⟨parent, place.owner, e.id, stop⟩ [.node e.id e.item children] s)
    (outer : ∀ id : Nat, place.inside = some id → id < e.id) (below : BelowReflects allowed e stop children body) :
    Reflects allowed (kindCode env place sink e body kind) s := by
  have meaning := TagKind.ofName?_of_classify classified
  cases kind with
  | attr flow =>
    cases flow with
    | content =>
      refine reflects_before (Walk.plain_require e _) fun _ _ _ => reflects_before (Walk.plain_require e _) fun _ _ _ => ?_
      cases place.owner with
      | none => exact reflects_quiet _
      | some fragment => exact Reflects.bind (reflects_noted trivial) fun _ _ _ => reflects_pure _
    | applied => exact reflects_quiet _
  | control kind flow =>
    have named : TagKind.ofName? e.tag.name ≠ none := by simp [meaning.resolve_right (by simp)]
    cases flow with
    | content => exact reflects_contentControl ready named below
    | applied => exact reflects_appliedControl ready named below
  | template =>
    have named : TagKind.ofName? e.tag.name ≠ none := by simp [meaning.resolve_right (by simp)]
    exact reflects_template ready named below
  | including => exact reflects_including files ready outer
  | component => exact (reflects_tagParts ready below).map _
  | literal => exact (reflects_tagParts ready below).map _
  | _ => exact reflects_quiet _

mutual

theorem reflects_contentTree (files : Env.Reflects allowed env reach) : ∀ (node : Node), node.Only allowed →
    ∀ (place : Place) (sink shift start : Nat) (parent : Option Nat) (s : Session),
    Ready ⟨parent, place.owner, start, start + node.size⟩ [Tree.place shift start node] s →
    (∀ id : Nat, place.inside = some id → id < start) →
    Reflects allowed (contentTree env place sink (Tree.place shift start node)) s
  | .leaf identity leaf location, only, place, sink, shift, start, parent, s, ready, outer => by
    refine Reflects.visiting ?_
    cases leaf with
    | script attrs source =>
      exact Reflects.bind (reflects_noted trivial) fun _ _ _ => ((reflects_attrBlock _ _ _).map _).ensuring _
    | _ => exact reflects_quiet _
  | .tag identity tag children location, only, place, sink, shift, start, parent, s, ready, outer => by
    have stops : start + (Node.tag identity tag children location).size = start + 1 + Node.totalSize children := by
      simp only [Node.size]
      omega
    rw [stops] at ready
    let e : Element := ⟨start, shifted shift identity, tag, location⟩
    have below : BelowReflects allowed e (start + 1 + Node.totalSize children) (Tree.placeAll shift (start + 1) children)
        fun place sink => finishing e place (contentTrees env place sink (Tree.placeAll shift (start + 1) children)) := by
      intro inner accumulator t inside opened around
      have nodes := reflects_contentTrees files children only.2 inner accumulator shift (start + 1) (some start) t inside around
      refine nodes.finishing fun code u ran => ?_
      rw [walk_contentTrees] at ran
      exact Opened.reflected_of_ok files.agrees only.2 inside opened around ran
    rw [Tree.place, contentTree]
    refine Reflects.visiting ((reflects_quiet get).bind fun u t reached => ?_)
    cases reached
    exact reflects_kindCode (e := e) rfl files ready outer below

theorem reflects_contentTrees (files : Env.Reflects allowed env reach) :
    ∀ (nodes : List Node), NodesReflect allowed (contentTrees env) nodes
  | [], _, _, _, _, _, _, _, _, _ => reflects_pure _
  | first :: rest, only, place, sink, shift, start, parent, s, ready, outer => by
    have stops : start + Node.totalSize (first :: rest) = start + first.size + Node.totalSize rest := by
      simp only [Node.totalSize]
      omega
    rw [stops] at ready
    have order : start ≤ start + first.size := Nat.le_add_right _ _
    have inside : start + first.size ≤ start + first.size + Node.totalSize rest := Nat.le_add_right _ _
    have front := ready.first inside (Tree.within_place shift start first)
    rw [Tree.placeAll, contentTrees]
    refine (reflects_contentTree files first only.1 place sink shift start parent s front outer).bind fun code t ran => ?_
    rw [walk_contentTree] at ran
    obtain ⟨flat, moved⟩ := contentTree_moved files.agrees only.1 front outer ran
    have behind := ready.behind order inside (Tree.within_placeAll shift _ rest) (Tree.allRise_placeAll shift _ rest) moved
    refine Reflects.map (reflects_contentTrees files rest only.2 place sink shift (start + first.size) parent t behind ?_) _
    exact fun id same => Nat.lt_of_lt_of_le (outer id same) order

end

-- By induction on the number of files that can still be included.
theorem reflects_nodes (options : Options) (fault : Path → Fault) : ∀ (left : Nat) {templates : List (Path × Template)},
    (∀ entry ∈ templates, Node.AllOnly allowed entry.2.nodes) →
      ∀ (nodes : List Node), NodesReflect allowed (Logged.nodes options fault left templates) nodes
  | 0, _, _, nodes => by
    have files : Env.Reflects allowed ⟨options, fault, fun _ => none⟩ fun _ => none := by
      refine ⟨fun _ => .nowhere, ?_, ?_⟩
      all_goals
        intro _ _ _ reached
        cases reached
    exact reflects_contentTrees files nodes
  | left + 1, templates, only, nodes => by
    have others (path : Path) : ∀ entry ∈ templates.filter fun entry => entry.1 ≠ path, Node.AllOnly allowed entry.2.nodes :=
      fun entry later => only entry (List.mem_filter.mp later).1
    have files : Env.Reflects allowed
        ⟨options, fault, fun path => (templates.lookup path).map fun template =>
          (template, Logged.nodes options fault left (templates.filter fun entry => entry.1 ≠ path))⟩
        fun path => (templates.lookup path).map fun template =>
          (template, Outline.expander left (templates.filter fun entry => entry.1 ≠ path)) := by
      refine ⟨fun path => ?_, ?_, ?_⟩
      · simp only [Env.plain]
        cases found : templates.lookup path with
        | none => exact .nowhere
        | some template =>
          refine .found (only _ (entry_of_lookup found)) (Outline.keeps_expander left (others path)) fun nodes => ?_
          simp only [walk_nodes]
          exact nodes_agree options fault left (others path) nodes
      · intro path template compiler reached
        obtain ⟨_, found, same⟩ := Option.map_eq_some_iff.mp reached
        cases same
        exact only _ (entry_of_lookup found)
      · intro path template compiler reached
        obtain ⟨_, found, same⟩ := Option.map_eq_some_iff.mp reached
        cases same
        exact reflects_nodes options fault left (others path)
    exact reflects_contentTrees files nodes

end Contents

end Logged

-- Whenever the children of a tag without a meaning of its own are finished, the tag is reflected in its fragment. The
-- tags below are allowed if all tags of the template and of its files are.
theorem Template.finished_reflected {allowed : Tag → Prop} (template : Template) (options : Options) (loader : Loader)
    (shared : Names) (own : Node.AllOnly allowed template.nodes)
    (others : ∀ entry ∈ loader.templates, Node.AllOnly allowed entry.2.nodes) :
    ∀ event ∈ template.chronicle options loader shared, event.Reflects allowed := by
  intro event member
  rcases List.mem_cons.mp member with same | later
  · exact same ▸ trivial
  · exact Logged.reflects_nodes options loader.fault loader.templates.length others template.nodes own .outermost
      Output.rootSink 0 0 none _ (template.ready_session options shared) nofun event later

end Stencil
