import Stencil.Proofs.Watch

-- The walk over a template is the draft of its outline, written out. Includes are resolved on both sides with the
-- same templates at hand, so the induction is on their number and, for one number, on the nodes.

namespace Stencil

open Session Document Tree

-- The two readings of some nodes agree, wherever they stand.
def NodesAgree (allowed : Tag → Prop) (options : Options) (fault : Path → Fault) (compiler : Compiler)
    (expander : Outline.Expander) (nodes : List Node) : Prop :=
  Node.AllOnly allowed nodes → ∀ (place : Place) (sink shift start : Nat) (parent : Option Nat) (s : Session),
    Ready ⟨parent, place.owner, start, start + Node.totalSize nodes⟩ (placeAll shift start nodes) s →
    (∀ id : Nat, place.inside = some id → id < start) →
    Agrees place.inside (compiler place sink (placeAll shift start nodes))
      (Draft.outlines options fault s.stack place.owner.isSome sink
        (expander s.stack shift s.document.maxIdentity nodes).1) s
      (Finishes ⟨parent, place.owner, start, start + Node.totalSize nodes⟩ place.inside (placeAll shift start nodes)
        (Outline.flatten (expander s.stack shift s.document.maxIdentity nodes).1)
        (expander s.stack shift s.document.maxIdentity nodes).2 s)

-- A path leads nowhere for both readings, or to one template whose readings agree.
inductive ReachAgrees (allowed : Tag → Prop) (options : Options) (fault : Path → Fault) :
    Option (Template × Compiler) → Option (Template × Outline.Expander) → Prop where
  | nowhere : ReachAgrees allowed options fault none none
  | found {template : Template} {compiler : Compiler} {expander : Outline.Expander} :
    Node.AllOnly allowed template.nodes → Outline.Keeps allowed expander →
    (∀ nodes, NodesAgree allowed options fault compiler expander nodes) →
    ReachAgrees allowed options fault (some (template, compiler)) (some (template, expander))

section Leaf

variable {parent : Option Nat} {start stop sink identity : Nat} {location : Location} {place : Place} {s : Session}
  {file : Path} {item : Item} {children : List Tree}

-- A node without copies, whose code changes nothing but names and scope.
theorem Ready.writes {inside : Option NodeId} {owner : Option Nat} {walk : Walk Code} {draft : Draft (List Line)}
    (ready : Ready ⟨parent, owner, start, stop⟩ [.node start item children] s)
    (uncopied : Sketch.copies [.node item (sketches children)] = []) (agrees : Agrees inside walk draft s (Writes s)) :
    Agrees inside walk draft s (Finishes ⟨parent, owner, start, stop⟩ inside [.node start item children]
      [.node item (sketches children)] s.document.maxIdentity s) := by
  refine agrees.mono ?_
  rintro code lines t ⟨written, steady⟩
  exact ⟨written, ready.quiet steady.toAlike uncopied, steady.keepsBelow _ _, by rw [steady.document]⟩

theorem Agrees.written {inside : Option NodeId} {code : Code} {lines : List Line} (same : code = Line.codes lines) :
    Agrees inside (Pure.pure code) (Pure.pure lines) s (Writes s) :=
  .pure ⟨same, .refl s⟩

theorem Agrees.computed {inside : Option NodeId} (here : s.file = file) (e : Expr) :
    Agrees inside (do return Output.expressionBlock identity sink (← Walk.expr .value e location))
      (do return [.expressionBlock identity sink (← Draft.expr file .value e location)]) s (Writes s) := by
  refine (Agrees.expr here .value e location).bind ?_
  rintro code _ t ⟨rfl, steady⟩
  exact .pure ⟨by simp [Line.code], steady⟩

theorem Agrees.leaf (leaf : Leaf)
    (ready : Ready ⟨parent, place.owner, start, stop⟩ [.node start ⟨identity, .leaf leaf, location⟩ []] s)
    (here : s.file = file) (outer : ∀ id : Nat, place.inside = some id → id < start) :
    Agrees place.inside (Walk.leafCode place sink start identity location leaf)
      (Draft.leaf file sink identity location leaf) s
      (Finishes ⟨parent, place.owner, start, stop⟩ place.inside [.node start ⟨identity, .leaf leaf, location⟩ []]
        [.node ⟨identity, .leaf leaf, location⟩ []] s.document.maxIdentity s) := by
  have uncopied : Sketch.copies [.node ⟨identity, .leaf leaf, location⟩ []] = [] := rfl
  cases leaf with
  | comment value => exact ready.writes uncopied (.written (by simp [Line.code]))
  | string value => exact ready.writes uncopied (.written (by simp [Line.code]))
  | slot e => exact ready.writes uncopied (.computed here e)
  | block e => exact ready.writes uncopied (.computed here e)
  | text value =>
    refine ready.writes uncopied (Agrees.look ?_)
    obtain ⟨owner, inside⟩ := place
    cases inside with
    | none => exact .written (by simp [Line.code])
    | some around =>
      simp only [Walk.leafCode, Session.ledger, Option.map_some, Option.isSome_some, if_true]
      cases Text.isAllBlank value with
      | true => exact .written rfl
      | false => exact .fail here _ _
  | script attrs source =>
    have old : start < s.document.size := cell?_lt ready.holds.1.1
    have around : ∀ id : Nat, place.inside = some id → id ≤ s.document.size :=
      fun id same => Nat.le_of_lt (Nat.lt_trans (outer id same) old)
    refine (Agrees.withFragment ready uncopied fun attrsOf above => ?_).mono
      fun _ _ _ done => ⟨done.1, done.2.1, done.2.2.1, done.2.2.2⟩
    have inner := (ready.links above).ready ready
    refine (Agrees.linkedBlock (.none rfl) here around attrs location).bind ?_
    rintro _ block t ⟨rfl, alike, kept⟩
    refine .pure ⟨by simp [Line.code], inner.unmoved.alike alike, fun id before _ => ?_, ?_⟩
    · exact kept.outermost (Nat.lt_succ_of_lt (Nat.lt_trans before old))
    · rw [alike.document]
      rfl

end Leaf

section Tags

variable {parent : Option Nat} {stop known sink : Nat} {e : Element} {place : Place} {children : List Tree}
  {flat : List Sketch} {s : Session} {env : Env} {body : Place → Nat → Walk Code}
  {draft : Bool → Nat → Draft (List Line)}

-- A tag that includes nothing. The readings of its children are given if the walk comes to them; if not, they stay
-- as they are.
theorem Agrees.tag (ready : Ready ⟨parent, place.owner, e.id, stop⟩ [.node e.id e.item children] s)
    (named : TagKind.ofName? e.tag.name ≠ some .including)
    (entered : e.tag.isEntered = true → BelowAgrees s e stop children flat known body draft)
    (passed : e.tag.isEntered = false → flat = sketches children ∧ known = s.document.maxIdentity)
    (outer : ∀ id : Nat, place.inside = some id → id < e.id) :
    Agrees place.inside (Walk.tagCode env place sink e body)
      (Draft.tag env.options env.fault s.stack place.owner.isSome sink e.header flat draft) s
      (Finishes ⟨parent, place.owner, e.id, stop⟩ place.inside [.node e.id e.item children] [.node e.item flat] known s) := by
  have here : s.file = s.stack.file := rfl
  refine Agrees.look (Agrees.step (t := s) rfl rfl ?_)
  simp only [TagKind.classify, Session.ledger, Element.header]
  cases kind : TagKind.ofName? e.tag.name with
  | none =>
    have below : e.tag.selfClosing = false → BelowAgrees s e stop children flat known body draft :=
      fun single => entered (by simp [Tag.isEntered, kind, single])
    have closed : e.tag.selfClosing = true → flat = sketches children ∧ known = s.document.maxIdentity :=
      fun single => passed (by simp [Tag.isEntered, kind, single])
    by_cases component : s.registry.contains s.shared e.tag.name = true
    · simp only [component, if_true]
      exact Agrees.component env.options ready below closed kind here outer
    · simp only [component, Bool.false_eq_true, if_false]
      exact Agrees.literal env.options ready below closed kind here outer
  | some found =>
    -- A tag whose children the walk passes by.
    have quiet {walk : Walk Code} {write : Draft (List Line)} (left : e.tag.isEntered = false)
        (uncopied : Sketch.copies [.node e.item (sketches children)] = [])
        (agrees : Agrees place.inside walk write s (Writes s)) : Agrees place.inside walk write s
          (Finishes ⟨parent, place.owner, e.id, stop⟩ place.inside [.node e.id e.item children] [.node e.item flat]
            known s) := by
      obtain ⟨rfl, rfl⟩ := passed left
      exact ready.writes uncopied agrees
    cases found with
    | parameter =>
      exact quiet (by simp [Tag.isEntered, kind]) (by simp [Sketch.copies, Sketch.copy, Element.item, kind])
        (.parameter here e)
    | assignment =>
      exact quiet (by simp [Tag.isEntered, kind]) (by simp [Sketch.copies, Sketch.copy, Element.item, kind])
        (.assignment here e)
    | importing =>
      exact quiet (by simp [Tag.isEntered, kind]) (by simp [Sketch.copies, Sketch.copy, Element.item, kind])
        (.importing here env.options e)
    | state =>
      exact quiet (by simp [Tag.isEntered, kind]) (by simp [Sketch.copies, Sketch.copy, Element.item, kind])
        (.useState here e)
    | attr flow =>
      cases flow with
      | content =>
        obtain ⟨rfl, rfl⟩ := passed (by simp [Tag.isEntered, kind])
        exact Agrees.ownerAttribute ready kind here
      | applied =>
        exact quiet (by simp [Tag.isEntered, kind]) (by simp [Sketch.copies, Sketch.copy, Element.item, kind])
          (.strayAttribute here e)
    | control control flow =>
      have below := entered (by simp [Tag.isEntered, kind])
      cases flow with
      | content => exact Agrees.contentControl below ready kind here outer
      | applied => exact Agrees.appliedControl below ready kind here outer
    | template => exact Agrees.template (entered (by simp [Tag.isEntered, kind])) ready kind here outer
    | including => exact absurd kind named
    | component => exact absurd rfl (TagKind.ofName?_own kind).1
    | literal => exact absurd rfl (TagKind.ofName?_own kind).2

-- An include that stays in the outline is refused by both readings.
theorem Agrees.refused {owned : Bool} {inside : Option NodeId} {below : List Outline} {cause : Cause}
    {post : Code → List Line → Session → Prop} (named : TagKind.ofName? e.tag.name = some .including)
    (refused : s.stack.refusal env.fault e.tag = cause) :
    Agrees inside (e.fail cause) (Draft.outline env.options env.fault s.stack owned sink (.node e.item below)) s post := by
  refine Agrees.look ?_
  simp only [TagKind.classify, named, refused]
  exact .fail rfl _ _

theorem Walk.fail_bind {α β : Type} (cause : Cause) (location : Location) (next : α → Walk β) :
    (Walk.fail cause location >>= next) = Walk.fail cause location := rfl

section Target

variable {stack : Stack} {tag : Tag} {part : Part} {text : String} (source : Attr.param? tag.attrs "from" = some part)
  (fixed : part.fixed? = some text)
include source fixed

theorem Stack.target?_cycle (cycle : Walk.includePath stack.file text ∈ stack.file :: stack.including)
    (fault : Path → Fault) : stack.target? tag = none ∧
      stack.refusal fault tag = .includeCycle (Walk.includePath stack.file text).text := by
  simp only [target?, refusal, source, Option.bind_eq_bind, Option.bind_some, fixed]
  exact ⟨if_pos cycle, if_pos cycle⟩

theorem Stack.target?_free (free : Walk.includePath stack.file text ∉ stack.file :: stack.including)
    (fault : Path → Fault) : stack.target? tag = some (Walk.includePath stack.file text) ∧
      stack.refusal fault tag =
        .includeFailed (Walk.includePath stack.file text).text (fault (Walk.includePath stack.file text)) := by
  simp only [target?, refusal, source, Option.bind_eq_bind, Option.bind_some, fixed]
  exact ⟨if_neg free, if_neg free⟩

end Target

-- The nodes of a file in the place of the tag that includes it.
theorem Agrees.included {allowed : Tag → Prop} {options : Options} {fault : Path → Fault} {compiler : Compiler}
    {expander : Outline.Expander} {nodes : List Node} (agrees : NodesAgree allowed options fault compiler expander nodes)
    (only : Node.AllOnly allowed nodes) (path : Path)
    (ready : Ready ⟨parent, place.owner, e.id, stop⟩ [.node e.id e.item children] s)
    (outer : ∀ id : Nat, place.inside = some id → id < e.id) :
    let shift := Outline.nextShift s.document.maxIdentity
    let found := expander (s.stack.push path) shift (Node.largestOf shift s.document.maxIdentity nodes) nodes
    Agrees place.inside
      (Walk.ensuring (compiler place sink (placeAll shift s.document.size nodes)) fun after =>
        { after with file := s.file, including := s.including })
      (Draft.outlines options fault (s.stack.push path) place.owner.isSome sink found.1)
      (s.included path shift nodes e.id)
      (Finishes ⟨parent, place.owner, e.id, stop⟩ place.inside [.node e.id e.item children] (Outline.flatten found.1)
        found.2 s) := by
  intro shift found
  have old : e.id < s.document.size := cell?_lt ready.holds.1.1
  have inner := agrees only place sink shift s.document.size parent (s.included path shift nodes e.id)
    (ready.included path shift nodes) fun id same => Nat.lt_trans (outer id same) old
  have taken : (s.included path shift nodes e.id).document.maxIdentity =
      Node.largestOf shift s.document.maxIdentity nodes := s.document.maxIdentity_inlining shift nodes e.id
  rw [taken] at inner
  refine inner.ensuring (fun _ => rfl) ?_
  rintro code lines t ⟨written, walked, kept, taken⟩
  exact ⟨rfl, written, ready.walked_included path shift nodes walked, kept.mono (Nat.le_of_lt old), taken⟩

theorem Agrees.including {allowed : Tag → Prop} {reach : Path → Option (Template × Outline.Expander)} {shift : Nat}
    {identity : UInt32} {nodes : List Node}
    (reaches : ∀ path, ReachAgrees allowed env.options env.fault (env.reach path) (reach path))
    (ready : Ready ⟨parent, place.owner, e.id, stop⟩ [.node e.id e.item children] s)
    (named : TagKind.ofName? e.tag.name = some .including) (same : e.identity = shifted shift identity)
    (outer : ∀ id : Nat, place.inside = some id → id < e.id) :
    let found := Outline.expand reach s.stack shift s.document.maxIdentity (.tag identity e.tag nodes e.location)
    Agrees place.inside (Walk.including env place sink e)
      (Draft.outline env.options env.fault s.stack place.owner.isSome sink found.1) s
      (Finishes ⟨parent, place.owner, e.id, stop⟩ place.inside [.node e.id e.item children] (Outline.flat found.1)
        found.2 s) := by
  intro found
  have item : (⟨shifted shift identity, .tag e.tag, e.location⟩ : Item) = e.item := by rw [← same]; rfl
  simp only [found, Outline.expand, named, if_true, item, Walk.including, Element.require, Element.param?]
  cases source : Attr.param? e.tag.attrs "from" with
  | none =>
    have target : s.stack.target? e.tag = none := by simp [Stack.target?, source]
    simp only [target, Option.bind_none]
    exact Agrees.refused named (by simp [Stack.refusal, source])
  | some part =>
    refine Agrees.step (t := s) rfl rfl ?_
    cases fixed : part.fixed? with
    | none =>
      have target : s.stack.target? e.tag = none := by simp [Stack.target?, source, fixed]
      simp only [target, Option.bind_none]
      exact Agrees.refused named (by simp [Stack.refusal, source, fixed])
    | some text =>
      refine Agrees.step (t := s) rfl rfl ?_
      by_cases cycle : Walk.includePath s.file text ∈ s.file :: s.including
      · obtain ⟨target, refusal⟩ : s.stack.target? e.tag = none ∧ s.stack.refusal env.fault e.tag = _ :=
          Stack.target?_cycle source fixed cycle env.fault
        simp only [target, Option.bind_none, cycle, if_true, Element.fail, Walk.fail_bind]
        exact Agrees.refused named refusal
      · obtain ⟨target, refusal⟩ : s.stack.target? e.tag = some (Walk.includePath s.file text) ∧
            s.stack.refusal env.fault e.tag = _ := Stack.target?_free source fixed cycle env.fault
        simp only [target, Option.bind_some, cycle, if_false]
        have agrees := reaches (Walk.includePath s.file text)
        revert agrees
        generalize env.reach (Walk.includePath s.file text) = compiled
        generalize reach (Walk.includePath s.file text) = expanded
        rintro (_ | ⟨only, _, agrees⟩)
        · exact Agrees.refused named refusal
        · exact Agrees.step (t := s.included _ _ _ e.id) rfl rfl (Agrees.included (agrees _) only _ ready outer)

end Tags

section Nodes

variable {allowed : Tag → Prop} {watch : Element → Place → Walk Unit} {env : Env}
  {reach : Path → Option (Template × Outline.Expander)}

theorem ReachAgrees.keeps (reaches : ∀ path, ReachAgrees allowed env.options env.fault (env.reach path) (reach path))
    (path : Path) (template : Template) (expander : Outline.Expander) (found : reach path = some (template, expander)) :
    Node.AllOnly allowed template.nodes ∧ Outline.Keeps allowed expander := by
  have agrees := reaches path
  rw [found] at agrees
  generalize env.reach path = compiled at agrees
  cases agrees with
  | found only keeps _ => exact ⟨only, keeps⟩

-- The children of a tag, with the watch behind them.
theorem BelowAgrees.watched {s : Session} {e : Element} {stop known : Nat} {children : List Tree} {flat : List Sketch}
    {body : Place → Nat → Walk Code} {draft : Bool → Nat → Draft (List Line)} (silent : Silent allowed watch)
    (only : Sketch.AllOnly allowed flat) (below : BelowAgrees s e stop children flat known body draft) :
    BelowAgrees s e stop children flat known
      (fun place sink => do
        let code ← body place sink
        watch e place
        return code) draft := by
  intro place sink t ready opened stack taken outer
  rw [← bind_pure (draft place.owner.isSome sink)]
  refine (below place sink t ready opened stack taken outer).bind ?_
  intro code lines u finishes
  have quiet := silent e place u (opened.reflected finishes.walked only)
  exact Agrees.step (t := u) quiet rfl (.pure finishes)

mutual

theorem watchedTree_agrees (silent : Silent allowed watch)
    (reaches : ∀ path, ReachAgrees allowed env.options env.fault (env.reach path) (reach path)) :
    ∀ (node : Node), node.Only allowed → ∀ (place : Place) (sink shift start : Nat) (parent : Option Nat) (s : Session),
      Ready ⟨parent, place.owner, start, start + node.size⟩ [Tree.place shift start node] s →
      (∀ id : Nat, place.inside = some id → id < start) →
      Agrees place.inside (Walk.watchedTree watch env place sink (Tree.place shift start node))
        (Draft.outline env.options env.fault s.stack place.owner.isSome sink
          (Outline.expand reach s.stack shift s.document.maxIdentity node).1) s
        (Finishes ⟨parent, place.owner, start, start + node.size⟩ place.inside [Tree.place shift start node]
          (Outline.flat (Outline.expand reach s.stack shift s.document.maxIdentity node).1)
          (Outline.expand reach s.stack shift s.document.maxIdentity node).2 s)
  | .leaf identity leaf location, _, place, sink, shift, start, parent, s, ready, outer =>
    Agrees.leaf leaf ready rfl outer
  | .tag identity tag children location, only, place, sink, shift, start, parent, s, ready, outer => by
    let e : Element := ⟨start, shifted shift identity, tag, location⟩
    by_cases named : TagKind.ofName? tag.name = some .including
    · refine Agrees.step (t := s) rfl rfl ?_
      simp only [TagKind.classify, named]
      exact Agrees.including (e := e) reaches ready named rfl outer
    · simp only [Outline.expand, named, if_false]
      have stops : start + (Node.tag identity tag children location).size = start + 1 + Node.totalSize children := by
        simp only [Node.size]
        omega
      rw [stops] at ready ⊢
      simp only [Tree.place, Walk.watchedTree]
      cases entered : tag.isEntered with
      | true =>
        simp only [if_true, Draft.outline, Outline.flat]
        refine Agrees.tag (e := e) ready named (fun _ => ?_) (fun left => absurd (entered.symm.trans left) nofun) outer
        have kept := Outline.only_expandAll (ReachAgrees.keeps reaches) s.stack shift s.document.maxIdentity children
          only.2
        refine BelowAgrees.watched silent kept ?_
        intro inner accumulator t inside _ stack taken around
        have agrees := watchedTrees_agree silent reaches children only.2 inner accumulator shift (start + 1) (some start) t
          inside around
        rwa [stack, taken] at agrees
      | false =>
        have same := Outline.flatten_ofNodes shift children
        rw [← sketches_placeAll shift (start + 1)] at same
        simp only [Bool.false_eq_true, if_false, Draft.outline, Outline.flat]
        exact Agrees.tag (e := e) ready named (fun left => absurd (entered.symm.trans left) nofun) (fun _ => ⟨same, rfl⟩) outer

theorem watchedTrees_agree (silent : Silent allowed watch)
    (reaches : ∀ path, ReachAgrees allowed env.options env.fault (env.reach path) (reach path)) :
    ∀ (nodes : List Node),
      NodesAgree allowed env.options env.fault (Walk.watchedTrees watch env) (Outline.expandAll reach) nodes
  | [], _, place, sink, shift, start, parent, s, ready, outer => .pure ⟨rfl, ready.nothing, fun _ _ _ => rfl, rfl⟩
  | first :: rest, only, place, sink, shift, start, parent, s, ready, outer => by
    have stops : start + Node.totalSize (first :: rest) = start + first.size + Node.totalSize rest := by
      simp only [Node.totalSize]
      omega
    rw [stops] at ready ⊢
    have order : start ≤ start + first.size := Nat.le_add_right _ _
    have inside : start + first.size ≤ start + first.size + Node.totalSize rest := Nat.le_add_right _ _
    refine (watchedTree_agrees silent reaches first only.1 place sink shift start parent s
      (ready.first inside (within_place shift start first)) outer).bind ?_
    rintro _ lines t ⟨rfl, walked, kept, taken⟩
    have stack : t.stack = s.stack := by simp only [Session.stack, walked.file, walked.including]
    have behind := ready.behind order inside (within_placeAll shift _ rest) (allRise_placeAll shift _ rest) walked.toMoved
    have agrees := watchedTrees_agree silent reaches rest only.2 place sink shift (start + first.size) parent t behind
      fun id same => Nat.lt_of_lt_of_le (outer id same) order
    rw [stack, taken] at agrees
    refine agrees.bind ?_
    rintro _ more u ⟨rfl, walked', kept', taken'⟩
    exact .pure ⟨by simp, walked.append ready order inside walked', kept.trans (kept'.mono order), taken'⟩

end

-- Each include takes its template away, so the readings agree for any number of templates at hand.
theorem watchedNodes_agree (silent : Silent allowed watch) (options : Options) (fault : Path → Fault) :
    ∀ (left : Nat) {templates : List (Path × Template)}, (∀ entry ∈ templates, Node.AllOnly allowed entry.2.nodes) →
      ∀ (nodes : List Node), NodesAgree allowed options fault (Walk.watchedNodes watch options fault left templates)
        (Outline.expander left templates) nodes
  | 0, _, _, nodes => by
    refine watchedTrees_agree silent (fun _ => ?_) nodes
    exact .nowhere
  | left + 1, templates, only, nodes => by
    refine watchedTrees_agree silent (fun path => ?_) nodes
    simp only
    cases found : templates.lookup path with
    | none => exact .nowhere
    | some template =>
      have others : ∀ entry ∈ templates.filter fun entry => entry.1 ≠ path, Node.AllOnly allowed entry.2.nodes :=
        fun entry later => only entry (List.mem_filter.mp later).1
      exact .found (only _ (entry_of_lookup found)) (Outline.keeps_expander left others)
        (watchedNodes_agree silent options fault left others)

end Nodes

namespace Template

variable (template : Template) (options : Options) (loader : Loader) (shared : Names)

def session : Session :=
  { Session.start options shared with
    document := (Document.empty.importPage template.nodes none).2 }

theorem ready_session : Ready ⟨none, none, 0, 0 + Node.totalSize template.nodes⟩ (placeAll 0 0 template.nodes)
    (template.session options shared) where
  bounded := Nat.le_of_eq (size_importShifted Document.empty 0 template.nodes none).symm
  holds := holds_importShifted Document.empty 0 template.nodes none
  within := within_placeAll 0 0 template.nodes
  rises := allRise_placeAll 0 0 template.nodes
  listed := nofun
  unlinked _ _ := rfl
  uncursored _ _ := rfl
  owned := nofun
  cursor := nofun

section Watched

variable {allowed : Tag → Prop} {watch : Element → Place → Walk Unit} (silent : Silent allowed watch)
  (own : Node.AllOnly allowed template.nodes) (others : ∀ entry ∈ loader.templates, Node.AllOnly allowed entry.2.nodes)
include silent own others

-- The walk over a whole template writes what its draft says.
theorem watched_agrees : Agrees none
    (Walk.watchedNodes watch options loader.fault loader.templates.length loader.templates .outermost Output.rootSink
      (placeAll 0 0 template.nodes))
    (Draft.outlines options loader.fault ⟨(Path.ofText options.filePath).normalize, []⟩ false Output.rootSink
      (template.outlines options loader))
    (template.session options shared) fun code lines _ => code = Line.codes lines := by
  have taken : (template.session options shared).document.maxIdentity = Node.largestOf 0 0 template.nodes :=
    maxIdentity_importShifted Document.empty 0 template.nodes none
  have agrees := watchedNodes_agree silent options loader.fault loader.templates.length others template.nodes own .outermost
    Output.rootSink 0 0 none _ (template.ready_session options shared) nofun
  rw [taken] at agrees
  exact agrees.mono fun _ _ _ finishes => finishes.written

theorem compileWatched_eq_draft : template.compileWatched watch options loader shared =
    ((template.draft options loader shared).1.map fun lines =>
        Output.opening ++ (Line.codes lines).render (template.draft options loader shared).2.scope ++ Output.closing,
      (template.draft options loader shared).2.shared) := by
  have agrees := template.watched_agrees options loader shared silent own others
  have drafted : template.draft options loader shared = (Draft.outlines options loader.fault
      ⟨(Path.ofText options.filePath).normalize, []⟩ false Output.rootSink (template.outlines options loader)).run.run
      ((template.session options shared).ledger none) := rfl
  have walked : template.walkWatched watch options loader shared = (Walk.watchedNodes watch options loader.fault
      loader.templates.length loader.templates .outermost Output.rootSink (placeAll 0 0 template.nodes)).run.run
      (template.session options shared) := rfl
  rw [compileWatched, walked, drafted]
  unfold Agrees at agrees
  revert agrees
  generalize (Walk.watchedNodes watch options loader.fault loader.templates.length loader.templates .outermost
    Output.rootSink (placeAll 0 0 template.nodes)).run.run (template.session options shared) = walk
  generalize (Draft.outlines options loader.fault ⟨(Path.ofText options.filePath).normalize, []⟩ false Output.rootSink
    (template.outlines options loader)).run.run ((template.session options shared).ledger none) = draft
  rcases walk with ⟨_ | _, _⟩ <;> rcases draft with ⟨_ | _, _⟩
  · rintro ⟨rfl, same⟩
    exact congrArg _ same
  · exact False.elim
  · exact False.elim
  · rintro ⟨rfl, rfl⟩
    rfl

end Watched

-- What a template compiles to is its draft, written out in the scope that the draft ends with.
theorem compile_eq_draft : template.compile options loader shared =
    ((template.draft options loader shared).1.map fun lines =>
        Output.opening ++ (Line.codes lines).render (template.draft options loader shared).2.scope ++ Output.closing,
      (template.draft options loader shared).2.shared) := by
  rw [← compileWatched_idle]
  have silent : Silent (fun _ => True) Walk.idle := fun _ _ _ _ => rfl
  exact template.compileWatched_eq_draft options loader shared silent (Node.allOnly_of_all (fun _ => trivial) _)
    fun _ _ => Node.allOnly_of_all (fun _ => trivial) _

end Template

end Stencil
