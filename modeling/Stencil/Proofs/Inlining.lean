import Stencil.Proofs.Follows
import Stencil.Proofs.Refinement

-- An include is inlining by hand. A template that takes in other files compiles as the template in which their
-- nodes stand where the includes stood.

namespace Stencil

def CompileError.finding (e : CompileError) : ErrorKind × String × Location :=
  (e.cause.kind, e.cause.message, e.location)

mutual

-- What an outline may become when its nodes are put in a template of their own and the includes left in that
-- template are resolved anew: the nodes of a file stand by themselves, and an include that stayed may turn into
-- anything.
inductive Inlined : Outline → List Outline → Prop where
  | leaf (identity : Nat) (leaf : Leaf) (location : Location) :
    Inlined (.node ⟨identity, .leaf leaf, location⟩ []) [.node ⟨identity, .leaf leaf, location⟩ []]
  | passed (identity : Nat) {tag : Tag} (location : Location) (below : List Outline) :
    TagKind.ofName? tag.name ≠ some .including → tag.isEntered = false →
    Inlined (.node ⟨identity, .tag tag, location⟩ below) [.node ⟨identity, .tag tag, location⟩ below]
  | entered (identity : Nat) {tag : Tag} (location : Location) {below below' : List Outline} :
    tag.isEntered = true → AllInlined below below' →
    Inlined (.node ⟨identity, .tag tag, location⟩ below) [.node ⟨identity, .tag tag, location⟩ below']
  | refused (identity : Nat) {tag : Tag} (location : Location) (below : List Outline) (other : Outline) :
    TagKind.ofName? tag.name = some .including → Inlined (.node ⟨identity, .tag tag, location⟩ below) [other]
  | file (path : Path) {nodes nodes' : List Outline} : AllInlined nodes nodes' → Inlined (.file path nodes) nodes'

inductive AllInlined : List Outline → List Outline → Prop where
  | nil : AllInlined [] []
  | cons {first : Outline} {rest firsts rests : List Outline} : Inlined first firsts → AllInlined rest rests →
    AllInlined (first :: rest) (firsts ++ rests)

end

section Drafts

variable {options : Options} {fault : Path → Fault}

theorem Draft.outlines_append (stack : Stack) (isOwned : Bool) (sink : Nat) (front back : List Outline) :
    Draft.outlines options fault stack isOwned sink (front ++ back) = (do
      let lines ← Draft.outlines options fault stack isOwned sink front
      return lines ++ (← Draft.outlines options fault stack isOwned sink back)) := by
  induction front with
  | nil => simp [Draft.outlines]
  | cons first rest ih => simp only [List.cons_append, Draft.outlines, ih, bind_assoc, pure_bind, List.append_assoc]

theorem Draft.outlines_singleton (stack : Stack) (isOwned : Bool) (sink : Nat) (outline : Outline) :
    Draft.outlines options fault stack isOwned sink [outline] = Draft.outline options fault stack isOwned sink outline := by
  simp [Draft.outlines]

theorem Outline.flatten_append (front back : List Outline) : flatten (front ++ back) = flatten front ++ flatten back := by
  induction front with
  | nil => rfl
  | cons first rest ih => simp [flatten, ih]

theorem Stack.isInclude_refusal (stack : Stack) {tag : Tag} (named : TagKind.ofName? tag.name = some .including) :
    (stack.refusal fault tag).isInclude = true := by
  unfold refusal
  split
  · simpa [Cause.isInclude] using named
  · split
    · rfl
    · dsimp only
      split <;> rfl

theorem Draft.tag_including {stack : Stack} {isOwned : Bool} {sink : Nat} {h : Header} {below : List Sketch}
    {body : Bool → Nat → Draft (List Line)} (named : TagKind.ofName? h.tag.name = some .including) :
    Draft.tag options fault stack isOwned sink h below body =
      Draft.fail stack.file (stack.refusal fault h.tag) h.location := by
  simp only [Draft.tag, TagKind.classify, named]
  rfl

theorem Follows.tag {stack stack' : Stack} {isOwned : Bool} {sink : Nat} {h : Header} {below below' : List Sketch}
    {body body' : Bool → Nat → Draft (List Line)}
    (follows : h.tag.isEntered = true →
      ∀ isOwned sink, Follows (below = below') (body isOwned sink) (body' isOwned sink))
    (passed : h.tag.isEntered = false → below = below') :
    Follows (below = below') (Draft.tag options fault stack isOwned sink h below body)
      (Draft.tag options fault stack' isOwned sink h below' body') := by
  refine (Follows.refl _).bind fun _ l => ?_
  simp only [TagKind.classify]
  cases kind : TagKind.ofName? h.tag.name with
  | none =>
    have entered : h.tag.selfClosing = false →
        ∀ isOwned sink, Follows (below = below') (body isOwned sink) (body' isOwned sink) :=
      fun single => follows (by simp [Tag.isEntered, kind, single])
    have closed : h.tag.selfClosing = true → below = below' :=
      fun single => passed (by simp [Tag.isEntered, kind, single])
    by_cases component : l.registry.contains l.shared h.tag.name = true
    · simp only [component, if_true]
      exact .component options sink h (fun single => entered single true h.identity) closed (congrArg _)
    · simp only [component, Bool.false_eq_true, if_false]
      exact .literal options sink h (fun single => entered single true h.identity) closed (congrArg _)
  | some found =>
    cases found with
    | parameter => exact (Follows.parameter h).mono fun _ => passed (by simp [Tag.isEntered, kind])
    | assignment => exact (Follows.assignment h).mono fun _ => passed (by simp [Tag.isEntered, kind])
    | importing => exact (Follows.importing options h).mono fun _ => passed (by simp [Tag.isEntered, kind])
    | state => exact (Follows.useState h).mono fun _ => passed (by simp [Tag.isEntered, kind])
    | including => exact .refused (stack.isInclude_refusal kind) _
    | attr flow =>
      cases flow with
      | content => exact (Follows.ownerAttribute isOwned h).mono fun _ => passed (by simp [Tag.isEntered, kind])
      | applied => exact (Follows.strayAttribute h).mono fun _ => passed (by simp [Tag.isEntered, kind])
    | control control flow =>
      exact .control control h (follows (by simp [Tag.isEntered, kind]) isOwned sink) (congrArg _)
    | template => exact .template h (follows (by simp [Tag.isEntered, kind]) false h.identity)
    | component => exact absurd rfl (TagKind.ofName?_own kind).1
    | literal => exact absurd rfl (TagKind.ofName?_own kind).2

mutual

theorem Inlined.follows : ∀ {outline : Outline} {outlines : List Outline}, Inlined outline outlines →
    ∀ (stack stack' : Stack) (isOwned : Bool) (sink : Nat),
      Follows (Outline.flat outline = Outline.flatten outlines) (Draft.outline options fault stack isOwned sink outline)
        (Draft.outlines options fault stack' isOwned sink outlines)
  | _, _, .leaf identity leaf location, stack, stack', isOwned, sink => by
    rw [Draft.outlines_singleton]
    exact (Follows.leaf sink identity location leaf).mono fun _ => rfl
  | _, _, .passed identity location below named passed, stack, stack', isOwned, sink => by
    rw [Draft.outlines_singleton, Draft.outline, Draft.outline]
    exact (Follows.tag (fun entered => Bool.noConfusion (passed.symm.trans entered)) fun _ => rfl).mono fun _ => rfl
  | _, _, .entered identity location entered inlined, stack, stack', isOwned, sink => by
    rw [Draft.outlines_singleton, Draft.outline, Draft.outline]
    refine (Follows.tag (fun _ => inlined.follows stack stack')
      fun passed => Bool.noConfusion (passed.symm.trans entered)).mono fun same => ?_
    simp [Outline.flatten, Outline.flat, same]
  | _, _, .refused identity location below other named, stack, stack', isOwned, sink => by
    rw [Draft.outline, Draft.tag_including named]
    exact .refused (stack.isInclude_refusal named) _
  | _, _, .file path inlined, stack, stack', isOwned, sink => AllInlined.follows inlined (stack.push path) stack' isOwned sink

theorem AllInlined.follows : ∀ {outlines outlines' : List Outline}, AllInlined outlines outlines' →
    ∀ (stack stack' : Stack) (isOwned : Bool) (sink : Nat),
      Follows (Outline.flatten outlines = Outline.flatten outlines')
        (Draft.outlines options fault stack isOwned sink outlines)
        (Draft.outlines options fault stack' isOwned sink outlines')
  | _, _, .nil, _, _, _, _ => .pure _ rfl
  | _, _, .cons first rest, stack, stack', isOwned, sink => by
    rw [Draft.outlines_append]
    refine (first.follows stack stack' isOwned sink).bind fun same _ => ?_
    refine (rest.follows stack stack' isOwned sink).bind fun same' _ => .pure _ ?_
    rw [Outline.flatten_append, ← same, ← same']
    rfl

end

end Drafts

section Expansion

-- An identity that was shifted is kept when its node is put in a template.
theorem shifted_ofNat (shift : Nat) (identity : UInt32) :
    shifted 0 (UInt32.ofNat (shifted shift identity)) = shifted shift identity := by
  have bounded : shifted shift identity ≤ identityLimit := Nat.min_le_right _ _
  have small : shifted shift identity < UInt32.size := Nat.lt_of_le_of_lt bounded (by decide)
  rw [shifted, UInt32.toNat_ofNat_of_lt' small, Nat.add_zero, Nat.min_eq_left bounded]

theorem Sketch.plains_append (front back : List Sketch) : plains (front ++ back) = plains front ++ plains back := by
  induction front with
  | nil => rfl
  | cons first rest ih => simp [plains, ih]

namespace Outline

mutual

theorem ofNode_plain (shift : Nat) : ∀ node : Node, ofNode 0 (Sketch.plain (Sketch.ofNode shift node)) = ofNode shift node
  | .tag identity tag children location => by
    simp [Sketch.ofNode, Sketch.plain, ofNode, shifted_ofNat, ofNodes_plains shift children]
  | .leaf identity leaf location => by simp [Sketch.ofNode, Sketch.plain, ofNode, shifted_ofNat]

theorem ofNodes_plains (shift : Nat) : ∀ nodes : List Node,
    ofNodes 0 (Sketch.plains (Sketch.ofNodes shift nodes)) = ofNodes shift nodes
  | [] => rfl
  | first :: rest => by
    simp [Sketch.ofNodes, Sketch.plains, ofNodes, ofNode_plain shift first, ofNodes_plains shift rest]

end

variable {reach reach' : Path → Option (Template × Expander)}

theorem expandAll_append (stack : Stack) (shift known : Nat) (front back : List Node) :
    expandAll reach stack shift known (front ++ back) =
      ((expandAll reach stack shift known front).1 ++
        (expandAll reach stack shift (expandAll reach stack shift known front).2 back).1,
        (expandAll reach stack shift (expandAll reach stack shift known front).2 back).2) := by
  induction front generalizing known with
  | nil => rfl
  | cons first rest ih => simp [expandAll, ih]

-- However the nodes of an outline are expanded once more, they look as inlined.
def Settles (expander : Expander) : Prop :=
  ∀ (reach : Path → Option (Template × Expander)) (stack stack' : Stack) (shift known known' : Nat) (nodes : List Node),
    AllInlined (expander stack shift known nodes).1
      (expandAll reach stack' 0 known' (Sketch.plains (flatten (expander stack shift known nodes).1))).1

mutual

theorem inlined_expand (settles : ∀ path template expander, reach path = some (template, expander) → Settles expander)
    (stack stack' : Stack) : ∀ (shift known known' : Nat) (node : Node),
      Inlined (expand reach stack shift known node).1
        (expandAll reach' stack' 0 known' (Sketch.plains (flat (expand reach stack shift known node).1))).1
  | shift, known, known', .leaf identity leaf location => by
    simp only [expand, flat, flatten, Sketch.plains, Sketch.plain, expandAll, shifted_ofNat]
    exact .leaf _ leaf location
  | shift, known, known', .tag identity tag children location => by
    by_cases named : TagKind.ofName? tag.name = some .including
    · simp only [expand, named, if_true]
      split
      · rename_i path template expander found
        obtain ⟨_, _, mapped⟩ := Option.bind_eq_some_iff.mp found
        obtain ⟨_, reached, same⟩ := Option.map_eq_some_iff.mp mapped
        cases same
        exact .file path (settles path template expander reached reach' _ stack' _ _ known' template.nodes)
      · simp only [flat, Sketch.plains, expandAll]
        exact .refused _ location _ _ named
    · simp only [expand, named, if_false]
      cases entered : tag.isEntered with
      | true =>
        simp only [if_true, flat, Sketch.plains, Sketch.plain, expandAll, expand, named, if_false, entered, shifted_ofNat]
        exact .entered _ location entered (inlined_expandAll settles stack stack' shift known known' children)
      | false =>
        simp only [Bool.false_eq_true, if_false, flat, Sketch.plains, Sketch.plain, expandAll, expand, named, entered,
          shifted_ofNat, flatten_ofNodes, ofNodes_plains]
        exact .passed _ location _ named entered

theorem inlined_expandAll (settles : ∀ path template expander, reach path = some (template, expander) → Settles expander)
    (stack stack' : Stack) : ∀ (shift known known' : Nat) (nodes : List Node),
      AllInlined (expandAll reach stack shift known nodes).1
        (expandAll reach' stack' 0 known' (Sketch.plains (flatten (expandAll reach stack shift known nodes).1))).1
  | _, _, _, [] => .nil
  | shift, known, known', first :: rest => by
    simp only [expandAll, flatten, Sketch.plains_append, expandAll_append]
    exact .cons (inlined_expand settles stack stack' shift known known' first)
      (inlined_expandAll settles stack stack' shift _ _ rest)

end

theorem settles_expander : ∀ (left : Nat) (templates : List (Path × Template)), Settles (expander left templates)
  | 0, _, _, stack, stack', shift, known, known', nodes => by
    refine inlined_expandAll (fun _ _ _ reached => ?_) stack stack' shift known known' nodes
    cases reached
  | left + 1, templates, _, stack, stack', shift, known, known', nodes => by
    refine inlined_expandAll (fun path template found reached => ?_) stack stack' shift known known' nodes
    obtain ⟨_, _, same⟩ := Option.map_eq_some_iff.mp reached
    cases same
    exact settles_expander left _

end Outline

end Expansion

namespace Template

variable (template : Template) (options : Options) (loader : Loader) (shared : Names)

theorem outlines_inlined :
    AllInlined (template.outlines options loader) ((template.inlined options loader).outlines options loader) := by
  have settles := Outline.settles_expander loader.templates.length loader.templates
  have expands : ∃ reach, Outline.expander loader.templates.length loader.templates = Outline.expandAll reach := by
    cases loader.templates.length with
    | zero => exact ⟨_, rfl⟩
    | succ left => exact ⟨_, rfl⟩
  obtain ⟨reach, same⟩ := expands
  have inlined := settles reach ⟨(Path.ofText options.filePath).normalize, []⟩ ⟨(Path.ofText options.filePath).normalize, []⟩
    0 (Node.largestOf 0 0 template.nodes) (Node.largestOf 0 0 (template.inlined options loader).nodes) template.nodes
  rw [← same] at inlined
  exact inlined

theorem draft_inlined : Follows True
    (Draft.outlines options loader.fault ⟨(Path.ofText options.filePath).normalize, []⟩ false Output.rootSink
      (template.outlines options loader))
    (Draft.outlines options loader.fault ⟨(Path.ofText options.filePath).normalize, []⟩ false Output.rootSink
      ((template.inlined options loader).outlines options loader)) :=
  ((template.outlines_inlined options loader).follows _ _ false Output.rootSink).mono fun _ => trivial

-- Unless an include that the walk comes to has no fixed path or does not load, a template compiles to the same code
-- as with the included nodes written in place; if it fails, both fail with the same finding.
theorem compile_inlined
    (resolved : ∀ e, (template.compile options loader shared).1 = .error e → e.cause.isInclude = false) :
    ((template.inlined options loader).compile options loader shared).1.mapError CompileError.finding =
        (template.compile options loader shared).1.mapError CompileError.finding ∧
      ((template.inlined options loader).compile options loader shared).2 = (template.compile options loader shared).2 := by
  have kept : ∀ e, (template.draft options loader shared).1 = .error e → e.cause.isInclude = false := by
    intro e failed
    refine resolved e ?_
    rw [compile_eq_draft, failed]
    rfl
  rw [compile_eq_draft, compile_eq_draft]
  rcases (template.draft_inlined options loader).outcome kept with
    ⟨lines, l, first, second⟩ | ⟨e, e', l, l', first, second, cause, location, names⟩
  · have first : template.draft options loader shared = (.ok lines, l) := first
    have second : (template.inlined options loader).draft options loader shared = (.ok lines, l) := second
    rw [first, second]
    exact ⟨rfl, rfl⟩
  · have first : template.draft options loader shared = (.error e, l) := first
    have second : (template.inlined options loader).draft options loader shared = (.error e', l') := second
    rw [first, second]
    refine ⟨?_, names.symm⟩
    have same : e'.finding = e.finding := by simp only [CompileError.finding, cause, location]
    exact congrArg Except.error same

-- A page with a part that holds an attribute for the page's tag and takes in a part of its own.
def nestedIncludes : Template :=
  ⟨[.tag 1 ⟨"div", [], false⟩
    [.tag 2 ⟨"include", [⟨.literal "from", some (.literal "parts/head.json"), .zero⟩], true⟩ [] .zero] .zero]⟩

def nestedParts : Loader where
  templates :=
    [(Path.ofText "parts/head.json",
      ⟨[.tag 1 ⟨"if", [⟨.literal "test", some (.expression (.var "open" [])), .zero⟩], false⟩
        [.tag 2 ⟨"attribute", [⟨.literal "name", some (.literal "class"), .zero⟩,
          ⟨.literal "value", some (.literal "wide"), .zero⟩], true⟩ [] .zero] .zero,
        .tag 3 ⟨"include", [⟨.literal "from", some (.literal "note.json"), .zero⟩], true⟩ [] .zero]⟩),
    (Path.ofText "parts/note.json", ⟨[.leaf 1 (.text "note") .zero]⟩)]
  fault path := .unreadable path.text

theorem isOk_nestedIncludes : (nestedIncludes.compile .standard nestedParts []).1.isOk = true := by decide +kernel

theorem compile_inlined_nestedIncludes : (nestedIncludes.compile .standard nestedParts []).1.isOk = true ∧
    ((nestedIncludes.inlined .standard nestedParts).compile .standard nestedParts []).1.mapError CompileError.finding =
        (nestedIncludes.compile .standard nestedParts []).1.mapError CompileError.finding ∧
      ((nestedIncludes.inlined .standard nestedParts).compile .standard nestedParts []).2 = (nestedIncludes.compile .standard nestedParts []).2 := by
  refine ⟨isOk_nestedIncludes, nestedIncludes.compile_inlined .standard nestedParts [] fun e failed => ?_⟩
  have compiled := isOk_nestedIncludes
  rw [failed] at compiled
  cases compiled

end Template

end Stencil
