import Mathlib.Data.List.Forall2
import Stencil.Proofs.Accumulator
import Stencil.Proofs.Storage

-- Attribute blocks: the lines that make the list of a tag's attributes. Control flow around plain content leaves its
-- own frame in the block of the tag around it as soon as it holds more control flow, or is a case.

namespace Stencil

namespace Line

-- Control flow by itself.
def isFlow : Line → Bool
  | .openIf _ => true
  | .openLoop _ _ => true
  | .elseIf _ => true
  | .otherwise => true
  | .close => true
  | _ => false

def isAssignment : Line → Bool
  | .assignAttr _ _ _ => true
  | _ => false

-- Whether an attribute block begins with a line, and whether it goes on with it.

def begins : Line → Bool
  | .resetAttrs _ => true
  | _ => false

def continues (line : Line) : Bool := line.isFlow || line.isAssignment

-- The attribute blocks of some lines.
def attrBlocks : List Line → List (List Line)
  | [] => []
  | .resetAttrs attrsOf :: rest => (.resetAttrs attrsOf :: rest.takeWhile continues) :: attrBlocks rest
  | _ :: rest => attrBlocks rest

theorem begins_of_continues {line : Line} (more : line.continues = true) : line.begins = false := by
  cases line with
  | resetAttrs attrsOf => cases more
  | _ => rfl

theorem begins_of_reset? {line : Line} (plain : line.reset? = none) : line.begins = false := by
  cases line with
  | resetAttrs attrsOf => cases plain
  | _ => rfl

theorem attrBlocks_cons {line : Line} (other : line.begins = false) (rest : List Line) :
    attrBlocks (line :: rest) = attrBlocks rest := by
  cases line with
  | resetAttrs attrsOf => cases other
  | _ => rfl

theorem attrBlocks_append {front : List Line} (other : ∀ line ∈ front, line.begins = false) (rest : List Line) :
    attrBlocks (front ++ rest) = attrBlocks rest := by
  induction front with
  | nil => rfl
  | cons line lines ih =>
    rw [List.cons_append, attrBlocks_cons (other line List.mem_cons_self)]
    exact ih fun later member => other later (List.mem_cons_of_mem _ member)

-- A block ends where it does not go on.
theorem attrBlocks_block {attrsOf : Nat} {body rest : List Line} {stop : Line}
    (more : ∀ line ∈ body, line.continues = true) (stops : stop.continues = false) (other : stop.begins = false) :
    attrBlocks (.resetAttrs attrsOf :: body ++ stop :: rest) = (.resetAttrs attrsOf :: body) :: attrBlocks rest := by
  have taken : (body ++ stop :: rest).takeWhile continues = body := by
    rw [List.takeWhile_append_of_pos more, List.takeWhile_cons_of_neg (by simp [stops]), List.append_nil]
  have behind : attrBlocks (body ++ stop :: rest) = attrBlocks rest := by
    rw [attrBlocks_append fun line member => begins_of_continues (more line member), attrBlocks_cons other]
  rw [List.cons_append, attrBlocks, taken, behind]

end Line

namespace Sketch

mutual

-- Whether control flow alone leads from a node to an attribute.
def reachesAttr : Sketch → Bool
  | .node ⟨_, .tag tag, _⟩ below =>
    match TagKind.ofName? tag.name with
    | some (.attr _) => true
    | some (.control _ _) => anyReachesAttr below
    | _ => false
  | .node ⟨_, .leaf _, _⟩ _ => false

def anyReachesAttr : List Sketch → Bool
  | [] => false
  | first :: rest => first.reachesAttr || anyReachesAttr rest

end

def isCase : Sketch → Bool
  | .node ⟨_, .tag tag, _⟩ _ => TagKind.ofName? tag.name = some (.control .case .applied)
  | .node ⟨_, .leaf _, _⟩ _ => false

end Sketch

namespace Tag

-- The lines that control flow puts in front of what stands inside of it.
def leading (tag : Tag) (isChained isChildless : Bool) : Control → List Line
  | .switch => []
  | .case =>
    let test := (tag.operand? .condition "test").getD .flag
    [if isChained then .elseIf test else .openIf test]
  | .default => if isChained then [.otherwise] else []
  | kind => if isChildless then [] else (tag.opening? kind).toList

def trailing (isChildless hasCase : Bool) : Control → List Line
  | .switch => if hasCase then [.close] else []
  | .case => []
  | .default => []
  | _ => if isChildless then [] else [.close]

end Tag

namespace Sketch

mutual

-- The frame of control flow in a fragment, without the attributes in it. A case goes on with the chain of those
-- before it.
def frame (isChained : Bool) : Sketch → List Line
  | .node ⟨_, .tag tag, _⟩ below =>
    match TagKind.ofName? tag.name with
    | some (.control kind .applied) =>
      tag.leading isChained below.isEmpty kind ++ frames false below ++
        Tag.trailing below.isEmpty (below.any isCase) kind
    | _ => []
  | .node ⟨_, .leaf _, _⟩ _ => []

def frames (isChained : Bool) : List Sketch → List Line
  | [] => []
  | first :: rest => first.frame isChained ++ frames (isChained || first.isCase) rest

end

mutual

-- Control flow that leaves no frame: conditions and loops around nothing, and switches without cases around those.
def isIdle : Sketch → Bool
  | .node ⟨_, .tag tag, _⟩ below =>
    match TagKind.ofName? tag.name with
    | some (.control .case .applied) => false
    | some (.control .conditional .applied) => below.isEmpty
    | some (.control .loop .applied) => below.isEmpty
    | some (.control _ .applied) => allIdle below
    | _ => true
  | .node ⟨_, .leaf _, _⟩ _ => true

def allIdle : List Sketch → Bool
  | [] => true
  | first :: rest => first.isIdle && allIdle rest

end

theorem isCase_of_isIdle {sketch : Sketch} (idle : sketch.isIdle = true) : sketch.isCase = false := by
  obtain ⟨⟨_, content, _⟩, below⟩ := sketch
  cases content with
  | leaf leaf => rfl
  | tag tag =>
    apply Bool.eq_false_iff.mpr
    intro isCase
    simp only [Sketch.isCase, decide_eq_true_eq] at isCase
    simp [isIdle, isCase] at idle

theorem any_isCase_of_allIdle {sketches : List Sketch} (idle : allIdle sketches = true) :
    sketches.any isCase = false := by
  induction sketches with
  | nil => rfl
  | cons first rest ih =>
    rw [allIdle, Bool.and_eq_true] at idle
    rw [List.any_cons, isCase_of_isIdle idle.1, ih idle.2, Bool.or_false]

mutual

theorem frame_eq_nil : ∀ sketch : Sketch, sketch.frame false = [] ↔ sketch.isIdle = true
  | .node ⟨_, .leaf _, _⟩ _ => by simp [frame, isIdle]
  | .node ⟨_, .tag tag, _⟩ below => by
    have inner := frames_eq_nil below
    unfold frame isIdle
    cases TagKind.ofName? tag.name with
    | none => simp
    | some own =>
      cases own with
      | control kind flow =>
        cases flow with
        | content => simp
        | applied =>
          cases kind with
          | conditional => cases below <;> simp [Tag.leading, Tag.trailing, frames]
          | loop => cases below <;> simp [Tag.leading, Tag.trailing, frames]
          | switch =>
            simp only [Tag.leading, Tag.trailing, List.nil_append, List.append_eq_nil_iff, inner]
            constructor
            · intro both
              exact both.1
            · intro idle
              rw [any_isCase_of_allIdle idle]
              exact ⟨idle, rfl⟩
          | case => simp [Tag.leading]
          | default => simp [Tag.leading, Tag.trailing, inner]
      | _ => simp

theorem frames_eq_nil : ∀ sketches : List Sketch, frames false sketches = [] ↔ allIdle sketches = true
  | [] => by simp [frames, allIdle]
  | first :: rest => by
    rw [frames, allIdle, List.append_eq_nil_iff, frame_eq_nil first, Bool.and_eq_true]
    apply and_congr_right
    intro idle
    rw [isCase_of_isIdle idle]
    exact frames_eq_nil rest

end

end Sketch

namespace Tag

theorem isFlow_opening? {tag : Tag} {kind : Control} {opening : Line} (opened : tag.opening? kind = some opening) :
    opening.isFlow = true := by
  cases kind with
  | conditional =>
    obtain ⟨_, _, rfl⟩ := Option.map_eq_some_iff.mp opened
    rfl
  | loop =>
    obtain ⟨_, _, bound⟩ := Option.bind_eq_some_iff.mp opened
    obtain ⟨_, _, same⟩ := Option.bind_eq_some_iff.mp bound
    cases same
    rfl
  | _ => cases opened

theorem isFlow_leading (tag : Tag) (isChained isChildless : Bool) (kind : Control) :
    ∀ line ∈ tag.leading isChained isChildless kind, line.isFlow = true := by
  have opened : ∀ line ∈ if isChildless then [] else (tag.opening? kind).toList, line.isFlow = true := by
    intro line member
    cases isChildless with
    | true => cases member
    | false => exact isFlow_opening? (Option.mem_toList.mp member)
  intro line member
  cases kind with
  | conditional => exact opened line member
  | loop => exact opened line member
  | switch => cases member
  | case =>
    rw [List.mem_singleton.mp member]
    cases isChained <;> rfl
  | default =>
    cases isChained with
    | true => rw [List.mem_singleton.mp member]; rfl
    | false => cases member

theorem isFlow_trailing (isChildless hasCase : Bool) (kind : Control) :
    ∀ line ∈ trailing isChildless hasCase kind, line.isFlow = true := by
  cases kind <;> cases isChildless <;> cases hasCase <;> simp [trailing, Line.isFlow]

end Tag

namespace Sketch

mutual

theorem isFlow_frame : ∀ (sketch : Sketch) (isChained : Bool), ∀ line ∈ sketch.frame isChained, line.isFlow = true
  | .node ⟨_, .leaf _, _⟩ _, _ => by simp [frame]
  | .node ⟨_, .tag tag, _⟩ below, isChained => by
    unfold frame
    split
    · rename_i kind _
      intro line member
      rcases List.mem_append.mp member with front | last
      · rcases List.mem_append.mp front with first | inside
        · exact tag.isFlow_leading _ _ kind line first
        · exact isFlow_frames below false line inside
      · exact Tag.isFlow_trailing _ _ kind line last
    · nofun

theorem isFlow_frames : ∀ (sketches : List Sketch) (isChained : Bool),
    ∀ line ∈ frames isChained sketches, line.isFlow = true
  | [], _ => by simp [frames]
  | first :: rest, isChained => by
    rw [frames]
    exact List.forall_mem_append.mpr ⟨isFlow_frame first isChained, isFlow_frames rest _⟩

end

theorem anyReachesAttr_append (front back : List Sketch) :
    anyReachesAttr (front ++ back) = (anyReachesAttr front || anyReachesAttr back) := by
  induction front with
  | nil => rfl
  | cons first rest ih => rw [List.cons_append, anyReachesAttr, ih, anyReachesAttr, Bool.or_assoc]

mutual

-- What does not lead to an attribute leaves nothing that does.
theorem anyReachesAttr_copy : ∀ sketch : Sketch, sketch.reachesAttr = false → anyReachesAttr (copy sketch) = false
  | .node ⟨_, .leaf _, _⟩ _, _ => rfl
  | .node ⟨_, .tag tag, _⟩ below, bare => by
    unfold reachesAttr at bare
    unfold copy
    split
    · rename_i kind named
      rw [named] at bare
      simp only [anyReachesAttr, reachesAttr, TagKind.ofName?_applied_control named, Bool.or_false]
      exact anyReachesAttr_copies below bare
    · rename_i kind named
      rw [named] at bare
      exact anyReachesAttr_copies below bare
    · rename_i named
      rw [named] at bare
      cases bare
    · rfl

theorem anyReachesAttr_copies : ∀ sketches : List Sketch, anyReachesAttr sketches = false →
    anyReachesAttr (copies sketches) = false
  | [], _ => rfl
  | first :: rest, bare => by
    rw [anyReachesAttr, Bool.or_eq_false_iff] at bare
    rw [copies, anyReachesAttr_append, anyReachesAttr_copy first bare.1, anyReachesAttr_copies rest bare.2]
    rfl

end

end Sketch

def Passage.isCopied : Passage → Bool
  | .copy _ _ => true
  | .copies _ _ => true
  | .control _ _ body => body.isCopied
  | _ => false

namespace Written

variable {options : Options} {attrsOf : Nat}

theorem frame_control {kind : Control} {tag : Tag} {below : List Sketch} {l r : Ledger} {lines : List Line}
    (written : Written options (.control kind tag (.copies attrsOf below)) l lines r)
    (inner : ∀ {m s : Ledger} {lines : List Line}, Written options (.copies attrsOf below) m lines s →
      lines = Sketch.frames m.isChained below ∧ s.isChained = (m.isChained || below.any Sketch.isCase)) :
    lines = tag.leading l.isChained below.isEmpty kind ++ Sketch.frames false below ++
        Tag.trailing below.isEmpty (below.any Sketch.isCase) kind ∧
      r.isChained = (l.isChained || decide (kind = .case)) := by
  cases written with
  | childless empty body guards =>
    have none : below = [] := List.isEmpty_iff.mp empty
    subst none
    rcases guards with rfl | rfl
    · simp [Tag.leading, Tag.trailing, Sketch.frames, Ledger.isChained, Ledger.inside]
    · simp [Tag.leading, Tag.trailing, Sketch.frames, Ledger.isChained, Ledger.inside]
  | guarded full opened body =>
    have filled : below.isEmpty = false := full
    obtain ⟨rfl, _⟩ := inner body
    cases kind with
    | conditional => simp [Tag.leading, Tag.trailing, filled, opened, Ledger.isChained, Ledger.inside, Ledger.assign]
    | loop => simp [Tag.leading, Tag.trailing, filled, opened, Ledger.isChained, Ledger.inside, Ledger.assign]
    | _ => cases opened
  | switch body =>
    have fresh : (l.inside (some Switches.fresh)).isChained = false := rfl
    obtain ⟨rfl, chained⟩ := inner body
    rw [fresh, Bool.false_or] at chained
    rw [fresh, chained]
    constructor
    · cases below.any Sketch.isCase <;> simp [Tag.leading, Tag.trailing]
    · exact (Bool.or_false _).symm
  | case around tested body =>
    obtain ⟨rfl, _⟩ := inner body
    simp [Tag.leading, Tag.trailing, tested, Ledger.isChained, Ledger.inside, around]
  | default around body =>
    obtain ⟨rfl, _⟩ := inner body
    constructor
    · simp only [Ledger.isChained, around, Option.map_some, Option.getD_some, Tag.leading, Tag.trailing, Ledger.inside,
        Option.map_none, Option.getD_none, List.append_nil]
      split <;> rfl
    · simp [Ledger.isChained, Ledger.inside, around]

mutual

-- Without attributes, just the frame of control flow is written for what stands in a fragment.
theorem frame : ∀ {sketch : Sketch} {l r : Ledger} {lines : List Line},
    Written options (.copy attrsOf sketch) l lines r → sketch.reachesAttr = false →
    lines = sketch.frame l.isChained ∧ r.isChained = (l.isChained || sketch.isCase)
  | .node ⟨_, .leaf _, _⟩ _, _, _, _, written, _ => by
    cases written with
    | ignored => simp [Sketch.frame, Sketch.isCase]
  | .node ⟨_, .tag tag, _⟩ below, _, _, _, written, bare => by
    cases written with
    | copiedAttr named => simp [Sketch.reachesAttr, named] at bare
    | ignored other =>
      have plain : tag.isApplied = false := other tag rfl
      unfold Tag.isApplied at plain
      simp only [Sketch.frame, Sketch.isCase]
      split at plain <;> simp_all
    | copiedControl named inner =>
      simp only [Sketch.reachesAttr, named] at bare
      obtain ⟨rfl, chained⟩ := frame_control inner fun body => frames body bare
      simp [Sketch.frame, Sketch.isCase, named, chained]

theorem frames : ∀ {sketches : List Sketch} {l r : Ledger} {lines : List Line},
    Written options (.copies attrsOf sketches) l lines r → Sketch.anyReachesAttr sketches = false →
    lines = Sketch.frames l.isChained sketches ∧ r.isChained = (l.isChained || sketches.any Sketch.isCase)
  | [], _, _, _, written, _ => by
    cases written with
    | noCopies => simp [Sketch.frames]
  | first :: rest, _, _, _, written, bare => by
    cases written with
    | moreCopies head tail =>
      rw [Sketch.anyReachesAttr, Bool.or_eq_false_iff] at bare
      obtain ⟨here, chained⟩ := frame head bare.1
      obtain ⟨there, later⟩ := frames tail bare.2
      rw [here, there, later, chained, Sketch.frames, List.any_cons, Bool.or_assoc]
      exact ⟨rfl, rfl⟩

end

-- What is written for a fragment goes on with the block.
theorem continues {passage : Passage} {l r : Ledger} {lines : List Line} (written : Written options passage l lines r)
    (copied : passage.isCopied = true) : ∀ line ∈ lines, line.continues = true := by
  induction written with
  | noCopies => nofun
  | moreCopies _ _ head tail => exact List.forall_mem_append.mpr ⟨head rfl, tail rfl⟩
  | copiedAttr => exact List.forall_mem_singleton.mpr rfl
  | copiedControl _ _ ih => exact ih rfl
  | ignored => nofun
  | childless => nofun
  | @guarded _ _ _ _ _ _ opening _ opened _ ih =>
    have first : opening.continues = true := by simp [Line.continues, Tag.isFlow_opening? opened]
    exact List.forall_mem_append.mpr ⟨List.forall_mem_cons.mpr ⟨first, ih copied⟩, List.forall_mem_singleton.mpr rfl⟩
  | switch _ ih =>
    split
    · exact List.forall_mem_append.mpr ⟨ih copied, List.forall_mem_singleton.mpr rfl⟩
    · exact ih copied
  | case _ _ _ ih =>
    refine List.forall_mem_cons.mpr ⟨?_, ih copied⟩
    split <;> rfl
  | default _ _ ih =>
    split
    · exact List.forall_mem_cons.mpr ⟨rfl, ih copied⟩
    · exact ih copied
  | _ => cases copied

end Written

-- What has a list of attributes: a tag that stands for itself or for a component, with the nodes below it, or a script.
inductive Bearer where
  | tag (h : Header) (below : List Sketch)
  | script (attrs : List Attr) (body : String)

namespace Bearer

def attrs : Bearer → List Attr
  | .tag h _ => h.tag.attrs
  | .script attrs _ => attrs

def below : Bearer → List Sketch
  | .tag _ below => below
  | .script _ _ => []

-- What its children leave in its fragment.
def copies : Bearer → List Sketch
  | .tag h below => if h.tag.selfClosing then [] else Sketch.copies below
  | .script _ _ => []

theorem copies_closing {h : Header} (closing : h.tag.selfClosing = true) (below : List Sketch) :
    (Bearer.tag h below).copies = [] := by
  rw [copies, if_pos closing]

theorem copies_opening {h : Header} (opening : h.tag.selfClosing = false) (below : List Sketch) :
    (Bearer.tag h below).copies = Sketch.copies below := by
  rw [copies, opening, if_neg Bool.false_ne_true]

-- The line that takes the list.
def Ends (bearer : Bearer) (attrsOf : Nat) (last : Line) : Prop :=
  match bearer with
  | .tag h _ => ∃ sink childrenOf, Ending h.identity sink attrsOf h.tag.name childrenOf last
  | .script _ body => ∃ sink, last = .scriptRecord sink attrsOf body

theorem anyReachesAttr_copies {bearer : Bearer} (bare : Sketch.anyReachesAttr bearer.below = false) :
    Sketch.anyReachesAttr bearer.copies = false := by
  cases bearer with
  | tag h below =>
    rw [copies]
    split
    · rfl
    · exact Sketch.anyReachesAttr_copies below bare
  | script attrs body => rfl

-- The block of a bearer: what stands in its fragment, and then its own attributes. Without an attribute in the
-- fragment, only the frame of control flow stands there.
structure Framed (bearer : Bearer) (attrsOf : Nat) (applied own : List Line) : Prop where
  own : Attr.lines? attrsOf bearer.attrs = some own
  continues : ∀ line ∈ applied, line.continues = true
  frames : Sketch.anyReachesAttr bearer.below = false → applied = Sketch.frames false bearer.copies

theorem framed_written {options : Options} {bearer : Bearer} {attrsOf : Nat} {l r : Ledger} {block : List Line}
    (written : Written options (.attrs attrsOf bearer.copies bearer.attrs) l block r) :
    ∃ applied own, block = .resetAttrs attrsOf :: applied ++ own ∧ bearer.Framed attrsOf applied own := by
  cases written with
  | @attrs _ _ _ _ _ applied own inner made =>
    refine ⟨applied, own, rfl, made, inner.continues rfl, ?_⟩
    intro bare
    exact (inner.frames (anyReachesAttr_copies bare)).1

end Bearer

namespace Outline

mutual

-- What has attributes in the code, in order. The children of a single tag are not in the code.
def bearers (options : Options) : Outline → List Bearer
  | .node ⟨_, .leaf (.script attrs body), _⟩ _ => [.script attrs body]
  | .node ⟨_, .leaf _, _⟩ _ => []
  | .node ⟨identity, .tag tag, location⟩ children =>
    match TagKind.ofName? tag.name with
    | none => .tag ⟨identity, tag, location⟩ (flatten children) ::
        if Walk.isSingle options tag then [] else allBearers options children
    | some _ => if tag.isEntered then allBearers options children else []
  | .file _ nodes => allBearers options nodes

def allBearers (options : Options) : List Outline → List Bearer
  | [] => []
  | first :: rest => first.bearers options ++ allBearers options rest

end

mutual

theorem bearers_of_isEmpty (options : Options) : ∀ outline : Outline, outline.flat.isEmpty = true →
    outline.bearers options = []
  | .node _ _, empty => nomatch empty
  | .file _ nodes, empty => allBearers_of_isEmpty options nodes empty

theorem allBearers_of_isEmpty (options : Options) : ∀ outlines : List Outline, (flatten outlines).isEmpty = true →
    allBearers options outlines = []
  | [], _ => rfl
  | first :: rest, empty => by
    rw [flatten, List.isEmpty_iff, List.append_eq_nil_iff, ← List.isEmpty_iff, ← List.isEmpty_iff] at empty
    rw [allBearers, bearers_of_isEmpty options first empty.1, allBearers_of_isEmpty options rest empty.2]
    rfl

end

end Outline

-- The blocks of these bearers stand in the lines, in order, and no others.
inductive Laid : List Bearer → List Line → Prop where
  | nil : Laid [] []
  | line {bearers line lines} : line.begins = false → Laid bearers lines → Laid bearers (line :: lines)
  | block {bearer bearers attrsOf applied own stop lines} : bearer.Framed attrsOf applied own →
    stop.continues = false → stop.begins = false → (∃ last ∈ stop :: lines, bearer.Ends attrsOf last) →
    Laid bearers lines → Laid (bearer :: bearers) (.resetAttrs attrsOf :: applied ++ own ++ stop :: lines)

namespace Laid

theorem append {front back : List Bearer} {first second : List Line} (head : Laid front first)
    (tail : Laid back second) : Laid (front ++ back) (first ++ second) := by
  induction head with
  | nil => exact tail
  | line other _ ih => exact .line other ih
  | @block bearer bearers attrsOf applied own stop lines framed stops other ends _ ih =>
    rw [List.append_assoc, List.cons_append, List.cons_append]
    obtain ⟨last, member, ending⟩ := ends
    apply Laid.block framed stops other ?_ ih
    refine ⟨last, ?_, ending⟩
    exact List.mem_append_left second member

theorem plain {lines : List Line} (other : ∀ line ∈ lines, line.begins = false) : Laid [] lines := by
  induction lines with
  | nil => exact .nil
  | cons line rest ih =>
    apply Laid.line (other line List.mem_cons_self)
    exact ih fun later member => other later (List.mem_cons_of_mem _ member)

theorem snoc {bearers : List Bearer} {lines : List Line} (laid : Laid bearers lines) {line : Line}
    (other : line.begins = false) : Laid bearers (lines ++ [line]) := by
  have whole := laid.append (.line other .nil)
  rwa [List.append_nil] at whole

-- A block as it is written, and the lines behind it.
theorem written {options : Options} (bearer : Bearer) {bearers : List Bearer} {attrsOf : Nat} {l r : Ledger}
    {block lines : List Line} {stop : Line}
    (written : Written options (.attrs attrsOf bearer.copies bearer.attrs) l block r) (stops : stop.continues = false)
    (other : stop.begins = false) (ends : ∃ last ∈ stop :: lines, bearer.Ends attrsOf last)
    (rest : Laid bearers lines) : Laid (bearer :: bearers) (block ++ stop :: lines) := by
  obtain ⟨applied, own, rfl, framed⟩ := Bearer.framed_written written
  exact .block framed stops other ends rest

-- The attribute blocks are those of the bearers, one for each.
theorem blocks {bearers : List Bearer} {lines : List Line} (laid : Laid bearers lines) :
    List.Forall₂ (fun bearer block => ∃ attrsOf applied own, block = .resetAttrs attrsOf :: applied ++ own ∧
      bearer.Framed attrsOf applied own ∧ ∃ last ∈ lines, bearer.Ends attrsOf last) bearers
      (Line.attrBlocks lines) := by
  induction laid with
  | nil => exact .nil
  | line other _ ih =>
    rw [Line.attrBlocks_cons other]
    apply ih.imp
    intro bearer block held
    obtain ⟨attrsOf, applied, own, shape, framed, last, member, ending⟩ := held
    exact ⟨attrsOf, applied, own, shape, framed, last, List.mem_cons_of_mem _ member, ending⟩
  | @block bearer bearers attrsOf applied own stop lines framed stops other ends _ ih =>
    have more : ∀ line ∈ applied ++ own, line.continues = true := by
      intro line member
      rcases List.mem_append.mp member with inside | last
      · exact framed.continues line inside
      · obtain ⟨name, value, rfl⟩ := Attr.eq_of_mem_lines? framed.own line last
        rfl
    rw [List.cons_append, Line.attrBlocks_block more stops other]
    obtain ⟨last, member, ending⟩ := ends
    refine .cons ⟨attrsOf, applied, own, rfl, framed, last, List.mem_append_right _ member, ending⟩ ?_
    apply ih.imp
    intro later block held
    obtain ⟨number, some, rest, shape, framed, last, member, ending⟩ := held
    refine ⟨number, some, rest, shape, framed, last, ?_, ending⟩
    exact List.mem_append_right _ (List.mem_cons_of_mem _ member)

end Laid

theorem Ending.stops {identity sink attrsOf : Nat} {name : String} {childrenOf : Option Nat} {last : Line}
    (ending : Ending identity sink attrsOf name childrenOf last) : last.continues = false ∧ last.begins = false := by
  cases ending <;> exact ⟨rfl, rfl⟩

namespace Passage

def bearers (options : Options) : Passage → List Bearer
  | .node _ outline => outline.bearers options
  | .nodes _ outlines => Outline.allBearers options outlines
  | .control _ _ body => body.bearers options
  | _ => []

-- The lines of nodes hold their blocks. The lines of a block by itself are no concern here.
def Lays (options : Options) : Passage → List Line → Prop
  | .attrs _ _ _, _ => True
  | .control _ _ body, lines => body.Lays options lines
  | passage, lines => Laid (passage.bearers options) lines

theorem Lays.cons {options : Options} {passage : Passage} {lines : List Line} (lays : passage.Lays options lines)
    {line : Line} (other : line.begins = false) : passage.Lays options (line :: lines) := by
  induction passage with
  | control kind tag body ih => exact ih lays
  | attrs attrsOf copies attrs => trivial
  | _ => exact Laid.line other lays

theorem Lays.snoc {options : Options} {passage : Passage} {lines : List Line} (lays : passage.Lays options lines)
    {line : Line} (other : line.begins = false) : passage.Lays options (lines ++ [line]) := by
  induction passage with
  | control kind tag body ih => exact ih lays
  | attrs attrsOf copies attrs => trivial
  | _ => exact Laid.snoc lays other

theorem lays_of_isEmpty {options : Options} {passage : Passage} (empty : passage.isEmpty = true) :
    passage.Lays options [] := by
  cases passage with
  | nodes sink outlines =>
    show Laid (Outline.allBearers options outlines) []
    rw [Outline.allBearers_of_isEmpty options outlines empty]
    exact .nil
  | copies attrsOf sketches => exact .nil
  | _ => cases empty

end Passage

namespace Written

variable {options : Options} {passage : Passage} {l r : Ledger} {lines : List Line}

theorem lays (written : Written options passage l lines r) : passage.Lays options lines := by
  induction written with
  | noNodes => exact .nil
  | moreNodes _ _ head tail => exact Laid.append head tail
  | file _ ih => exact ih
  | blank => exact .nil
  | @field _ _ leaf _ _ _ _ _ found =>
    cases leaf with
    | script attrs body => cases found
    | _ => exact .line rfl .nil
  | @value _ _ leaf _ _ _ _ _ found =>
    cases leaf with
    | script attrs body => cases found
    | _ => exact .line rfl .nil
  | @script sink _ attrs body _ _ _ _ _ block =>
    exact Laid.written (.script attrs body) block rfl rfl ⟨_, List.mem_singleton_self _, sink, rfl⟩ .nil
  | @statement _ _ tag _ _ _ _ _ kind named stated =>
    have passed : tag.isEntered = false := by
      unfold Tag.isEntered
      rw [named]
      cases kind with
      | control kind flow => cases stated
      | template => cases stated
      | _ => rfl
    simp only [Passage.Lays, Passage.bearers, Outline.bearers, named, passed, Bool.false_eq_true, if_false]
    apply Laid.plain
    intro line member
    exact Line.begins_of_reset? (Tag.isPlain_statement? stated line member).reset
  | @template _ _ tag _ _ _ _ _ _ named _ _ ih =>
    have entered : tag.isEntered = true := by simp [Tag.isEntered, named]
    simp only [Passage.Lays, Passage.bearers, Outline.bearers, named, entered, if_true]
    exact Laid.snoc (.line rfl ih) rfl
  | controlled named _ ih =>
    simp only [Passage.Lays, Passage.bearers, Outline.bearers, named, Tag.isEntered_control named, if_true]
    exact ih
  | @closed sink identity tag location children _ _ _ _ _ named closing block ending =>
    have held := @Bearer.copies_closing ⟨identity, tag, location⟩ closing (Outline.flatten children)
    simp only [Passage.Lays, Passage.bearers, Outline.bearers, named, Draft.selfClosing_isSingle closing, if_true]
    rw [← held] at block
    exact Laid.written _ block ending.stops.1 ending.stops.2 ⟨_, List.mem_singleton_self _, _, _, ending⟩ .nil
  | @single sink identity tag location children _ _ _ _ _ _ _ named opening isSingle _ block ending =>
    have held := @Bearer.copies_opening ⟨identity, tag, location⟩ opening (Outline.flatten children)
    simp only [Passage.Lays, Passage.bearers, Outline.bearers, named, isSingle, if_true]
    rw [← held] at block
    exact Laid.written _ block ending.stops.1 ending.stops.2 ⟨_, List.mem_singleton_self _, _, _, ending⟩ .nil
  | @full sink identity tag location children _ _ _ _ _ _ _ named opening isSingle _ block ending ih =>
    have held := @Bearer.copies_opening ⟨identity, tag, location⟩ opening (Outline.flatten children)
    simp only [Passage.Lays, Passage.bearers, Outline.bearers, named, isSingle, Bool.false_eq_true, if_false]
    rw [← held] at block
    rw [List.append_assoc, List.cons_append]
    apply Laid.written _ block rfl rfl ?_ (Laid.snoc ih ending.stops.2)
    exact ⟨_, List.mem_cons_of_mem _ (List.mem_append_right _ (List.mem_singleton_self _)), _, _, ending⟩
  | attrs => trivial
  | noCopies => exact .nil
  | moreCopies _ _ head tail => exact Laid.append head tail
  | copiedAttr => exact .line rfl .nil
  | copiedControl _ _ ih => exact ih
  | ignored => exact .nil
  | @childless _ _ body _ _ _ empty =>
    show body.Lays options []
    exact Passage.lays_of_isEmpty empty
  | @guarded _ _ body _ _ _ _ _ opened _ ih =>
    show body.Lays options _
    exact (ih.cons (Line.begins_of_reset? (Tag.level_opening? opened).2.1)).snoc rfl
  | @switch _ body _ _ _ _ ih =>
    show body.Lays options _
    split
    · exact ih.snoc rfl
    · exact ih
  | @case _ body _ _ _ _ _ _ _ _ ih =>
    show body.Lays options _
    apply ih.cons
    split <;> rfl
  | @default _ body _ _ _ _ _ _ ih =>
    show body.Lays options _
    split
    · exact ih.cons rfl
    · exact ih

end Written

namespace Template

-- The code has one attribute block for each tag and script, in order. Control flow without an attribute leaves its frame
-- there, and there is none just if no condition or loop holds more control flow and there is no case.
theorem compile_frames (template : Template) (options : Options) (loader : Loader) (shared : Names) (text : String)
    (success : (template.compile options loader shared).1 = .ok text) :
    ∃ lines, (template.draft options loader shared).1 = .ok lines ∧
      text = Line.file (template.walk options loader shared).2.scope lines ∧
      List.Forall₂ (fun bearer block => ∃ attrsOf applied own, block = .resetAttrs attrsOf :: applied ++ own ∧
          Attr.lines? attrsOf bearer.attrs = some own ∧ (∃ last ∈ lines, bearer.Ends attrsOf last) ∧
          (Sketch.anyReachesAttr bearer.below = false → applied = Sketch.frames false bearer.copies ∧
            (∀ line ∈ applied, line.isFlow = true) ∧ (applied = [] ↔ Sketch.allIdle bearer.copies = true)))
        (Outline.allBearers options (template.outlines options loader)) (Line.attrBlocks lines) := by
  obtain ⟨lines, drafted, written, same⟩ := Template.written success
  refine ⟨lines, drafted, same, ?_⟩
  have laid : Laid (Outline.allBearers options (template.outlines options loader)) lines := written.lays
  apply laid.blocks.imp
  intro bearer block held
  obtain ⟨attrsOf, applied, own, shape, framed, ends⟩ := held
  refine ⟨attrsOf, applied, own, shape, framed.own, ends, ?_⟩
  intro bare
  rw [framed.frames bare]
  exact ⟨rfl, Sketch.isFlow_frames _ false, Sketch.frames_eq_nil _⟩

-- A condition around plain content, and another around that.
def nestedConditions : Template :=
  ⟨[.tag 1 ⟨"div", [⟨.literal "class", some (.literal "wide"), .zero⟩], false⟩
    [.tag 2 ⟨"if", [⟨.literal "test", some (.expression (.var "a" [])), .zero⟩], false⟩
      [.tag 3 ⟨"if", [⟨.literal "test", some (.expression (.var "b" [])), .zero⟩], false⟩
        [.leaf 4 (.text "hi") .zero] .zero] .zero] .zero]⟩

-- The code of its content, behind the attributes.
def nestedConditionsContent : String :=
  "<?php $children1 = []; ?>\n<?php if ($__data[\"a\"]) \x7b ?>\n<?php if ($__data[\"b\"]) \x7b ?>\n" ++
    "<?php $children1[] = [\"text\" => \"hi\"]; ?>\n<?php \x7d ?>\n<?php \x7d ?>\n" ++
    "<?php $children0[] = [\"tag\" => \"div\", \"attrs\" => $attrs1, \"children\" => $children1]; ?>\n" ++
    Output.closing

theorem compile_nestedConditions : (nestedConditions.compile .standard noParts []).1 = .ok (Output.opening ++
    "<?php $attrs1 = []; ?>\n" ++ "<?php if ($__data[\"a\"]) \x7b ?>\n<?php \x7d ?>\n" ++ "<?php $attrs1[\"class\"] = \"wide\"; ?>\n" ++
    nestedConditionsContent) :=
  compile_of_toOption (by decide +kernel)

theorem compile_frames_nestedConditions : (nestedConditions.compile .standard noParts []).1.isOk = true ∧
    ∃ lines, (nestedConditions.draft .standard noParts []).1 = .ok lines ∧
      (nestedConditions.compile .standard noParts []).1 =
        .ok (Line.file (nestedConditions.walk .standard noParts []).2.scope lines) ∧
      ∃ attrsOf own test, Line.attrBlocks lines = [.resetAttrs attrsOf :: [.openIf test, .close] ++ own] ∧
        Attr.lines? attrsOf [⟨.literal "class", some (.literal "wide"), .zero⟩] = some own := by
  obtain ⟨lines, drafted, text, blocks⟩ :=
    compile_frames nestedConditions .standard noParts [] _ compile_nestedConditions
  refine ⟨by rw [compile_nestedConditions]; rfl, lines, drafted, by rw [compile_nestedConditions, text], ?_⟩
  generalize Line.attrBlocks lines = found at blocks ⊢
  cases blocks with
  | cons held rest =>
    cases rest
    obtain ⟨attrsOf, applied, own, rfl, made, _, framed⟩ := held
    obtain ⟨rfl, _⟩ := framed (by decide +kernel)
    exact ⟨attrsOf, own, _, rfl, made⟩

-- The first test is evaluated with the attributes, and once more with the content.
theorem nestedConditions_repeats_test :
    (∀ bearer ∈ Outline.allBearers .standard (nestedConditions.outlines .standard noParts),
      Sketch.anyReachesAttr bearer.below = false) ∧
    (nestedConditions.compile .standard noParts []).1 ≠
      .ok (Output.opening ++ "<?php $attrs1 = []; ?>\n<?php $attrs1[\"class\"] = \"wide\"; ?>\n" ++ nestedConditionsContent) := by
  constructor
  · decide +kernel
  · rw [compile_nestedConditions]
    intro same
    exact absurd (Except.ok.inj same) (by decide +kernel)

end Template

end Stencil
