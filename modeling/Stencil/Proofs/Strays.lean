import Stencil.Proofs.Chains
import Mathlib.Data.List.Forall2

-- Where the records of a template are appended. A line is reached just if, of every block around it, the branch that was
-- begun last is the one that is taken. So a node that stands in a switch and in none of its branches depends on the tests
-- of the cases before it: it is appended with the branch that was begun last.

namespace Stencil

-- Which tests hold, and which sources of loops have elements.
structure Valuation where
  holds : Operand → Bool
  filled : Operand → Bool

namespace Line

-- Whether a head lets its branch be taken when it is come to.
def passes (v : Valuation) : Line → Bool
  | .openIf test => v.holds test
  | .elseIf test => v.holds test
  | .otherwise => true
  | .openLoop source _ => v.filled source
  | _ => false

-- Of the branches that some heads begin, the first whose head passes is taken.
def takesLast (v : Valuation) (heads : List Line) : Bool := heads.findIdx (passes v) + 1 = heads.length

theorem takesLast_single (v : Valuation) (head : Line) : takesLast v [head] = head.passes v := by
  cases passed : head.passes v <;> simp [takesLast, List.findIdx_cons, passed]

def isAppending : Line → Bool
  | .record _ _ _ => true
  | .scriptRecord _ _ _ => true
  | .tagRecord _ _ _ _ => true
  | .expressionBlock _ _ _ => true
  | .callComponent _ _ _ _ _ => true
  | _ => false

theorem isAppending_of_mentions {line : Line} (none : line.mentions = []) : line.isAppending = false := by
  cases line with
  | record => cases none
  | scriptRecord => cases none
  | tagRecord => cases none
  | expressionBlock => cases none
  | callComponent => cases none
  | _ => rfl

end Line

-- A line with the heads of the blocks that are open around it, innermost first.
structure Placed where
  line : Line
  around : List (List Line)

def Placed.isReached (v : Valuation) (placed : Placed) : Bool := placed.around.all (Line.takesLast v)

namespace Openings

-- The lines that append records, as far as the blocks can be read.
def placed (n : Openings) : List Line → List Placed
  | [] => []
  | line :: rest =>
    match n.read line with
    | none => []
    | some m => (if line.isAppending then [⟨line, n.opened⟩] else []) ++ m.placed rest

variable {n m : Openings} {front : List Line}

theorem placed_cons {line : Line} (reads : n.read line = some m) (rest : List Line) :
    n.placed (line :: rest) = (if line.isAppending then [⟨line, n.opened⟩] else []) ++ m.placed rest := by
  rw [placed, reads]

theorem placed_append (reads : n.Reads front m) (back : List Line) :
    n.placed (front ++ back) = n.placed front ++ m.placed back := by
  induction front generalizing n with
  | nil =>
    cases reads
    rfl
  | cons line rest ih =>
    obtain ⟨next, first, others⟩ := Option.bind_eq_some_iff.mp reads
    rw [List.cons_append, placed_cons first, placed_cons first, ih others, List.append_assoc]

theorem placed_silent {lines : List Line} (silent : ∀ line ∈ lines, line.isAppending = false) (n : Openings) :
    n.placed lines = [] := by
  induction lines generalizing n with
  | nil => rfl
  | cons line rest ih =>
    obtain ⟨own, others⟩ := List.forall_mem_cons.mp silent
    rw [placed]
    split
    · rfl
    · rw [own, ih others]
      rfl

theorem placed_quiet {line : Line} (reads : n.read line = some m) (quiet : line.isAppending = false)
    (rest : List Line) : n.placed (line :: rest) = m.placed rest := by
  rw [placed_cons reads, quiet]
  rfl

theorem placed_ended (reads : n.Reads front m) {last : Line}
    (quiet : last.isAppending = false) : n.placed (front ++ [last]) = n.placed front := by
  rw [placed_append reads, placed_silent (List.forall_mem_singleton.mpr quiet), List.append_nil]

end Openings

-- The lines that append records, if each end of a block has its beginning.
def Line.placed? (lines : List Line) : Option (List Placed) :=
  (Line.blocks? lines).map fun _ => Openings.placed ⟨[], []⟩ lines

namespace Chain

-- The heads of the chain, if it has any.
def heads? (chain : Chain) : Option (List Line) := if chain.tests.isEmpty then Option.none else some chain.begun

-- The branch that is taken is that of the first case whose test holds, and failing these the first default. Without a
-- case there is nothing to choose from.
def takesLast (v : Valuation) (chain : Chain) : Bool :=
  chain.tests.isEmpty || chain.tests.findIdx v.holds + 1 = chain.tests.length + chain.defaults

theorem findIdx_begun (v : Valuation) {chain : Chain} (tested : chain.tests ≠ []) :
    chain.begun.findIdx (Line.passes v) = chain.tests.findIdx v.holds ∧
      chain.begun.length = chain.tests.length + chain.defaults := by
  obtain ⟨_ | ⟨first, tests⟩, defaults⟩ := chain
  · exact absurd rfl tested
  · have heads : begun ⟨first :: tests, defaults⟩ =
        (Line.openIf first :: tests.map .elseIf) ++ List.replicate defaults .otherwise := rfl
    have others : (List.replicate defaults Line.otherwise).findIdx (Line.passes v) = 0 := by
      cases defaults <;> rfl
    have mapped : (Line.openIf first :: tests.map .elseIf).findIdx (Line.passes v) =
        (first :: tests).findIdx v.holds := by
      rw [List.findIdx_cons, List.findIdx_cons, List.findIdx_map]
      rfl
    refine ⟨?_, by simp [heads]; omega⟩
    rw [heads, List.findIdx_append, others, mapped]
    split
    · rfl
    · rename_i none
      have bound : (first :: tests).findIdx v.holds ≤ (first :: tests).length := List.findIdx_le_length
      simp only [List.length_cons, List.length_map] at none bound ⊢
      omega

end Chain

-- What a node stands in: a condition, a loop, one of the branches of a switch, which is the last of those so far, or a
-- switch but none of its branches, behind some of them.
inductive Step where
  | condition (test : Operand)
  | loop (source : Operand) (binding : Binding)
  | branch (chain : Chain)
  | stray (chain : Chain)

namespace Step

def heads? : Step → Option (List Line)
  | .condition test => some [.openIf test]
  | .loop source binding => some [.openLoop source binding]
  | .branch chain => chain.heads?
  | .stray chain => chain.heads?

def isTaken (v : Valuation) : Step → Bool
  | .condition test => v.holds test
  | .loop source _ => v.filled source
  | .branch chain => chain.takesLast v
  | .stray chain => chain.takesLast v

-- Within the switch directly around a node, if there is one.
def within (steps : List Step) : Option Chain → List Step
  | none => steps
  | some chain => .stray chain :: steps

end Step

-- A node whose record is appended, and what it stands in, innermost first.
structure Seat where
  item : Item
  steps : List Step

def Seat.isReached (v : Valuation) (seat : Seat) : Bool := seat.steps.all (Step.isTaken v)

namespace Tag

-- The block of a condition or a loop.
def step? (tag : Tag) : Control → Option Step
  | .conditional => (tag.operand? .condition "test").map .condition
  | .loop => do some (.loop (← tag.operand? .value "from") (← tag.binding?))
  | _ => none

-- The records below control flow, given those of its children within the steps to them.
def seats (tag : Tag) (isChildless : Bool) (below : List Step → Option Chain → List Seat) (steps : List Step)
    (around : Option Chain) : Control → List Seat
  | .switch => below (Step.within steps around) (some .none)
  | .case => below (.branch (around.getD .none ++ tag.branch .case) :: steps) none
  | .default => below (.branch (around.getD .none ++ tag.branch .default) :: steps) none
  | kind => if isChildless then [] else below ((tag.step? kind).toList ++ Step.within steps around) none

end Tag

namespace Sketch

mutual

-- The nodes whose records are appended, in the order of the lines. If a node stands directly in a switch, the branches
-- before it are given.
def seats (options : Options) (steps : List Step) (around : Option Chain) : Sketch → List Seat
  | .node ⟨identity, .tag tag, location⟩ below =>
    match TagKind.ofName? tag.name with
    | some (.control kind _) =>
      tag.seats below.isEmpty (fun steps around => allSeats options steps around below) steps around kind
    | some .template => allSeats options (Step.within steps around) none below
    | some _ => []
    | none =>
      (if tag.selfClosing || Walk.isSingle options tag then []
        else allSeats options (Step.within steps around) none below) ++
        [⟨⟨identity, .tag tag, location⟩, Step.within steps around⟩]
  -- Text in a switch is blank.
  | .node ⟨identity, .leaf (.text value), location⟩ _ =>
    if around.isSome then [] else [⟨⟨identity, .leaf (.text value), location⟩, steps⟩]
  | .node ⟨identity, .leaf leaf, location⟩ _ => [⟨⟨identity, .leaf leaf, location⟩, Step.within steps around⟩]

def allSeats (options : Options) (steps : List Step) (around : Option Chain) : List Sketch → List Seat
  | [] => []
  | first :: rest =>
    first.seats options steps around ++ allSeats options steps (around.map (· ++ first.chain false)) rest

end

end Sketch

namespace Chain

theorem heads?_eq_some {chain : Chain} {heads : List Line} (found : chain.heads? = some heads) (v : Valuation) :
    Line.takesLast v heads = chain.takesLast v := by
  unfold heads? at found
  split at found
  · cases found
  · rename_i tested
    cases found
    obtain ⟨index, length⟩ := findIdx_begun v (List.isEmpty_eq_false_iff.mp (Bool.eq_false_iff.mpr tested))
    rw [Line.takesLast, index, length, takesLast, Bool.eq_false_iff.mpr tested, Bool.false_or]

theorem takesLast_of_headless {chain : Chain} (headless : chain.heads? = Option.none) (v : Valuation) :
    chain.takesLast v = true := by
  unfold heads? at headless
  split at headless
  · rename_i untested
    rw [takesLast, untested, Bool.true_or]
  · cases headless

-- The branch that was begun last is taken whatever the tests are just if there are none.
theorem takesLast_always (chain : Chain) : (∀ v, chain.takesLast v = true) ↔ chain.tests = [] := by
  obtain ⟨_ | ⟨first, tests⟩, defaults⟩ := chain
  · exact ⟨fun _ => rfl, fun _ _ => rfl⟩
  · refine ⟨fun always => ?_, nofun⟩
    -- Without a default nothing may hold, and with a default everything may.
    have none := always ⟨fun _ => false, fun _ => false⟩
    have all := always ⟨fun _ => true, fun _ => true⟩
    simp [takesLast, List.findIdx_cons, List.findIdx_eq_length_of_false] at none all
    omega

end Chain

namespace Step

theorem takesLast_heads {step : Step} {heads : List Line} (found : step.heads? = some heads) (v : Valuation) :
    Line.takesLast v heads = step.isTaken v := by
  cases step with
  | condition test =>
    cases found
    exact Line.takesLast_single v _
  | loop source binding =>
    cases found
    exact Line.takesLast_single v _
  | branch chain => exact Chain.heads?_eq_some found v
  | stray chain => exact Chain.heads?_eq_some found v

theorem isTaken_of_headless {step : Step} (headless : step.heads? = none) (v : Valuation) : step.isTaken v = true := by
  cases step with
  | condition test => cases headless
  | loop source binding => cases headless
  | branch chain => exact Chain.takesLast_of_headless headless v
  | stray chain => exact Chain.takesLast_of_headless headless v

theorem all_takesLast (v : Valuation) (steps : List Step) :
    (steps.filterMap heads?).all (Line.takesLast v) = steps.all (isTaken v) := by
  induction steps with
  | nil => rfl
  | cons step rest ih =>
    rw [List.filterMap_cons, List.all_cons]
    split
    · rename_i headless
      rw [isTaken_of_headless headless, ih, Bool.true_and]
    · rename_i heads found
      rw [List.all_cons, takesLast_heads found, ih]

theorem opened_within {n : Openings} {steps : List Step} (opened : n.opened = steps.filterMap heads?)
    (around : Option Chain) :
    (n.inside (around.getD .none)).opened = (within steps around).filterMap heads? := by
  cases around with
  | none => exact opened
  | some chain =>
    rw [within, List.filterMap_cons, heads?, Chain.heads?, Openings.inside, Option.getD_some]
    split
    · exact opened
    · rw [opened]

end Step

-- The line appends the record of the node, or calls the component that it names.
inductive Item.Appends : Item → Line → Prop where
  | field {identity leaf location sink key value} : leaf.field? = some (key, value) →
    Appends ⟨identity, .leaf leaf, location⟩ (.record sink key value)
  | value {identity leaf location sink e code} : leaf.expr? = some e → e.emit? .value = some code →
    Appends ⟨identity, .leaf leaf, location⟩ (.expressionBlock identity sink code)
  | script {identity attrs body location sink attrsOf} :
    Appends ⟨identity, .leaf (.script attrs body), location⟩ (.scriptRecord sink attrsOf body)
  | tag {identity tag location sink attrsOf childrenOf line} : Ending identity sink attrsOf tag.name childrenOf line →
    Appends ⟨identity, .tag tag, location⟩ line

structure Seat.Shows (seat : Seat) (placed : Placed) : Prop where
  appends : seat.item.Appends placed.line
  around : placed.around = seat.steps.filterMap Step.heads?

theorem Seat.Shows.isReached {seat : Seat} {placed : Placed} (shown : seat.Shows placed) (v : Valuation) :
    placed.isReached v = seat.isReached v := by
  rw [Placed.isReached, shown.around, Step.all_takesLast, Seat.isReached]

theorem Seat.map_isReached {seats : List Seat} {placed : List Placed} (v : Valuation)
    (shown : List.Forall₂ (fun seat found => seat.item.Appends found.line ∧ ∀ v, found.isReached v = seat.isReached v)
      seats placed) : placed.map (Placed.isReached v) = seats.map (Seat.isReached v) := by
  induction shown with
  | nil => rfl
  | cons first _ ih => rw [List.map_cons, List.map_cons, first.2 v, ih]

namespace Sketch

theorem allSeats_append (options : Options) (steps : List Step) (around : Option Chain) (front back : List Sketch) :
    allSeats options steps around (front ++ back) = allSeats options steps around front ++
      allSeats options steps (around.map (· ++ allChain false front)) back := by
  induction front generalizing around with
  | nil =>
    rw [List.nil_append, allSeats, allChain, List.nil_append]
    cases around with
    | none => rfl
    | some chain => rw [Option.map_some, Chain.append_none]
  | cons first rest ih =>
    rw [List.cons_append, allSeats, allSeats, ih, List.append_assoc, Option.map_map]
    congr 3
    cases around with
    | none => rfl
    | some chain => simp only [Option.map_some, Function.comp_apply, allChain, Chain.append_assoc]

end Sketch

namespace Passage

def seats (options : Options) (steps : List Step) (around : Option Chain) : Passage → List Seat
  | .node _ outline => Sketch.allSeats options steps around outline.flat
  | .nodes _ outlines => Sketch.allSeats options steps around (Outline.flatten outlines)
  | .control kind tag body =>
    tag.seats body.isEmpty (fun steps around => body.seats options steps around) steps around kind
  | _ => []

theorem seats_node (options : Options) (steps : List Step) (around : Option Chain) {sink : Nat} {item : Item}
    {children : List Outline} : Passage.seats options steps around (.node sink (.node item children)) =
      Sketch.seats options steps around (.node item (Outline.flatten children)) := List.append_nil _

end Passage

-- A ledger tells the branches that the switch directly around a node has had.
structure Ledger.Tallies (l : Ledger) (around : Option Chain) : Prop where
  isSome : l.branch.isSome = around.isSome
  counts : l.Counts (around.getD .none)

theorem Ledger.Tallies.outside (l : Ledger) : (l.inside none).Tallies none := ⟨rfl, rfl⟩

-- Behind more branches. Outside of a switch there are none.
theorem Ledger.Tallies.later {l r : Ledger} {around : Option Chain} {added : Chain} (tallies : l.Tallies around)
    (same : r.branch.isSome = l.branch.isSome) (counts : r.Counts (around.getD .none ++ added)) :
    r.Tallies (around.map (· ++ added)) ∧ (around.map (· ++ added)).getD .none = around.getD .none ++ added := by
  cases around with
  | some chain =>
    refine ⟨⟨?_, counts⟩, rfl⟩
    rw [same, tallies.isSome]
    rfl
  | none =>
    have outside : r.branch = none := by
      have isSome := same.trans tallies.isSome
      cases around : r.branch with
      | none => rfl
      | some state =>
        rw [around] at isSome
        cases isSome
    have alone : (Option.none.getD Chain.none) ++ added = .none := by
      unfold Ledger.Counts at counts
      rwa [outside] at counts
    refine ⟨⟨?_, ?_⟩, alone.symm⟩
    · rw [outside]
      rfl
    · unfold Ledger.Counts
      rw [outside]
      rfl

-- The records of a passage are appended where its nodes stand.
def Seated (options : Options) (passage : Passage) (l : Ledger) (lines : List Line) : Prop :=
  ∀ steps around, l.Tallies around → ∀ n : Openings, n.opened = steps.filterMap Step.heads? →
    List.Forall₂ Seat.Shows (passage.seats options steps around) ((n.inside (around.getD .none)).placed lines)

namespace Seated

variable {options : Options} {passage : Passage} {l m r : Ledger} {lines : List Line}

theorem silent (none : ∀ steps around, l.Tallies around → passage.seats options steps around = [])
    (silent : ∀ line ∈ lines, line.isAppending = false) : Seated options passage l lines := by
  intro steps around tallies n _
  rw [none steps around tallies, Openings.placed_silent silent]
  exact .nil

theorem outside (seated : Seated options passage (l.inside none) lines) {steps : List Step} {n : Openings}
    (opened : n.opened = steps.filterMap Step.heads?) :
    List.Forall₂ Seat.Shows (passage.seats options steps none) (n.placed lines) :=
  seated steps none (.outside l) n opened

-- What stands in a fragment appends nothing.
theorem placed_eq_nil (seated : Seated options passage l lines) (around : Option Chain) (tallies : l.Tallies around)
    (none : ∀ steps, passage.seats options steps around = []) {steps : List Step} {n : Openings}
    (opened : n.opened = steps.filterMap Step.heads?) : (n.inside (around.getD .none)).placed lines = [] := by
  have empty := seated steps around tallies n opened
  rwa [none, List.forall₂_nil_left_iff] at empty

theorem append {first second : Passage} {others : List Line} (written : Written options first l lines m)
    (seats : ∀ steps around, passage.seats options steps around =
      first.seats options steps around ++ second.seats options steps (around.map (· ++ first.chain)))
    (head : Seated options first l lines) (tail : Seated options second m others) :
    Seated options passage l (lines ++ others) := by
  intro steps around tallies n opened
  obtain ⟨counts, reads⟩ := written.nests _ tallies.counts
  obtain ⟨later, same⟩ := tallies.later written.isSome_branch counts
  have back := tail steps _ later (n.behind (first.blocks options)) opened
  rw [same] at back
  rw [seats, Openings.placed_append (reads n)]
  exact List.rel_append (head steps around tallies n opened) back

end Seated

namespace Tag

theorem seats_nothing (tag : Tag) (isChildless : Bool) (steps : List Step) (around : Option Chain) (kind : Control) :
    tag.seats isChildless (fun _ _ => []) steps around kind = [] := by
  cases kind <;> simp [seats]

end Tag

namespace Written

open Openings (Reads)

variable {options : Options} {passage : Passage} {l r : Ledger} {lines : List Line}

section Leaves

variable {sink identity : Nat} {location : Location} {children : List Outline}

-- One line for the node itself, behind lines that append nothing or what is below.
theorem shows_own {item : Item} {line : Line} (appends : item.Appends line) {n : Openings} {steps : List Step}
    (opened : n.opened = steps.filterMap Step.heads?) (around : Option Chain) :
    Seat.Shows ⟨item, Step.within steps around⟩ ⟨line, (n.inside (around.getD .none)).opened⟩ :=
  ⟨appends, Step.opened_within opened around⟩

theorem isAppending_of_appends {item : Item} {line : Line} (appends : item.Appends line) : line.isAppending = true := by
  cases appends with
  | tag ending => cases ending <;> rfl
  | _ => rfl

theorem level_of_appends {item : Item} {line : Line} (appends : item.Appends line) (depth : Nat) :
    line.level depth = some depth := by
  cases appends with
  | tag ending => exact level_ending ending depth
  | _ => rfl

theorem placed_own {item : Item} {line : Line} (appends : item.Appends line) (n : Openings) :
    n.placed [line] = [⟨line, n.opened⟩] := by
  rw [Openings.placed_cons (Openings.read_flat (level_of_appends appends) n), isAppending_of_appends appends]
  rfl

theorem seated_leaf {leaf : Leaf} {line : Line} (appends : Item.Appends ⟨identity, .leaf leaf, location⟩ line)
    (apart : l.branch.isSome = true → ∀ text, leaf ≠ .text text) :
    Seated options (.node sink (.node ⟨identity, .leaf leaf, location⟩ children)) l [line] := by
  intro steps around tallies n opened
  have seats : Passage.seats options steps around (.node sink (.node ⟨identity, .leaf leaf, location⟩ children)) =
      [⟨⟨identity, .leaf leaf, location⟩, Step.within steps around⟩] := by
    rw [Passage.seats_node]
    cases leaf with
    | text value =>
      cases around with
      | none => rfl
      | some chain => exact absurd rfl (apart tallies.isSome value)
    | _ => rfl
  rw [seats, placed_own appends]
  exact .cons (shows_own appends opened around) .nil

end Leaves

-- A tag with a record of its own: its attributes come first, then what is below it.
theorem seated_plain {sink identity : Nat} {tag : Tag} {location : Location} {children : List Outline} {own : List Attr}
    {attrsOf : Nat} {left : List Sketch} {block : List Line} {start : Ledger} {last : Line} (rest : List Line)
    (below : List Step → List Seat) (appends : Item.Appends ⟨identity, .tag tag, location⟩ last)
    (seats : ∀ steps around,
      Sketch.seats options steps around (.node ⟨identity, .tag tag, location⟩ (Outline.flatten children)) =
        below (Step.within steps around) ++ [⟨⟨identity, .tag tag, location⟩, Step.within steps around⟩])
    (written : Written options (.attrs attrsOf left own) start block r) (branch : start.branch = l.branch)
    (seated : Seated options (.attrs attrsOf left own) start block)
    (inner : ∀ {steps : List Step} {n : Openings}, n.opened = steps.filterMap Step.heads? →
      List.Forall₂ Seat.Shows (below steps) (n.placed rest) ∧ ∃ blocks, n.Reads rest (n.behind blocks)) :
    Seated options (.node sink (.node ⟨identity, .tag tag, location⟩ children)) l (block ++ (rest ++ [last])) := by
  intro steps around tallies n opened
  have begun : start.Tallies around := ⟨by rw [branch]; exact tallies.isSome, tallies.counts.eq branch⟩
  have silent := seated.placed_eq_nil around begun (fun _ => rfl) opened
  have reads := written.nests.attrs begun.counts n
  have deeper : ((n.inside (around.getD .none)).behind (Sketch.allCopiedBlocks left)).opened =
      (Step.within steps around).filterMap Step.heads? := Step.opened_within opened around
  obtain ⟨shown, blocks, read⟩ := inner deeper
  rw [Passage.seats_node, seats, Openings.placed_append reads, silent, List.nil_append, Openings.placed_append read,
    placed_own appends]
  exact List.rel_append shown (.cons ⟨appends, deeper⟩ .nil)

section Control

variable {tag : Tag} {body : Passage} {m : Ledger}

theorem seated_guarded {kind : Control} {opening : Line} (filled : body.isEmpty = false)
    (opened : tag.opening? kind = some opening) (inner : Written options body (l.inside none) lines m)
    (seated : Seated options body (l.inside none) lines) :
    Seated options (.control kind tag body) l (opening :: lines ++ [.close]) := by
  have guard : ∃ step, tag.step? kind = some step ∧ step.heads? = some [opening] ∧ opening.isAppending = false ∧
      ∀ n : Openings, n.read opening = some { n with opened := [opening] :: n.opened } := by
    cases kind with
    | conditional =>
      obtain ⟨test, tested, rfl⟩ := Option.map_eq_some_iff.mp opened
      exact ⟨.condition test, by simp [Tag.step?, tested], rfl, rfl, fun _ => rfl⟩
    | loop =>
      obtain ⟨source, sourced, bound⟩ := Option.bind_eq_some_iff.mp opened
      obtain ⟨binding, found, made⟩ := Option.bind_eq_some_iff.mp bound
      cases made
      exact ⟨.loop source binding, by simp [Tag.step?, sourced, found], rfl, rfl, fun _ => rfl⟩
    | _ => cases opened
  obtain ⟨step, stepped, heads, quiet, begins⟩ := guard
  intro steps around tallies n known
  have seats : Passage.seats options steps around (.control kind tag body) =
      body.seats options (step :: Step.within steps around) none := by
    cases kind with
    | conditional => simp [Passage.seats, Tag.seats, filled, stepped]
    | loop => simp [Passage.seats, Tag.seats, filled, stepped]
    | _ => cases opened
  have deeper : [opening] :: (n.inside (around.getD .none)).opened =
      (step :: Step.within steps around).filterMap Step.heads? := by
    rw [List.filterMap_cons_some heads, Step.opened_within known]
  rw [seats, List.cons_append, Openings.placed_quiet (begins _) quiet,
    Openings.placed_ended (inner.nests.outside inner _) rfl]
  exact seated.outside deeper

theorem seated_switch (inner : Written options body (l.inside (some Switches.fresh)) lines m)
    (seated : Seated options body (l.inside (some Switches.fresh)) lines) :
    Seated options (.control .switch tag body) l (if m.isChained then lines ++ [.close] else lines) := by
  intro steps around tallies n opened
  have begun : (l.inside (some Switches.fresh)).Tallies (some .none) := ⟨rfl, rfl⟩
  have shown := seated (Step.within steps around) (some .none) begun (n.inside (around.getD .none))
    (Step.opened_within opened around)
  obtain ⟨-, reads⟩ := inner.nests .none rfl
  have read : (n.inside (around.getD .none)).Reads lines _ := reads (n.inside (around.getD .none))
  split
  · rw [Openings.placed_ended read rfl]
    exact shown
  · exact shown

-- Behind the head of a branch, its content stands in the chain that has become longer.
theorem seated_branch (kind : Control) {around : Option Chain} {steps : List Step} {n : Openings} {heads : List Line}
    (opened : n.opened = steps.filterMap Step.heads?) (quiet : ∀ line ∈ heads, line.isAppending = false)
    (reads : (n.inside (around.getD .none)).Reads heads (n.inside (around.getD .none ++ tag.branch kind)))
    (seated : Seated options body (l.inside none) lines) :
    List.Forall₂ Seat.Shows (body.seats options (.branch (around.getD .none ++ tag.branch kind) :: steps) none)
      ((n.inside (around.getD .none)).placed (heads ++ lines)) := by
  rw [Openings.placed_append reads, Openings.placed_silent quiet, List.nil_append]
  refine seated.outside ?_
  exact Step.opened_within opened (some (around.getD .none ++ tag.branch kind))

theorem seated_case {hasCase : Bool} {test : Operand} (branch : l.branch = some ⟨hasCase, false⟩)
    (tested : tag.operand? .condition "test" = some test) (seated : Seated options body (l.inside none) lines) :
    Seated options (.control .case tag body) l ((if hasCase then .elseIf test else .openIf test) :: lines) := by
  intro steps around tallies n opened
  have own : tag.branch .case = ⟨[test], 0⟩ := by rw [Tag.branch, tested, Option.getD_some]
  have counts := tallies.counts
  unfold Ledger.Counts at counts
  rw [branch] at counts
  obtain ⟨rfl, untouched⟩ := Switch.mk.inj counts
  have early : (around.getD .none).defaults = 0 := by simpa using untouched
  refine seated_branch .case opened (List.forall_mem_singleton.mpr ?_) (.single ?_) seated
  · split <;> rfl
  · rw [own]
    exact Openings.read_case early test n

theorem seated_default {state : Switch} (branch : l.branch = some state)
    (seated : Seated options body (l.inside none) lines) :
    Seated options (.control .default tag body) l (if state.hasCase then .otherwise :: lines else lines) := by
  intro steps around tallies n opened
  have counts := tallies.counts
  unfold Ledger.Counts at counts
  rw [branch] at counts
  cases counts
  have begins : (if !(around.getD .none).tests.isEmpty then Line.otherwise :: lines else lines) =
      (if !(around.getD .none).tests.isEmpty then [.otherwise] else []) ++ lines := by
    split <;> rfl
  rw [begins]
  refine seated_branch .default opened ?_ (Openings.reads_default _ n) seated
  split
  · exact List.forall_mem_singleton.mpr rfl
  · exact List.forall_mem_nil _

end Control

theorem seated (written : Written options passage l lines r) : Seated options passage l lines := by
  induction written with
  | noNodes => exact .silent (fun _ _ _ => rfl) (List.forall_mem_nil _)
  | @moreNodes _ first rest _ _ _ _ _ before _ head tail =>
    refine .append before (fun steps around => ?_) head tail
    exact Sketch.allSeats_append options steps around first.flat (Outline.flatten rest)
  | file _ ih => exact ih
  | blank inside _ =>
    refine .silent (fun steps around tallies => ?_) (List.forall_mem_nil _)
    cases around with
    | none => cases inside.symm.trans tallies.isSome
    | some chain => rfl
  | field found apart => exact seated_leaf (.field found) apart
  | value found emitted =>
    refine seated_leaf (.value found emitted) fun _ text same => ?_
    rw [same] at found
    cases found
  | @script sink identity attrs body location children l _ _ block ih =>
    intro steps around tallies n opened
    have appends : Item.Appends ⟨identity, .leaf (.script attrs body), location⟩
        (.scriptRecord sink l.nextFragment body) := .script
    have begun : l.taken.Tallies around := ⟨tallies.isSome, tallies.counts⟩
    have silent := ih.placed_eq_nil around begun (fun _ => rfl) opened
    rw [Openings.placed_append (block.nests.attrs begun.counts n), silent, placed_own appends]
    exact .cons (shows_own appends opened around) .nil
  | @statement _ _ tag _ _ _ _ _ kind named stated marks =>
    refine .silent (fun steps around _ => ?_) fun line member =>
      Line.isAppending_of_mentions (Tag.isPlain_statement? stated line member).mentions
    rw [Passage.seats_node, Sketch.seats, named]
    cases kind with
    | control kind flow => cases stated
    | template => cases stated
    | _ => rfl
  | @template _ identity tag _ _ _ _ _ _ named _ inner ih =>
    intro steps around tallies n opened
    rw [Passage.seats_node, Sketch.seats, named, List.cons_append, Openings.placed_quiet rfl rfl,
      Openings.placed_ended (inner.nests.outside inner _) rfl]
    exact ih.outside (Step.opened_within opened around)
  | controlled named _ ih =>
    intro steps around tallies n opened
    rw [Passage.seats_node, Sketch.seats, named]
    exact ih steps around tallies n opened
  | closed named closing block ending ih =>
    refine seated_plain [] (fun _ => []) (.tag ending) ?_ block rfl ih fun _ => ⟨.nil, [], ?_⟩
    · intro steps around
      rw [Sketch.seats, named]
      simp [closing]
    · rw [Openings.behind_nil]
      exact .nil
  | single named opening isSingle _ block ending _ ih =>
    refine seated_plain [] (fun _ => []) (.tag ending) ?_ block rfl ih fun _ => ⟨.nil, [], ?_⟩
    · intro steps around
      rw [Sketch.seats, named]
      simp [isSingle]
    · rw [Openings.behind_nil]
      exact .nil
  | @full _ identity _ _ children _ _ _ lines _ last _ named opening isSingle inner block ending below ih =>
    have inside {steps : List Step} {n : Openings} (opened : n.opened = steps.filterMap Step.heads?) :
        List.Forall₂ Seat.Shows (Sketch.allSeats options steps none (Outline.flatten children))
          (n.placed (.resetChildren identity :: lines)) ∧
        ∃ blocks, n.Reads (.resetChildren identity :: lines) (n.behind blocks) := by
      refine ⟨?_, _, .cons rfl (inner.nests.outside inner n)⟩
      rw [Openings.placed_quiet rfl rfl]
      exact below.outside opened
    rw [List.append_assoc]
    refine seated_plain _ _ (.tag ending) ?_ block rfl ih inside
    intro steps around
    rw [Sketch.seats, named]
    simp [opening, isSingle]
  | @attrs _ _ _ _ _ _ own inner made ih =>
    intro steps around tallies n opened
    have quiet : ∀ line ∈ own, line.isAppending = false := by
      intro line member
      obtain ⟨_, _, rfl⟩ := Attr.eq_of_mem_lines? made line member
      rfl
    have fragment := ih.outside (Step.opened_within opened around)
    rw [List.cons_append, Openings.placed_quiet rfl rfl, Openings.placed_append (inner.nests.outside inner _),
      Openings.placed_silent quiet, List.append_nil]
    exact fragment
  | noCopies => exact .silent (fun _ _ _ => rfl) (List.forall_mem_nil _)
  | moreCopies before _ head tail => exact .append before (fun _ _ => rfl) head tail
  | copiedAttr => exact .silent (fun _ _ _ => rfl) (List.forall_mem_singleton.mpr rfl)
  | @copiedControl attrsOf _ tag _ children _ _ _ kind _ _ ih =>
    intro steps around tallies n opened
    have nothing : Passage.seats options steps around (.control kind tag (.copies attrsOf children)) = [] :=
      Tag.seats_nothing ..
    have below := ih steps around tallies n opened
    rwa [nothing] at below
  | ignored => exact .silent (fun _ _ _ => rfl) (List.forall_mem_nil _)
  | childless empty _ either =>
    refine .silent (fun steps around _ => ?_) (List.forall_mem_nil _)
    rcases either with rfl | rfl
    · simp [Passage.seats, Tag.seats, empty]
    · simp [Passage.seats, Tag.seats, empty]
  | guarded filled opened inner ih => exact seated_guarded filled opened inner ih
  | switch inner ih => exact seated_switch inner ih
  | case around tested inner ih => exact seated_case around tested ih
  | default around inner ih => exact seated_default around ih

end Written

namespace Template

-- The nodes whose records are appended, in the order of the lines.
def seats (template : Template) (options : Options) (loader : Loader) : List Seat :=
  Sketch.allSeats options [] none (Outline.flatten (template.outlines options loader))

-- Each record is appended just if all that its node stands in is taken. A node in a switch that is neither a case nor a
-- default, and all below it, is appended with the branch that was begun last before it. So it does not depend on the
-- tests just if no case comes before it.
theorem compile_seats (template : Template) (options : Options) (loader : Loader) (shared : Names) (text : String)
    (success : (template.compile options loader shared).1 = .ok text) :
    ∃ lines placed, (template.draft options loader shared).1 = .ok lines ∧
      text = Line.file (template.walk options loader shared).2.scope lines ∧
      Line.placed? lines = some placed ∧
      List.Forall₂ (fun seat found => seat.item.Appends found.line ∧ ∀ v, found.isReached v = seat.isReached v)
        (template.seats options loader) placed ∧
      ∀ seat ∈ template.seats options loader, ∀ chain, Step.stray chain ∈ seat.steps →
        ((∀ v, (Step.stray chain).isTaken v = true) ↔ chain.tests = []) := by
  obtain ⟨lines, drafted, written, same⟩ := template.written success
  have outside : Written options _ ((Ledger.start options shared).inside none) lines _ := written
  have reads := outside.nests.outside outside ⟨[], []⟩
  have shown := outside.seated.outside (show (Openings.mk [] []).opened = [].filterMap Step.heads? from rfl)
  refine ⟨lines, _, drafted, same, ?_, shown.imp fun _ _ own => ⟨own.appends, own.isReached⟩, ?_⟩
  · rw [Line.placed?, Line.blocks?, show lines.foldlM Openings.read ⟨[], []⟩ = _ from reads]
    rfl
  · intro _ _ chain _
    exact chain.takesLast_always

-- Nodes before, between and behind the branches of a switch.
def strayNodes : Template :=
  ⟨[.tag 1 ⟨"switch", [], false⟩
    [.leaf 2 (.comment "before") .zero,
      .tag 3 ⟨"case", testing "a", false⟩ [.leaf 4 (.text "one") .zero] .zero,
      .tag 5 ⟨"hr", [], true⟩ [] .zero,
      .tag 6 ⟨"case", testing "b", false⟩ [.leaf 7 (.text "two") .zero] .zero,
      .tag 8 ⟨"if", testing "c", false⟩ [.leaf 9 (.text "inner") .zero] .zero,
      .tag 10 ⟨"default", [], false⟩ [.leaf 11 (.text "three") .zero] .zero,
      .leaf 12 (.string "behind") .zero] .zero]⟩

-- If no test holds, what stands before the cases and what stands behind the default is appended.
theorem compile_seats_strayNodes : (strayNodes.compile .standard noParts []).1.isOk = true ∧
    ∃ text lines placed, (strayNodes.compile .standard noParts []).1 = .ok text ∧
      (strayNodes.draft .standard noParts []).1 = .ok lines ∧
      text = Line.file (strayNodes.walk .standard noParts []).2.scope lines ∧
      Line.placed? lines = some placed ∧
      placed.map (Placed.isReached ⟨fun _ => false, fun _ => true⟩) =
        [true, false, false, false, false, true, true] := by
  have compiled : (strayNodes.compile .standard noParts []).1.isOk = true := by decide +kernel
  obtain ⟨text, success⟩ := exists_text compiled
  obtain ⟨lines, placed, drafted, same, found, seated, _⟩ := compile_seats strayNodes .standard noParts [] text success
  refine ⟨compiled, text, lines, placed, success, drafted, same, found, ?_⟩
  calc placed.map (Placed.isReached ⟨fun _ => false, fun _ => true⟩)
    _ = (strayNodes.seats .standard noParts).map (Seat.isReached ⟨fun _ => false, fun _ => true⟩) :=
      Seat.map_isReached _ seated
    _ = [true, false, false, false, false, true, true] := by decide +kernel

-- A switch with a comment behind its only case.
def strayComment : Template :=
  ⟨[.tag 1 ⟨"switch", [], false⟩
    [.tag 2 ⟨"case", testing "a", false⟩ [.leaf 3 (.text "one") .zero] .zero, .leaf 4 (.comment "c") .zero] .zero]⟩

theorem strayComment_in_branch :
    (strayComment.compile .standard noParts []).1.toOption = some (Output.opening ++
      "<?php if ($__data[\"a\"]) \x7b ?>\n<?php $children0[] = [\"text\" => \"one\"]; ?>\n" ++
      "<?php $children0[] = [\"comment\" => \"c\"]; ?>\n<?php \x7d ?>\n" ++ Output.closing) ∧
    (strayComment.seats .standard noParts).map
        (fun seat => (seat.item.identity, seat.isReached ⟨fun _ => false, fun _ => true⟩)) =
      [(3, false), (4, false)] := by
  decide +kernel

end Template

end Stencil
