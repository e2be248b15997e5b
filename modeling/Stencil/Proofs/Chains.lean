import Stencil.Proofs.Accumulator
import Stencil.Proofs.Storage

-- The blocks of generated code. A reader that matches the end of each block with the lines that opened it and went on
-- with it finds the heads of all blocks. For a template these are one block for each condition and each loop, and for
-- each switch one chain of all its branches.

namespace Stencil

-- The branches of a switch: the tests of its cases, in order, and how many defaults come behind them.
structure Chain where
  tests : List Operand
  defaults : Nat

namespace Chain

def none : Chain := ⟨[], 0⟩

instance : Append Chain := ⟨fun first second => ⟨first.tests ++ second.tests, first.defaults + second.defaults⟩⟩

@[simp] theorem none_append (chain : Chain) : none ++ chain = chain := by
  show Chain.mk ([] ++ chain.tests) (0 + chain.defaults) = chain
  rw [List.nil_append, Nat.zero_add]

@[simp] theorem append_none (chain : Chain) : chain ++ none = chain := by
  show Chain.mk (chain.tests ++ []) (chain.defaults + 0) = chain
  rw [List.append_nil, Nat.add_zero]

theorem append_assoc (first second third : Chain) : first ++ second ++ third = first ++ (second ++ third) := by
  show Chain.mk (first.tests ++ second.tests ++ third.tests) (first.defaults + second.defaults + third.defaults) = _
  rw [List.append_assoc, Nat.add_assoc]
  rfl

-- The heads of a chain up to its end. Without a case there is no chain: the defaults stand where they are.
def begun : Chain → List Line
  | ⟨[], _⟩ => []
  | ⟨test :: tests, defaults⟩ => .openIf test :: tests.map .elseIf ++ List.replicate defaults .otherwise

theorem begun_case {chain : Chain} (tested : chain.tests ≠ []) (early : chain.defaults = 0) (test : Operand) :
    (chain ++ ⟨[test], 0⟩).begun = chain.begun ++ [.elseIf test] := by
  obtain ⟨_ | ⟨first, tests⟩, defaults⟩ := chain
  · exact absurd rfl tested
  · cases early
    show Line.openIf first :: (tests ++ [test]).map .elseIf ++ [] = Line.openIf first :: tests.map .elseIf ++ [] ++ [_]
    simp

theorem begun_default {chain : Chain} (tested : chain.tests ≠ []) :
    (chain ++ ⟨[], 1⟩).begun = chain.begun ++ [.otherwise] := by
  obtain ⟨_ | ⟨first, tests⟩, defaults⟩ := chain
  · exact absurd rfl tested
  · show Line.openIf first :: (tests ++ []).map .elseIf ++ List.replicate (defaults + 1) .otherwise = _
    rw [List.append_nil, List.replicate_succ', ← List.append_assoc]
    rfl

end Chain

inductive Block where
  | condition (test : Operand)
  | loop (source : Operand) (binding : Binding)
  | switch (chain : Chain)

namespace Block

-- The lines that open a block, go on with it and end it.
def heads? : Block → Option (List Line)
  | .condition test => some [.openIf test, .close]
  | .loop source binding => some [.openLoop source binding, .close]
  | .switch chain => if chain.tests.isEmpty then none else some (chain.begun ++ [.close])

def allHeads (blocks : List Block) : List (List Line) := blocks.filterMap heads?

-- Whether at most one branch is taken if no test holds.
def isDecided : Block → Bool
  | .switch chain => chain.tests.isEmpty || chain.defaults ≤ 1
  | _ => true

end Block

namespace Line

-- Behind a test: more tests, at most one branch without a test, and the end.
def endsChain : List Line → Bool
  | [.close] => true
  | [.otherwise, .close] => true
  | .elseIf _ :: rest => endsChain rest
  | _ => false

-- Whether these are the heads of one statement of the language of the generated code.
def isStatement : List Line → Bool
  | [.openLoop _ _, .close] => true
  | .openIf _ :: rest => endsChain rest
  | _ => false

theorem endsChain_tests (tests : List Operand) (rest : List Line) :
    endsChain (tests.map .elseIf ++ rest) = endsChain rest := by
  induction tests with
  | nil => rfl
  | cons test more ih => exact ih

theorem endsChain_defaults (defaults : Nat) :
    endsChain (List.replicate defaults .otherwise ++ [.close]) = decide (defaults ≤ 1) := by
  rcases defaults with _ | _ | more
  · rfl
  · rfl
  · rw [decide_eq_false (by omega)]
    rfl

end Line

theorem Block.isStatement_heads {block : Block} {heads : List Line} (found : block.heads? = some heads) :
    Line.isStatement heads = block.isDecided := by
  cases block with
  | condition test => cases found; rfl
  | loop source binding => cases found; rfl
  | switch chain =>
    obtain ⟨_ | ⟨first, tests⟩, defaults⟩ := chain
    · cases found
    · cases found
      calc Line.endsChain (tests.map .elseIf ++ List.replicate defaults .otherwise ++ [.close])
        _ = Line.endsChain (tests.map .elseIf ++ (List.replicate defaults .otherwise ++ [.close])) := by
          rw [List.append_assoc]
        _ = decide (defaults ≤ 1) := by rw [Line.endsChain_tests, Line.endsChain_defaults]

theorem Block.isDecided_of_headless {block : Block} (headless : block.heads? = none) : block.isDecided = true := by
  cases block with
  | switch chain =>
    obtain ⟨_ | ⟨first, tests⟩, defaults⟩ := chain
    · rfl
    · cases headless
  | _ => cases headless

-- All blocks are statements just if all switches are decided.
theorem Block.allHeads_areStatements (blocks : List Block) :
    (∀ heads ∈ allHeads blocks, Line.isStatement heads = true) ↔ ∀ block ∈ blocks, block.isDecided = true := by
  constructor
  · intro statements block member
    cases found : block.heads? with
    | none => exact isDecided_of_headless found
    | some heads =>
      rw [← isStatement_heads found]
      exact statements heads (List.mem_filterMap.mpr ⟨block, member, found⟩)
  · intro decided heads member
    obtain ⟨block, listed, found⟩ := List.mem_filterMap.mp member
    rw [isStatement_heads found]
    exact decided block listed

-- What a reader of lines keeps: the heads so far of each open block, innermost first, and the heads of the blocks
-- that have ended, in the order of their ends.
structure Openings where
  opened : List (List Line)
  ended : List (List Line)

namespace Openings

def extend (n : Openings) (line : Line) : Option Openings :=
  match n.opened with
  | [] => none
  | heads :: around => some { n with opened := (heads ++ [line]) :: around }

def read (n : Openings) : Line → Option Openings
  | .openIf test => some { n with opened := [.openIf test] :: n.opened }
  | .openLoop source binding => some { n with opened := [.openLoop source binding] :: n.opened }
  | .elseIf test => n.extend (.elseIf test)
  | .otherwise => n.extend .otherwise
  | .close => match n.opened with
    | [] => none
    | heads :: around => some ⟨around, n.ended ++ [heads ++ [.close]]⟩
  | _ => some n

-- The lines lead the reader from one state to another.
def Reads (n : Openings) (lines : List Line) (m : Openings) : Prop := lines.foldlM read n = some m

namespace Reads

variable {n m k : Openings} {front back lines : List Line} {line : Line}

theorem nil : Reads n [] n := rfl

theorem single (reads : n.read line = some m) : Reads n [line] m := by
  rw [Reads, List.foldlM_cons, reads]
  rfl

theorem append (first : Reads n front m) (second : Reads m back k) : Reads n (front ++ back) k := by
  rw [Reads, List.foldlM_append, first]
  exact second

theorem cons (first : n.read line = some m) (second : Reads m back k) : Reads n (line :: back) k :=
  (single first).append second

end Reads

-- A line that stays on its level neither opens nor ends a block.
theorem read_flat {line : Line} (flat : ∀ depth, line.level depth = some depth) (n : Openings) :
    n.read line = some n := by
  cases line with
  | openIf test => cases flat 0
  | openLoop source binding => cases flat 0
  | elseIf test => cases flat 0
  | otherwise => cases flat 0
  | close => cases flat 0
  | _ => rfl

theorem reads_flat {lines : List Line} (flat : ∀ line ∈ lines, ∀ depth, line.level depth = some depth) (n : Openings) :
    Reads n lines n := by
  induction lines with
  | nil => exact .nil
  | cons first rest ih =>
    obtain ⟨own, others⟩ := List.forall_mem_cons.mp flat
    exact .cons (read_flat own n) (ih others)

-- Inside the chain that a switch has begun, if it has.
def inside (n : Openings) (chain : Chain) : Openings :=
  if chain.tests.isEmpty then n else { n with opened := chain.begun :: n.opened }

-- Behind some more blocks.
def behind (n : Openings) (blocks : List Block) : Openings := { n with ended := n.ended ++ Block.allHeads blocks }

@[simp] theorem inside_none (n : Openings) : n.inside .none = n := rfl

@[simp] theorem behind_nil (n : Openings) : n.behind [] = n := by
  show Openings.mk n.opened (n.ended ++ []) = n
  rw [List.append_nil]

theorem behind_append (n : Openings) (front back : List Block) :
    n.behind (front ++ back) = (n.behind front).behind back := by
  simp only [behind, Block.allHeads, List.filterMap_append, List.append_assoc]

theorem behind_inside (n : Openings) (chain : Chain) (blocks : List Block) :
    (n.inside chain).behind blocks = (n.behind blocks).inside chain := by
  unfold inside
  split <;> rfl

theorem read_case {chain : Chain} (early : chain.defaults = 0) (test : Operand) (n : Openings) :
    (n.inside chain).read (if !chain.tests.isEmpty then .elseIf test else .openIf test) =
      some (n.inside (chain ++ ⟨[test], 0⟩)) := by
  have filled : (chain ++ ⟨[test], 0⟩).tests.isEmpty = false := by
    show (chain.tests ++ [test]).isEmpty = false
    simp
  cases untested : chain.tests.isEmpty with
  | true =>
    obtain ⟨tests, defaults⟩ := chain
    cases early
    cases List.isEmpty_iff.mp untested
    rfl
  | false =>
    have tested : chain.tests ≠ [] := List.isEmpty_eq_false_iff.mp untested
    simp [inside, untested, filled, read, extend, Chain.begun_case tested early]

theorem reads_default (chain : Chain) (n : Openings) :
    Reads (n.inside chain) (if !chain.tests.isEmpty then [.otherwise] else []) (n.inside (chain ++ ⟨[], 1⟩)) := by
  have same : (chain ++ ⟨[], 1⟩).tests = chain.tests := List.append_nil _
  unfold inside
  rw [same]
  cases untested : chain.tests.isEmpty with
  | true => exact .nil
  | false =>
    rw [Chain.begun_default (List.isEmpty_eq_false_iff.mp untested)]
    exact .single rfl

theorem reads_close (chain : Chain) (n : Openings) :
    Reads (n.inside chain) (if !chain.tests.isEmpty then [.close] else []) (n.behind [.switch chain]) := by
  cases untested : chain.tests.isEmpty with
  | true => simp [Reads, inside, behind, Block.allHeads, Block.heads?, untested]
  | false => simp [Reads, inside, behind, Block.allHeads, Block.heads?, untested, read]

end Openings

-- The heads of the blocks of some lines, in the order of their ends, if each end has its block.
def Line.blocks? (lines : List Line) : Option (List (List Line)) :=
  match lines.foldlM Openings.read ⟨[], []⟩ with
  | some ⟨[], ended⟩ => some ended
  | _ => none

namespace Tag

-- The control flow that a tag is. In a fragment only its applied form counts.
def flow? (isCopied : Bool) (tag : Tag) : Option Control :=
  match TagKind.ofName? tag.name with
  | some (.control kind flow) => if isCopied && flow = .content then none else some kind
  | _ => none

-- The branch that a tag adds to the switch around it.
def branch (tag : Tag) : Control → Chain
  | .case => ⟨[(tag.operand? .condition "test").getD .flag], 0⟩
  | .default => ⟨[], 1⟩
  | _ => .none

-- The block of a condition or a loop.
def guard? (tag : Tag) : Control → Option Block
  | .conditional => (tag.operand? .condition "test").map .condition
  | .loop => do some (.loop (← tag.operand? .value "from") (← tag.binding?))
  | _ => none

-- The block that control flow makes itself, given the branches below it.
def ownBlocks (tag : Tag) (isChildless : Bool) (below : Chain) : Control → List Block
  | .switch => [.switch below]
  | kind => if isChildless then [] else (tag.guard? kind).toList

end Tag

namespace Sketch

def chain (isCopied : Bool) : Sketch → Chain
  | .node ⟨_, .tag tag, _⟩ _ => (tag.flow? isCopied).elim .none tag.branch
  | .node ⟨_, .leaf _, _⟩ _ => .none

def allChain (isCopied : Bool) : List Sketch → Chain
  | [] => .none
  | first :: rest => first.chain isCopied ++ allChain isCopied rest

theorem allChain_append (isCopied : Bool) (front back : List Sketch) :
    allChain isCopied (front ++ back) = allChain isCopied front ++ allChain isCopied back := by
  induction front with
  | nil => rw [List.nil_append, allChain, Chain.none_append]
  | cons first rest ih => rw [List.cons_append, allChain, ih, allChain, Chain.append_assoc]

mutual

-- The blocks of what stands in a fragment, in the order of their ends.
def copiedBlocks : Sketch → List Block
  | .node ⟨_, .tag tag, _⟩ below =>
    match tag.flow? true with
    | some kind => allCopiedBlocks below ++ tag.ownBlocks below.isEmpty (allChain true below) kind
    | none => []
  | .node ⟨_, .leaf _, _⟩ _ => []

def allCopiedBlocks : List Sketch → List Block
  | [] => []
  | first :: rest => first.copiedBlocks ++ allCopiedBlocks rest

end

mutual

-- The blocks of a node. Those of the fragment of a tag come before those of its children, and a single tag has only
-- the former.
def blocks (options : Options) : Sketch → List Block
  | .node ⟨_, .tag tag, _⟩ below =>
    match TagKind.ofName? tag.name with
    | some (.control kind _) =>
      allBlocks options below ++ tag.ownBlocks below.isEmpty (allChain false below) kind
    | some .template => allBlocks options below
    | some _ => []
    | none =>
      if tag.selfClosing then []
      else allCopiedBlocks (copies below) ++ if Walk.isSingle options tag then [] else allBlocks options below
  | .node ⟨_, .leaf _, _⟩ _ => []

def allBlocks (options : Options) : List Sketch → List Block
  | [] => []
  | first :: rest => first.blocks options ++ allBlocks options rest

end

theorem allBlocks_append (options : Options) (front back : List Sketch) :
    allBlocks options (front ++ back) = allBlocks options front ++ allBlocks options back := by
  induction front with
  | nil => rfl
  | cons first rest ih => rw [List.cons_append, allBlocks, ih, allBlocks, List.append_assoc]

end Sketch

namespace Passage

-- The branches that a passage adds to the switch around it.
def chain : Passage → Chain
  | .node _ outline => Sketch.allChain false outline.flat
  | .nodes _ outlines => Sketch.allChain false (Outline.flatten outlines)
  | .copy _ sketch => sketch.chain true
  | .copies _ sketches => Sketch.allChain true sketches
  | .control kind tag _ => tag.branch kind
  | .attrs _ _ _ => .none

def blocks (options : Options) : Passage → List Block
  | .node _ outline => Sketch.allBlocks options outline.flat
  | .nodes _ outlines => Sketch.allBlocks options (Outline.flatten outlines)
  | .copy _ sketch => sketch.copiedBlocks
  | .copies _ sketches => Sketch.allCopiedBlocks sketches
  | .control kind tag body => body.blocks options ++ tag.ownBlocks body.isEmpty body.chain kind
  | .attrs _ left _ => Sketch.allCopiedBlocks left

theorem blocks_of_isEmpty (options : Options) (passage : Passage) (empty : passage.isEmpty = true) :
    passage.blocks options = [] := by
  cases passage with
  | nodes sink outlines =>
    unfold blocks
    rw [List.isEmpty_iff.mp empty]
    rfl
  | copies attrsOf sketches =>
    unfold blocks
    rw [List.isEmpty_iff.mp empty]
    rfl
  | _ => cases empty

end Passage

-- What a ledger says of the branches that the switch around a node has had. Outside of a switch there are none.
def Ledger.Counts (l : Ledger) (chain : Chain) : Prop :=
  match l.branch with
  | none => chain = .none
  | some state => state = ⟨!chain.tests.isEmpty, chain.defaults != 0⟩

theorem Ledger.Counts.eq {l r : Ledger} {chain : Chain} (counts : l.Counts chain) (same : r.branch = l.branch) :
    r.Counts chain := by
  unfold Counts
  rw [same]
  exact counts

-- A passage leaves its blocks behind, and adds its branches to the chain that it stands in.
def Nests (options : Options) (passage : Passage) (l : Ledger) (lines : List Line) (r : Ledger) : Prop :=
  ∀ chain, l.Counts chain → r.Counts (chain ++ passage.chain) ∧
    ∀ n : Openings, (n.inside chain).Reads lines ((n.behind (passage.blocks options)).inside (chain ++ passage.chain))

namespace Nests

open Openings (Reads)

variable {options : Options} {passage : Passage} {l m r : Ledger} {lines : List Line}

-- A passage without branches of its own.
theorem still (same : r.branch = l.branch) (alone : passage.chain = .none) (reads : ∀ chain, l.Counts chain →
    ∀ n : Openings, (n.inside chain).Reads lines ((n.inside chain).behind (passage.blocks options))) :
    Nests options passage l lines r := by
  intro chain counts
  rw [alone, Chain.append_none]
  refine ⟨counts.eq same, ?_⟩
  intro n
  rw [← Openings.behind_inside]
  exact reads chain counts n

-- A passage without control flow.
theorem flat (same : r.branch = l.branch) (alone : passage.chain = .none) (empty : passage.blocks options = [])
    (flat : ∀ line ∈ lines, ∀ depth, line.level depth = some depth) : Nests options passage l lines r := by
  apply still same alone
  intro chain _ n
  rw [empty, Openings.behind_nil]
  exact Openings.reads_flat flat _

theorem append {first second : Passage} {others : List Line} (chain : passage.chain = first.chain ++ second.chain)
    (blocks : passage.blocks options = first.blocks options ++ second.blocks options)
    (head : Nests options first l lines m) (tail : Nests options second m others r) :
    Nests options passage l (lines ++ others) r := by
  intro before counts
  obtain ⟨middle, front⟩ := head before counts
  obtain ⟨last, back⟩ := tail _ middle
  rw [chain, ← Chain.append_assoc]
  refine ⟨last, ?_⟩
  intro n
  rw [blocks, Openings.behind_append]
  exact (front n).append (back _)

theorem attrs {attrsOf : Nat} {left : List Sketch} {own : List Attr} {chain : Chain}
    (nests : Nests options (.attrs attrsOf left own) l lines r) (counts : l.Counts chain) (n : Openings) :
    (n.inside chain).Reads lines ((n.inside chain).behind (Sketch.allCopiedBlocks left)) := by
  obtain ⟨-, reads⟩ := nests chain counts
  have read := reads n
  rwa [Passage.chain, Chain.append_none, ← Openings.behind_inside] at read

-- A passage that stands in no switch.
theorem outside (written : Written options passage (l.inside none) lines m)
    (nests : Nests options passage (l.inside none) lines m) (n : Openings) :
    n.Reads lines (n.behind (passage.blocks options)) := by
  have isSome : m.branch.isSome = false := written.isSome_branch
  obtain ⟨counts, reads⟩ := nests .none rfl
  rw [Chain.none_append] at counts reads
  have alone : passage.chain = .none := by
    unfold Ledger.Counts at counts
    cases around : m.branch with
    | none => rwa [around] at counts
    | some state =>
      rw [around] at isSome
      cases isSome
  have read := reads n
  rwa [alone, Openings.inside_none, Openings.inside_none] at read

end Nests

theorem Tag.chain_node {sink identity : Nat} {tag : Tag} {location : Location} {children : List Outline} :
    Passage.chain (.node sink (.node ⟨identity, .tag tag, location⟩ children)) =
      (tag.flow? false).elim .none tag.branch := Chain.append_none _

theorem Passage.blocks_node (options : Options) {sink : Nat} {item : Item} {children : List Outline} :
    Passage.blocks options (.node sink (.node item children)) =
      Sketch.blocks options (.node item (Outline.flatten children)) := List.append_nil _

theorem Tag.flow?_of_none {tag : Tag} (named : TagKind.ofName? tag.name = none) : tag.flow? false = none := by
  rw [flow?, named]

namespace Written

open Openings (Reads)

variable {options : Options} {passage : Passage} {l r : Ledger} {lines : List Line}

theorem branch_attrs {attrsOf : Nat} {left : List Sketch} {own : List Attr}
    (written : Written options (.attrs attrsOf left own) l lines r) : r.branch = l.branch := by
  cases written
  rfl

theorem reads_ending {identity sink attrsOf : Nat} {name : String} {childrenOf : Option Nat} {last : Line}
    (ending : Ending identity sink attrsOf name childrenOf last) (n : Openings) : n.Reads [last] (n.behind []) := by
  rw [Openings.behind_nil]
  exact .single (Openings.read_flat (level_ending ending) n)

theorem nests_statement {sink identity : Nat} {tag : Tag} {location : Location} {children : List Outline}
    {kind : TagKind} (named : TagKind.ofName? tag.name = some kind) (stated : tag.statement? options kind = some lines)
    (same : r.branch = l.branch) :
    Nests options (.node sink (.node ⟨identity, .tag tag, location⟩ children)) l lines r := by
  have other : tag.flow? false = none ∧
      Sketch.blocks options (.node ⟨identity, .tag tag, location⟩ (Outline.flatten children)) = [] := by
    simp only [Tag.flow?, Sketch.blocks, named]
    cases kind with
    | control kind flow => cases stated
    | template => cases stated
    | _ => exact ⟨rfl, rfl⟩
  apply Nests.flat same
  · rw [Tag.chain_node, other.1]
    rfl
  · rw [Passage.blocks_node, other.2]
  · intro line member
    exact (Tag.isPlain_statement? stated line member).level

section Control

variable {tag : Tag} {body : Passage} {m : Ledger}

theorem nests_guarded {kind : Control} {opening : Line} (filled : body.isEmpty = false)
    (opened : tag.opening? kind = some opening) (inner : Written options body (l.inside none) lines m)
    (nests : Nests options body (l.inside none) lines m) :
    Nests options (.control kind tag body) l (opening :: lines ++ [.close])
      ((m.inside l.branch).assign (tag.binds kind)) := by
  have guard : ∃ block, tag.guard? kind = some block ∧ block.heads? = some [opening, .close] ∧
      ∀ n : Openings, n.read opening = some { n with opened := [opening] :: n.opened } := by
    cases kind with
    | conditional =>
      obtain ⟨test, tested, rfl⟩ := Option.map_eq_some_iff.mp opened
      exact ⟨.condition test, by simp [Tag.guard?, tested], rfl, fun _ => rfl⟩
    | loop =>
      obtain ⟨source, sourced, bound⟩ := Option.bind_eq_some_iff.mp opened
      obtain ⟨binding, found, made⟩ := Option.bind_eq_some_iff.mp bound
      cases made
      exact ⟨.loop source binding, by simp [Tag.guard?, sourced, found], rfl, fun _ => rfl⟩
    | _ => cases opened
  obtain ⟨block, guarded, heads, begins⟩ := guard
  have own : tag.branch kind = .none ∧ tag.ownBlocks body.isEmpty body.chain kind = [block] := by
    cases kind with
    | conditional => simp [Tag.branch, Tag.ownBlocks, filled, guarded]
    | loop => simp [Tag.branch, Tag.ownBlocks, filled, guarded]
    | _ => cases opened
  have ends (n : Openings) : n.behind [block] = { n with ended := n.ended ++ [[opening, .close]] } := by
    simp [Openings.behind, Block.allHeads, heads]
  refine Nests.still rfl own.1 ?_
  intro chain _ n
  rw [Passage.blocks, own.2, Openings.behind_append, ends]
  exact (Reads.cons (begins _) (nests.outside inner _)).append (.single rfl)

theorem nests_switch (nests : Nests options body (l.inside (some Switches.fresh)) lines m) :
    Nests options (.control .switch tag body) l (if m.isChained then lines ++ [.close] else lines)
      (m.inside l.branch) := by
  obtain ⟨counts, reads⟩ := nests .none rfl
  rw [Chain.none_append] at counts reads
  have chained : m.isChained = !body.chain.tests.isEmpty := by
    unfold Ledger.Counts at counts
    cases around : m.branch with
    | none =>
      rw [around] at counts
      simp [Ledger.isChained, around, counts, Chain.none]
    | some state =>
      rw [around] at counts
      simp [Ledger.isChained, around, counts]
  have ends : (if m.isChained then lines ++ [.close] else lines) =
      lines ++ if !body.chain.tests.isEmpty then [.close] else [] := by
    rw [chained]
    split <;> simp
  have blocks : Passage.blocks options (.control .switch tag body) = body.blocks options ++ [.switch body.chain] := rfl
  rw [ends]
  refine Nests.still rfl rfl ?_
  intro chain _ n
  rw [blocks, Openings.behind_append]
  exact (reads (n.inside chain)).append (Openings.reads_close body.chain _)

theorem nests_case {hasCase : Bool} {test : Operand} (around : l.branch = some ⟨hasCase, false⟩)
    (tested : tag.operand? .condition "test" = some test) (inner : Written options body (l.inside none) lines m)
    (nests : Nests options body (l.inside none) lines m) :
    Nests options (.control .case tag body) l ((if hasCase then .elseIf test else .openIf test) :: lines)
      (m.inside (some ⟨true, false⟩)) := by
  intro chain counts
  have branch : tag.branch .case = ⟨[test], 0⟩ := by rw [Tag.branch, tested, Option.getD_some]
  have own : tag.ownBlocks body.isEmpty body.chain .case = [] := by simp [Tag.ownBlocks, Tag.guard?]
  unfold Ledger.Counts at counts
  rw [around] at counts
  obtain ⟨rfl, untouched⟩ := Switch.mk.inj counts
  have early : chain.defaults = 0 := by simpa using untouched
  rw [Passage.chain, branch]
  constructor
  · show (⟨true, false⟩ : Switch) = ⟨!(chain.tests ++ [test]).isEmpty, chain.defaults + 0 != 0⟩
    simp [early]
  · intro n
    rw [Passage.blocks, own, List.append_nil, ← Openings.behind_inside]
    exact .cons (Openings.read_case early test n) (nests.outside inner _)

theorem nests_default {state : Switch} (around : l.branch = some state)
    (inner : Written options body (l.inside none) lines m) (nests : Nests options body (l.inside none) lines m) :
    Nests options (.control .default tag body) l (if state.hasCase then .otherwise :: lines else lines)
      (m.inside (some { state with hasDefault := true })) := by
  intro chain counts
  have own : tag.ownBlocks body.isEmpty body.chain .default = [] := by simp [Tag.ownBlocks, Tag.guard?]
  unfold Ledger.Counts at counts
  rw [around] at counts
  cases counts
  constructor
  · show (⟨_, true⟩ : Switch) = ⟨!(chain.tests ++ []).isEmpty, chain.defaults + 1 != 0⟩
    simp
  · intro n
    have begins : (if !chain.tests.isEmpty then Line.otherwise :: lines else lines) =
        (if !chain.tests.isEmpty then [.otherwise] else []) ++ lines := by
      split <;> rfl
    rw [Passage.blocks, own, List.append_nil, ← Openings.behind_inside, begins]
    exact (Openings.reads_default chain n).append (nests.outside inner _)

end Control

theorem nests_tag {sink identity : Nat} {tag : Tag} {location : Location} {children : List Outline} {kind : Control}
    {flow : Flow} (named : TagKind.ofName? tag.name = some (.control kind flow))
    (nests : Nests options (.control kind tag (.nodes sink children)) l lines r) :
    Nests options (.node sink (.node ⟨identity, .tag tag, location⟩ children)) l lines r := by
  have sameChain : Passage.chain (.node sink (.node ⟨identity, .tag tag, location⟩ children)) =
      Passage.chain (.control kind tag (.nodes sink children)) := by
    rw [Tag.chain_node, Tag.flow?, named]
    rfl
  have sameBlocks : Passage.blocks options (.node sink (.node ⟨identity, .tag tag, location⟩ children)) =
      Passage.blocks options (.control kind tag (.nodes sink children)) := by
    rw [Passage.blocks_node, Sketch.blocks, named]
    rfl
  unfold Nests
  rw [sameChain, sameBlocks]
  exact nests

theorem nests_copied {attrsOf identity : Nat} {tag : Tag} {location : Location} {children : List Sketch}
    {kind : Control} (named : TagKind.ofName? tag.name = some (.control kind .applied))
    (nests : Nests options (.control kind tag (.copies attrsOf children)) l lines r) :
    Nests options (.copy attrsOf (.node ⟨identity, .tag tag, location⟩ children)) l lines r := by
  have flow : tag.flow? true = some kind := by
    rw [Tag.flow?, named]
    rfl
  have sameChain : Passage.chain (.copy attrsOf (.node ⟨identity, .tag tag, location⟩ children)) =
      Passage.chain (.control kind tag (.copies attrsOf children)) := by
    rw [Passage.chain, Sketch.chain, flow]
    rfl
  have sameBlocks : Passage.blocks options (.copy attrsOf (.node ⟨identity, .tag tag, location⟩ children)) =
      Passage.blocks options (.control kind tag (.copies attrsOf children)) := by
    rw [Passage.blocks, Sketch.copiedBlocks, flow]
    rfl
  unfold Nests
  rw [sameChain, sameBlocks]
  exact nests

-- A tag that is neither control flow nor has another meaning of its own: its attributes come first, then the children,
-- if they are written.
theorem nests_plain {sink identity : Nat} {tag : Tag} {location : Location} {children : List Outline}
    {below : List Block} {own : List Attr} {attrsOf : Nat} {left : List Sketch} {block rest : List Line}
    {start : Ledger} (named : TagKind.ofName? tag.name = none)
    (blocks : Sketch.blocks options (.node ⟨identity, .tag tag, location⟩ (Outline.flatten children)) =
      Sketch.allCopiedBlocks left ++ below)
    (written : Written options (.attrs attrsOf left own) start block r) (around : start.branch = l.branch)
    (nests : Nests options (.attrs attrsOf left own) start block r)
    (reads : ∀ n : Openings, n.Reads rest (n.behind below)) :
    Nests options (.node sink (.node ⟨identity, .tag tag, location⟩ children)) l (block ++ rest) r := by
  apply Nests.still (written.branch_attrs.trans around)
  · rw [Tag.chain_node, Tag.flow?_of_none named]
    rfl
  · intro chain counts n
    rw [Passage.blocks_node, blocks, Openings.behind_append]
    exact (nests.attrs (counts.eq around) n).append (reads _)

theorem nests (written : Written options passage l lines r) : Nests options passage l lines r := by
  induction written with
  | noNodes => exact .flat rfl rfl rfl nofun
  | @moreNodes _ first rest _ _ _ _ _ _ _ head tail =>
    refine .append ?_ ?_ head tail
    · exact Sketch.allChain_append false first.flat (Outline.flatten rest)
    · exact Sketch.allBlocks_append options first.flat (Outline.flatten rest)
  | file _ ih => exact ih
  | blank => exact .flat rfl rfl rfl nofun
  | field => exact .flat rfl rfl rfl (List.forall_mem_singleton.mpr fun _ => rfl)
  | value => exact .flat rfl rfl rfl (List.forall_mem_singleton.mpr fun _ => rfl)
  | script block ih =>
    refine .still block.branch_attrs rfl ?_
    intro chain counts n
    exact (ih.attrs counts n).append (.single rfl)
  | statement named stated marks => exact nests_statement named stated marks.branch
  | @template _ _ tag _ _ _ _ _ _ named _ inner ih =>
    have alone : tag.flow? false = none := by rw [Tag.flow?, named]
    apply Nests.still rfl
    · rw [Tag.chain_node, alone]
      rfl
    · intro chain _ n
      rw [Passage.blocks_node, Sketch.blocks, named]
      exact (Reads.cons rfl (ih.outside inner _)).append (.single rfl)
  | controlled named _ ih => exact nests_tag named ih
  | closed named closing block ending ih =>
    refine nests_plain named ?_ block rfl ih (reads_ending ending)
    rw [Sketch.blocks, named]
    simp [closing, Sketch.allCopiedBlocks]
  | single named opening isSingle _ block ending _ ih =>
    refine nests_plain named ?_ block rfl ih (reads_ending ending)
    rw [Sketch.blocks, named]
    simp [opening, isSingle]
  | @full _ identity _ _ _ _ _ _ lines _ last _ named opening isSingle inner block ending below ih =>
    have reads (n : Openings) : n.Reads (.resetChildren identity :: lines ++ [last]) _ :=
      (Reads.cons rfl (below.outside inner n)).append (.single (Openings.read_flat (level_ending ending) _))
    rw [List.append_assoc]
    refine nests_plain named ?_ block rfl ih reads
    rw [Sketch.blocks, named]
    simp [opening, isSingle, Passage.blocks]
  | @attrs _ _ _ _ _ _ own inner made ih =>
    have flat : ∀ line ∈ own, ∀ depth, line.level depth = some depth := by
      intro line member
      obtain ⟨_, _, rfl⟩ := Attr.eq_of_mem_lines? made line member
      intro depth
      rfl
    refine .still rfl rfl ?_
    intro chain _ n
    exact (Reads.cons rfl (ih.outside inner _)).append (Openings.reads_flat flat _)
  | noCopies => exact .flat rfl rfl rfl nofun
  | moreCopies _ _ head tail => exact .append rfl rfl head tail
  | @copiedAttr _ _ tag _ _ _ _ _ named =>
    have alone : tag.flow? true = none := by rw [Tag.flow?, named]
    apply Nests.flat rfl
    · rw [Passage.chain, Sketch.chain, alone]
      rfl
    · rw [Passage.blocks, Sketch.copiedBlocks, alone]
    · exact List.forall_mem_singleton.mpr fun _ => rfl
  | copiedControl named _ ih => exact nests_copied named ih
  | @ignored _ _ content _ _ _ other =>
    cases content with
    | leaf leaf => exact .flat rfl rfl rfl nofun
    | tag tag =>
      have alone : tag.flow? true = none := by
        have unapplied := other tag rfl
        unfold Tag.isApplied at unapplied
        unfold Tag.flow?
        split
        · rename_i kind flow named
          rw [named] at unapplied
          cases flow with
          | content => rfl
          | applied => cases unapplied
        · rfl
      apply Nests.flat rfl
      · rw [Passage.chain, Sketch.chain, alone]
        rfl
      · rw [Passage.blocks, Sketch.copiedBlocks, alone]
      · exact nofun
  | @childless kind tag body _ _ _ empty _ either =>
    have own : tag.branch kind = .none ∧ tag.ownBlocks body.isEmpty body.chain kind = [] := by
      rcases either with rfl | rfl
      · exact ⟨rfl, by rw [empty]; rfl⟩
      · exact ⟨rfl, by rw [empty]; rfl⟩
    refine .flat rfl own.1 ?_ nofun
    rw [Passage.blocks, own.2, body.blocks_of_isEmpty options empty, List.append_nil]
  | guarded filled opened inner ih => exact nests_guarded filled opened inner ih
  | switch _ ih => exact nests_switch ih
  | case around tested inner ih => exact nests_case around tested inner ih
  | default around inner ih => exact nests_default around inner ih

end Written

namespace Template

-- The blocks of the code of a template, in the order of their ends.
def blocks (template : Template) (options : Options) (loader : Loader) : List Block :=
  Sketch.allBlocks options (Outline.flatten (template.outlines options loader))

-- Each end in the code has its block, and the blocks are those of the template: for a switch with cases one `if`, an
-- `else if` for each further case, an `else` for each default, and one end. So the blocks are statements just if no
-- switch with cases has a second default.
theorem compile_chains (template : Template) (options : Options) (loader : Loader) (shared : Names) (text : String)
    (success : (template.compile options loader shared).1 = .ok text) :
    ∃ lines, (template.draft options loader shared).1 = .ok lines ∧
      text = Line.file (template.walk options loader shared).2.scope lines ∧
      Line.blocks? lines = some (Block.allHeads (template.blocks options loader)) ∧
      ((∀ heads ∈ Block.allHeads (template.blocks options loader), Line.isStatement heads = true) ↔
        ∀ block ∈ template.blocks options loader, block.isDecided = true) := by
  obtain ⟨lines, drafted, written, same⟩ := template.written success
  refine ⟨lines, drafted, same, ?_, Block.allHeads_areStatements _⟩
  have outside : Written options _ ((Ledger.start options shared).inside none) lines _ := written
  have reads : lines.foldlM Openings.read ⟨[], []⟩ = some ⟨[], Block.allHeads (template.blocks options loader)⟩ :=
    outside.nests.outside outside ⟨[], []⟩
  rw [Line.blocks?, reads]

-- A test of a variable.
def testing (name : String) : List Attr := [⟨.literal "test", some (.expression (.var name [])), .zero⟩]

-- A switch with an attribute in a case, so that it is written for the attributes too.
def switchWithAttribute : Template :=
  ⟨[.tag 1 ⟨"div", [], false⟩
    [.tag 2 ⟨"switch", [], false⟩
      [.tag 3 ⟨"case", testing "a", false⟩
        [.tag 4 ⟨"attribute", [⟨.literal "name", some (.literal "id"), .zero⟩,
          ⟨.literal "value", some (.literal "x"), .zero⟩], true⟩ [] .zero] .zero,
        .tag 5 ⟨"case", testing "b", false⟩
          [.tag 6 ⟨"if", testing "c", false⟩ [.leaf 7 (.text "in") .zero] .zero] .zero,
        .tag 8 ⟨"default", [], false⟩ [] .zero] .zero] .zero]⟩

theorem compile_chains_switchWithAttribute : (switchWithAttribute.compile .standard noParts []).1.isOk = true ∧
    ∃ text lines heads, (switchWithAttribute.compile .standard noParts []).1 = .ok text ∧
      (switchWithAttribute.draft .standard noParts []).1 = .ok lines ∧
      text = Line.file (switchWithAttribute.walk .standard noParts []).2.scope lines ∧
      Line.blocks? lines = some heads ∧ heads.map List.length = [4, 2, 4] ∧
      ∀ one ∈ heads, Line.isStatement one = true := by
  have compiled : (switchWithAttribute.compile .standard noParts []).1.isOk = true := by decide +kernel
  obtain ⟨text, success⟩ := exists_text compiled
  obtain ⟨lines, drafted, same, blocks, statements⟩ := compile_chains switchWithAttribute .standard noParts [] text success
  exact ⟨compiled, text, lines, _, success, drafted, same, blocks, by decide +kernel,
    statements.mpr (by decide +kernel)⟩

-- A switch with two defaults behind a case.
def repeatedDefault : Template :=
  ⟨[.tag 1 ⟨"switch", [], false⟩
    [.tag 2 ⟨"case", testing "a", false⟩ [.leaf 3 (.text "one") .zero] .zero,
      .tag 4 ⟨"default", [], false⟩ [.leaf 5 (.text "two") .zero] .zero,
      .tag 6 ⟨"default", [], false⟩ [.leaf 7 (.text "three") .zero] .zero] .zero]⟩

theorem repeatedDefault_repeats_else :
    (repeatedDefault.compile .standard noParts []).1.toOption = some (Output.opening ++
      "<?php if ($__data[\"a\"]) \x7b ?>\n<?php $children0[] = [\"text\" => \"one\"]; ?>\n" ++
      "<?php \x7d else \x7b ?>\n<?php $children0[] = [\"text\" => \"two\"]; ?>\n" ++
      "<?php \x7d else \x7b ?>\n<?php $children0[] = [\"text\" => \"three\"]; ?>\n<?php \x7d ?>\n" ++
      Output.closing) ∧
    (Block.allHeads (repeatedDefault.blocks .standard noParts)).map Line.isStatement = [false] := by
  decide +kernel

end Template

end Stencil
