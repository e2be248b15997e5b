import Stencil.Proofs.Line

-- What generated lines do. A machine runs them one by one: it keeps the lists of records and of attributes that the
-- lines build, copies a list when a record takes it in, and knows of each open block which of its branches are passed
-- over. Whether a test holds is looked up by the text of the test.

namespace Stencil

inductive AttrValue where
  | text (value : String)
  | flag
  deriving DecidableEq, Repr

def Operand.fixed? : Operand → Option AttrValue
  | .text value => some (.text value)
  | .flag => some .flag
  | .computed _ => none

-- Attributes in their order, with no two of one name.
abbrev Attributes := List (String × AttrValue)

-- A name keeps its place when it gets another value.
def Attributes.set : Attributes → String × AttrValue → Attributes
  | [], new => [new]
  | old :: rest, new => if old.1 = new.1 then new :: rest else old :: set rest new

inductive Record where
  | field (key text : String)
  | script (attrs : Attributes) (body : String)
  | tag (name : String) (attrs : Attributes) (children : Option (List Record))

-- The variables of the generated code; those that have no value yet cannot be read.
structure Memory where
  children : Nat → Option (List Record)
  attrs : Nat → Option Attributes

namespace Memory

def setChildren (memory : Memory) (identity : Nat) (records : List Record) : Memory :=
  { memory with children := fun other => if other = identity then some records else memory.children other }

def setAttrs (memory : Memory) (attrsOf : Nat) (attrs : Attributes) : Memory :=
  { memory with attrs := fun other => if other = attrsOf then some attrs else memory.attrs other }

@[simp] theorem children_setChildren (memory : Memory) (identity : Nat) (records : List Record) (other : Nat) :
    (memory.setChildren identity records).children other =
      if other = identity then some records else memory.children other := rfl

@[simp] theorem attrs_setChildren (memory : Memory) (identity : Nat) (records : List Record) :
    (memory.setChildren identity records).attrs = memory.attrs := rfl

@[simp] theorem attrs_setAttrs (memory : Memory) (attrsOf : Nat) (attrs : Attributes) (other : Nat) :
    (memory.setAttrs attrsOf attrs).attrs other = if other = attrsOf then some attrs else memory.attrs other := rfl

@[simp] theorem children_setAttrs (memory : Memory) (attrsOf : Nat) (attrs : Attributes) :
    (memory.setAttrs attrsOf attrs).children = memory.children := rfl

def append (memory : Memory) (sink : Nat) (record : Record) : Option Memory :=
  (memory.children sink).map fun records => memory.setChildren sink (records ++ [record])

end Memory

-- The state of a chain of branches: one of them is being run, none has been run yet, or the others are passed over.
inductive Mode where
  | running
  | waiting
  | done
  deriving DecidableEq, Repr

namespace Mode

-- Whether lines inside these blocks are run.
def isLive (blocks : List Mode) : Bool := blocks.all (· = .running)

def begin (isLive holds : Bool) : Mode := if isLive then if holds then running else waiting else done

def next (holds : Bool) : Mode → Mode
  | waiting => if holds then running else waiting
  | running => done
  | done => done

theorem next_of_ne {mode : Mode} (holds : Bool) (apart : mode ≠ .waiting) : mode.next holds = done := by
  cases mode with
  | waiting => exact absurd rfl apart
  | running => rfl
  | done => rfl

end Mode

structure Machine where
  memory : Memory
  -- The open blocks, innermost first.
  blocks : List Mode

namespace Line

-- A line that is no branch, where it is run. Lines that do more than building records are left out.
def effect? (memory : Memory) : Line → Option Memory
  | .resetAttrs attrsOf => some (memory.setAttrs attrsOf [])
  | .resetChildren identity => some (memory.setChildren identity [])
  | .assignAttr attrsOf (.text name) value => do
    let attrs ← memory.attrs attrsOf
    return memory.setAttrs attrsOf (attrs.set (name, ← value.fixed?))
  | .record sink key text => memory.append sink (.field key text)
  | .scriptRecord sink attrsOf body => do memory.append sink (.script (← memory.attrs attrsOf) body)
  | .tagRecord sink attrsOf name none => do memory.append sink (.tag name (← memory.attrs attrsOf) none)
  | .tagRecord sink attrsOf name (some identity) => do
    memory.append sink (.tag name (← memory.attrs attrsOf) (some (← memory.children identity)))
  | _ => none

variable (truth : String → Bool) (scope : Scope)

def holds (test : Operand) : Bool := truth (test.code.render scope)

def step (machine : Machine) : Line → Option Machine
  | .openIf test =>
    some { machine with blocks := .begin (Mode.isLive machine.blocks) (holds truth scope test) :: machine.blocks }
  | .elseIf test => match machine.blocks with
    | [] => none
    | mode :: around => some { machine with blocks := mode.next (holds truth scope test) :: around }
  | .otherwise => match machine.blocks with
    | [] => none
    | mode :: around => some { machine with blocks := mode.next true :: around }
  | .close => match machine.blocks with
    | [] => none
    | _ :: around => some { machine with blocks := around }
  | line =>
    if Mode.isLive machine.blocks then (line.effect? machine.memory).map fun memory => { machine with memory := memory }
    else some machine

def run (lines : List Line) (machine : Machine) : Option Machine := lines.foldlM (step truth scope) machine

-- The records that the closure returns, if every line can be run and every block is closed.
def execute (lines : List Line) : Option (List Record) := do
  let start : Memory := ⟨fun identity => if identity = Output.rootSink then some [] else none, fun _ => none⟩
  let machine ← run truth scope lines ⟨start, []⟩
  if machine.blocks = [] then machine.memory.children Output.rootSink else none

theorem run_append (front back : List Line) (machine : Machine) :
    run truth scope (front ++ back) machine = (run truth scope front machine).bind (run truth scope back) :=
  List.foldlM_append

def isBranch : Line → Bool
  | .openIf _ => true
  | .elseIf _ => true
  | .otherwise => true
  | .close => true
  | _ => false

theorem step_plain {line : Line} (plain : line.isBranch = false) (machine : Machine) :
    step truth scope machine line =
      if Mode.isLive machine.blocks then (line.effect? machine.memory).map fun memory => { machine with memory := memory }
      else some machine := by
  cases line <;> first | rfl | cases plain

end Line

section Running

variable (truth : String → Bool) (scope : Scope)

-- Where the lines are run, they turn one memory into another and end in the blocks that they began in.
def Runs (lines : List Line) (memory memory' : Memory) : Prop :=
  ∀ blocks, Mode.isLive blocks = true → Line.run truth scope lines ⟨memory, blocks⟩ = some ⟨memory', blocks⟩

-- Where the lines are passed over, they do nothing.
def Skipped (lines : List Line) : Prop :=
  ∀ memory blocks, Mode.isLive blocks = false → Line.run truth scope lines ⟨memory, blocks⟩ = some ⟨memory, blocks⟩

variable {truth scope} {front back : List Line} {memory memory' memory'' : Memory} {single : Line}

theorem Runs.append (first : Runs truth scope front memory memory') (second : Runs truth scope back memory' memory'') :
    Runs truth scope (front ++ back) memory memory'' := by
  intro blocks live
  rw [Line.run_append, first blocks live]
  exact second blocks live

theorem Skipped.append (first : Skipped truth scope front) (second : Skipped truth scope back) :
    Skipped truth scope (front ++ back) := by
  intro memory blocks dead
  rw [Line.run_append, first memory blocks dead]
  exact second memory blocks dead

theorem Runs.line (plain : single.isBranch = false) (changed : single.effect? memory = some memory') :
    Runs truth scope [single] memory memory' := by
  intro blocks live
  simp [Line.run, Line.step_plain truth scope plain, live, changed]

theorem Skipped.line (plain : single.isBranch = false) : Skipped truth scope [single] := by
  intro memory blocks dead
  simp [Line.run, Line.step_plain truth scope plain, dead]

end Running

-- A place in memory that items are written to one after the other.
structure Channel (α : Type) where
  ready : Memory → Prop
  writes : List α → Memory → Memory → Prop
  nothing : ∀ {memory}, ready memory → writes [] memory memory
  append : ∀ {front back memory memory' memory''}, writes front memory memory' → writes back memory' memory'' →
    writes (front ++ back) memory memory''
  stays : ∀ {items memory memory'}, writes items memory memory' → ready memory'

-- The lines write the items to the channel wherever they are run.
structure Emits (truth : String → Bool) (scope : Scope) {α : Type} (channel : Channel α) (lines : List Line)
    (items : List α) : Prop where
  skipped : Skipped truth scope lines
  written : ∀ memory, channel.ready memory →
    ∃ memory', Runs truth scope lines memory memory' ∧ channel.writes items memory memory'

namespace Emits

variable {truth : String → Bool} {scope : Scope} {α : Type} {channel : Channel α} {front back : List Line}
  {items more : List α}

theorem nil : Emits truth scope channel [] [] :=
  ⟨fun _ _ _ => rfl, fun memory ready => ⟨memory, fun _ _ => rfl, channel.nothing ready⟩⟩

theorem append (first : Emits truth scope channel front items) (second : Emits truth scope channel back more) :
    Emits truth scope channel (front ++ back) (items ++ more) := by
  refine ⟨first.skipped.append second.skipped, fun memory ready => ?_⟩
  obtain ⟨middle, ran, wrote⟩ := first.written memory ready
  obtain ⟨memory', ran', wrote'⟩ := second.written middle (channel.stays wrote)
  exact ⟨memory', ran.append ran', channel.append wrote wrote'⟩

theorem line {single : Line} (plain : single.isBranch = false)
    (changes : ∀ memory, channel.ready memory →
      ∃ memory', single.effect? memory = some memory' ∧ channel.writes items memory memory') :
    Emits truth scope channel [single] items := by
  refine ⟨.line plain, fun memory ready => ?_⟩
  obtain ⟨memory', changed, wrote⟩ := changes memory ready
  exact ⟨memory', .line plain changed, wrote⟩

end Emits

def Mode.chain (begun : Bool) (mode : Mode) (blocks : List Mode) : List Mode := if begun then mode :: blocks else blocks

-- The lines are branches of a chain. outcome is what they write if no branch before them was run, and nothing if
-- none of them is run either.
structure Serves (truth : String → Bool) (scope : Scope) {α : Type} (channel : Channel α) (lines : List Line)
    (begun begun' : Bool) (outcome : Option (List α)) : Prop where
  skipped : ∀ memory blocks, Mode.isLive blocks = false →
    Line.run truth scope lines ⟨memory, Mode.chain begun .done blocks⟩ = some ⟨memory, Mode.chain begun' .done blocks⟩
  -- After a branch that was run.
  passed : begun = true → ∀ memory mode blocks, mode ≠ Mode.waiting → ∃ mode', mode' ≠ Mode.waiting ∧
    Line.run truth scope lines ⟨memory, Mode.chain begun mode blocks⟩ = some ⟨memory, Mode.chain begun' mode' blocks⟩
  refused : outcome = none → ∀ memory blocks, Mode.isLive blocks = true →
    Line.run truth scope lines ⟨memory, Mode.chain begun .waiting blocks⟩ = some ⟨memory, Mode.chain begun' .waiting blocks⟩
  served : ∀ items, outcome = some items → ∀ memory, channel.ready memory →
    ∃ memory', channel.writes items memory memory' ∧ ∀ blocks, Mode.isLive blocks = true → ∃ mode, mode ≠ Mode.waiting ∧
      Line.run truth scope lines ⟨memory, Mode.chain begun .waiting blocks⟩ = some ⟨memory', Mode.chain begun' mode blocks⟩

namespace Serves

variable {truth : String → Bool} {scope : Scope} {α : Type} {channel : Channel α} {lines front back : List Line}
  {begun begun' : Bool} {items : List α} {outcome other : Option (List α)} {test : Operand}

theorem nil : Serves truth scope channel [] begun begun none where
  skipped _ _ _ := rfl
  passed _ _ mode _ apart := ⟨mode, apart, rfl⟩
  refused _ _ _ _ := rfl
  served _ impossible := by cases impossible

theorem run_begin (memory : Memory) (blocks : List Mode) :
    Line.run truth scope (.openIf test :: lines) ⟨memory, blocks⟩ =
      Line.run truth scope lines ⟨memory, .begin (Mode.isLive blocks) (Line.holds truth scope test) :: blocks⟩ := rfl

theorem run_next (memory : Memory) (mode : Mode) (blocks : List Mode) :
    Line.run truth scope (.elseIf test :: lines) ⟨memory, mode :: blocks⟩ =
      Line.run truth scope lines ⟨memory, mode.next (Line.holds truth scope test) :: blocks⟩ := rfl

theorem run_otherwise (memory : Memory) (mode : Mode) (blocks : List Mode) :
    Line.run truth scope (.otherwise :: lines) ⟨memory, mode :: blocks⟩ =
      Line.run truth scope lines ⟨memory, mode.next true :: blocks⟩ := rfl

theorem first (body : Emits truth scope channel lines items) :
    Serves truth scope channel (.openIf test :: lines) false true
      (if Line.holds truth scope test then some items else none) where
  skipped memory blocks dead := by
    show Line.run _ _ _ ⟨memory, blocks⟩ = _
    rw [run_begin, dead]
    exact body.skipped memory _ rfl
  passed impossible := by cases impossible
  refused missed memory blocks live := by
    have fails : Line.holds truth scope test = false := by simpa using missed
    show Line.run _ _ _ ⟨memory, blocks⟩ = _
    rw [run_begin, live, fails]
    exact body.skipped memory _ rfl
  served found taken memory ready := by
    obtain ⟨holds, rfl⟩ : Line.holds truth scope test = true ∧ items = found := by simpa using taken
    obtain ⟨memory', ran, wrote⟩ := body.written memory ready
    refine ⟨memory', wrote, fun blocks live => ⟨.running, by decide, ?_⟩⟩
    show Line.run _ _ _ ⟨memory, blocks⟩ = _
    rw [run_begin, live, holds]
    exact ran _ live

theorem next (body : Emits truth scope channel lines items) :
    Serves truth scope channel (.elseIf test :: lines) true true
      (if Line.holds truth scope test then some items else none) where
  skipped memory blocks _ := body.skipped memory _ rfl
  passed _ memory mode blocks apart := by
    refine ⟨.done, by decide, ?_⟩
    show Line.run _ _ _ ⟨memory, mode :: blocks⟩ = _
    rw [run_next, Mode.next_of_ne _ apart]
    exact body.skipped memory _ rfl
  refused missed memory blocks live := by
    have fails : Line.holds truth scope test = false := by simpa using missed
    show Line.run _ _ _ ⟨memory, .waiting :: blocks⟩ = _
    rw [run_next, fails]
    exact body.skipped memory _ rfl
  served found taken memory ready := by
    obtain ⟨holds, rfl⟩ : Line.holds truth scope test = true ∧ items = found := by simpa using taken
    obtain ⟨memory', ran, wrote⟩ := body.written memory ready
    refine ⟨memory', wrote, fun blocks live => ⟨.running, by decide, ?_⟩⟩
    show Line.run _ _ _ ⟨memory, .waiting :: blocks⟩ = _
    rw [run_next, holds]
    exact ran _ live

theorem last (body : Emits truth scope channel lines items) :
    Serves truth scope channel (.otherwise :: lines) true true (some items) where
  skipped memory blocks _ := body.skipped memory _ rfl
  passed _ memory mode blocks apart := by
    refine ⟨.done, by decide, ?_⟩
    show Line.run _ _ _ ⟨memory, mode :: blocks⟩ = _
    rw [run_otherwise, Mode.next_of_ne _ apart]
    exact body.skipped memory _ rfl
  refused impossible := by cases impossible
  served found taken memory ready := by
    obtain rfl : items = found := Option.some.inj taken
    obtain ⟨memory', ran, wrote⟩ := body.written memory ready
    exact ⟨memory', wrote, fun blocks live => ⟨.running, by decide, ran _ live⟩⟩

-- A last branch that is the only one is no branch at all.
theorem only (body : Emits truth scope channel lines items) :
    Serves truth scope channel lines false false (some items) where
  skipped memory blocks dead := body.skipped memory blocks dead
  passed impossible := by cases impossible
  refused impossible := by cases impossible
  served found taken memory ready := by
    obtain rfl : items = found := Option.some.inj taken
    obtain ⟨memory', ran, wrote⟩ := body.written memory ready
    exact ⟨memory', wrote, fun blocks live => ⟨.done, by decide, ran blocks live⟩⟩

theorem append (first : Serves truth scope channel front begun true outcome)
    (second : Serves truth scope channel back true begun' other) :
    Serves truth scope channel (front ++ back) begun begun' (outcome.or other) where
  skipped memory blocks dead := by
    rw [Line.run_append, first.skipped memory blocks dead]
    exact second.skipped memory blocks dead
  passed started memory mode blocks apart := by
    obtain ⟨mode', apart', ran⟩ := first.passed started memory mode blocks apart
    obtain ⟨mode'', apart'', ran'⟩ := second.passed rfl memory mode' blocks apart'
    refine ⟨mode'', apart'', ?_⟩
    rw [Line.run_append, ran]
    exact ran'
  refused missed memory blocks live := by
    obtain ⟨here, later⟩ := Option.or_eq_none_iff.mp missed
    rw [Line.run_append, first.refused here memory blocks live]
    exact second.refused later memory blocks live
  served found taken memory ready := by
    cases outcome with
    | none =>
      obtain ⟨memory', wrote, ran⟩ := second.served found taken memory ready
      refine ⟨memory', wrote, fun blocks live => ?_⟩
      rw [Line.run_append, first.refused rfl memory blocks live]
      exact ran blocks live
    | some items =>
      obtain rfl : items = found := Option.some.inj taken
      obtain ⟨memory', wrote, ran⟩ := first.served items rfl memory ready
      refine ⟨memory', wrote, fun blocks live => ?_⟩
      obtain ⟨mode, apart, ended⟩ := ran blocks live
      rw [Line.run_append, ended]
      exact second.passed rfl memory' mode blocks apart

theorem switch (chain : Serves truth scope channel lines false begun outcome) :
    Emits truth scope channel (if begun then lines ++ [.close] else lines) (outcome.getD []) := by
  -- The end of the chain leaves its block, whatever the state of the chain is.
  have closed (memory memory' : Memory) (blocks : List Mode) {mode : Mode}
      (ran : Line.run truth scope lines ⟨memory, blocks⟩ = some ⟨memory', Mode.chain begun mode blocks⟩) :
      Line.run truth scope (if begun then lines ++ [.close] else lines) ⟨memory, blocks⟩ = some ⟨memory', blocks⟩ := by
    cases begun with
    | true =>
      show Line.run truth scope (lines ++ [.close]) ⟨memory, blocks⟩ = _
      rw [Line.run_append, ran]
      rfl
    | false => exact ran
  refine ⟨fun memory blocks dead => closed memory memory blocks (chain.skipped memory blocks dead), fun memory ready => ?_⟩
  cases outcome with
  | none => exact ⟨memory, fun blocks live => closed _ _ _ (chain.refused rfl memory blocks live), channel.nothing ready⟩
  | some items =>
    obtain ⟨memory', wrote, ran⟩ := chain.served items rfl memory ready
    refine ⟨memory', fun blocks live => ?_, wrote⟩
    obtain ⟨_, _, ended⟩ := ran blocks live
    exact closed _ _ _ ended

-- A condition is a chain of one branch.
theorem conditional (body : Emits truth scope channel lines items) :
    Emits truth scope channel (.openIf test :: lines ++ [.close]) (if Line.holds truth scope test then items else []) := by
  have chain : Emits truth scope channel (.openIf test :: lines ++ [.close])
      ((if Line.holds truth scope test then some items else none).getD []) := switch (first body)
  cases holds : Line.holds truth scope test <;> simpa [holds] using chain

end Serves

end Stencil
