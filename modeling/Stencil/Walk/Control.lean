import Stencil.Output
import Stencil.Session
import Stencil.TagKind

-- Control flow. The same rules hold for content and for applied forms; what lies inside a tag is passed as
-- an action that compiles it.

namespace Stencil.Walk

-- A conditional or a loop around nothing leaves no trace.
def conditional (e : Element) (body : Walk Code) : Walk Code := do
  let test ← e.require "test"
  let code ← body
  if ← e.isChildless then return .empty
  return Output.conditional (← e.condition test) code

-- The variables that a loop binds: its key, if it names one, and its item.
def binding (e : Element) (item : Part) : Walk Code := do
  match e.param? "key" with
  | some key =>
    let key ← e.target key
    return Code.concat [key, " => ", ← e.target item]
  | none => e.target item

def loop (e : Element) (body : Walk Code) : Walk Code := do
  let source ← e.require "from"
  let item ← e.require "item"
  let code ← body
  if ← e.isChildless then return .empty
  let source ← e.value source
  return Output.loop source (← binding e item) code

-- A switch is open while its children are compiled. If one of its cases began a chain, the chain is
-- closed.
def switch (e : Element) (body : Walk Code) : Walk Code := do
  modify fun s => { s with switches := s.switches.opened e.id }
  ensuring (do
    let code ← body
    return if (← get).switches.chained e.id then code ++ Output.closeBlock else code)
    fun s => { s with switches := s.switches.closed e.id }

def case (e : Element) (inside : Option NodeId) (body : Walk Code) : Walk Code := do
  match inside with
  | none => e.fail .caseOutsideSwitch
  | some switch =>
    let branch := (← get).switches.case? switch
    modify fun s => { s with switches := s.switches.withCase switch }
    match branch with
    | none => e.fail .caseAfterDefault
    | some branch =>
      let test ← e.require "test"
      let code ← body
      let test ← e.condition test
      match branch with
      | .begins => return Output.firstCase test code
      | .chains => return Output.nextCase test code

def default (e : Element) (inside : Option NodeId) (body : Walk Code) : Walk Code := do
  match inside with
  | none => e.fail .defaultOutsideSwitch
  | some switch =>
    let branch := (← get).switches.default switch
    modify fun s => { s with switches := s.switches.withDefault switch }
    let code ← body
    match branch with
    | .alone => return code
    | .last => return Output.lastCase code

-- A tag of control flow. `inside` is the switch that the tag is a direct child of; `body` compiles its
-- children, given the switch that they are direct children of.
def control (kind : Control) (e : Element) (inside : Option NodeId) (body : Option NodeId → Walk Code) : Walk Code :=
  match kind with
  | .conditional => conditional e (body none)
  | .loop => loop e (body none)
  | .switch => switch e (body (some e.id))
  | .case => case e inside (body none)
  | .default => default e inside (body none)

end Stencil.Walk
