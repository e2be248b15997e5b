import Stencil.Document

-- The branches of switches. For each open switch it is known whether it has had a case and whether it has
-- had a default; this decides how the next branch joins the chain.

namespace Stencil

-- What a switch has had so far.
structure Switch where
  hasCase : Bool
  hasDefault : Bool
  deriving DecidableEq, Repr

-- How a case joins the chain: it begins one, or goes on with it.
inductive CaseBranch where
  | begins
  | chains
  deriving DecidableEq, Repr

-- How a default joins the chain: alone, without a test, or as its last branch.
inductive DefaultBranch where
  | alone
  | last
  deriving DecidableEq, Repr

abbrev Switches := Table Switch

namespace Switches

def fresh : Switch := ⟨false, false⟩

def state (switches : Switches) (id : Nat) : Switch := (Table.get? switches id).getD fresh

def opened (switches : Switches) (id : Nat) : Switches := Table.insert id fresh switches

-- A case after a default is refused.
def case? (switches : Switches) (id : Nat) : Option CaseBranch :=
  let state := switches.state id
  if state.hasDefault then none else some (if state.hasCase then .chains else .begins)

-- The table after a case, refused or not.
def withCase (switches : Switches) (id : Nat) : Switches :=
  let state := switches.state id
  Table.insert id (if state.hasDefault then state else { state with hasCase := true }) switches

def default (switches : Switches) (id : Nat) : DefaultBranch :=
  if (switches.state id).hasCase then .last else .alone

def withDefault (switches : Switches) (id : Nat) : Switches :=
  Table.insert id { switches.state id with hasDefault := true } switches

-- Whether the switch began a chain, which then has to be closed.
def chained (switches : Switches) (id : Nat) : Bool := (switches.state id).hasCase

def closed (switches : Switches) (id : Nat) : Switches := Table.erase switches id

end Switches

end Stencil
