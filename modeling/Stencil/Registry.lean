import Stencil.Options

-- The names of imported components. A registry of one session keeps its own names; any other uses the names
-- that all compilations share.

namespace Stencil

-- A set of names.
abbrev Names := List String

def Names.add (names : Names) (name : String) : Names := if name ∈ names then names else name :: names

structure Registry where
  scope : RegistryScope
  own : Names

namespace Registry

def create (scope : RegistryScope) : Registry := ⟨scope, []⟩

-- Whether a name is known, given the shared names.
def contains (registry : Registry) (shared : Names) (name : String) : Bool :=
  match registry.scope with
  | .process => List.contains shared name
  | .session => List.contains registry.own name

-- The registry and the shared names after a registration.
def register (registry : Registry) (shared : Names) (name : String) : Registry × Names :=
  match registry.scope with
  | .process => (registry, shared.add name)
  | .session => ({ registry with own := registry.own.add name }, shared)

end Registry

end Stencil
