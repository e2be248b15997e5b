import Stencil.Diagnostic
import Stencil.Expr.Emit
import Stencil.Fragments
import Stencil.Path
import Stencil.Registry
import Stencil.Switch

-- The state of a compilation, and the steps out of which the walk over a template is made. A step that
-- fails keeps the state it has reached.

namespace Stencil

open Text (quoted)

structure Session where
  document : Document
  fragments : Fragments
  switches : Switches
  scope : Scope
  registry : Registry
  -- The names that all compilations share.
  shared : Names
  -- The file being compiled, and the files that include it, innermost first.
  file : Path
  including : List Path

-- A part of the walk: it changes the session and may fail.
abbrev Walk := ExceptT CompileError (StateM Session)

-- A tag of the document.
structure Element where
  id : NodeId
  identity : Nat
  tag : Tag
  location : Location

namespace Walk

variable {α : Type}

-- Fails at a place in the file being compiled.
def fail (cause : Cause) (location : Location) : Walk α := do
  throw ⟨cause, (← get).file.text, location⟩

-- Runs an action and then changes the session, whether or not the action failed.
def ensuring (action : Walk α) (cleanup : Session → Session) : Walk α :=
  ExceptT.mk do
    let outcome ← action.run
    modify cleanup
    return outcome

def expr (context : Expr.Context) (e : Expr) (location : Location) : Walk Code := do
  modify fun s => { s with scope := s.scope.after context e }
  match e.emit? context with
  | some code => return code
  | none => fail .unsupportedExpression location

def part (context : Expr.Context) (p : Part) (location : Location) : Walk Code :=
  match p with
  | .literal text => return quoted text
  | .expression e => expr context e location

-- The target of an assignment. A literal name means the variable of that name.
def target (context : Expr.Context) (p : Part) (location : Location) : Walk Code :=
  match p with
  | .literal text => expr context (.var text []) location
  | .expression e => expr context e location

end Walk

namespace Element

def param? (e : Element) (name : String) : Option Part := Attr.param? e.tag.attrs name

-- A parameter that the tag must have.
def require (e : Element) (name : String) : Walk Part :=
  match e.param? name with
  | some part => return part
  | none => Walk.fail (.missingAttribute e.tag.name name) e.location

def fail {α : Type} (e : Element) (cause : Cause) : Walk α := Walk.fail cause e.location

def value (e : Element) (p : Part) : Walk Code := Walk.part .value p e.location

def condition (e : Element) (p : Part) : Walk Code := Walk.part .condition p e.location

-- The target of an assignment, which makes a bare name local.
def target (e : Element) (p : Part) : Walk Code := Walk.target (.target true) p e.location

-- Whether the tag has no children in the document, once includes among them are resolved.
def isChildless (e : Element) : Walk Bool := return ((← get).document.children e.id).isEmpty

end Element

end Stencil
