import Stencil.Registry

-- The meaning of a tag by its name. Control flow has two forms: in the content of a page it shapes content,
-- and in its applied form it shapes the attributes of a tag.

namespace Stencil

inductive Flow where
  | content
  | applied
  deriving DecidableEq, Repr

inductive Control where
  | conditional
  | loop
  | switch
  | case
  | default
  deriving DecidableEq, Repr

inductive TagKind where
  | parameter
  | assignment
  | attr (flow : Flow)
  | control (control : Control) (flow : Flow)
  | component
  | importing
  | template
  | state
  | including
  | literal
  deriving DecidableEq, Repr

namespace TagKind

-- The name of the applied form of a tag.
def appliedName (name : String) : String := "apply-" ++ name

-- The tags with a meaning of their own, whatever components are known.
def ofName? (name : String) : Option TagKind :=
  match name with
  | "param" => some .parameter
  | "variable" => some .assignment
  | "attribute" => some (.attr .content)
  | "apply-attribute" => some (.attr .applied)
  | "if" => some (.control .conditional .content)
  | "apply-if" => some (.control .conditional .applied)
  | "for-each" => some (.control .loop .content)
  | "apply-for-each" => some (.control .loop .applied)
  | "switch" => some (.control .switch .content)
  | "apply-switch" => some (.control .switch .applied)
  | "case" => some (.control .case .content)
  | "apply-case" => some (.control .case .applied)
  | "default" => some (.control .default .content)
  | "apply-default" => some (.control .default .applied)
  | "import" => some .importing
  | "template" => some .template
  | "use-state" => some .state
  | "include" => some .including
  | _ => none

-- Any other tag is a component if its name is known, and stands for itself if not.
def classify (isComponent : String → Bool) (name : String) : TagKind :=
  match ofName? name with
  | some kind => kind
  | none => if isComponent name then .component else .literal

-- Control flow and attributes, in both forms: they belong to the nearest tag above that is neither.
def isReserved (name : String) : Bool :=
  match ofName? name with
  | some (.attr _) => true
  | some (.control _ _) => true
  | _ => false

-- Control flow of the content, which opens a level in a fragment and closes it at its end.
def isPaired (name : String) : Bool :=
  match ofName? name with
  | some (.control _ .content) => true
  | _ => false

def isSwitch (name : String) : Bool :=
  match ofName? name with
  | some (.control .switch _) => true
  | _ => false

end TagKind

end Stencil
