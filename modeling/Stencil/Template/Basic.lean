import Stencil.Expr.Basic

-- Templates: trees of tags whose leaves are texts, comments, expressions and scripts. Each node carries the
-- identity that its file gave it and the place in that file where it begins.

namespace Stencil

structure Location where
  line : UInt32
  column : UInt32
  deriving DecidableEq, Repr

def Location.zero : Location := ⟨0, 0⟩

-- The name or value of an attribute: fixed text, or an expression.
inductive Part where
  | literal (text : String)
  | expression (expr : Expr)

-- The text of a part that is known without evaluation.
def Part.fixed? : Part → Option String
  | .literal text => some text
  | .expression (.str text) => some text
  | .expression _ => none

-- An attribute, or a flag when it has no value.
structure Attr where
  name : Part
  value : Option Part
  location : Location

namespace Attr

-- Whether this is the parameter of that name: a literal name and a value.
def isParam (attr : Attr) (name : String) : Bool :=
  match attr.name with
  | .literal text => text = name && attr.value.isSome
  | .expression _ => false

-- The value of a parameter of a control tag. The last one with the name counts; flags and computed names
-- are passed over.
def param? (attrs : List Attr) (name : String) : Option Part :=
  (attrs.reverse.find? (·.isParam name)).bind Attr.value

end Attr

-- What a tag says by itself, without its children.
structure Tag where
  name : String
  attrs : List Attr
  selfClosing : Bool

-- A node without children. Expressions stand in a slot, as a value, or in a block, as content.
inductive Leaf where
  | text (value : String)
  | comment (value : String)
  | string (value : String)
  | slot (expr : Expr)
  | block (expr : Expr)
  | script (attrs : List Attr) (body : String)

inductive Node where
  | tag (identity : UInt32) (tag : Tag) (children : List Node) (location : Location)
  | leaf (identity : UInt32) (leaf : Leaf) (location : Location)

structure Template where
  nodes : List Node

end Stencil
