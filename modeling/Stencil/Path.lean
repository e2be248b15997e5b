-- Paths with `/` between their parts, and their lexical normal form.

namespace Stencil

inductive PathPart where
  | current
  | up
  | name (text : String)
  deriving DecidableEq, Repr

-- A path, from the root or from the working directory. A text has the part `current` at most in front,
-- and only when it is relative.
structure Path where
  absolute : Bool
  parts : List PathPart
  deriving DecidableEq, Repr

namespace Path

def empty : Path := ⟨false, []⟩

-- The pieces of a text between slashes, empty ones included.
def pieces : List Char → List (List Char)
  | [] => [[]]
  | c :: rest =>
    if c = '/' then [] :: pieces rest
    else match pieces rest with
      | [] => [[c]]
      | piece :: more => (c :: piece) :: more

def partOf (piece : List Char) : PathPart :=
  if piece = ['.'] then .current
  else if piece = ['.', '.'] then .up
  else .name (String.ofList piece)

def isCurrent (part : PathPart) : Bool := part = .current

-- Repeated and trailing slashes and inner `.` mean nothing.
def ofText (text : String) : Path :=
  let chars := text.toList
  let parts := ((pieces chars).filter fun piece => !piece.isEmpty).map partOf
  let inner := parts.filter fun part => !isCurrent part
  let absolute := chars.head? = some '/'
  ⟨absolute, if !absolute && parts.head? = some .current then .current :: inner else inner⟩

def partText : PathPart → String
  | .current => "."
  | .up => ".."
  | .name text => text

def text (path : Path) : String :=
  (if path.absolute then "/" else "") ++ String.intercalate "/" (path.parts.map partText)

-- Everything but the last part; nothing when there is no part.
def parent? (path : Path) : Option Path :=
  if path.parts.isEmpty then none else some { path with parts := path.parts.dropLast }

-- A path below another. An absolute path replaces the base.
def join (base path : Path) : Path :=
  if path.absolute then path
  else if base.parts.isEmpty && !base.absolute then path
  else { base with parts := base.parts ++ path.parts.filter fun part => !isCurrent part }

-- Takes one part onto a resolved prefix, kept in reverse. A step up removes whatever part comes before
-- it, and is kept only when there is none.
def resolve (reversed : List PathPart) (part : PathPart) : List PathPart :=
  match part with
  | .current => reversed
  | .up => match reversed with
    | [] => [.up]
    | _ :: rest => rest
  | .name text => .name text :: reversed

-- The normal form of a path, under which includes are compared.
def normalize (path : Path) : Path :=
  { path with parts := (path.parts.foldl resolve []).reverse }

end Path

end Stencil
