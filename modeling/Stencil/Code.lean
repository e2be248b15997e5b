-- Generated code as a list of chunks. Where a variable is stored is only known once the whole template has
-- been walked, so the root of a variable is kept by name and resolved when the code is rendered.
--
-- A code buffer holds no empty text and no two texts side by side. Hence two buffers that render alike
-- under every scope are equal.

namespace Stencil

namespace Text

-- Double-quoted string literals. A backslash stands before each character that would end the literal, begin
-- an escape or begin an interpolation; every other character stands for itself.
def needsEscape (c : Char) : Bool := c = '\\' || c = '"' || c = '$'

def escape (c : Char) : List Char := if needsEscape c then ['\\', c] else [c]

def quoted (text : String) : String :=
  "\"" ++ String.ofList (text.toList.flatMap escape) ++ "\""

end Text

-- The local names of one compilation: those that the template itself assigns. The set only grows.
structure Scope where
  locals : List String
  distinct : locals.Nodup

namespace Scope

def empty : Scope := ⟨[], List.nodup_nil⟩

def isLocal (s : Scope) (name : String) : Bool := s.locals.contains name

def size (s : Scope) : Nat := s.locals.length

def promote (s : Scope) (name : String) : Scope :=
  if known : name ∈ s.locals then s
  else ⟨name :: s.locals, List.nodup_cons.mpr ⟨known, s.distinct⟩⟩

def ofList (names : List String) : Scope := names.foldl promote empty

theorem isLocal_promote (s : Scope) (name other : String) :
    (s.promote name).isLocal other = (other == name || s.isLocal other) := by
  unfold promote isLocal
  split
  · rename_i known
    by_cases same : other = name <;> simp_all
  · by_cases same : other = name <;> simp_all

end Scope

inductive Chunk where
  | text (value : String)
  | root (name : String)
  deriving DecidableEq, Repr

namespace Chunk

-- Puts a chunk in front of others: empty text vanishes, and text joins the text behind it.
def cons : Chunk → List Chunk → List Chunk
  | .root name, rest => .root name :: rest
  | .text value, rest =>
    if value = "" then rest
    else match rest with
      | .text next :: more => .text (value ++ next) :: more
      | _ => .text value :: rest

def startsWithText : List Chunk → Bool
  | .text _ :: _ => true
  | _ => false

-- No text is empty and no two texts stand side by side.
def Normal : List Chunk → Prop
  | [] => True
  | .root _ :: rest => Normal rest
  | .text value :: rest => value ≠ "" ∧ startsWithText rest = false ∧ Normal rest

theorem normal_cons (chunk : Chunk) {rest : List Chunk} (normal : Normal rest) : Normal (cons chunk rest) := by
  cases chunk with
  | root name => exact normal
  | text value =>
    by_cases filled : value = ""
    · simpa [cons, filled] using normal
    · cases rest with
      | nil => simp [cons, filled, Normal, startsWithText]
      | cons head tail =>
        cases head with
        | root name => simpa [cons, filled, Normal, startsWithText] using normal
        | text next => simpa [cons, filled, Normal] using normal.2

-- The storage of a variable: the closure's own scope for a local name, the caller's data otherwise.
def render (scope : Scope) : Chunk → String
  | .text value => value
  | .root name => if scope.isLocal name then "$__scope" else "$__data"

end Chunk

structure Code where
  chunks : List Chunk
  normal : Chunk.Normal chunks

namespace Code

instance : DecidableEq Code := fun a b =>
  if same : a.chunks = b.chunks then
    isTrue (by cases a; cases b; cases same; rfl)
  else isFalse fun equal => same (congrArg chunks equal)

def empty : Code := ⟨[], trivial⟩

def text (value : String) : Code := ⟨Chunk.cons (.text value) [], Chunk.normal_cons _ trivial⟩

-- The root of a variable, resolved at the end.
def root (name : String) : Code := ⟨[.root name], trivial⟩

theorem normal_foldr (front : List Chunk) {back : List Chunk} (normal : Chunk.Normal back) :
    Chunk.Normal (front.foldr Chunk.cons back) := by
  induction front with
  | nil => exact normal
  | cons chunk rest ih => exact Chunk.normal_cons chunk ih

def append (a b : Code) : Code := ⟨a.chunks.foldr Chunk.cons b.chunks, normal_foldr a.chunks b.normal⟩

instance : Append Code := ⟨append⟩

instance : Coe String Code := ⟨text⟩

def concat (parts : List Code) : Code := parts.foldr append empty

-- The parts with a separator between each two.
def join (separator : String) : List Code → Code
  | [] => empty
  | [part] => part
  | part :: rest => part ++ (text separator ++ join separator rest)

def render (scope : Scope) (code : Code) : String := String.join (code.chunks.map (Chunk.render scope))

-- A statement in a block of its own.
def statement (body : Code) : Code := concat ["<?php ", body, " ?>\n"]

-- Reads a place that may not exist, without a notice.
def safeRead (place : Code) : Code := concat ["(isset(", place, ") ? ", place, " : \"\")"]

end Code

end Stencil
