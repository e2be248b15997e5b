import Stencil.Proofs.ByteOrder
import Stencil.Code

-- String literals in double quotes, as the language of the generated code reads them. A literal ends at the first quote
-- that is not behind a backslash, unless an interpolation begins before; then the escapes in it are resolved. A quoted
-- text is read as the text itself, whatever stands behind it.

namespace Stencil

namespace Literal

-- Beyond ASCII, every character may begin a name.
def beginsName (c : Char) : Bool := c.isAlpha || c = '_' || 128 ≤ c.toNat

-- Whether an interpolation begins with a character, by what stands behind it.
def interpolates (c : Char) (rest : List Char) : Bool :=
  match c with
  | '$' => rest.head?.any fun next => beginsName next || next = '\x7b'
  | '\x7b' => rest.head? = some '$'
  | _ => false

-- How far a literal goes.
inductive Extent where
  | whole (inside rest : List Char)
  | interpolated
  | unfinished
  deriving DecidableEq

def Extent.behind (front : List Char) : Extent → Extent
  | .whole inside rest => .whole (front ++ inside) rest
  | .interpolated => .interpolated
  | .unfinished => .unfinished

-- Behind the opening quote. What stands behind a backslash does not count.
def extent : List Char → Extent
  | [] => .unfinished
  | '\\' :: c :: rest => (extent rest).behind ['\\', c]
  | c :: rest =>
    if c = '"' then .whole [] rest
    else if interpolates c rest then .interpolated
    else (extent rest).behind [c]

section Escapes

-- The byte that a letter stands for behind a backslash.
def control? : Char → Option UInt8
  | 'n' => some 10
  | 't' => some 9
  | 'r' => some 13
  | 'v' => some 11
  | 'e' => some 27
  | 'f' => some 12
  | _ => none

def figure? (c : Char) : Option Nat :=
  if '0' ≤ c ∧ c ≤ '9' then some (c.toNat - '0'.toNat)
  else if 'a' ≤ c ∧ c ≤ 'f' then some (c.toNat - 'a'.toNat + 10)
  else if 'A' ≤ c ∧ c ≤ 'F' then some (c.toNat - 'A'.toNat + 10)
  else none

-- The digits of some base with which a text begins.
def digits (base : Nat) (chars : List Char) : List Nat :=
  (chars.map figure?).takeWhile (fun figure => figure.any (· < base)) |>.filterMap id

def value (base : Nat) (digits : List Nat) : Nat := digits.foldl (fun total digit => base * total + digit) 0

-- The encoding of a code point. Surrogates, which are no characters, are encoded alike.
def encode (point : Nat) : List UInt8 :=
  if point.isValidChar then String.utf8EncodeChar (Char.ofNat point)
  else [UInt8.ofNat (0xe0 + point / 4096), UInt8.ofNat (0x80 + point / 64 % 64), UInt8.ofNat (0x80 + point % 64)]

-- A code point in braces, by what stands behind the opening one, and how many characters it takes.
def point? (rest : List Char) : Option (List UInt8 × Nat) :=
  let found := digits 16 rest
  if !found.isEmpty && rest[found.length]? = some '\x7d' && value 16 found ≤ 0x10ffff then
    some (encode (value 16 found), found.length + 1)
  else none

-- The bytes of an escape, by the characters behind its backslash, and how many of those behind the first it takes. An
-- unknown escape stands for itself; only a code point can be malformed.
def escape? (c : Char) (rest : List Char) : Option (List UInt8 × Nat) :=
  let octal := digits 8 (c :: rest.take 2)
  let hex := digits 16 (rest.take 2)
  if c = '\\' || c = '"' || c = '$' then some (String.utf8EncodeChar c, 0)
  else if (control? c).isSome then some ((control? c).toList, 0)
  else if !octal.isEmpty then some ([UInt8.ofNat (value 8 octal)], octal.length - 1)
  else if (c = 'x' || c = 'X') && !hex.isEmpty then some ([UInt8.ofNat (value 16 hex)], hex.length)
  else if c = 'u' && rest.head? = some '\x7b' then (point? rest.tail).map fun (bytes, taken) => (bytes, taken + 1)
  else some (String.utf8EncodeChar '\\' ++ String.utf8EncodeChar c, 0)

-- The bytes that the inside of a literal stands for.
def decode? : List Char → Option (List UInt8)
  | [] => some []
  | '\\' :: c :: rest => do
    let (bytes, taken) ← escape? c rest
    some (bytes ++ (← decode? (rest.drop taken)))
  | c :: rest => do some (String.utf8EncodeChar c ++ (← decode? rest))
termination_by chars => chars.length

end Escapes

inductive Reading where
  | value (bytes : List UInt8) (rest : String)
  | interpolation
  | malformed
  | unfinished
  | absent
  deriving DecidableEq

def readChars : List Char → Reading
  | '"' :: chars =>
    match extent chars with
    | .whole inside rest =>
      match decode? inside with
      | some bytes => .value bytes (String.ofList rest)
      | none => .malformed
    | .interpolated => .interpolation
    | .unfinished => .unfinished
  | _ => .absent

-- Reads the literal with which a text begins.
def read (source : String) : Reading := readChars source.toList

-- Escapes that quoted texts do not have, and interpolations.

example : read "\"\\x41\\101\\u\x7b20ac\x7d\\n\\q\" . $x" = .value [65, 65, 0xe2, 0x82, 0xac, 10, 92, 113] " . $x" := by
  cbv

example : [read "\"a\x7b$x\x7d\"", read "\"$x\"", read "\"$ 5\"", read "\"a\\\""] =
    [.interpolation, .interpolation, .value [36, 32, 53] "", .unfinished] := by
  cbv

section Quoted

variable (chars tail : List Char)

-- No dollar sign stands in an escaped text but behind a backslash.
theorem head?_escaped : (chars.flatMap Text.escape ++ '"' :: tail).head? ≠ some '$' := by
  cases chars with
  | nil => simp
  | cons c rest =>
    rw [List.flatMap_cons, List.append_assoc, Text.escape]
    split
    · simp
    · rename_i plain
      intro first
      have dollar : c = '$' := by simpa using first
      exact plain (by rw [dollar]; rfl)

-- A character that is left as it is goes on with the literal.
theorem extent_plain {c : Char} (plain : Text.needsEscape c = false) (apart : tail.head? ≠ some '$') :
    extent (c :: tail) = (extent tail).behind [c] := by
  simp only [Text.needsEscape, Bool.or_eq_false_iff, decide_eq_false_iff_not] at plain
  obtain ⟨⟨backslash, quote⟩, dollar⟩ := plain
  have literal : interpolates c tail = false := by
    unfold interpolates
    split
    · exact absurd rfl dollar
    · exact decide_eq_false apart
    · rfl
  rw [extent, if_neg quote, literal]
  · rfl
  · intro next rest same
    exact absurd same backslash

theorem extent_escaped :
    extent (chars.flatMap Text.escape ++ '"' :: tail) = .whole (chars.flatMap Text.escape) tail := by
  induction chars with
  | nil => rfl
  | cons c rest ih =>
    rw [List.flatMap_cons, List.append_assoc, Text.escape]
    split
    · show (extent (rest.flatMap Text.escape ++ '"' :: tail)).behind ['\\', c] = _
      rw [ih]
      rfl
    · rename_i plain
      rw [List.singleton_append, extent_plain _ (by simpa using plain) (head?_escaped rest tail), ih]
      rfl

theorem decode?_escaped :
    decode? (chars.flatMap Text.escape) = some (chars.flatMap String.utf8EncodeChar) := by
  induction chars with
  | nil => rw [List.flatMap_nil, decode?, List.flatMap_nil]
  | cons c rest ih =>
    rw [List.flatMap_cons, List.flatMap_cons, Text.escape]
    split
    · rename_i escaped
      have resolved : escape? c (rest.flatMap Text.escape) = some (String.utf8EncodeChar c, 0) := if_pos escaped
      rw [List.cons_append, List.singleton_append, decode?, resolved]
      simp [ih]
    · rename_i plain
      have backslash : c ≠ '\\' := by
        rintro rfl
        exact plain rfl
      rw [List.singleton_append, decode?, ih]
      · rfl
      · intro next more same
        exact absurd same backslash

end Quoted

theorem read_append (text tail : String) :
    read (Text.quoted text ++ tail) = .value (Text.bytes text) tail := by
  have begun : (Text.quoted text ++ tail).toList =
      '"' :: (text.toList.flatMap Text.escape ++ '"' :: tail.toList) := by
    simp [Text.quoted]
  rw [read, begun, readChars, extent_escaped]
  simp only [decode?_escaped, Text.bytes_eq, String.ofList_toList]

theorem bytes_inj {text other : String} (same : Text.bytes text = Text.bytes other) : text = other := by
  have arrays : text.toByteArray = other.toByteArray := by
    apply ByteArray.ext
    exact Array.toList_inj.mp same
  exact String.toByteArray_inj.mp arrays

end Literal

namespace Text

-- A quoted text is read as the text, up to its own end and without an interpolation. So no two texts are quoted alike,
-- and the quoted text in front of some code is told by the whole.
theorem read_quoted (text tail : String) :
    Literal.read (quoted text ++ tail) = .value (bytes text) tail ∧
      (∀ other rest : String, quoted text ++ tail = quoted other ++ rest → text = other ∧ tail = rest) ∧
      ∀ other : String, quoted text = quoted other → text = other := by
  have apart (other rest : String) (same : quoted text ++ tail = quoted other ++ rest) :
      text = other ∧ tail = rest := by
    have read := Literal.read_append text tail
    rw [same, Literal.read_append other rest] at read
    obtain ⟨values, tails⟩ := Literal.Reading.value.inj read
    exact ⟨(Literal.bytes_inj values).symm, tails.symm⟩
  refine ⟨Literal.read_append text tail, apart, ?_⟩
  intro other same
  exact (apart other tail (by rw [same])).1

-- Backslashes, quotes and dollar signs side by side.
theorem read_quoted_escapes :
    Literal.read (quoted "\\\"\\n\x7b$x\x7d \\x41" ++ "\"$y\"") = .value (bytes "\\\"\\n\x7b$x\x7d \\x41") "\"$y\"" ∧
      quoted "\\n" ≠ quoted "\n" := by
  refine ⟨(read_quoted "\\\"\\n\x7b$x\x7d \\x41" "\"$y\"").1, ?_⟩
  intro same
  exact absurd ((read_quoted "\\n" "").2.2 "\n" same) (by decide)

end Text

end Stencil
