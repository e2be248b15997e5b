import Stencil.Json.Number

-- The tokens of a JSON text. The lexer is a transducer that takes one character at a time.

namespace Stencil.Json

inductive Token where
  | openArray
  | closeArray
  | openObject
  | closeObject
  | colon
  | comma
  | null
  | bool (value : Bool)
  | number (value : Option Number)
  | string (value : Option String)
  deriving DecidableEq, Repr

namespace Token

-- How far an escape sequence inside a string has been read.
inductive Escape where
  | none
  | started
  | hex (left : Nat) (value : Nat)

-- What the lexer is in the middle of; collected characters are kept in reverse. A string collects code
-- points and, from its escapes, surrogates.
inductive Mode where
  | between
  | word (seen : List Char)
  | string (seen : List Nat) (escape : Escape)

def isBlank (c : Char) : Bool := c = ' ' || c = '\t' || c = '\r' || c = '\n'

def punctuation? (c : Char) : Option Token :=
  match c with
  | '[' => some .openArray
  | ']' => some .closeArray
  | '\x7b' => some .openObject
  | '\x7d' => some .closeObject
  | ':' => some .colon
  | ',' => some .comma
  | _ => none

-- A run of other characters is a keyword or a numeral.
def ofWord? (word : List Char) : Option Token :=
  if word = ['n', 'u', 'l', 'l'] then some .null
  else if word = ['t', 'r', 'u', 'e'] then some (.bool true)
  else if word = ['f', 'a', 'l', 's', 'e'] then some (.bool false)
  else (Numeral.parse? word).map fun numeral => .number numeral.number?

def isHigh (unit : Nat) : Bool := 0xD800 ≤ unit && unit < 0xDC00

def isLow (unit : Nat) : Bool := 0xDC00 ≤ unit && unit < 0xE000

-- Joins surrogate pairs; fails on an unpaired surrogate.
def joinSurrogates? : List Nat → Option (List Char)
  | [] => some []
  | [unit] => if isHigh unit || isLow unit then none else some [Char.ofNat unit]
  | unit :: next :: rest =>
    if isHigh unit then
      if isLow next then
        (joinSurrogates? rest).map (Char.ofNat (0x10000 + (unit - 0xD800) * 0x400 + (next - 0xDC00)) :: ·)
      else none
    else if isLow unit then none
    else (joinSurrogates? (next :: rest)).map (Char.ofNat unit :: ·)

def ofString (seen : List Nat) : Token :=
  .string ((joinSurrogates? seen.reverse).map String.ofList)

def hexDigit? (c : Char) : Option Nat :=
  if '0' ≤ c && c ≤ '9' then some (c.toNat - '0'.toNat)
  else if 'a' ≤ c && c ≤ 'f' then some (c.toNat - 'a'.toNat + 10)
  else if 'A' ≤ c && c ≤ 'F' then some (c.toNat - 'A'.toNat + 10)
  else none

def escaped? (c : Char) : Option Nat :=
  match c with
  | '"' => some 0x22
  | '\\' => some 0x5C
  | '/' => some 0x2F
  | 'b' => some 0x08
  | 'f' => some 0x0C
  | 'n' => some 0x0A
  | 'r' => some 0x0D
  | 't' => some 0x09
  | _ => none

-- Takes a character between tokens: what it completes and what it begins.
def start (c : Char) : List Token × Mode :=
  if isBlank c then ([], .between)
  else match punctuation? c with
    | some token => ([token], .between)
    | none => if c = '"' then ([], .string [] .none) else ([], .word [c])

def endsWord (c : Char) : Bool := isBlank c || (punctuation? c).isSome || c = '"'

-- Takes one character; fails on what no token can contain.
def step? (mode : Mode) (c : Char) : Option (List Token × Mode) :=
  match mode with
  | .between => some (start c)
  | .word seen =>
    if endsWord c then
      (ofWord? seen.reverse).map fun token => (token :: (start c).1, (start c).2)
    else some ([], .word (c :: seen))
  | .string seen .none =>
    if c = '"' then some ([ofString seen], .between)
    else if c = '\\' then some ([], .string seen .started)
    else if c.toNat < 0x20 then none
    else some ([], .string (c.toNat :: seen) .none)
  | .string seen .started =>
    if c = 'u' then some ([], .string seen (.hex 3 0))
    else (escaped? c).map fun unit => ([], .string (unit :: seen) .none)
  | .string seen (.hex left value) =>
    (hexDigit? c).map fun digit =>
      let total := 16 * value + digit
      match left with
      | 0 => ([], .string (total :: seen) .none)
      | more + 1 => ([], .string seen (.hex more total))

-- The tokens of a text, in order.
def scan? (text : List Char) : Option (List Token) := do
  let (found, mode) ← text.foldlM (fun (found, mode) c => do
    let (tokens, next) ← step? mode c
    pure (tokens.reverse ++ found, next)) (([] : List Token), Mode.between)
  match mode with
  | .between => some found.reverse
  | .word seen => (ofWord? seen.reverse).map fun token => (token :: found).reverse
  | .string _ _ => none

end Token

end Stencil.Json
