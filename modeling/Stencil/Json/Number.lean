import Stencil.Decimal.Shortest

-- Numbers of the template format: integers of 64 bits, signed or not, are kept exactly; every other numeral is
-- a double. A double is read from the digits that fit into 64 bits and from a power of ten, and is written with
-- the fewest digits that tell it from its neighbours.

namespace Stencil

inductive Number where
  | integer (value : Int)
  | double (value : Double)
  deriving DecidableEq, Repr

namespace Number

-- How doubles are written: positionally, with a fraction, when the exponent of the leading digit lies
-- in `least ≤ exponent < bound`, and otherwise with an explicit signed exponent.
structure Layout where
  least : Int
  bound : Int
  mark : String

def layout : Layout := ⟨-5, 16, "e"⟩

def zeros (count : Nat) : String := String.ofList (List.replicate count '0')

-- Writes digits with the decimal point after the first `point` of them.
def positional (digits : List Char) (point : Int) : String :=
  if point ≤ 0 then "0." ++ zeros (-point).toNat ++ String.ofList digits
  else
    let count := point.toNat
    let whole := String.ofList (digits.take count) ++ zeros (count - digits.length)
    let fraction := String.ofList (digits.drop count)
    whole ++ "." ++ (if fraction.isEmpty then "0" else fraction)

-- Writes digits with one of them before the decimal point and the exponent behind a mark.
def scientific (mark : String) (digits : List Char) (exponent : Int) : String :=
  let fraction := String.ofList (digits.drop 1)
  let sign := if exponent < 0 then "-" else "+"
  String.ofList (digits.take 1) ++ (if fraction.isEmpty then "" else "." ++ fraction) ++
    mark ++ sign ++ toString exponent.natAbs

def doubleText (layout : Layout) (d : Double) : String :=
  let shortest := d.shortest
  let digits := Nat.toDigits 10 shortest.digits
  let exponent : Int := digits.length + shortest.power - 1
  let magnitude :=
    if d.mantissa = 0 then "0.0"
    else if layout.least ≤ exponent && exponent < layout.bound then positional digits (exponent + 1)
    else scientific layout.mark digits exponent
  (if d.negative then "-" else "") ++ magnitude

def text : Number → String
  | .integer value => toString value
  | .double value => doubleText layout value

end Number

-- The parts of a numeral: its sign, the digits of the integer part, of the fraction if there is a point,
-- and of the exponent if there is one.
structure Numeral where
  negative : Bool
  whole : List Char
  fraction : Option (List Char)
  exponent : Option (Bool × List Char)

namespace Numeral

def isDigit (c : Char) : Bool := '0' ≤ c && c ≤ '9'

def value (digits : List Char) : Nat :=
  digits.foldl (fun total c => 10 * total + (c.toNat - '0'.toNat)) 0

-- An integer part is `0` or starts with another digit.
def isWhole (digits : List Char) : Bool :=
  match digits with
  | [] => false
  | '0' :: rest => rest.isEmpty
  | _ => true

def splitSign (cs : List Char) : Bool × List Char :=
  match cs with
  | '-' :: rest => (true, rest)
  | rest => (false, rest)

def exponent? : List Char → Option (Option (Bool × List Char))
  | [] => some none
  | c :: rest =>
    if c = 'e' || c = 'E' then
      let (negative, digits) := match rest with
        | '-' :: digits => (true, digits)
        | '+' :: digits => (false, digits)
        | digits => (false, digits)
      if !digits.isEmpty && digits.all isDigit then some (some (negative, digits)) else none
    else none

def fraction? : List Char → Option (Option (List Char) × List Char)
  | '.' :: rest =>
    let digits := rest.takeWhile isDigit
    if digits.isEmpty then none else some (some digits, rest.dropWhile isDigit)
  | rest => some (none, rest)

-- Reads a whole numeral: `-`, an integer part, a fraction, an exponent.
def parse? (cs : List Char) : Option Numeral := do
  let (negative, unsigned) := splitSign cs
  let digits := unsigned.takeWhile isDigit
  if isWhole digits then
    let (fraction, rest) ← fraction? (unsigned.dropWhile isDigit)
    let exponent ← exponent? rest
    some ⟨negative, digits, fraction, exponent⟩
  else none

-- Puts digits behind a value as long as it stays below `2 ^ 64`: the value, and the digits left over.
def fit (total : Nat) : List Char → Nat × List Char
  | [] => (total, [])
  | c :: rest =>
    let next := 10 * total + value [c]
    if next < Nat.pow 2 64 then fit next rest else (total, c :: rest)

-- The power of ten that the exponent of a numeral means.
def power (n : Numeral) : Int :=
  match n.exponent with
  | none => 0
  | some (true, digits) => -(value digits : Int)
  | some (false, digits) => value digits

-- The double that a numeral is read as, or nothing when it comes out too large. Digits before the point that
-- do not fit count as zeros; digits behind it are taken while they fit.
def double? (n : Numeral) : Option Double := do
  let (whole, dropped) := fit 0 n.whole
  let places := n.fraction.getD []
  let (digits, unused) := fit whole places
  let power := n.power + dropped.length - (places.length - unused.length : Nat)
  let magnitude ← (← Double.ofNat? digits).timesPower? power
  some { magnitude with negative := n.negative }

-- The integer that a numeral is kept as: it has neither point nor exponent and fits into 64 bits. A negative
-- zero is no integer.
def integer? (n : Numeral) : Option Int :=
  let magnitude := value n.whole
  if n.fraction.isSome || n.exponent.isSome then none
  else if n.negative then
    if magnitude = 0 || Nat.pow 2 63 < magnitude then none else some (-(magnitude : Int))
  else if magnitude < Nat.pow 2 64 then some magnitude else none

-- The number that a numeral stands for, or nothing when it is too large for a double.
def number? (n : Numeral) : Option Number :=
  match n.integer? with
  | some value => some (.integer value)
  | none => n.double?.map .double

end Numeral

end Stencil
