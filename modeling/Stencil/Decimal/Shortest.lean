import Stencil.Decimal.Double

-- The shortest decimal that reads back as a given double. All comparisons are exact: a double and the
-- ends of its rounding interval are multiples of a quarter of its last place.

namespace Stencil

-- The decimal `digits * 10 ^ power`.
structure Decimal where
  digits : Nat
  power : Int
  deriving DecidableEq, Repr

namespace Double

-- `quarters * 2 ^ (exponent - 2)` as a fraction.
def quarterValue (exponent : Int) (quarters : Nat) : Nat × Nat :=
  scale quarters 1 (2 - exponent)

-- The ends of the interval of reals that round to the double, in quarters of its last place. Below a
-- power of two the neighbours are closer.
def lowerEnd (d : Double) : Nat :=
  if d.mantissa = Nat.pow 2 52 ∧ leastExponent < d.exponent then 4 * d.mantissa - 1 else 4 * d.mantissa - 2

def upperEnd (d : Double) : Nat := 4 * d.mantissa + 2

end Double

namespace Decimal

-- The decimal as a fraction.
def fraction (c : Decimal) : Nat × Nat :=
  if 0 ≤ c.power then (c.digits * Nat.pow 10 c.power.toNat, 1) else (c.digits, Nat.pow 10 (-c.power).toNat)

-- Whether the decimal rounds to the magnitude of the double: it lies in the rounding interval, whose
-- ends belong to it when the mantissa is even.
def roundsTo (c : Decimal) (d : Double) : Bool :=
  let value := c.fraction
  let low := Double.quarterValue d.exponent d.lowerEnd
  let high := Double.quarterValue d.exponent d.upperEnd
  if d.mantissa % 2 = 0 then
    low.1 * value.2 ≤ value.1 * low.2 && value.1 * high.2 ≤ high.1 * value.2
  else
    low.1 * value.2 < value.1 * low.2 && value.1 * high.2 < high.1 * value.2

-- Drops trailing zeros; there are at most as many as `limit`.
def trim : Nat → Decimal → Decimal
  | 0, c => c
  | limit + 1, c => if c.digits % 10 = 0 then trim limit ⟨c.digits / 10, c.power + 1⟩ else c

end Decimal

namespace Double

-- The number of digits before the decimal point of a positive fraction: the least `k` with
-- `num / den < 10 ^ k`.
def pointPosition (num den : Nat) : Int :=
  if den ≤ num then (Nat.toDigits 10 (num / den)).length
  else
    let zeros := (Nat.toDigits 10 (den / num)).length - 1
    if num * Nat.pow 10 zeros = den then 1 - (zeros : Int) else -(zeros : Int)

-- Of the two decimals with `count` digits around the double, those that read back; the nearer one when
-- both do, and the even one when both are equally near.
def withDigits? (d : Double) (count : Nat) : Option Decimal :=
  let value := d.fraction
  let power := pointPosition value.1 value.2 - count
  let grid := Decimal.fraction ⟨1, power⟩
  let num := value.1 * grid.2
  let den := value.2 * grid.1
  let below : Decimal := ⟨num / den, power⟩
  let above : Decimal := ⟨num / den + 1, power⟩
  match below.roundsTo d, above.roundsTo d with
  | true, true => some ⟨roundHalfEven num den, power⟩
  | true, false => some below
  | false, true => some above
  | false, false => none

-- The decimal with the fewest digits that reads back as the magnitude of the double. Seventeen digits
-- always suffice.
def shortest (d : Double) : Decimal :=
  if d.mantissa = 0 then ⟨0, 0⟩
  else match (List.range 17).findSome? fun count => d.withDigits? (count + 1) with
    | some c => c.trim 17
    | none => ⟨d.fraction.1, 0⟩

end Double

end Stencil
