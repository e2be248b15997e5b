-- Binary floating-point numbers of 53 bits as exact values, and their arithmetic: each result is the double
-- nearest to the exact one.

namespace Stencil

-- The value `± mantissa * 2 ^ exponent`.
structure Double where
  negative : Bool
  mantissa : Nat
  exponent : Int
  deriving DecidableEq, Repr

namespace Double

-- The least exponent of a double, which all subnormal numbers share.
def leastExponent : Int := -1074

-- The largest exponent of a finite double.
def greatestExponent : Int := 971

def zero (negative : Bool) : Double := ⟨negative, 0, leastExponent⟩

-- The fraction `num / den` divided by `2 ^ power`, again as a fraction.
def scale (num den : Nat) (power : Int) : Nat × Nat :=
  if 0 ≤ power then (num, den * Nat.pow 2 power.toNat) else (num * Nat.pow 2 (-power).toNat, den)

-- The integer nearest to `num / den`; a tie goes to the even neighbour.
def roundHalfEven (num den : Nat) : Nat :=
  let low := num / den
  let rest := 2 * (num % den)
  if rest < den then low
  else if den < rest then low + 1
  else if low % 2 = 0 then low else low + 1

-- The exponent at which `num / den` has a mantissa of exactly 53 bits, or the least one.
def exponentOf (num den : Nat) : Int :=
  let guess : Int := num.log2 - den.log2 - 53
  let scaled := scale num den guess
  let fitting := if scaled.1 / scaled.2 < Nat.pow 2 53 then guess else guess + 1
  max fitting leastExponent

-- The double nearest to `num / den`, or nothing when it is too large.
def ofFraction? (negative : Bool) (num den : Nat) : Option Double :=
  if num = 0 then some (zero negative) else
  let exponent := exponentOf num den
  let scaled := scale num den exponent
  let rounded := roundHalfEven scaled.1 scaled.2
  let result : Double :=
    if rounded = Nat.pow 2 53 then ⟨negative, Nat.pow 2 52, exponent + 1⟩ else ⟨negative, rounded, exponent⟩
  if greatestExponent < result.exponent then none else some result

-- The magnitude as a fraction.
def fraction (d : Double) : Nat × Nat := scale d.mantissa 1 (-d.exponent)

-- The product of two doubles, rounded, or nothing when it is too large.
def times? (a b : Double) : Option Double :=
  ofFraction? (a.negative != b.negative) (a.fraction.1 * b.fraction.1) (a.fraction.2 * b.fraction.2)

-- The quotient by a double that is not zero, rounded, or nothing when it is too large.
def over? (a b : Double) : Option Double :=
  ofFraction? (a.negative != b.negative) (a.fraction.1 * b.fraction.2) (a.fraction.2 * b.fraction.1)

-- The double nearest to a natural number.
def ofNat? (n : Nat) : Option Double := ofFraction? false n 1

-- The exponent of the greatest power of ten below the largest double.
def greatestPower : Nat := 308

-- A double times a power of ten, by way of doubles. The power is rounded, and then the product or quotient, so
-- the result need not be the nearest double, and may be too large where the nearest double is not. A quotient by
-- more than the greatest power is taken in two steps; of an integer of 64 bits the two greatest ones leave zero,
-- and so would any further step.
def timesPower? (d : Double) (power : Int) : Option Double := do
  if 0 ≤ power then
    if d.mantissa = 0 then some d
    else if power ≤ greatestPower then d.times? (← ofNat? (Nat.pow 10 power.toNat))
    else none
  else
    let places := (-power).toNat
    if places ≤ greatestPower then d.over? (← ofNat? (Nat.pow 10 places))
    else
      let first ← d.over? (← ofNat? (Nat.pow 10 greatestPower))
      first.over? (← ofNat? (Nat.pow 10 (min (places - greatestPower) greatestPower)))

end Double

end Stencil
