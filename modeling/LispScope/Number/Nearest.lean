import LispScope.Number.Decimal

/-!
# The double nearest to a decimal

A decimal is read as the double nearest to it; half-way cases go to the even mantissa. The decimal
is written as a quotient of natural numbers, scaled by the power of two that leaves a mantissa of
fifty-three bits (fewer below the normal range), and rounded once.
-/
namespace LispScope.Double

/-- Quotient rounded to the nearest natural number, a half to the even one. -/
def roundHalfEven (numerator denominator : Nat) : Nat :=
  let quotient := numerator / denominator
  let twice := 2 * (numerator % denominator)
  if denominator < twice ∨ (twice = denominator ∧ quotient % 2 = 1) then quotient + 1 else quotient

/-- The exponent under which the quotient has a mantissa of fifty-three bits, or the least one. -/
def scaleOf (numerator denominator : Nat) : Int :=
  let guess : Int := (numerator.log2 : Int) - denominator.log2 - (fractionWidth + 1)
  let scaled := numerator * Nat.pow 2 (-guess).toNat / (denominator * Nat.pow 2 guess.toNat)
  max leastExponent (if scaled < 2 * hiddenBit then guess else guess + 1)

/-- The nearest double to a positive quotient. A mantissa that rounds up to a power of two carries
into the exponent field, and past the last finite number there is only infinity. -/
def nearestQuotient (negative : Bool) (numerator denominator : Nat) : Double :=
  let scale := scaleOf numerator denominator
  let mantissa :=
    roundHalfEven (numerator * Nat.pow 2 (-scale).toNat) (denominator * Nat.pow 2 scale.toNat)
  let bits := (scale - leastExponent).toNat * hiddenBit + mantissa
  if reservedField * hiddenBit ≤ bits then infinity negative
  else ofMagnitudeBits negative bits

/-- Decimals of `10 ^ 310` and more are past every finite double. -/
def greatestPoint : Int := 310

/-- Decimals below `10 ^ (-330)` are nearer to zero than to the least positive double. -/
def leastPoint : Int := -330

/-- The double nearest to a decimal, with the given sign. Numbers far out of range are settled by
the position of the point alone. -/
def nearest (negative : Bool) (d : Decimal) : Double :=
  if d.coefficient = 0 ∨ d.point < leastPoint then ofMagnitudeBits negative 0
  else if greatestPoint < d.point then infinity negative
  else
    nearestQuotient negative (d.coefficient * Nat.pow 10 d.exponent.toNat)
      (Nat.pow 10 (-d.exponent).toNat)

end LispScope.Double
