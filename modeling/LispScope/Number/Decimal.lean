import LispScope.Number.Double

/-!
# Decimal numbers and how they are laid out

A decimal is a natural coefficient scaled by a power of ten. A *layout* says which decimals are
written with a plain point and which with an exponent; both keep every digit of the coefficient.
-/
namespace LispScope

/-- The number `coefficient * 10 ^ exponent`. -/
structure Decimal where
  /-- The digits, read as one natural number. -/
  coefficient : Nat
  /-- The power of ten by which the digits are scaled. -/
  exponent : Int
deriving DecidableEq, Inhabited, Repr

namespace Decimal

def digits (d : Decimal) : List Char := Nat.toDigits 10 d.coefficient

/-- Where the point stands, counted from the front of the digits. -/
def point (d : Decimal) : Int := d.digits.length + d.exponent

/-- Plain positional text, with at least one digit on each side of the point. -/
def positional (d : Decimal) : String :=
  let digits := d.digits
  let zeros (count : Int) : List Char := List.replicate count.toNat '0'
  let whole := if d.point ≤ 0 then ['0'] else digits.take d.point.toNat ++ zeros d.exponent
  let fraction := zeros (-d.point) ++ digits.drop d.point.toNat
  String.ofList (whole ++ '.' :: if fraction.isEmpty then ['0'] else fraction)

/-- Text with one digit before the point and an exponent; a lone digit takes no point. -/
def scientific (d : Decimal) : String :=
  let significand := match d.digits with
    | [] => []
    | [digit] => [digit]
    | digit :: rest => digit :: '.' :: rest
  String.ofList significand ++ "e" ++ toString (d.point - 1)

/-- Which positions of the point are written positionally. -/
structure Layout where
  /-- The least such position. -/
  leastPoint : Int
  /-- The greatest such position. -/
  greatestPoint : Int

/-- Writes a decimal in the given layout. -/
def render (layout : Layout) (d : Decimal) : String :=
  if layout.leastPoint ≤ d.point && d.point ≤ layout.greatestPoint then d.positional
  else d.scientific

end Decimal

end LispScope
