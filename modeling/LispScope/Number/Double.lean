/-!
# Double-precision numbers as bit patterns

A double is kept as its sixty-four bits, so that two of them are the same exactly when their
patterns are. Decoding gives the number as a natural mantissa scaled by a power of two.
-/
namespace LispScope

/-- A double-precision number, given by its bit pattern. -/
structure Double where
  /-- Sign bit, eleven exponent bits and fifty-two fraction bits. -/
  bits : UInt64
deriving DecidableEq, Inhabited, Repr

namespace Double

/-- What the exponent and fraction bits stand for, the sign left aside. -/
inductive Magnitude
  | nan
  | infinite
  /-- The number `mantissa * 2 ^ exponent`. -/
  | finite (mantissa : Nat) (exponent : Int)
deriving DecidableEq, Repr

/-- Number of fraction bits. -/
def fractionWidth : Nat := 52

/-- The bit before the fraction, which is not stored: two to the number of fraction bits. -/
def hiddenBit : Nat := Nat.pow 2 fractionWidth

def signBit : Nat := Nat.pow 2 63

/-- The exponent of the least positive number, `2 ^ (-1074)`. -/
def leastExponent : Int := -1074

/-- The value of the exponent field that is reserved for infinity and for what is no number. -/
def reservedField : Nat := 2047

def isNegative (x : Double) : Bool := signBit ≤ x.bits.toNat

/-- The eleven exponent bits. -/
def exponentField (x : Double) : Nat := x.bits.toNat / hiddenBit % (reservedField + 1)

/-- The fifty-two fraction bits. -/
def fraction (x : Double) : Nat := x.bits.toNat % hiddenBit

/-- The absolute value. Field zero holds the numbers without the implicit leading bit. -/
def magnitude (x : Double) : Magnitude :=
  if x.exponentField = reservedField then
    if x.fraction = 0 then .infinite else .nan
  else if x.exponentField = 0 then .finite x.fraction leastExponent
  else .finite (hiddenBit + x.fraction) (leastExponent + x.exponentField - 1)

/-- The double whose bits below the sign are the given number. -/
def ofMagnitudeBits (negative : Bool) (bits : Nat) : Double :=
  ⟨(if negative then signBit + bits else bits).toUInt64⟩

/-- Infinity of the given sign. -/
def infinity (negative : Bool) : Double :=
  ofMagnitudeBits negative (reservedField * hiddenBit)

/-- The quiet pattern for what is no number. -/
def notANumber (negative : Bool) : Double :=
  ofMagnitudeBits negative (reservedField * hiddenBit + hiddenBit / 2)

end Double

end LispScope
