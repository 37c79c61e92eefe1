import LispScope.Number.Shortest
import LispScope.Number.Nearest

/-!
# Numerals

The text of a double, and the numerals that are read as integers and as doubles. An integer is a
sign, if any, and decimal digits, in the range of sixty-four bits. A floating numeral is a sign, if
any, and either a word for infinity or for no number, in letters of either case, or digits with
an optional point and an optional exponent, of which the part before the exponent has a digit.
-/
namespace LispScope

/-- Doubles are written positionally from `1e-4` up to but not including `1e16`. -/
def Double.layout : Decimal.Layout := ⟨-3, 16⟩

/-- The text of a double: its shortest decimal, or a word for what is not finite. -/
def Double.text (x : Double) : String :=
  let sign := if x.isNegative then "-" else ""
  match x.magnitude with
  | .nan => "NaN"
  | .infinite => sign ++ "inf"
  | .finite mantissa exponent =>
    sign ++ if mantissa = 0 then "0.0"
      else (Decimal.shortest mantissa exponent).render Double.layout

namespace Numeral

/-- Splits a sign off the front; the flag tells whether it is a minus. -/
def sign : List Char → Bool × List Char
  | '-' :: rest => (true, rest)
  | '+' :: rest => (false, rest)
  | rest => (false, rest)

/-- The number that a list of decimal digits stands for; an empty list stands for none. -/
def natural? (digits : List Char) : Option Nat :=
  if digits.isEmpty || !digits.all Char.isDigit then none
  else some (Nat.ofDigitChars 10 digits 0)

/-- Reads an integer of sixty-four bits. -/
def integer? (text : List Char) : Option Int64 := do
  let (negative, digits) := sign text
  let size ← natural? digits
  let value : Int := if negative then -size else size
  guard (Int64.minValue.toInt ≤ value ∧ value ≤ Int64.maxValue.toInt)
  return Int64.ofInt value

/-- Reads an optional exponent: nothing, or the letter `e` with a sign, if any, and digits. -/
def exponent? : List Char → Option Int
  | [] => some 0
  | mark :: rest =>
    if mark.toLower = 'e' then do
      let (negative, digits) := sign rest
      let size ← natural? digits
      return if negative then -size else size
    else none

/-- Reads an unsigned decimal: digits with an optional point, then an optional exponent. -/
def decimal? (text : List Char) : Option Decimal := do
  let whole := text.takeWhile Char.isDigit
  let (fraction, rest) := match text.dropWhile Char.isDigit with
    | '.' :: rest => (rest.takeWhile Char.isDigit, rest.dropWhile Char.isDigit)
    | rest => ([], rest)
  let coefficient ← natural? (whole ++ fraction)
  let exponent ← exponent? rest
  return ⟨coefficient, exponent - fraction.length⟩

/-- Reads a floating numeral. -/
def double? (text : List Char) : Option Double :=
  let (negative, unsigned) := sign text
  let word := String.ofList (unsigned.map Char.toLower)
  if word = "nan" then some (.notANumber negative)
  else if word = "inf" ∨ word = "infinity" then some (.infinity negative)
  else (decimal? unsigned).map (Double.nearest negative)

end Numeral

end LispScope
