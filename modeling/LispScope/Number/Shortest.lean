import LispScope.Number.Decimal

/-!
# The shortest decimal that reads back

A finite positive double is read back from every decimal that is closer to it than to its
neighbours; a decimal half-way to a neighbour counts if the mantissa is even. Among those decimals
the one with the fewest digits is wanted, and among these the nearest. On each decimal grid only
the two grid points next to the double can be the answer, so the grids are tried from coarse to
fine and the first one with a hit decides. Everything is compared in exact natural arithmetic.
-/
namespace LispScope.Decimal

/-- The decimals that read back as `mantissa * 2 ^ exponent`, in units of a quarter of
`2 ^ exponent`. -/
structure Basin where
  /-- Lower end, in quarters. -/
  low : Nat
  /-- The double itself, in quarters. -/
  centre : Nat
  /-- Upper end, in quarters. -/
  high : Nat
  /-- Whether the ends read back too. -/
  closed : Bool
  /-- A quarter is `2 ^ unit`. -/
  unit : Int

/-- The basin of a double. Below a power of two the neighbour is only half as far away. -/
def Basin.ofFinite (mantissa : Nat) (exponent : Int) : Basin :=
  let atPower := mantissa = Double.hiddenBit ∧ Double.leastExponent < exponent
  { low := 4 * mantissa - (if atPower then 1 else 2)
    centre := 4 * mantissa
    high := 4 * mantissa + 2
    closed := mantissa % 2 = 0
    unit := exponent - 2 }

/-- Numerator and denominator of `base ^ e`, of which one is one. -/
def ratio (base : Nat) (e : Int) : Nat × Nat := (Nat.pow base e.toNat, Nat.pow base (-e).toNat)

/-- The multiple of `10 ^ grid` that lies in the basin nearest to its centre, if one of the two
multiples next to the centre lies in the basin. Of two equally near ones the greater is taken. -/
def Basin.hit? (basin : Basin) (grid : Int) : Option Decimal :=
  let (tenUp, tenDown) := ratio 10 grid
  let (twoUp, twoDown) := ratio 2 basin.unit
  let step := tenUp * twoDown
  let quarter := twoUp * tenDown
  let centre := basin.centre * quarter
  let below := centre / step
  let inside (multiple : Nat) : Bool :=
    if basin.closed then
      basin.low * quarter ≤ multiple * step && multiple * step ≤ basin.high * quarter
    else basin.low * quarter < multiple * step && multiple * step < basin.high * quarter
  let preferUpper := centre - below * step ≥ (below + 1) * step - centre
  match inside below, inside (below + 1) with
  | true, true => some ⟨if preferUpper then below + 1 else below, grid⟩
  | true, false => some ⟨below, grid⟩
  | false, true => some ⟨below + 1, grid⟩
  | false, false => none

/-- A grid so coarse that its step exceeds every number below `2 ^ bits`: three tenths of a decimal
digit per bit for negative powers and thirty-one hundredths for the others are enough. -/
def coarsestGrid (bits : Int) : Int := bits * (if bits < 0 then 30 else 31) / 100 + 1

/-- Number of grids that are tried: seventeen digits always read back, and `coarsestGrid` starts at
most a dozen grids too high. -/
def gridCount : Nat := 40

/-- The shortest decimal that reads back as `mantissa * 2 ^ exponent`, for a positive mantissa. -/
def shortest (mantissa : Nat) (exponent : Int) : Decimal :=
  let basin := Basin.ofFinite mantissa exponent
  let coarsest := coarsestGrid (exponent + mantissa.log2 + 1)
  ((List.range gridCount).findSome? fun (finer : Nat) => basin.hit? (coarsest - finer)).getD ⟨0, 0⟩

end LispScope.Decimal
