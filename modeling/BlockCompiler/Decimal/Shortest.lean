/-!
# The shortest decimal of a double

A finite double is a multiple of a power of two, and so are, up to a factor of four, the two ends of
the interval of reals that round to it. If that power is `2⁻ᵖ` they are multiples of `10⁻ᵖ` as well.
Measured in this unit the value and both ends are natural numbers, and the choice of digits is
arithmetic on naturals only: no logarithm is estimated and no quotient is rounded.

`Interval.ofBits` reads value and ends off the bit pattern. `Interval.shortest` walks through the
decimal grids from the coarsest one on and takes the first grid that has a point in the interval.
-/

namespace BlockCompiler.Decimal

/-! ## The rounding interval -/

/-- A positive double together with the reals that round to it, as multiples of one unit. -/
structure Interval where
  /-- The unit is a one at this decimal place. -/
  places : Nat
  /-- The lower end, halfway to the double below. -/
  low : Nat
  /-- The double itself. -/
  value : Nat
  /-- The upper end, halfway to the double above. -/
  high : Nat
  /-- The ends round to the double as well: a tie goes to the even mantissa. -/
  closed : Bool

/-- The eleven exponent bits of a double. -/
def exponentBits (bits : UInt64) : Nat := bits.toNat / Nat.pow 2 52 % Nat.pow 2 11

/-- The fifty-two fraction bits of a double. -/
def fractionBits (bits : UInt64) : Nat := bits.toNat % Nat.pow 2 52

/-- The interval of the absolute value of a finite double. The double below a power of two is only
half as far away as the double above, unless both are subnormal or the power is the least normal
one. -/
def Interval.ofBits (bits : UInt64) : Interval :=
  let e := exponentBits bits
  let f := fractionBits bits
  let mantissa := if e = 0 then f else Nat.pow 2 52 + f
  -- a quarter of the last bit is `2 ^ (max e 1 - 1077)`
  let places := 1077 - max e 1
  let quarter := Nat.pow 2 (max e 1 - 1077) * Nat.pow 5 places
  let below := if f = 0 ∧ 1 < e then 1 else 2
  { places
    low := (4 * mantissa - below) * quarter
    value := 4 * mantissa * quarter
    high := (4 * mantissa + 2) * quarter
    closed := mantissa % 2 = 0 }

/-- The number `n` rounds to the double. -/
def Interval.contains (i : Interval) (n : Nat) : Bool :=
  if i.closed then i.low ≤ n ∧ n ≤ i.high else i.low < n ∧ n < i.high

/-! ## Grids -/

def digitCount (n : Nat) : Nat := (Nat.toDigits 10 n).length

/-- The grid point to write for the double on the multiples of `grid`: of the two neighbours of the
value the one that rounds to it, of two such the nearer, and the upper one if they are equally
near. -/
def Interval.onGrid? (i : Interval) (grid : Nat) : Option Nat :=
  let below := i.value / grid
  let above := below + 1
  match i.contains (below * grid), i.contains (above * grid) with
  | true, true => some (if 2 * i.value < (below + above) * grid then below else above)
  | true, false => some below
  | false, true => some above
  | false, false => none

/-- A decimal `digits · 10 ^ exponent`. -/
structure Scaled where
  digits : Nat
  exponent : Int

/-- The decimal with the fewest digits among those that round to the double, and of these the
nearest one. Seventeen digits always suffice; the exact value stands last for completeness. -/
def Interval.shortest (i : Interval) : Scaled :=
  let size := digitCount i.value
  let found := (List.range 17).findSome? fun n ↦
    (i.onGrid? (Nat.pow 10 (size - (n + 1)))).map fun digits ↦
      (⟨digits, (size - (n + 1) : Nat) - (i.places : Int)⟩ : Scaled)
  found.getD ⟨i.value, -(i.places : Int)⟩

end BlockCompiler.Decimal
