import BlockCompiler.Decimal.Shortest

/-!
# Decimal text of doubles

Reading and writing numbers as decimal text. What is written are the shortest digits that read back
to the same double; a `Layout` says how they are set out. A source text has only whole numbers and
fractions, which are read from their digits (`ofDigits`); `read?` takes whatever is written.
-/

namespace BlockCompiler.Decimal

/-! ## Reading -/

/-- The natural number with the given decimal digits. -/
def natOfDigits (ds : List Char) : Nat :=
  ds.foldl (fun n d ↦ 10 * n + (d.toNat - '0'.toNat)) 0

/-- The double nearest to `whole.fraction`. -/
def ofDigits (whole fraction : List Char) : Float :=
  Float.ofScientific (natOfDigits (whole ++ fraction)) true fraction.length

/-- The double nearest to `whole.fraction · 10 ^ exponent`. -/
def ofDigitsScaled (whole fraction : List Char) (exponent : Int) : Float :=
  let shift := exponent - fraction.length
  Float.ofScientific (natOfDigits (whole ++ fraction)) (shift < 0) shift.natAbs

/-- Reads an exponent: digits with an optional sign. -/
def readExponent? : List Char → Option Int
  | '-' :: ds => if ds ≠ [] ∧ ds.all Char.isDigit then some (-(natOfDigits ds : Int)) else none
  | '+' :: ds => if ds ≠ [] ∧ ds.all Char.isDigit then some (natOfDigits ds) else none
  | ds => if ds ≠ [] ∧ ds.all Char.isDigit then some (natOfDigits ds) else none

/-- Reads an unsigned decimal with optional fraction and exponent, or the name of a value that is
not finite. -/
def readMagnitude? (cs : List Char) : Option Float :=
  if cs = ['i', 'n', 'f'] then some (1.0 / 0.0)
  else if cs = ['N', 'a', 'N'] then some (0.0 / 0.0)
  else
    let whole := cs.takeWhile Char.isDigit
    let (fraction, rest) := match cs.dropWhile Char.isDigit with
      | '.' :: rest => (rest.takeWhile Char.isDigit, rest.dropWhile Char.isDigit)
      | rest => ([], rest)
    if whole = [] ∧ fraction = [] then none
    else match rest with
      | [] => some (ofDigits whole fraction)
      | 'e' :: exponent | 'E' :: exponent =>
        (readExponent? exponent).map (ofDigitsScaled whole fraction)
      | _ => none

/-- Reads a decimal with optional sign. -/
def read? (text : String) : Option Float :=
  match text.toList with
  | '-' :: cs => (readMagnitude? cs).map Float.neg
  | '+' :: cs => readMagnitude? cs
  | cs => readMagnitude? cs

/-! ## Writing -/

/-- How the digits of a number are set out. -/
structure Layout where
  /-- The leading digits' exponents that are written positionally, all others with an exponent. -/
  positional : Int → Bool
  /-- A whole number that is written positionally ends in `.0`. -/
  wholePoint : Bool

/-- The digits of a positive number without trailing zeros, and the power of ten of the first. -/
structure Significant where
  digits : List Char
  leading : Int

/-- Drops the zeros at the end of a decimal. -/
def Scaled.significant (s : Scaled) : Significant :=
  let digits := Nat.toDigits 10 s.digits
  { digits := (digits.reverse.dropWhile (· = '0')).reverse
    leading := digits.length - 1 + s.exponent }

/-- Digits with the point after the place of the units. -/
def Layout.plain (l : Layout) (s : Significant) : List Char :=
  let tail := if l.wholePoint then ['.', '0'] else []
  let count := s.digits.length
  if s.leading < 0 then
    ['0', '.'] ++ List.replicate (s.leading.natAbs - 1) '0' ++ s.digits
  else
    let whole := s.leading.toNat + 1
    if count ≤ whole then s.digits ++ List.replicate (whole - count) '0' ++ tail
    else s.digits.take whole ++ ['.'] ++ s.digits.drop whole

/-- Digits with the point after the first one, and an exponent. -/
def scientific (s : Significant) : List Char :=
  let mantissa := match s.digits with
    | [] => []
    | [d] => [d]
    | d :: ds => d :: '.' :: ds
  mantissa ++ ['e'] ++ (toString s.leading).toList

/-- The text of the absolute value of a finite double. -/
def Layout.magnitude (l : Layout) (bits : UInt64) : List Char :=
  if exponentBits bits = 0 ∧ fractionBits bits = 0 then
    if l.wholePoint then ['0', '.', '0'] else ['0']
  else
    let s := (Interval.ofBits bits).shortest.significant
    if l.positional s.leading then l.plain s else scientific s

/-- The text of a double. Zero keeps its sign; a value that is not a number has none. -/
def Layout.write (l : Layout) (x : Float) : String :=
  let bits := x.toBits
  let sign := if bits.toNat / Nat.pow 2 63 = 1 then ['-'] else []
  if exponentBits bits = 2047 then
    if fractionBits bits = 0 then String.ofList (sign ++ ['i', 'n', 'f']) else "NaN"
  else String.ofList (sign ++ l.magnitude bits)

/-- Numbers written without exponent and without a fraction that is zero. -/
def positionalLayout : Layout where
  positional _ := true
  wholePoint := false

/-- Numbers written so that they can be told from whole numbers: with a fraction or an exponent,
positionally from `10⁻⁴` up to below `10¹⁶`. -/
def markedLayout : Layout where
  positional leading := -4 ≤ leading ∧ leading < 16
  wholePoint := true

end BlockCompiler.Decimal
