import SchemaTypes.Number.Double

/-!
# The shortest decimal of a number

Among the decimals that read back as a given number, the shortest is the one with the fewest
digits, and of those the nearest; a tie goes to the even last digit. The search tries one digit,
two digits and so on: on each decimal grid only the two neighbours of the number can be nearest.

The text of a number is positional while the exponent of its leading digit is from -4 to 15, and
scientific with a signed exponent of at least two digits otherwise.
-/

namespace SchemaTypes

namespace Double

/-- A positive number together with the ends of the interval of reals that round to it, all over
one denominator. The ends themselves round to it when its mantissa is even. -/
structure Rounding where
  low : Nat
  value : Nat
  high : Nat
  denominator : Nat
  closed : Bool

/-- The rounding interval of `m * 2 ^ e`. The gap below a power of two is half the gap above. -/
def roundingOf (m : Nat) (e : Int) : Rounding :=
  let scale := if 2 ≤ e then Nat.pow 2 (e - 2).toNat else 1
  let below := if m = Nat.pow 2 52 ∧ -1074 < e then 1 else 2
  { low := (4 * m - below) * scale
    value := 4 * m * scale
    high := (4 * m + 2) * scale
    denominator := if 2 ≤ e then 1 else Nat.pow 2 (2 - e).toNat
    closed := m % 2 = 0 }

namespace Rounding

/-- The interval measured in units of `10 ^ exponent`. -/
def inUnits (r : Rounding) (exponent : Int) : Rounding :=
  if 0 ≤ exponent then { r with denominator := r.denominator * Nat.pow 10 exponent.toNat }
  else
    let up := Nat.pow 10 (-exponent).toNat
    { r with low := r.low * up, value := r.value * up, high := r.high * up }

/-- Whether a whole number of units rounds to the number. -/
def admits (r : Rounding) (n : Nat) : Bool :=
  let point := n * r.denominator
  if r.closed then r.low ≤ point && point ≤ r.high else r.low < point && point < r.high

/-- The admitted whole number nearest to the value, of its two neighbours. -/
def nearest? (r : Rounding) : Option Nat :=
  let n := r.value / r.denominator
  let rest := r.value % r.denominator
  match r.admits n, r.admits (n + 1) with
  | true, true =>
    if 2 * rest < r.denominator ∨ (2 * rest = r.denominator ∧ n % 2 = 0) then some n
    else some (n + 1)
  | true, false => some n
  | false, true => some (n + 1)
  | false, false => none

/-- The number of decimal digits before the point, negative for leading zeros after it. -/
def magnitude (r : Rounding) : Int :=
  ((Nat.toDigits 10 (r.value * Nat.pow 10 400 / r.denominator)).length : Int) - 400

/-- Search the grids of `digits`, `digits + 1`, … significant digits. -/
def search (r : Rounding) (magnitude : Int) : Nat → Nat → Nat × Int
  | 0, _ => (0, 0)
  | tries + 1, digits =>
    let exponent := magnitude - digits
    match (r.inUnits exponent).nearest? with
    | some n => (n, exponent)
    | none => search r magnitude tries (digits + 1)

end Rounding

/-- The digits and the exponent of the last digit of the shortest decimal of `m * 2 ^ e`. Seventeen
digits always suffice. -/
def shortest (m : Nat) (e : Int) : Nat × Int :=
  let r := roundingOf m e
  r.search r.magnitude 17 1

/-- The texts of the numbers that have no digits. -/
structure Spelling where
  nan : String
  infinity : String

/-- The spelling in diagnostics. -/
def plainSpelling : Spelling := ⟨"nan", "inf"⟩

/-- The spelling in generated source. -/
def sourceSpelling : Spelling := ⟨"NaN", "Infinity"⟩

/-- Drop the zeros at the end of a row of digits, keeping at least one digit. -/
def dropFinalZeros (digits : List Char) : List Char :=
  match (digits.reverse.dropWhile (· = '0')).reverse with
  | [] => ['0']
  | kept => kept

/-- A row of digits with the point after the first `places` of them, zeros filling the gaps, and at
least one digit on each side of the point. -/
def positional (digits : List Char) (places : Int) : List Char :=
  if places ≤ 0 then '0' :: '.' :: (List.replicate (-places).toNat '0' ++ digits)
  else
    let whole := digits.take places.toNat
    let rest := digits.drop places.toNat
    whole ++ List.replicate (places.toNat - whole.length) '0' ++
      '.' :: (if rest.isEmpty then ['0'] else rest)

/-- A row of digits with the point after the first one and a signed exponent. -/
def scientific (digits : List Char) (exponent : Int) : List Char :=
  let power := Nat.toDigits 10 exponent.natAbs
  digits.take 1 ++ (if digits.length ≤ 1 then [] else '.' :: digits.drop 1) ++
    ['e', if exponent < 0 then '-' else '+'] ++ (if power.length < 2 then '0' :: power else power)

/-- The text of a positive decimal, given its digits and the exponent of the last one. -/
def decimalText (n : Nat) (last : Int) : List Char :=
  let all := Nat.toDigits 10 n
  let leading : Int := last + all.length - 1
  let digits := dropFinalZeros all
  if -4 ≤ leading ∧ leading < 16 then positional digits (leading + 1) else scientific digits leading

/-- The text of a positive number. -/
def magnitudeText (m : Nat) (e : Int) : List Char :=
  let decimal := shortest m e
  decimalText decimal.1 decimal.2

/-- The text of a number. -/
def text (spelling : Spelling) : Double → String
  | nan => spelling.nan
  | infinite negative => (if negative then "-" else "") ++ spelling.infinity
  | finite negative m e =>
    (if negative then "-" else "") ++
      String.ofList (if m = 0 then ['0', '.', '0'] else magnitudeText m e)

end Double

end SchemaTypes
