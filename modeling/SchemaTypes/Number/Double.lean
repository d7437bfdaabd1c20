/-!
# Binary floating-point numbers of double precision

A finite number is a signed mantissa below two to the 53rd times a power of two whose exponent is
at least -1074, so every number is exact and comparisons need no rounding. Reading a decimal takes
the nearest such number, a tie going to the even mantissa, and everything beyond the largest one
is infinite.
-/

namespace SchemaTypes

/-- A number of double precision: `finite` stands for `±mantissa * 2 ^ exponent`. -/
inductive Double where
  | nan
  | infinite (negative : Bool)
  | finite (negative : Bool) (mantissa : Nat) (exponent : Int)
deriving DecidableEq

/-- A number on the extended line, ordered by value. -/
inductive Extended where
  | below
  | scaled (mantissa exponent : Int)
  | above
deriving DecidableEq

namespace Extended

/-- The order of `a * 2 ^ e` and `b * 2 ^ f`, compared over the smaller exponent. -/
def compareScaled (a e b f : Int) : Ordering :=
  let least := min e f
  compare (a * Int.pow 2 (e - least).toNat) (b * Int.pow 2 (f - least).toNat)

/-- The order by value. -/
def order : Extended → Extended → Ordering
  | below, below => .eq
  | below, _ => .lt
  | above, above => .eq
  | above, _ => .gt
  | scaled _ _, below => .gt
  | scaled _ _, above => .lt
  | scaled a e, scaled b f => compareScaled a e b f

end Extended

namespace Double

/-- Attach a sign to a magnitude. -/
def signed (negative : Bool) (magnitude : Nat) : Int :=
  if negative then -(magnitude : Int) else magnitude

/-- The place of a number on the extended line. -/
def extended? : Double → Option Extended
  | nan => none
  | infinite true => some .below
  | infinite false => some .above
  | finite negative m e => some (.scaled (signed negative m) e)

/-- Whether a number is zero, of either sign. -/
def isZero : Double → Bool
  | finite _ m _ => m = 0
  | _ => false

/-- The integer part, towards zero, of a finite number. -/
def truncate? : Double → Option Int
  | finite negative m e =>
    some (signed negative (if 0 ≤ e then m * Nat.pow 2 e.toNat else m / Nat.pow 2 (-e).toNat))
  | _ => none

/-- A quotient rounded to the nearest natural number, ties to the even one. -/
def roundQuotient (a b : Nat) : Nat :=
  let q := a / b
  let r := a % b
  if b < 2 * r ∨ (b = 2 * r ∧ q % 2 = 1) then q + 1 else q

/-- The exponent at which a positive quotient has a mantissa of 53 bits, or the least exponent. -/
def exponentFor (a b : Nat) : Int :=
  let e : Int := (Nat.log2 a : Int) - Nat.log2 b - 52
  let full :=
    if 0 ≤ e then b * Nat.pow 2 (52 + e.toNat) ≤ a else b * Nat.pow 2 52 ≤ a * Nat.pow 2 (-e).toNat
  max (if full then e else e - 1) (-1074)

/-- The number nearest to the quotient `a / b` of positive numbers. -/
def ofQuotient (negative : Bool) (a b : Nat) : Double :=
  let e := exponentFor a b
  let m :=
    if 0 ≤ e then roundQuotient a (b * Nat.pow 2 e.toNat)
    else roundQuotient (a * Nat.pow 2 (-e).toNat) b
  if m = Nat.pow 2 53 then
    (if e + 1 ≤ 971 then finite negative (Nat.pow 2 52) (e + 1) else infinite negative)
  else if e ≤ 971 then finite negative m e
  else infinite negative

/-- The number nearest to `digits * 10 ^ exponent`. Exponents far outside the range of the format
are settled without computing the power. -/
def ofDecimal (negative : Bool) (digits : Nat) (exponent : Int) : Double :=
  let size : Int := (Nat.toDigits 10 digits).length + exponent
  if digits = 0 ∨ size < -330 then finite negative 0 (-1074)
  else if 320 < size then infinite negative
  else if 0 ≤ exponent then ofQuotient negative (digits * Nat.pow 10 exponent.toNat) 1
  else ofQuotient negative digits (Nat.pow 10 (-exponent).toNat)

/-- The number nearest to `m * 2 ^ e`. -/
def ofScaled (negative : Bool) (m : Nat) (e : Int) : Double :=
  if m = 0 then finite negative 0 (-1074)
  else if 0 ≤ e then ofQuotient negative (m * Nat.pow 2 e.toNat) 1
  else ofQuotient negative m (Nat.pow 2 (-e).toNat)

/-- The number with the opposite sign. -/
def negate : Double → Double
  | nan => nan
  | infinite negative => infinite !negative
  | finite negative m e => finite (!negative) m e

/-- The number nearest to the product of a magnitude and the number nearest to a factor. -/
def times (x : Double) (factor : Nat) : Double :=
  match x, ofScaled false factor 0 with
  | finite _ m e, finite _ k f => ofScaled false (m * k) (e + f)
  | _, _ => infinite false

/-- The number nearest to the sum of two magnitudes. -/
def plus : Double → Double → Double
  | finite _ m e, finite _ n f =>
    let least := min e f
    ofScaled false (m * Nat.pow 2 (e - least).toNat + n * Nat.pow 2 (f - least).toNat) least
  | _, _ => infinite false

end Double

end SchemaTypes
