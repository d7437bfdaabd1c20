import SchemaTypes.Document.Json.Read

/-!
# Plain YAML scalars

A scalar written without quotes is null, a boolean, an integer or a number of double precision if
it has the form of one, and text otherwise. Integers may be written in base two, eight, sixteen or
sixty, and digits may be grouped by underscores. A number of double precision always has a point;
its whole part may be in base sixty. Two texts are no values but marks, which have a meaning only
as keys.
-/

namespace SchemaTypes.Yaml

/-- The fault of a text that is no YAML. -/
def notYaml : ReadFault := .invalid "the text has no reading"

/-- The words for null. -/
def nullWords : List Text := ["", "~", "null", "Null", "NULL"]

/-- The words for true. -/
def trueWords : List Text :=
  ["yes", "Yes", "YES", "true", "True", "TRUE", "on", "On", "ON"]

/-- The words for false. -/
def falseWords : List Text :=
  ["no", "No", "NO", "false", "False", "FALSE", "off", "Off", "OFF"]

/-- The mark of a member whose value is a mapping to be merged into the one it stands in. -/
def mergeMark : Text := "<<"

/-- The mark of the member that stands for a whole mapping. -/
def defaultMark : Text := "="

/-- Take a sign off the start of a text. -/
def takeSign : List CodePoint → Bool × List CodePoint
  | '-' :: rest => (true, rest)
  | '+' :: rest => (false, rest)
  | cs => (false, cs)

/-- Whether a character is a digit or groups digits. -/
def isGrouped (c : CodePoint) : Bool := c.isDigit || c = '_'

/-- The digits among digits and underscores. -/
def ungroup (cs : List CodePoint) : List CodePoint := cs.filter (· ≠ '_')

/-! ## Integers -/

/-- The number that digits of a base write; underscores do not count. -/
def readBase? (base : Nat) (cs : List CodePoint) : Option Nat :=
  (ungroup cs).foldlM (fun n c => do
    let d ← Json.hexValue? c
    if d < base then some (n * base + d) else none) 0

/-- Whether a text is a place of a number in base sixty other than the first. -/
def isSixtieth : List CodePoint → Bool
  | [d] => d.isDigit
  | [t, d] => '0' ≤ t && t ≤ '5' && d.isDigit
  | _ => false

/-- The number that the places of base sixty write. -/
def sixtiesValue (places : List (List CodePoint)) : Nat :=
  places.foldl (fun n place => n * 60 + Json.digitsValue 0 (ungroup place)) 0

/-- Read a number of two or more places in base sixty. -/
def readSixties? (cs : List CodePoint) : Option Nat :=
  match Text.splitAt ':' cs with
  | first :: second :: rest =>
    if first.all isGrouped ∧ (second :: rest).all isSixtieth then
      some (sixtiesValue (first :: second :: rest))
    else none
  | _ => none

/-- Read a natural number: one in base two or sixteen by its mark, one with a leading zero in base
eight, and any other in base ten or sixty. -/
def readNatural? : List CodePoint → Option Nat
  | '0' :: 'b' :: c :: rest => readBase? 2 (c :: rest)
  | '0' :: 'x' :: c :: rest => readBase? 16 (c :: rest)
  | '0' :: rest => readBase? 8 rest
  | c :: rest =>
    if !c.isDigit then none
    else if rest.contains ':' then readSixties? (c :: rest)
    else readBase? 10 (c :: rest)
  | [] => none

/-- Whether a number consists of the mark of its base and underscores. -/
def lacksDigits : List CodePoint → Bool
  | '0' :: 'b' :: c :: rest => (c :: rest).all (· = '_')
  | '0' :: 'x' :: c :: rest => (c :: rest).all (· = '_')
  | _ => false

/-! ## Numbers of double precision -/

/-- The exponent at the end of a number, which has a sign. -/
def readExponent? : List CodePoint → Option Int
  | [] => some 0
  | e :: sign :: c :: rest =>
    if (e = 'e' ∨ e = 'E') ∧ (sign = '-' ∨ sign = '+') ∧ (c :: rest).all CodePoint.isDigit then
      some (Double.signed (sign = '-') (Json.digitsValue 0 (c :: rest)))
    else none
  | _ => none

/-- The magnitude with the given digits before and after the point. -/
def pointMagnitude (whole fraction : List CodePoint) (exponent : Int) : Double :=
  let places := (ungroup fraction).length
  .ofDecimal false (Json.digitsValue 0 (ungroup (whole ++ fraction))) (exponent - places)

/-- Read a magnitude with a point and digits before or after it. -/
def readPoint? (cs : List CodePoint) : Option Double :=
  let whole := cs.takeWhile isGrouped
  match cs.drop whole.length with
  | '.' :: rest =>
    let fraction := rest.takeWhile isGrouped
    let startsRight := match whole, fraction with
      | c :: _, _ => c.isDigit
      | [], c :: _ => c.isDigit
      | [], [] => false
    if startsRight then
      (readExponent? (rest.drop fraction.length)).map (pointMagnitude whole fraction)
    else none
  | _ => none

/-- The sum of the places of base sixty before the point, last first, on top of the last place.
Each step is rounded. -/
def addSixties (sofar : Double) (factor : Nat) : List (List CodePoint) → Double
  | [] => sofar
  | place :: rest =>
    let digit := pointMagnitude place [] 0
    addSixties (sofar.plus (digit.times factor)) (factor * 60) rest

/-- Read a magnitude with two or more places in base sixty and a point. -/
def readSixtiesPoint? (cs : List CodePoint) : Option Double :=
  match (Text.splitAt ':' cs).reverse with
  | final :: second :: rest =>
    let whole := final.takeWhile (· ≠ ('.' : CodePoint))
    let first := (second :: rest).getLastD []
    match final.drop whole.length with
    | '.' :: fraction =>
      if (first.head?.map CodePoint.isDigit).getD false ∧ first.all isGrouped ∧ isSixtieth whole ∧
          ((second :: rest).dropLast).all isSixtieth ∧ fraction.all isGrouped then
        some (addSixties (pointMagnitude whole fraction 0) 60 (second :: rest))
      else none
    | _ => none
  | _ => none

/-- Read a number of double precision, infinite ones and the undefined one included. A number with
a sign has a digit before the point. -/
def readDouble? (s : Text) : Option Double :=
  if s ∈ ([".nan", ".NaN", ".NAN"] : List Text) then some .nan
  else
    let (negative, magnitude) := takeSign s.toList
    let signed := fun x : Double => if negative then x.negate else x
    if Text.ofList magnitude ∈ ([".inf", ".Inf", ".INF"] : List Text) then some (.infinite negative)
    else if magnitude.head? = some '.' ∧ magnitude.length < s.length then none
    else if magnitude.contains ':' then (readSixtiesPoint? magnitude).map signed
    else (readPoint? magnitude).map signed

/-! ## Scalars -/

/-- The scalar that a text without quotes stands for. -/
def plainScalar (s : Text) : Except ReadFault Scalar :=
  if s ∈ nullWords then .ok .null
  else if s ∈ trueWords then .ok (.bool true)
  else if s ∈ falseWords then .ok (.bool false)
  else if s = mergeMark ∨ s = defaultMark then .error notYaml
  else
    let (negative, magnitude) := takeSign s.toList
    if lacksDigits magnitude then .error (.malformed .noDigits)
    else
      match readNatural? magnitude, readDouble? s with
      | some n, _ => .ok (.int (Double.signed negative n))
      | none, some x => .ok (.float x)
      | none, none => .ok (.text s)

end SchemaTypes.Yaml
