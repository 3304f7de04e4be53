import Federation.Number.Decimal
/-!
# Number — binary floating point

A number of the 64-bit binary format is a sign, a natural significand
and a power of two, or an infinity. `ofDecimal` takes a decimal to the
nearest number of the format, a half to the even neighbour, and
`ofText` reads a written decimal. `canonical` forgets the sign of zero.
-/

namespace Federation

/-- A number of the 64-bit binary format: `significand * 2 ^ exponent` with a sign, or an
infinity. -/
inductive Binary64
  | finite (negative : Bool) (significand : Nat) (exponent : Int)
  | infinite (negative : Bool)
  deriving DecidableEq, Inhabited, Repr

namespace Binary64

/-- The least exponent of the format. -/
def minExponent : Int := -1074

/-- The greatest exponent of the format. -/
def maxExponent : Int := 971

/-- The first natural number that takes more bits than a significand has. -/
def significandLimit : Nat := Nat.pow 2 53

/-- The zeros of the format. -/
def zero (negative : Bool) : Binary64 :=
  finite negative 0 minExponent

/-- The natural number nearest to a quotient. A half goes to the even neighbour. -/
def roundQuotient (num den : Nat) : Nat :=
  let q := num / den
  let r := num % den
  if 2 * r < den then q
  else if den < 2 * r then q + 1
  else if q % 2 = 0 then q else q + 1

/-- A quotient divided by a power of two, as a quotient. -/
def scale (num den : Nat) (exponent : Int) : Nat × Nat :=
  (num * Nat.pow 2 (-exponent).toNat, den * Nat.pow 2 exponent.toNat)

/-- The number nearest to a quotient: 53 significant bits, fewer at the least exponent, and an
infinity above the greatest. -/
def ofRatio (negative : Bool) (num den : Nat) : Binary64 :=
  if num = 0 then zero negative
  else
    let guess := max ((Nat.log2 num : Int) - Nat.log2 den - 53) minExponent
    let near := scale num den guess
    let exponent := if near.1 / near.2 < significandLimit then guess else guess + 1
    let scaled := scale num den exponent
    let m := roundQuotient scaled.1 scaled.2
    let (m, exponent) :=
      if m = significandLimit then (significandLimit / 2, exponent + 1) else (m, exponent)
    if maxExponent < exponent then infinite negative else finite negative m exponent

/-- The number nearest to `coefficient * 10 ^ exponent`. Magnitudes of more than 400 digits before
or after the point are beyond the format. -/
def ofDecimal (negative : Bool) (coefficient : Nat) (exponent : Int) : Binary64 :=
  let magnitude := (Decimal.digits coefficient).length + exponent
  if coefficient = 0 || magnitude < -400 then zero negative
  else if 400 < magnitude then infinite negative
  else
    ofRatio negative (coefficient * Nat.pow 10 exponent.toNat) (Nat.pow 10 (-exponent).toNat)

/-- The exponent written after the digits: a mark, a sign and digits. -/
def exponentOfText : List Char → Int
  | _ :: '-' :: cs => -(Decimal.value cs : Int)
  | _ :: '+' :: cs => Decimal.value cs
  | _ :: cs => Decimal.value cs
  | [] => 0

/-- The unsigned number that a written decimal is nearest to. -/
def unsignedOfText (negative : Bool) (cs : List Char) : Binary64 :=
  let whole := cs.takeWhile Char.isDigit
  let rest := cs.dropWhile Char.isDigit
  let (fraction, rest) := match rest with
    | '.' :: rest => (rest.takeWhile Char.isDigit, rest.dropWhile Char.isDigit)
    | rest => ([], rest)
  ofDecimal negative (Decimal.value (whole ++ fraction)) (exponentOfText rest - fraction.length)

/-- The number nearest to a written decimal: an optional minus sign, digits, an optional fraction
and an optional exponent. -/
def ofText : List Char → Binary64
  | '-' :: cs => unsignedOfText true cs
  | cs => unsignedOfText false cs

/-- The number with one zero: two numbers compare equal when their canonical forms are equal. -/
def canonical : Binary64 → Binary64
  | finite _ 0 _ => zero false
  | x => x

theorem canonical_canonical (x : Binary64) : x.canonical.canonical = x.canonical := by
  match x with
  | finite _ 0 _ => rfl
  | finite _ (_ + 1) _ => rfl
  | infinite _ => rfl

end Binary64

end Federation
