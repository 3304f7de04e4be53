import Federation.Number.Binary64
/-!
# Number — shortest decimal text

Of the decimals that read back as a given number, `shortest` takes one
with the fewest digits, and of those the nearest; of two equally near
ones it takes the upper. The grids of multiples of powers of ten are
tried from the coarsest: the first that has a point among the decimals
that round to the number has one next to the number itself.
`text` lays the digits out.
-/

namespace Federation

namespace Binary64

/-- The decimals that round to `significand * 2 ^ exponent`, as multiples of a quarter of the last
place: the number itself, the ends of the interval, and whether the ends belong to it. -/
structure Rounding where
  center : Nat
  low : Nat
  high : Nat
  closed : Bool

/-- An interval reaches half a place up and down, and only a quarter down from a power of two. -/
def rounding (significand : Nat) (exponent : Int) : Rounding :=
  { center := 4 * significand
    low :=
      4 * significand -
        (if significand = significandLimit / 2 && minExponent < exponent then 1 else 2)
    high := 4 * significand + 2
    closed := significand % 2 = 0 }

/-- The point of the grid `10 ^ place` in the interval that is nearest to its center, as a
multiple of `10 ^ place`. -/
def gridPoint? (r : Rounding) (exponent place : Int) : Option Nat :=
  let unit := exponent - 2
  let grid := Nat.pow 10 place.toNat * Nat.pow 2 (-unit).toNat
  let quarter := Nat.pow 2 unit.toNat * Nat.pow 10 (-place).toNat
  let inside := fun c =>
    if r.closed then decide (r.low * quarter ≤ c * grid) && decide (c * grid ≤ r.high * quarter)
    else decide (r.low * quarter < c * grid) && decide (c * grid < r.high * quarter)
  let below := r.center * quarter / grid
  let above := below + 1
  match inside below, inside above with
  | false, false => none
  | true, false => some below
  | false, true => some above
  | true, true =>
    if r.center * quarter - below * grid < above * grid - r.center * quarter then some below
    else some above

/-- The first grid point over the grids `10 ^ place`, `10 ^ (place - 1)`, and so on. -/
def searchGrids (r : Rounding) (exponent : Int) : Nat → Int → Nat × Int
  | 0, place => (0, place)
  | grids + 1, place =>
    match gridPoint? r exponent place with
    | some c => (c, place)
    | none => searchGrids r exponent grids (place - 1)

/-- The shortest decimal that reads back as `significand * 2 ^ exponent`: a coefficient and a power
of ten. No number of the format reaches `10 ^ 309`, and `10 ^ (-324)` is fine enough for all. -/
def shortest (significand : Nat) (exponent : Int) : Nat × Int :=
  if significand = 0 then (0, 0) else searchGrids (rounding significand exponent) exponent 660 309

/-- Positional notation, with at least one digit after the point. -/
def positional (ds : List Char) (leading : Int) : List Char :=
  if leading < 0 then '0' :: '.' :: List.replicate (-leading - 1).toNat '0' ++ ds
  else
    let places := leading.toNat + 1
    let whole := ds.take places ++ List.replicate (places - ds.length) '0'
    let fraction := ds.drop places
    whole ++ '.' :: (if fraction = [] then ['0'] else fraction)

/-- Exponent notation: one digit before the point, and no point when it is the only digit. -/
def scientific (ds : List Char) (leading : Int) : List Char :=
  ds.take 1 ++ (if ds.drop 1 = [] then [] else '.' :: ds.drop 1) ++ 'e' :: Decimal.ofInt leading

/-- The written form of a number: the shortest digits that read back, positional from `0.0001` to
below `10 ^ 16` and for zero, in exponent notation otherwise. -/
def text : Binary64 → List Char
  | infinite negative => if negative then ['-', 'i', 'n', 'f'] else ['i', 'n', 'f']
  | finite negative significand exponent =>
    let (coefficient, place) := shortest significand exponent
    let ds := Decimal.digits coefficient
    let leading := place + ds.length - 1
    (if negative then ['-'] else []) ++
      (if -4 ≤ leading && leading < 16 then positional ds leading else scientific ds leading)

end Binary64

end Federation
