import Federation.Number.Decimal
import Federation.Text.Hex
/-!
# TOML — scalars that are no texts

Which texts are numbers, truth values, dates and times.
-/

namespace Federation

namespace Toml

/-- Digits, with single underscores between some of them. -/
def isGrouped (isDigit : Char → Bool) : List Char → Bool
  | [] => false
  | [c] => isDigit c
  | c :: '_' :: cs => isDigit c && isGrouped isDigit cs
  | c :: cs => isDigit c && isGrouped isDigit cs

/-- A text without the sign at its head. -/
def dropSign (cs : List Char) : List Char :=
  if cs.head? == some '+' || cs.head? == some '-' then cs.drop 1 else cs

/-- A decimal integer without its sign: no zero leads other digits. -/
def isUnsigned (cs : List Char) : Bool :=
  isGrouped Char.isDigit cs && (cs.length == 1 || cs.head? != some '0')

/-- The number that digits of a base spell, without their underscores. -/
def groupedValue (base : Nat) (cs : List Char) : Nat :=
  (cs.filter (· != '_')).foldl (fun n c => base * n + Text.hexValue c) 0

/-- The first natural number that a signed integer of 64 bits cannot hold. -/
def integerLimit : Nat := Nat.pow 2 63

/-- An integer of 64 bits: decimal with an optional sign, or with a prefix for its base. -/
def isInteger (cs : List Char) : Bool :=
  match cs with
  | '0' :: 'x' :: ds => isGrouped Text.isHexDigit ds && groupedValue 16 ds < integerLimit
  | '0' :: 'o' :: ds =>
    isGrouped (fun c => '0' ≤ c && c ≤ '7') ds && groupedValue 8 ds < integerLimit
  | '0' :: 'b' :: ds =>
    isGrouped (fun c => c = '0' || c = '1') ds && groupedValue 2 ds < integerLimit
  | cs =>
    let limit := if cs.head? == some '-' then integerLimit + 1 else integerLimit
    isUnsigned (dropSign cs) && groupedValue 10 (dropSign cs) < limit

/-- Whether digits are an exponent after its mark. -/
def isExponent (cs : List Char) : Bool :=
  isGrouped Char.isDigit (dropSign cs)

/-- A floating point number: an integer with a fraction, an exponent or both, or one of the special
values. -/
def isFloat (cs : List Char) : Bool :=
  let unsigned := dropSign cs
  if unsigned = ['i', 'n', 'f'] || unsigned = ['n', 'a', 'n'] then true
  else
    let isPart := fun c => c.isDigit || c = '_'
    let whole := unsigned.takeWhile isPart
    isUnsigned whole &&
      match unsigned.dropWhile isPart with
      | '.' :: rest =>
        let fraction := rest.takeWhile isPart
        isGrouped Char.isDigit fraction &&
          match rest.dropWhile isPart with
          | [] => true
          | c :: exponent => (c = 'e' || c = 'E') && isExponent exponent
      | c :: exponent => (c = 'e' || c = 'E') && isExponent exponent
      | [] => false

/-- A number of exactly `n` digits at the head of a text, and the rest. -/
def fixedDigits (n : Nat) (cs : List Char) : Option (Nat × List Char) :=
  let ds := cs.take n
  if ds.length = n && ds.all Char.isDigit then some (Decimal.value ds, cs.drop n) else none

/-- The rest after a given character. -/
def dropChar (c : Char) : List Char → Option (List Char)
  | d :: cs => if d = c then some cs else none
  | [] => none

/-- The number of days of a month. -/
def daysOf (year month : Nat) : Nat :=
  if month = 2 then
    if year % 4 = 0 && (year % 100 != 0 || year % 400 = 0) then 29 else 28
  else if month = 4 || month = 6 || month = 9 || month = 11 then 30
  else 31

/-- The rest after a date. -/
def dropDate (cs : List Char) : Option (List Char) := do
  let (year, cs) ← fixedDigits 4 cs
  let (month, cs) ← fixedDigits 2 (← dropChar '-' cs)
  let (day, cs) ← fixedDigits 2 (← dropChar '-' cs)
  guard (1 ≤ month && month ≤ 12 && 1 ≤ day && day ≤ daysOf year month)
  return cs

/-- The rest after hours and minutes. -/
def dropHourMinute (cs : List Char) : Option (List Char) := do
  let (hour, cs) ← fixedDigits 2 cs
  let (minute, cs) ← fixedDigits 2 (← dropChar ':' cs)
  guard (hour ≤ 23 && minute ≤ 59)
  return cs

/-- The rest after a time of the day. -/
def dropTime (cs : List Char) : Option (List Char) := do
  let (second, cs) ← fixedDigits 2 (← dropChar ':' (← dropHourMinute cs))
  guard (second ≤ 60)
  match cs with
  | '.' :: fraction =>
    guard (fraction.head?.any Char.isDigit)
    return fraction.dropWhile Char.isDigit
  | cs => return cs

/-- Whether a text is the distance from universal time. -/
def isOffset (cs : List Char) : Bool :=
  match cs with
  | ['Z'] | ['z'] => true
  | c :: cs => (c = '+' || c = '-') && dropHourMinute cs == some []
  | [] => false

/-- A date, a time, or both with an optional distance from universal time. -/
def isDateTime (cs : List Char) : Bool :=
  match dropDate cs with
  | some [] => true
  | some (c :: time) =>
    (c = 'T' || c = 't' || c = ' ') &&
      match dropTime time with
      | some [] => true
      | some rest => isOffset rest
      | none => false
  | none => dropTime cs == some []

/-- A truth value, a number, a date or a time. -/
def isScalar (cs : List Char) : Bool :=
  cs = ['t', 'r', 'u', 'e'] || cs = ['f', 'a', 'l', 's', 'e'] || isInteger cs || isFloat cs ||
    isDateTime cs

end Toml

end Federation
