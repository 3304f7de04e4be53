/-!
# Text — hexadecimal digits

Reading and writing numbers in base sixteen.
-/

namespace Federation

namespace Text

/-- A digit of base sixteen, in either case. -/
def isHexDigit (c : Char) : Bool :=
  c.isDigit || (decide ('a' ≤ c) && decide (c ≤ 'f')) || (decide ('A' ≤ c) && decide (c ≤ 'F'))

/-- The value of a digit of base sixteen. -/
def hexValue (c : Char) : Nat :=
  if c.isDigit then c.toNat - 48 else if c.toNat < 97 then c.toNat - 55 else c.toNat - 87

/-- The number that digits of base sixteen spell. -/
def hexNumber (cs : List Char) : Nat :=
  cs.foldl (fun n c => 16 * n + hexValue c) 0

/-- The digit of base sixteen for a value, in upper case. -/
def hexDigitUpper (d : Nat) : Char :=
  if d < 10 then Char.ofNat (d + 48) else Char.ofNat (d + 55)

/-- Exactly four digits of base sixteen, in upper case. -/
def hexFour (n : Nat) : List Char :=
  [hexDigitUpper (n / 4096 % 16), hexDigitUpper (n / 256 % 16), hexDigitUpper (n / 16 % 16),
   hexDigitUpper (n % 16)]

/-- The digits of base sixteen of a number, in lower case and without padding. -/
def hexDigits (n : Nat) : List Char :=
  Nat.toDigits 16 n

/-- The character with a code point, if there is one: surrogates are none. -/
def charOfCode? (n : Nat) : Option Char :=
  if n.isValidChar then some (Char.ofNat n) else none

end Text

end Federation
