/-!
# Number — decimal digits

The decimal digits of a natural number and the number a row of digits
spells. `value_digits` says that the two are inverse.
-/

namespace Federation

namespace Decimal

/-- The character of a digit below ten. -/
def digitChar (d : Nat) : Char :=
  Char.ofNat (d + 48)

/-- The digit that a character spells. -/
def digitValue (c : Char) : Nat :=
  c.toNat - 48

/-- The decimal digits of a number, the leading one first, `0` for zero. -/
def digits (n : Nat) : List Char :=
  if n < 10 then [digitChar n] else digits (n / 10) ++ [digitChar (n % 10)]
termination_by n
decreasing_by omega

/-- The number that a row of digits spells. -/
def value (cs : List Char) : Nat :=
  cs.foldl (fun n c => 10 * n + digitValue c) 0

/-- The written form of an integer: its digits, after a minus sign if it is negative. -/
def ofInt : Int → List Char
  | .ofNat n => digits n
  | .negSucc n => '-' :: digits (n + 1)

/-- The integer that a written form denotes. -/
def intValue : List Char → Int
  | '-' :: cs => -(value cs : Int)
  | cs => value cs

theorem digitValue_digitChar {d : Nat} (h : d < 10) : digitValue (digitChar d) = d := by
  have all : ∀ e ∈ List.range 10, digitValue (digitChar e) = e := by decide
  exact all d (List.mem_range.mpr h)

theorem value_append_singleton (cs : List Char) (c : Char) :
    value (cs ++ [c]) = 10 * value cs + digitValue c := by
  simp [value]

/-- The digits of a number spell it. -/
theorem value_digits (n : Nat) : value (digits n) = n := by
  induction n using Nat.strongRecOn with
  | ind n ih =>
    rw [digits]
    split
    · simp [value, digitValue_digitChar ‹_›]
    · rw [value_append_singleton, ih (n / 10) (by omega), digitValue_digitChar (by omega)]
      omega

end Decimal

end Federation
