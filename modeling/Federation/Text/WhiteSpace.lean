/-!
# Text — white space and control characters

Two character classes of Unicode, by code point: `isWhiteSpace` is the
property White_Space, `isControl` the general category Cc. A text is
blank when all its characters are white space (`isBlank`).
-/

namespace Federation

namespace Text

/-- A code point lies in one of the ranges, ends included. -/
def inRanges (ranges : List (Nat × Nat)) (n : Nat) : Bool :=
  ranges.any fun r => decide (r.1 ≤ n) && decide (n ≤ r.2)

/-- The code points with the property White_Space. -/
def whiteSpaceRanges : List (Nat × Nat) :=
  [(0x9, 0xD), (0x20, 0x20), (0x85, 0x85), (0xA0, 0xA0), (0x1680, 0x1680), (0x2000, 0x200A),
   (0x2028, 0x2029), (0x202F, 0x202F), (0x205F, 0x205F), (0x3000, 0x3000)]

/-- The property White_Space. -/
def isWhiteSpace (c : Char) : Bool :=
  inRanges whiteSpaceRanges c.toNat

/-- The general category Cc: the control characters. -/
def isControl (c : Char) : Bool :=
  inRanges [(0x0, 0x1F), (0x7F, 0x9F)] c.toNat

/-- A text of white space only. The empty text is one. -/
def isBlank (cs : List Char) : Bool :=
  cs.all isWhiteSpace

/-- The number of bytes a text takes in UTF-8. -/
def byteCount : List Char → Nat
  | [] => 0
  | c :: cs => c.utf8Size + byteCount cs

@[simp] theorem isBlank_nil : isBlank [] = true := rfl

@[simp] theorem isBlank_cons (c : Char) (cs : List Char) :
    isBlank (c :: cs) = (isWhiteSpace c && isBlank cs) := rfl

@[simp] theorem byteCount_nil : byteCount [] = 0 := rfl

@[simp] theorem byteCount_cons (c : Char) (cs : List Char) :
    byteCount (c :: cs) = c.utf8Size + byteCount cs := rfl

/-- Bytes add up over a concatenation. -/
theorem byteCount_append (as bs : List Char) :
    byteCount (as ++ bs) = byteCount as + byteCount bs := by
  induction as with
  | nil => simp
  | cons c as ih => simp [ih, Nat.add_assoc]

/-- White space of the ASCII class is white space. -/
theorem isWhiteSpace_of_isWhitespace {c : Char} (h : c.isWhitespace = true) :
    isWhiteSpace c = true := by
  simp only [Char.isWhitespace, Bool.or_eq_true, decide_eq_true_eq] at h
  rcases h with ((rfl | rfl) | rfl) | rfl <;> decide

end Text

end Federation
