import Federation.Text.WhiteSpace
import Mathlib.Tactic.SplitIfs
/-!
# Text — bytes

The bytes of a text in UTF-8. Texts are compared character by character,
and it comes to the same to compare their bytes (`bytes_lt_iff`): a
lesser character has the lesser byte where the bytes of the two first
differ, and no character has the first bytes of another one.
-/

namespace Federation

namespace Text

/-- The bytes of a text in UTF-8. -/
def bytes (cs : List Char) : List UInt8 :=
  cs.flatMap String.utf8EncodeChar

@[simp] theorem bytes_cons (c : Char) (cs : List Char) :
    bytes (c :: cs) = String.utf8EncodeChar c ++ bytes cs :=
  List.flatMap_cons

theorem length_bytes (cs : List Char) : (bytes cs).length = byteCount cs := by
  induction cs with
  | nil => rfl
  | cons c cs ih => simp [ih]

theorem bytes_toList (text : String) : bytes text.toList = text.toByteArray.data.toList := by
  rw [← String.utf8Encode_toList, List.utf8Encode, List.data_toByteArray]
  rfl

/-! ## The order of bytes -/

/-- The bytes of a lesser character come first, whatever follows. -/
theorem utf8EncodeChar_append_lt {c d : Char} (h : c < d) (as bs : List UInt8) :
    String.utf8EncodeChar c ++ as < String.utf8EncodeChar d ++ bs := by
  have hval : c.val.toNat < d.val.toNat := UInt32.lt_iff_toNat_lt.mp h
  have hmax : d.val.toNat < 0x110000 := by
    rcases d.valid with hlow | ⟨-, hhigh⟩
    · exact Nat.lt_trans hlow (by decide)
    · exact hhigh
  -- the bytes are the digits of a character in base 64
  have hsecond : ∀ n : Nat, n / 4096 = n / 64 / 64 := fun n => by omega
  have hthird : ∀ n : Nat, n / 262144 = n / 64 / 64 / 64 := fun n => by omega
  simp only [String.utf8EncodeChar, hsecond, hthird]
  split_ifs <;>
    simp only [List.cons_append, List.nil_append, List.cons_lt_cons_iff, UInt8.lt_iff_toNat_lt,
      ← UInt8.toNat_inj, UInt8.toNat_ofNat'] <;> omega

theorem bytes_lt_of_lt {cs ds : List Char} (h : cs < ds) : bytes cs < bytes ds := by
  induction cs generalizing ds with
  | nil =>
    cases ds with
    | nil => exact absurd h (List.lt_irrefl _)
    | cons d ds =>
      cases hbytes : bytes (d :: ds) with
      | nil =>
        have hlength := length_bytes (d :: ds)
        have hsize := d.utf8Size_pos
        rw [hbytes, List.length_nil, byteCount_cons] at hlength
        omega
      | cons b bs => exact List.nil_lt_cons b bs
  | cons c cs ih =>
    cases ds with
    | nil => exact absurd h (List.not_lt_nil _)
    | cons d ds =>
      rw [bytes_cons, bytes_cons]
      rcases List.cons_lt_cons_iff.mp h with hlt | ⟨rfl, hlt⟩
      · exact utf8EncodeChar_append_lt hlt _ _
      · exact List.append_left_lt (ih hlt)

/-- **Texts are in the order of their bytes.** -/
theorem bytes_lt_iff {a b : String} : bytes a.toList < bytes b.toList ↔ a < b := by
  refine ⟨fun h => ?_, fun h => bytes_lt_of_lt (String.lt_iff.mp h)⟩
  rcases Std.lt_trichotomy a b with hlt | rfl | hlt
  · exact hlt
  · exact absurd h (List.lt_irrefl _)
  · have hback := bytes_lt_of_lt (String.lt_iff.mp hlt)
    exact absurd (List.lt_trans h hback) (List.lt_irrefl _)

theorem bytes_le_iff {a b : String} : bytes a.toList ≤ bytes b.toList ↔ a ≤ b := by
  rw [← List.not_lt, bytes_lt_iff, String.not_lt]

end Text

end Federation
