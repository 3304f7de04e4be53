import Federation.Text.Quoted
/-!
# Text — quoted strings read back

What `Quoted.encode` writes for a string ends where the closing quote
stands (`split_encode`) and denotes the string (`decode_encode`). Every
character is written on its own, so both come from what one written
character reads as. The first needs the characters to lie in the basic
plane, as a literal holds no others.
-/

namespace Federation

namespace Text

theorem hexValue_hexDigitUpper {d : Nat} (h : d < 16) : hexValue (hexDigitUpper d) = d := by
  have all : ∀ e ∈ List.range 16, hexValue (hexDigitUpper e) = e := by decide
  exact all d (List.mem_range.mpr h)

theorem isHexDigit_hexDigitUpper {d : Nat} (h : d < 16) :
    isHexDigit (hexDigitUpper d) = true := by
  have all : ∀ e ∈ List.range 16, isHexDigit (hexDigitUpper e) = true := by decide
  exact all d (List.mem_range.mpr h)

/-- Four digits spell the number they were written for, if it has no more. -/
theorem hexNumber_hexFour {n : Nat} (h : n < 65536) : hexNumber (hexFour n) = n := by
  have h3 := hexValue_hexDigitUpper (Nat.mod_lt (n / 4096) (by omega : 16 > 0))
  have h2 := hexValue_hexDigitUpper (Nat.mod_lt (n / 256) (by omega : 16 > 0))
  have h1 := hexValue_hexDigitUpper (Nat.mod_lt (n / 16) (by omega : 16 > 0))
  have h0 := hexValue_hexDigitUpper (Nat.mod_lt n (by omega : 16 > 0))
  simp only [hexNumber, hexFour, List.foldl_cons, List.foldl_nil, h3, h2, h1, h0]
  omega

theorem isHexDigit_hexFour (n : Nat) : (hexFour n).all isHexDigit = true := by
  have h : ∀ m, isHexDigit (hexDigitUpper (m % 16)) = true := fun m =>
    isHexDigit_hexDigitUpper (Nat.mod_lt m (by omega))
  simp [hexFour, h]

/-- A character is the one with its code point. -/
theorem charOfCode?_toNat (c : Char) : charOfCode? c.toNat = some c := by
  have hv : c.toNat.isValidChar := c.valid
  rw [charOfCode?, if_pos hv, Char.ofNat_toNat]

/-- The control characters are among the first 160 code points. -/
theorem toNat_lt_of_isControl {c : Char} (h : isControl c = true) : c.toNat < 160 := by
  simp only [isControl, inRanges, List.any_cons, List.any_nil, Bool.or_eq_true, Bool.and_eq_true,
    decide_eq_true_eq, Bool.or_false] at h
  omega

theorem isControl_eq_false {c : Char} (h : isControl c = false) : 0x20 ≤ c.toNat := by
  simp only [isControl, inRanges, List.any_cons, List.any_nil, Bool.or_eq_false_iff,
    Bool.and_eq_false_iff, decide_eq_false_iff_not, Bool.or_false] at h
  omega

namespace Quoted

variable {c : Char} {cs rest : List Char}

/-- How a character is written: with a short escape, by its code point, or as it is. -/
theorem encodeChar_cases (c : Char) :
    (∃ x, x ≠ 'u' ∧ escape? x = some c ∧ encodeChar c = ['\\', x]) ∨
      (isControl c = true ∧ encodeChar c = '\\' :: 'u' :: hexFour c.toNat) ∨
      (c ≠ '"' ∧ c ≠ '\\' ∧ isControl c = false ∧ encodeChar c = [c]) := by
  unfold encodeChar
  split
  · exact .inl ⟨'r', by decide, by subst c; rfl, rfl⟩
  split
  · exact .inl ⟨'n', by decide, by subst c; rfl, rfl⟩
  split
  · exact .inl ⟨'t', by decide, by subst c; rfl, rfl⟩
  split
  · exact .inl ⟨'\\', by decide, by subst c; rfl, rfl⟩
  split
  · exact .inl ⟨'"', by decide, by subst c; rfl, rfl⟩
  split
  · exact .inr (.inl ⟨‹_›, rfl⟩)
  · rename_i hs hq hc
    exact .inr (.inr ⟨hq, hs, by simpa using hc, rfl⟩)

theorem decode_escape {x : Char} (hx : x ≠ 'u') :
    decode ('\\' :: x :: rest) = (decode rest).map ((escape? x).getD x :: ·) := by
  rw [decode, if_pos rfl]
  rintro a b d e tail rfl
  exact absurd rfl hx

theorem decode_unicode {n : Nat} (h : charOfCode? (hexNumber (hexFour n)) = some c) :
    decode ('\\' :: 'u' :: hexFour n ++ rest) = (decode rest).map (c :: ·) := by
  rw [hexFour] at h ⊢
  simp only [List.cons_append, List.nil_append, decode, if_true, h]

theorem decode_of_ne (hc : c ≠ '\\') : decode (c :: rest) = (decode rest).map (c :: ·) := by
  rw [decode.eq_def]
  exact if_neg hc

/-- A written character denotes the character. -/
theorem decode_encodeChar (c : Char) (rest : List Char) :
    decode (encodeChar c ++ rest) = (decode rest).map (c :: ·) := by
  obtain ⟨x, hx, hc, he⟩ | ⟨hc, he⟩ | ⟨-, hs, -, he⟩ := encodeChar_cases c
  · rw [he]
    simp [decode_escape hx, hc]
  -- control characters have small code points, which four digits can spell
  · have hn := toNat_lt_of_isControl hc
    have hcode : charOfCode? (hexNumber (hexFour c.toNat)) = some c := by
      rw [hexNumber_hexFour (by omega), charOfCode?_toNat]
    rw [he, decode_unicode hcode]
  · rw [he]
    exact decode_of_ne hs

/-- **A written string denotes the string.** -/
theorem decode_encode (cs : List Char) : decode (encode cs) = .ok cs := by
  induction cs with
  | nil => rfl
  | cons c cs ih =>
    have h : encode (c :: cs) = encodeChar c ++ encode cs := rfl
    rw [h, decode_encodeChar, ih]
    rfl

theorem split_escape {x : Char} (hx : x ≠ 'u') (he : (escape? x).isSome = true) :
    split ('\\' :: x :: rest) = (split rest).map fun (raw, rest) => ('\\' :: x :: raw, rest) := by
  rw [split, if_neg (by decide), if_pos rfl, if_pos he]
  rintro a b d e tail rfl
  exact absurd rfl hx

theorem split_unicode (n : Nat) :
    split ('\\' :: 'u' :: hexFour n ++ rest) =
      (split rest).map fun (raw, rest) => ('\\' :: 'u' :: hexFour n ++ raw, rest) := by
  have h := isHexDigit_hexFour n
  simp only [hexFour] at h
  simp only [hexFour, List.cons_append, List.nil_append, split,
    show ('\\' : Char) ≠ '"' by decide, if_false, if_true, h]

theorem split_of_isPlain (hq : c ≠ '"') (hs : c ≠ '\\') (hp : isPlain c = true) :
    split (c :: rest) = (split rest).map fun (raw, rest) => (c :: raw, rest) := by
  rw [split.eq_def]
  simp only [if_neg hq, if_neg hs, if_pos hp]

/-- A written character of the basic plane goes to the text before the closing quote. -/
theorem split_encodeChar (h : c.toNat ≤ 0xFFFF) (rest : List Char) :
    split (encodeChar c ++ rest) =
      (split rest).map fun (raw, rest) => (encodeChar c ++ raw, rest) := by
  obtain ⟨x, hx, hc, he⟩ | ⟨hc, he⟩ | ⟨hq, hs, hc, he⟩ := encodeChar_cases c
  · rw [he]
    simp only [List.cons_append, List.nil_append]
    exact split_escape hx (by rw [hc]; rfl)
  · rw [he]
    exact split_unicode _
  · have hp : isPlain c = true := by
      have := isControl_eq_false hc
      simp [isPlain, this, h]
    rw [he]
    exact split_of_isPlain hq hs hp

/-- **A written string ends where its closing quote stands**, if its characters lie in the basic
plane. -/
theorem split_encode (h : ∀ c ∈ cs, c.toNat ≤ 0xFFFF) (rest : List Char) :
    split (encode cs ++ '"' :: rest) = some (encode cs, rest) := by
  induction cs with
  | nil =>
    change split ('"' :: rest) = some ([], rest)
    rw [split.eq_def]
    exact if_pos rfl
  | cons c cs ih =>
    have he : encode (c :: cs) = encodeChar c ++ encode cs := rfl
    have hcs := ih fun x hx => h x (List.mem_cons_of_mem c hx)
    rw [he, List.append_assoc, split_encodeChar (h c List.mem_cons_self), hcs]
    rfl

end Quoted

end Text

end Federation
