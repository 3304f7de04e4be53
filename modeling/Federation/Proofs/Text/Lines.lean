import Federation.Proofs.Text.Bytes
import Federation.Text.Location
import Mathlib.Data.List.DropRight
/-!
# Text — where lines start

Locations are looked up by halving among the offsets at which lines
start. What they say is read off the bytes in front of an offset: as
many lines have ended as there are line feeds, and the column counts the
bytes since the last of them. `countFrom_eq` is the specification of the
search, `getElem?_lineStarts` finds the start of the last line, and
`location_exact` puts both together for all offsets of a text, inside of
characters too.
-/

namespace Federation

namespace Location

/-- A location comes before another: on an earlier line, or in an earlier column of the same line. -/
def Before (a b : Location) : Prop :=
  a.line < b.line ∨ a.line = b.line ∧ a.column < b.column

theorem Before.ne {a b : Location} (h : a.Before b) : a ≠ b := by
  rintro rfl
  unfold Before at h
  omega

end Location

namespace Text

/-! ## Line feeds -/

/-- The byte that ends a line. -/
def lineFeed : UInt8 := 10

/-- A line feed is one byte, and no other character has that byte. -/
theorem utf8EncodeChar_lineFeed : String.utf8EncodeChar '\n' = [lineFeed] := rfl

theorem lineFeed_not_mem {c : Char} (h : c ≠ '\n') : lineFeed ∉ String.utf8EncodeChar c := by
  have hv : c.val.toNat ≠ 10 := by
    intro hc
    exact h (Char.ext (UInt32.toNat_inj.mp hc))
  intro hmem
  simp only [String.utf8EncodeChar, lineFeed] at hmem
  split_ifs at hmem <;>
    simp only [List.mem_cons, List.not_mem_nil, or_false, ← UInt8.toNat_inj, UInt8.toNat_ofNat',
      UInt8.reduceToNat] at hmem <;> omega

/-- The offsets just after the line feeds among bytes that begin at an offset. -/
def lineStarts (offset : Nat) : List UInt8 → List Nat
  | [] => []
  | b :: bs =>
    if b = lineFeed then (offset + 1) :: lineStarts (offset + 1) bs else lineStarts (offset + 1) bs

variable {offset : Nat} {bs : List UInt8}

theorem lineStarts_append (offset : Nat) (as bs : List UInt8) :
    lineStarts offset (as ++ bs) = lineStarts offset as ++ lineStarts (offset + as.length) bs := by
  induction as generalizing offset with
  | nil => rfl
  | cons a as ih =>
    rw [List.cons_append, lineStarts, lineStarts, ih, List.length_cons, Nat.add_assoc,
      Nat.add_comm 1]
    split <;> rfl

theorem lineStarts_of_not_mem (h : lineFeed ∉ bs) (offset : Nat) : lineStarts offset bs = [] := by
  induction bs generalizing offset with
  | nil => rfl
  | cons b bs ih =>
    rw [List.mem_cons, not_or] at h
    rw [lineStarts, if_neg (Ne.symm h.1), ih h.2]

theorem length_lineStarts (offset : Nat) (bs : List UInt8) :
    (lineStarts offset bs).length = bs.count lineFeed := by
  induction bs generalizing offset with
  | nil => rfl
  | cons b bs ih =>
    rw [lineStarts, List.count_cons]
    by_cases hb : b = lineFeed <;> simp [hb, ih]

/-- Lines start after the first byte, and at the end of the bytes at the latest. -/
theorem bounds_of_mem_lineStarts {start : Nat} (h : start ∈ lineStarts offset bs) :
    offset < start ∧ start ≤ offset + bs.length := by
  induction bs generalizing offset with
  | nil => cases h
  | cons b bs ih =>
    rw [lineStarts] at h
    rw [List.length_cons]
    split at h
    · rcases List.mem_cons.mp h with rfl | h
      · omega
      · have := ih h
        omega
    · have := ih h
      omega

/-- **The last line starts after the last line feed.** The induction is on the bytes from the back,
where each byte either starts a line or lengthens the last one. -/
theorem getElem?_lineStarts (bs : List UInt8) :
    (0 :: lineStarts 0 bs)[bs.count lineFeed]? =
      some (bs.length - (bs.rtakeWhile (· ≠ lineFeed)).length) := by
  induction bs using List.reverseRecOn with
  | nil => rfl
  | append_singleton bs b ih =>
    have hlength := length_lineStarts 0 bs
    have hle : (bs.rtakeWhile (· ≠ lineFeed)).length ≤ bs.length :=
      (List.rtakeWhile_suffix _ _).length_le
    rw [lineStarts_append, ← List.cons_append, List.rtakeWhile_concat, List.count_append,
      List.length_append]
    by_cases hb : b = lineFeed
    · subst hb
      rw [List.getElem?_append_right (by simp [hlength])]
      simp [lineStarts, hlength]
    · rw [List.getElem?_append_left (by simp [hlength, hb]), List.count_singleton, if_neg (by simp [hb])]
      simp [hb, ih]

/-- Bytes without a line feed lengthen the last line. -/
theorem rtakeWhile_append {as bs : List UInt8} (h : lineFeed ∉ bs) :
    (as ++ bs).rtakeWhile (· ≠ lineFeed) = as.rtakeWhile (· ≠ lineFeed) ++ bs := by
  have hall : ∀ b ∈ bs.reverse, decide (b ≠ lineFeed) = true := by
    intro b hb
    rw [List.mem_reverse] at hb
    exact decide_eq_true fun hbl => h (hbl ▸ hb)
  simp only [List.rtakeWhile, List.reverse_append]
  rw [List.takeWhile_append_of_pos hall, List.reverse_append, List.reverse_reverse]

/-- The location after some bytes: as many lines have ended as there are line feeds among them, and
the column counts the bytes since the last line feed, or all of them. -/
def locationAfter (before : List UInt8) : Location :=
  { line := 1 + before.count lineFeed
    column := 1 + (before.rtakeWhile (· ≠ lineFeed)).length }

/-- **Locations increase with the bytes in front of them.** A line feed among the new bytes starts
another line, and otherwise they lengthen the last one. -/
theorem before_locationAfter (as : List UInt8) {bs : List UInt8} (h : bs ≠ []) :
    (locationAfter as).Before (locationAfter (as ++ bs)) := by
  unfold Location.Before locationAfter
  by_cases hfeed : lineFeed ∈ bs
  · have := List.count_pos_iff.mpr hfeed
    simp only [List.count_append]
    omega
  · have := List.length_pos_of_ne_nil h
    have := List.count_eq_zero.mpr hfeed
    rw [rtakeWhile_append hfeed]
    simp only [List.count_append, List.length_append]
    omega

end Text

namespace LineIndex

open Text

/-! ## The search -/

/-- **The search counts the lines that start at or before an offset**, when they are in front of
those that start after it. -/
theorem countFrom_eq {offset : Nat} {xs ys : List Nat} (hxs : ∀ x ∈ xs, x ≤ offset)
    (hys : ∀ y ∈ ys, offset < y) {base size : Nat} (hbase : base ≤ xs.length)
    (hsize : xs.length ≤ base + size) (hall : base + size ≤ (xs ++ ys).length) :
    countFrom (xs ++ ys).toArray offset base size = xs.length := by
  induction size using Nat.strongRecOn generalizing base with
  | ind size ih =>
    rw [countFrom]
    split
    · omega
    -- the line in the middle tells on which side of it the offset is
    have hmiddle : base + size / 2 < (xs ++ ys).length := by omega
    have hside : ((xs ++ ys).toArray[base + size / 2]?.any (· ≤ offset)) = true ↔
        base + size / 2 < xs.length := by
      rw [List.getElem?_toArray, List.getElem?_eq_getElem hmiddle, Option.any_some,
        decide_eq_true_eq]
      by_cases hlt : base + size / 2 < xs.length
      · rw [List.getElem_append_left hlt]
        exact iff_of_true (hxs _ (List.getElem_mem hlt)) hlt
      · rw [List.getElem_append_right (by omega)]
        exact iff_of_false (Nat.not_le.mpr (hys _ (List.getElem_mem _))) hlt
    dsimp only
    split
    · rename_i hbefore
      rw [hside] at hbefore
      exact ih _ (by omega) (by omega) (by omega) (by omega)
    · rename_i hafter
      rw [hside] at hafter
      exact ih _ (by omega) (by omega) (by omega) (by omega)

/-! ## The lines of a text -/

/-- The lines of a text start after the line feeds among its bytes. -/
theorem startsAfter_eq (offset : Nat) (cs : List Char) :
    startsAfter offset cs = lineStarts offset (bytes cs) := by
  induction cs generalizing offset with
  | nil => rfl
  | cons c cs ih =>
    rw [bytes_cons, lineStarts_append, String.length_utf8EncodeChar, startsAfter]
    split
    · rename_i hc
      subst hc
      rw [ih, utf8EncodeChar_lineFeed]
      rfl
    · rename_i hc
      rw [ih, lineStarts_of_not_mem (lineFeed_not_mem hc), List.nil_append]

/-- The lines of a text are those of the bytes before an offset and those that start after it. -/
theorem starts_ofText {cs : List Char} {before after : List UInt8}
    (h : bytes cs = before ++ after) :
    (ofText cs).starts =
      ((0 :: lineStarts 0 before) ++ lineStarts before.length after).toArray := by
  rw [ofText, startsAfter_eq, h, lineStarts_append, Nat.zero_add, List.cons_append]

/-- **The location of an offset** is read off the bytes before it. -/
theorem location?_ofText {cs : List Char} {before after : List UInt8}
    (h : bytes cs = before ++ after) :
    (ofText cs).location? before.length = some (locationAfter before) := by
  have hstarts := starts_ofText h
  have hcount : (ofText cs).count before.length = 1 + before.count lineFeed := by
    have hxs : ∀ x ∈ 0 :: lineStarts 0 before, x ≤ before.length := by
      intro x hx
      rcases List.mem_cons.mp hx with rfl | hx
      · omega
      · have := bounds_of_mem_lineStarts hx
        omega
    have hys : ∀ y ∈ lineStarts before.length after, before.length < y :=
      fun y hy => (bounds_of_mem_lineStarts hy).1
    rw [count, hstarts, List.size_toArray, countFrom_eq hxs hys (by omega) (by simp) (by simp),
      List.length_cons, length_lineStarts, Nat.add_comm]
  have hlast : (ofText cs).starts[before.count lineFeed]? =
      some (before.length - (before.rtakeWhile (· ≠ lineFeed)).length) := by
    rw [hstarts, List.getElem?_toArray, List.getElem?_append_left, getElem?_lineStarts]
    rw [List.length_cons, length_lineStarts]
    omega
  have hle : (before.rtakeWhile (· ≠ lineFeed)).length ≤ before.length :=
    (List.rtakeWhile_suffix _ _).length_le
  have hline : max 1 (1 + before.count lineFeed) = 1 + before.count lineFeed := by omega
  have hcolumn : before.length - (before.length - (before.rtakeWhile (· ≠ lineFeed)).length) + 1 =
      1 + (before.rtakeWhile (· ≠ lineFeed)).length := by omega
  rw [location?, hcount]
  simp only [hline, Nat.add_sub_cancel_left, hlast, Option.bind_eq_bind, Option.bind_some,
    Nat.sub_le, if_true, hcolumn, locationAfter]

theorem location?_of_le {cs : List Char} {offset : Nat} (h : offset ≤ byteCount cs) :
    (ofText cs).location? offset = some (locationAfter ((bytes cs).take offset)) := by
  have hlength : ((bytes cs).take offset).length = offset := by
    rw [List.length_take, length_bytes, Nat.min_eq_left h]
  have hsplit := location?_ofText (List.take_append_drop offset (bytes cs)).symm
  rwa [hlength] at hsplit

theorem location_of_le {cs : List Char} {offset : Nat} (h : offset ≤ byteCount cs) :
    (ofText cs).location offset = locationAfter ((bytes cs).take offset) := by
  rw [location, location?_of_le h, Option.getD_some]

/-- **A later offset has a later location.** -/
theorem before_location {cs : List Char} {offset later : Nat} (hlt : offset < later)
    (h : later ≤ byteCount cs) :
    ((ofText cs).location offset).Before ((ofText cs).location later) := by
  have hsplit : (bytes cs).take later =
      (bytes cs).take offset ++ ((bytes cs).drop offset).take (later - offset) := by
    rw [← List.take_add, Nat.add_sub_cancel' hlt.le]
  have hlength : (((bytes cs).drop offset).take (later - offset)).length = later - offset := by
    rw [List.length_take, List.length_drop, length_bytes]
    omega
  rw [location_of_le (by omega), location_of_le h, hsplit]
  refine before_locationAfter _ (List.ne_nil_of_length_pos ?_)
  omega

/-- **Locations are exact.** At every byte offset of a text, up to its end and inside of characters
too, the look-up finds a line that starts at or before the offset, and its location is read off the
bytes before the offset: the line is one more than their line feeds, and the column one more than the
bytes since the last of these, or since the start of the text. A later offset has a later location,
and only equal offsets have equal locations. -/
theorem location_exact (text : String) (offset : Nat) (h : offset ≤ text.utf8ByteSize) :
    (ofText text.toList).location? offset =
        some (locationAfter (text.toByteArray.data.toList.take offset)) ∧
      (ofText text.toList).location offset =
        locationAfter (text.toByteArray.data.toList.take offset) ∧
      ∀ other ≤ text.utf8ByteSize,
        (offset < other →
          ((ofText text.toList).location offset).Before ((ofText text.toList).location other)) ∧
        ((ofText text.toList).location offset = (ofText text.toList).location other →
          offset = other) := by
  have hsize : text.utf8ByteSize = byteCount text.toList := by
    rw [← length_bytes, bytes_toList]
    rfl
  rw [hsize] at h ⊢
  rw [← bytes_toList]
  refine ⟨location?_of_le h, location_of_le h, fun other hother => ⟨fun hlt => ?_, fun heq => ?_⟩⟩
  · exact before_location hlt hother
  · rcases Nat.lt_trichotomy offset other with hlt | hsame | hgt
    · exact absurd heq (before_location hlt hother).ne
    · exact hsame
    · exact absurd heq.symm (before_location hgt h).ne

/-- A text of a character of two bytes, an empty line and one more character: the fourth byte is the
line feed of the empty line, and the end of the text is after the first byte of the third line. -/
theorem emptyLine_location_exact :
    3 ≤ "é\n\nb".utf8ByteSize ∧
    (ofText "é\n\nb".toList).location? 3 = some ⟨2, 1⟩ ∧
    (ofText "é\n\nb".toList).location? 5 = some ⟨3, 2⟩ ∧
    Location.Before ((ofText "é\n\nb".toList).location 3) ((ofText "é\n\nb".toList).location 5) := by
  have hsize : 3 ≤ "é\n\nb".utf8ByteSize ∧ 5 ≤ "é\n\nb".utf8ByteSize := by decide
  obtain ⟨hmiddle, -, hlater⟩ := location_exact "é\n\nb" 3 hsize.1
  obtain ⟨hend, -⟩ := location_exact "é\n\nb" 5 hsize.2
  have hplaces : locationAfter ("é\n\nb".toByteArray.data.toList.take 3) = ⟨2, 1⟩ ∧
      locationAfter ("é\n\nb".toByteArray.data.toList.take 5) = ⟨3, 2⟩ := by decide
  rw [hplaces.1] at hmiddle
  rw [hplaces.2] at hend
  exact ⟨hsize.1, hmiddle, hend, (hlater 5 hsize.2).1 (by decide)⟩

end LineIndex

end Federation
