import Federation.Text.Block
/-!
# Text — block strings read back

What `Block.encode` writes for a string at an indent of spaces ends
where the closing quotes stand (`split_encode`), and denotes the string
(`decode_encode`). `isWritable` asks for what this needs, but for one
thing: it takes spaces and tabs for the only white space of a line, and
reading takes all of Unicode's. `KnownSpace` closes that gap.
-/

namespace Federation

namespace Text

/-! ## Lines -/

variable {line : List Char} {lines : List (List Char)} {cs rest : List Char}

theorem splitLines_append (h : '\n' ∉ line) :
    splitLines (line ++ '\n' :: rest) = line :: splitLines rest := by
  induction line with
  | nil => simp [splitLines]
  | cons c line ih =>
    rw [List.mem_cons, not_or] at h
    simp [splitLines, Ne.symm h.1, ih h.2]

theorem splitLines_of_not_mem (h : '\n' ∉ line) : splitLines line = [line] := by
  induction line with
  | nil => rfl
  | cons c line ih =>
    rw [List.mem_cons, not_or] at h
    simp [splitLines, Ne.symm h.1, ih h.2]

/-- Lines that end with line feeds are divided there. -/
theorem splitLines_flatMap (h : ∀ line ∈ lines, '\n' ∉ line) (hr : '\n' ∉ rest) :
    splitLines (lines.flatMap (· ++ ['\n']) ++ rest) = lines ++ [rest] := by
  induction lines with
  | nil => exact splitLines_of_not_mem hr
  | cons line lines ih =>
    obtain ⟨hl, hls⟩ := List.forall_mem_cons.mp h
    simp only [List.flatMap_cons, List.append_assoc, List.cons_append, List.nil_append]
    rw [splitLines_append hl, ih hls]

theorem not_mem_of_mem_splitLines (h : line ∈ splitLines cs) : '\n' ∉ line := by
  induction cs generalizing line with
  | nil =>
    rw [splitLines, List.mem_singleton] at h
    simp [h]
  | cons c cs ih =>
    simp only [splitLines] at h
    split at h
    · obtain rfl | h := List.mem_cons.mp h
      · simp
      · exact ih h
    rename_i hc
    split at h
    · rename_i first others hs
      rw [hs] at ih
      obtain rfl | h := List.mem_cons.mp h
      · have := ih List.mem_cons_self
        simp [this, Ne.symm hc]
      · exact ih (List.mem_cons_of_mem _ h)
    · rw [List.mem_singleton] at h
      simp [h, Ne.symm hc]

/-- A line is a part of its text. -/
theorem infix_of_mem_splitLines (h : line ∈ splitLines cs) : line <:+: cs := by
  have hj := joinLines_splitLines cs
  generalize splitLines cs = lines at h hj
  induction lines generalizing cs with
  | nil => simp at h
  | cons first lines ih =>
    cases lines with
    | nil =>
      simp only [List.mem_singleton] at h
      subst h
      rw [← hj]
      exact List.infix_rfl
    | cons second lines =>
      rw [joinLines] at hj
      rw [← hj]
      · obtain rfl | h := List.mem_cons.mp h
        · exact List.infix_append' [] line _
        · have := ih h rfl
          rw [List.append_cons]
          exact this.trans (List.suffix_append _ _).isInfix
      · simp

namespace Block

/-! ## The closing quotes -/

theorem hasTripleQuotes_eq_false_iff :
    hasTripleQuotes cs = false ↔ ¬['"', '"', '"'] <:+: cs := by
  induction cs with
  | nil => simp [hasTripleQuotes]
  | cons c cs ih =>
    rw [hasTripleQuotes, Bool.or_eq_false_iff, ih, List.infix_cons_iff, not_or,
      ← List.isPrefixOf_iff_prefix, Bool.not_eq_true]

theorem hasTripleQuotes_of_infix (h : line <:+: cs) (hq : hasTripleQuotes cs = false) :
    hasTripleQuotes line = false := by
  rw [hasTripleQuotes_eq_false_iff] at hq ⊢
  exact fun hl => hq (hl.trans h)

theorem split_cons {c : Char} (hq : c ≠ '"') (hs : c ≠ '\\') :
    split (c :: rest) = (split rest).map fun (raw, rest) => (c :: raw, rest) := by
  rw [split]
  · rintro tail hc -
    exact hq hc
  · rintro tail hc -
    exact hs hc

/-- A text without triple quotes goes to the text before the closing quotes, if no quote comes
next. -/
theorem split_append {c : Char} (h : hasTripleQuotes cs = false) (hc : c ≠ '"') :
    split (cs ++ c :: rest) =
      (split (c :: rest)).map fun (raw, rest) => (cs ++ raw, rest) := by
  induction cs with
  | nil => simp
  | cons x cs ih =>
    rw [hasTripleQuotes, Bool.or_eq_false_iff] at h
    -- Neither of the two patterns with three quotes fits: one would be a prefix of the text or of
    -- its tail, or reach into the rest.
    have hne : ∀ (y : Char) (ys tail : List Char), hasTripleQuotes (y :: ys) = false →
        y :: ys ++ c :: rest ≠ '"' :: '"' :: '"' :: tail := by
      intro y ys tail hy he
      match ys with
      | [] => simp_all
      | [z] => simp_all
      | z :: w :: ys => simp_all [hasTripleQuotes]
    rw [List.cons_append, split, ih h.2, Option.map_map]
    · rfl
    · intro tail hx he
      exact hne x cs tail (by simp [hasTripleQuotes, h.1, h.2]) (by rw [hx, List.cons_append, he])
    · intro tail hx he
      cases cs with
      | nil => simp_all
      | cons y ys => exact hne y ys tail h.2 he

theorem unescape_eq_self (h : hasTripleQuotes cs = false) : unescape cs = cs := by
  induction cs with
  | nil => rfl
  | cons c cs ih =>
    rw [hasTripleQuotes, Bool.or_eq_false_iff] at h
    rw [unescape, ih h.2]
    rintro tail - rfl
    simp [hasTripleQuotes] at h

/-- A line as it stands at an indent: empty lines are not indented. -/
def place (indent line : List Char) : List Char :=
  if line = [] then [] else indent ++ line

theorem encode_eq (indent cs : List Char) :
    encode indent cs =
      '\n' :: (((splitLines cs).map (place indent)).flatMap (· ++ ['\n']) ++ indent) := by
  rw [encode, List.flatMap_map, List.cons_append]
  congr 3
  funext line
  unfold place
  split <;> rfl

variable {n : Nat}

theorem split_spaces (n : Nat) (rest : List Char) :
    split (List.replicate n ' ' ++ rest) =
      (split rest).map fun (raw, rest) => (List.replicate n ' ' ++ raw, rest) := by
  induction n with
  | zero => simp
  | succ n ih =>
    rw [List.replicate_succ, List.cons_append, split_cons (by decide) (by decide), ih]
    simp [Function.comp_def]

theorem split_place (h : hasTripleQuotes line = false) (rest : List Char) :
    split (place (List.replicate n ' ') line ++ '\n' :: rest) =
      (split rest).map fun (raw, rest) =>
        (place (List.replicate n ' ') line ++ '\n' :: raw, rest) := by
  unfold place
  split
  · exact split_cons (by decide) (by decide)
  · rw [List.append_assoc, split_spaces, split_append h (by decide),
      split_cons (by decide) (by decide)]
    simp [Function.comp_def]

theorem split_places (h : ∀ line ∈ lines, hasTripleQuotes line = false) (rest : List Char) :
    split ((lines.map (place (List.replicate n ' '))).flatMap (· ++ ['\n']) ++ rest) =
      (split rest).map fun (raw, rest) =>
        ((lines.map (place (List.replicate n ' '))).flatMap (· ++ ['\n']) ++ raw, rest) := by
  induction lines with
  | nil => simp
  | cons line lines ih =>
    obtain ⟨hl, hls⟩ := List.forall_mem_cons.mp h
    simp only [List.map_cons, List.flatMap_cons, List.append_assoc, List.cons_append,
      List.nil_append]
    rw [split_place hl, ih hls, Option.map_map]
    rfl

/-- **A written block ends where its closing quotes stand.** -/
theorem split_encode (h : hasTripleQuotes cs = false) (n : Nat) (rest : List Char) :
    split (encode (List.replicate n ' ') cs ++ '"' :: '"' :: '"' :: rest) =
      some (encode (List.replicate n ' ') cs, rest) := by
  have hl : ∀ line ∈ splitLines cs, hasTripleQuotes line = false := fun line hline =>
    hasTripleQuotes_of_infix (infix_of_mem_splitLines hline) h
  rw [encode_eq, List.cons_append, split_cons (by decide) (by decide), List.append_assoc,
    split_places hl, split_spaces, split]
  simp

/-! ## The indent -/

/-- The white space of a text is space, tab and line ends. -/
def KnownSpace (cs : List Char) : Prop :=
  ∀ c ∈ cs, isWhiteSpace c = true → c ∈ [' ', '\t', '\r', '\n']

instance : DecidablePred KnownSpace :=
  fun cs => List.decidableBAll (fun c => isWhiteSpace c = true → c ∈ [' ', '\t', '\r', '\n']) cs

theorem isIndentOnly_eq_isBlank (h : ∀ c ∈ line, isWhiteSpace c = true → c = ' ' ∨ c = '\t') :
    isIndentOnly line = isBlank line := by
  rw [Bool.eq_iff_iff, isIndentOnly, isBlank, List.all_eq_true, List.all_eq_true]
  constructor
  · intro hl c hc
    obtain hs | ht : c = ' ' ∨ c = '\t' := by simpa using hl c hc
    · rw [hs]; decide
    · rw [ht]; decide
  · intro hl c hc
    simpa using h c hc (hl c hc)

theorem isBlank_replicate (n : Nat) : isBlank (List.replicate n ' ') = true := by
  rw [isBlank, List.all_replicate]
  split <;> decide

theorem isBlank_place (n : Nat) (line : List Char) :
    isBlank (place (List.replicate n ' ') line) = isBlank line := by
  unfold place
  split
  · rename_i h
    rw [h]
  · have := isBlank_replicate n
    simp only [isBlank, List.all_append] at this ⊢
    rw [this, Bool.true_and]

theorem indentOf_place (h : line ≠ []) (n : Nat) :
    indentOf (place (List.replicate n ' ') line) = n + indentOf line := by
  rw [place, if_neg h, indentOf, indentOf]
  induction n with
  | zero => simp
  | succ n ih =>
    have hs : isWhiteSpace ' ' = true := by decide
    have hb : Char.utf8Size ' ' = 1 := by decide
    rw [List.replicate_succ, List.cons_append, List.takeWhile_cons_of_pos hs, byteCount_cons, ih,
      hb]
    omega

theorem dropBytes_zero (cs : List Char) : dropBytes 0 cs = cs := by
  cases cs with
  | nil => rfl
  | cons c cs => simp [dropBytes, Char.utf8Size_pos]

theorem dropBytes_replicate (n : Nat) (cs : List Char) :
    dropBytes n (List.replicate n ' ' ++ cs) = cs := by
  induction n with
  | zero => exact dropBytes_zero cs
  | succ n ih =>
    have hb : Char.utf8Size ' ' = 1 := by decide
    rw [List.replicate_succ, List.cons_append, dropBytes, if_neg (by omega), hb]
    exact ih

/-- The indent goes where it came. -/
theorem dropBytes_place (n : Nat) (line : List Char) :
    dropBytes n (place (List.replicate n ' ') line) = line := by
  unfold place
  split
  · rename_i h
    rw [h, dropBytes]
  · exact dropBytes_replicate n line

/-- The common indent of placed lines is the indent, if some line starts with no white space. Blank
lines do not count. -/
theorem commonIndent_places {blank : List (List Char)} (hne : line ∈ lines)
    (hb : isBlank line = false) (hi : indentOf line = 0) (hr : ∀ line ∈ blank, isBlank line = true)
    (n : Nat) :
    commonIndent (lines.map (place (List.replicate n ' ')) ++ blank) = n := by
  have hblank : blank.filter (!isBlank ·) = [] := by
    rw [List.filter_eq_nil_iff]
    intro line hl
    simp [hr line hl]
  have hindent : ∀ line, isBlank line = false →
      indentOf (place (List.replicate n ' ') line) = n + indentOf line := by
    intro line hl
    refine indentOf_place ?_ n
    rintro rfl
    simp at hl
  have hmin : ((lines.map (place (List.replicate n ' ')) ++ blank).filter
      (!isBlank ·) |>.map indentOf).min? = some n := by
    rw [List.filter_append, hblank, List.append_nil, List.min?_eq_some_iff]
    constructor
    · have hplaced : indentOf (place (List.replicate n ' ') line) = n := by
        rw [hindent line hb, hi]
        rfl
      refine List.mem_map.mpr ⟨place (List.replicate n ' ') line, ?_, hplaced⟩
      simp only [List.mem_filter, isBlank_place, hb]
      exact ⟨List.mem_map_of_mem hne, rfl⟩
    · intro b hmem
      obtain ⟨placed, hp, rfl⟩ := List.mem_map.mp hmem
      obtain ⟨hp, hpb⟩ := List.mem_filter.mp hp
      obtain ⟨other, -, rfl⟩ := List.mem_map.mp hp
      rw [isBlank_place, Bool.not_eq_true'] at hpb
      rw [hindent other hpb]
      omega
  rw [commonIndent, hmin]
  rfl

/-- Without the common indent the lines are as they were placed. -/
theorem removeIndent_places {blank : List (List Char)} (hne : line ∈ lines)
    (hb : isBlank line = false) (hi : indentOf line = 0) (hr : ∀ line ∈ blank, isBlank line = true)
    (n : Nat) :
    removeIndent ([] :: lines.map (place (List.replicate n ' ')) ++ blank) =
      [] :: lines ++ blank.map (dropBytes n) := by
  have hd : dropBytes n ∘ place (List.replicate n ' ') = id := by
    funext line
    exact dropBytes_place n line
  rw [List.cons_append, removeIndent, commonIndent_places hne hb hi hr, List.map_append,
    List.map_map, hd, List.map_id]
  rfl

/-! ## The string -/

/-- Blank lines go at both ends of lines whose first and last are not blank. -/
theorem trimBlank_eq {blank : List (List Char)} (hfirst : isBlank (lines.headD []) = false)
    (hlast : isBlank (lines.getLastD []) = false) (hr : ∀ line ∈ blank, isBlank line = true) :
    trimBlank ([] :: lines ++ blank) = lines := by
  cases lines with
  | nil => simp at hfirst
  | cons first lines =>
    have hf : ¬isBlank first = true := by simpa using hfirst
    have hd :
        List.dropWhile isBlank ([] :: (first :: lines) ++ blank) = first :: lines ++ blank := by
      rw [List.cons_append, List.dropWhile_cons_of_pos rfl, List.cons_append,
        List.dropWhile_cons_of_neg hf]
    obtain ⟨last, hl⟩ : ∃ last, (first :: lines).getLast? = some last :=
      ⟨_, List.getLast?_cons⟩
    obtain ⟨init, hinit⟩ := List.getLast?_eq_some_iff.mp hl
    have hb : ¬isBlank last = true := by simpa [List.getLastD_eq_getLast?, hl] using hlast
    have hr' : ∀ line ∈ blank.reverse, isBlank line = true := fun line h =>
      hr line (List.mem_reverse.mp h)
    rw [trimBlank, hd, hinit, List.reverse_append, List.dropWhile_append_of_pos hr',
      List.reverse_append, List.reverse_singleton, List.singleton_append,
      List.dropWhile_cons_of_neg hb, List.reverse_cons, List.reverse_reverse]

/-- What `isWritable` says about the lines of a string. -/
theorem isWritable_iff : isWritable cs = true ↔
    1 < (splitLines cs).length ∧ hasTripleQuotes cs = false ∧
      (∀ c ∈ cs, isControl c = true → c = '\n' ∨ c = '\t') ∧
      isIndentOnly ((splitLines cs).headD []) = false ∧
      isIndentOnly ((splitLines cs).getLastD []) = false ∧
      ∃ line ∈ splitLines cs, isIndentOnly line = false ∧ line.head? ≠ some ' ' ∧
        line.head? ≠ some '\t' := by
  simp only [isWritable, Bool.and_eq_true, decide_eq_true_eq, Bool.not_eq_true', List.all_eq_true,
    List.any_eq_true, Bool.or_eq_true, bne_iff_ne, and_assoc]
  refine and_congr_right fun _ => and_congr_right fun _ => and_congr_left fun _ =>
    forall₂_congr fun c _ => ?_
  cases isControl c <;> simp

theorem dropCarriageReturn_eq_self (h : '\r' ∉ line) : dropCarriageReturn line = line := by
  rw [dropCarriageReturn, if_neg]
  intro hl
  exact h (List.mem_of_getLast? hl)

theorem not_mem_place {c : Char} (hc : c ≠ ' ') (h : c ∉ line) (n : Nat) :
    c ∉ place (List.replicate n ' ') line := by
  unfold place
  split
  · simp
  · simp [h, hc]

/-- The lines of a written block: an empty one after the opening quotes, those of the string at
their indent, and the indent of the closing quotes. -/
theorem sourceLines_encode (h : '\r' ∉ cs) (n : Nat) :
    sourceLines (encode (List.replicate n ' ') cs) =
      [] :: (splitLines cs).map (place (List.replicate n ' ')) ++
        (if List.replicate n ' ' = [] then [] else [List.replicate n ' ']) := by
  have hn : ∀ line ∈ (splitLines cs).map (place (List.replicate n ' ')), '\n' ∉ line := by
    intro placed hp
    obtain ⟨line, hl, rfl⟩ := List.mem_map.mp hp
    exact not_mem_place (by decide) (not_mem_of_mem_splitLines hl) n
  have hr : ∀ line ∈ (splitLines cs).map (place (List.replicate n ' ')),
      dropCarriageReturn line = line := by
    intro placed hp
    obtain ⟨line, hl, rfl⟩ := List.mem_map.mp hp
    refine dropCarriageReturn_eq_self (not_mem_place (by decide) (fun hmem => h ?_) n)
    exact (infix_of_mem_splitLines hl).subset hmem
  have hs : splitLines (encode (List.replicate n ' ') cs) =
      [] :: (splitLines cs).map (place (List.replicate n ' ')) ++ [List.replicate n ' '] := by
    rw [encode_eq, splitLines, if_pos rfl, splitLines_flatMap hn (by simp)]
    rfl
  rw [sourceLines, hs, List.dropLast_concat, List.getLastD_concat, List.map_cons,
    List.map_congr_left hr, List.map_id']
  rfl

/-- In the lines of a string whose white space is known, only spaces and tabs are white. -/
theorem eq_of_isWhiteSpace {c : Char} (hs : KnownSpace cs) (hr : '\r' ∉ cs)
    (hl : line ∈ splitLines cs) (hc : c ∈ line) (hw : isWhiteSpace c = true) :
    c = ' ' ∨ c = '\t' := by
  have hmem : c ∈ cs := (infix_of_mem_splitLines hl).subset hc
  have hknown := hs c hmem hw
  simp only [List.mem_cons, List.not_mem_nil, or_false] at hknown
  obtain rfl | rfl | rfl | rfl := hknown
  · exact .inl rfl
  · exact .inr rfl
  · exact absurd hmem hr
  · exact absurd hc (not_mem_of_mem_splitLines hl)

/-- A line that starts with no space and no tab has no indent. -/
theorem indentOf_eq_zero (h : ∀ c ∈ line, isWhiteSpace c = true → c = ' ' ∨ c = '\t')
    (hspace : line.head? ≠ some ' ') (htab : line.head? ≠ some '\t') : indentOf line = 0 := by
  cases line with
  | nil => rfl
  | cons c line =>
    have hc : ¬isWhiteSpace c = true := by
      intro hw
      obtain rfl | rfl := h c List.mem_cons_self hw
      · exact hspace rfl
      · exact htab rfl
    rw [indentOf, List.takeWhile_cons_of_neg hc, byteCount_nil]

/-- The line of the closing quotes is blank, with its indent and without. -/
theorem isBlank_closing (n : Nat) :
    let closing := if List.replicate n ' ' = [] then [] else [List.replicate n ' ']
    (∀ line ∈ closing, isBlank line = true) ∧
      ∀ line ∈ closing.map (dropBytes n), isBlank line = true := by
  intro closing
  have hmem : ∀ line ∈ closing, line = List.replicate n ' ' := by
    intro line hl
    simp only [closing] at hl
    split at hl
    · cases hl
    · exact List.mem_singleton.mp hl
  constructor
  · intro line hl
    rw [hmem line hl]
    exact isBlank_replicate n
  · intro line hl
    obtain ⟨indent, hi, rfl⟩ := List.mem_map.mp hl
    have hdrop := dropBytes_replicate n []
    rw [List.append_nil] at hdrop
    rw [hmem indent hi, hdrop, isBlank_nil]

/-- **A written block denotes the string.** -/
theorem decode_encode (h : isWritable cs = true) (hs : KnownSpace cs) (n : Nat) :
    decode (encode (List.replicate n ' ') cs) = cs := by
  obtain ⟨-, hquotes, hcontrol, hfirst, hlast, line, hline, hnot, hspace, htab⟩ :=
    isWritable_iff.mp h
  have hreturn : '\r' ∉ cs := by
    intro hmem
    simpa using hcontrol '\r' hmem (by decide)
  -- writing and reading mean the same by a blank line, as only spaces and tabs are white here
  have hblank : ∀ line ∈ splitLines cs, isIndentOnly line = isBlank line := fun line hl =>
    isIndentOnly_eq_isBlank fun c hc => eq_of_isWhiteSpace hs hreturn hl hc
  have hindent : indentOf line = 0 :=
    indentOf_eq_zero (fun c hc => eq_of_isWhiteSpace hs hreturn hline hc) hspace htab
  have hhead : (splitLines cs).headD [] ∈ splitLines cs := by
    rw [List.headD_eq_head?_getD, List.head?_eq_some_head (splitLines_ne_nil cs)]
    exact List.head_mem _
  have hgetLast : (splitLines cs).getLastD [] ∈ splitLines cs := by
    rw [List.getLastD_eq_getLast?, List.getLast?_eq_some_getLast (splitLines_ne_nil cs)]
    exact List.getLast_mem _
  rw [hblank _ hhead] at hfirst
  rw [hblank _ hgetLast] at hlast
  rw [hblank line hline] at hnot
  obtain ⟨hclosing, hdropped⟩ := isBlank_closing n
  rw [decode, sourceLines_encode hreturn, removeIndent_places hline hnot hindent hclosing,
    trimBlank_eq hfirst hlast hdropped, joinLines_splitLines, unescape_eq_self hquotes]

end Block

end Text

end Federation
