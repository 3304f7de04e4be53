import Mathlib.Data.List.DropRight
import Federation.Proofs.Document.Lexing
/-!
# Document — text after text

A text goes on after the end of another one. Where the first one holds
names and punctuators of one character only, and a delimiter starts the
rest, its tokens are the tokens of the two by themselves, one after the
other, unless the first one ends within a comment: then the rest is
part of the comment, up to the end of its line (`tokens_append`). It is
enough to know that of the tokens of the first text, or of those of the
whole.
-/

namespace Federation

/-! ## Tokens that end by themselves -/

namespace Token

variable {c : Char} {cs rest : List Char} {t : Token}

/-- A name or a punctuator of one character. No such token is part of a longer one that goes on
after a delimiter, as a string may be. -/
def isSimple : Token → Bool
  | name _ => true
  | punctuator p => p ∈ Punctuator.simple
  | _ => false

/-- A character that starts a name or is a punctuator. -/
def startsSimple (c : Char) : Bool :=
  isNameStart c || (Punctuator.ofChar? c).isSome

theorem not_isSimple_of_readUnsigned {sign : List Char}
    (h : readUnsigned sign cs = .ok (t, rest)) : t.isSimple = false := by
  simp only [readUnsigned] at h
  split at h
  · cases h
  split at h
  · cases h
  split at h
  · cases h
  split at h <;> cases h <;> rfl

/-- The first character tells whether a simple token is read. -/
theorem startsSimple_of_read (h : read (c :: cs) = .ok (t, rest)) (ht : t.isSimple = true) :
    startsSimple c = true := by
  simp only [read] at h
  split at h
  · simp_all [startsSimple]
  split at h
  · have hnumber : t.isSimple = false := by
      unfold readNumber at h
      split at h <;> exact not_isSimple_of_readUnsigned h
    rw [hnumber] at ht
    cases ht
  split at h
  · unfold readString at h
    split at h <;> split at h <;> cases h <;> cases ht
  split at h
  · unfold readPoints at h
    split at h
    · cases h
      cases ht
    · cases h
      cases ht
    · split at h
      · cases h
      · cases h
        cases ht
  split at h
  · simp_all [startsSimple]
  · cases h

theorem takeWhile_append_stop {p : Char → Bool} {tail : List Char}
    (h : ∀ x ∈ tail.head?, p x = false) (cs : List Char) :
    (cs ++ tail).takeWhile p = cs.takeWhile p ∧
      (cs ++ tail).dropWhile p = cs.dropWhile p ++ tail := by
  induction cs with
  | nil => exact takeWhile_append_of_delimits (by simp) h
  | cons c cs ih =>
    by_cases hc : p c = true
    · simp [hc, ih]
    · simp [hc]

theorem numberSign_not_mem_name (h : isNameStart c = true) (cs : List Char) :
    '#' ∉ c :: cs.takeWhile isNameChar := by
  have hother : ∀ p : Char → Bool, p '#' = false → ∀ x, p x = true → '#' ≠ x := by
    rintro p hp x hx rfl
    rw [hp] at hx
    cases hx
  rw [List.mem_cons, not_or]
  exact ⟨hother isNameStart (by decide) c h, fun hmem =>
    hother isNameChar (by decide) _ (List.mem_takeWhile_imp hmem) rfl⟩

theorem read_of_ofChar? {p : Punctuator} (h : Punctuator.ofChar? c = some p) (cs : List Char) :
    read (c :: cs) = .ok (punctuator p, cs) := by
  have hread := read_punctuator (List.mem_of_find?_eq_some h) cs
  rwa [Punctuator.chars_of_ofChar? h] at hread

/-- A simple token is read whatever comes after a delimiter, and what is left goes on with it. -/
theorem exists_read_append (h : startsSimple c = true) (cs : List Char) :
    ∃ t rest, t.isSimple = true ∧ '#' ∉ t.chars ∧ read (c :: cs) = .ok (t, rest) ∧
      ∀ tail, Lexeme.Delimits tail → read (c :: cs ++ tail) = .ok (t, rest ++ tail) := by
  by_cases hname : isNameStart c = true
  · refine ⟨name (String.ofList (c :: cs.takeWhile isNameChar)), cs.dropWhile isNameChar, rfl, ?_,
      by rw [read, if_pos hname], fun tail htail => ?_⟩
    · rw [chars, String.toList_ofList]
      exact numberSign_not_mem_name hname cs
    · have hstop : ∀ x ∈ tail.head?, isNameChar x = false := fun x hx =>
        (Lexeme.isDelimiter_spec (htail x hx)).1
      obtain ⟨hword, hrest⟩ := takeWhile_append_stop hstop cs
      rw [List.cons_append, read, if_pos hname, hword, hrest]
  · obtain ⟨p, hp⟩ : ∃ p, Punctuator.ofChar? c = some p := by
      simpa [startsSimple, hname, Option.isSome_iff_exists] using h
    have hsimple : p ∈ Punctuator.simple := List.mem_of_find?_eq_some hp
    have hmark : ∀ p ∈ Punctuator.simple, '#' ∉ p.chars := by decide
    exact ⟨punctuator p, cs, decide_eq_true hsimple, hmark p hsimple, read_of_ofChar? hp cs,
      fun tail _ => read_of_ofChar? hp (cs ++ tail)⟩

end Token

/-! ## The tokens of a text -/

namespace Lexeme

variable {c : Char} {cs : List Char}

/-- The tokens of a text. -/
def tokens (cs : List Char) : List Token :=
  (ofText cs).map (·.token)

theorem scan_comment (index : LineIndex) (offset : Nat) (cs : List Char) :
    scan index offset ('#' :: cs) =
      scan index (offset + 1 + Text.byteCount (cs.takeWhile isComment))
        (cs.dropWhile isComment) := by
  rw [scan]
  simp [isGap]

theorem scan_fault {fault : LexicalFault} (hg : isGap c = false) (hc : c ≠ '#')
    (h : Token.read (c :: cs) = .error fault) (index : LineIndex) (offset : Nat) :
    scan index offset (c :: cs) = [⟨.fault fault, index.location offset⟩] := by
  rw [scan]
  simp only [hg, hc, Bool.false_eq_true, if_false]
  split <;> simp_all

/-- The tokens do not depend on where the text stands. The induction follows the scan. -/
theorem map_token_scan (index : LineIndex) (offset : Nat) (cs : List Char) :
    (scan index offset cs).map (·.token) = tokens cs := by
  have hplace : ∀ (index' : LineIndex) (offset' : Nat),
      (scan index offset cs).map (·.token) = (scan index' offset' cs).map (·.token) := by
    fun_induction scan index offset cs with
    | case1 => simp
    | case2 offset c rest hgap ih =>
      intro index' offset'
      rw [scan_gap hgap]
      exact ih _ _
    | case3 offset rest hgap ih =>
      intro index' offset'
      rw [scan_comment]
      exact ih _ _
    | case4 offset c rest hgap hcomment fault hread =>
      intro index' offset'
      rw [scan_fault (by simpa using hgap) hcomment hread]
      rfl
    | case5 offset c rest hgap hcomment t rest' hread ih =>
      intro index' offset'
      rw [scan_token (by simpa using hgap) hcomment hread, List.map_cons, List.map_cons, ih]
  exact hplace _ _

@[simp] theorem tokens_nil : tokens [] = [] := by
  simp [tokens, ofText]

theorem tokens_gap (h : isGap c = true) (cs : List Char) : tokens (c :: cs) = tokens cs := by
  rw [tokens, ofText, scan_gap h, map_token_scan]

theorem tokens_comment (cs : List Char) :
    tokens ('#' :: cs) = tokens (cs.dropWhile isComment) := by
  rw [tokens, ofText, scan_comment, map_token_scan]

theorem tokens_fault {fault : LexicalFault} (hg : isGap c = false) (hc : c ≠ '#')
    (h : Token.read (c :: cs) = .error fault) : tokens (c :: cs) = [.fault fault] := by
  rw [tokens, ofText, scan_fault hg hc h]
  rfl

theorem tokens_token {t : Token} {rest : List Char} (h : Token.read (c :: cs) = .ok (t, rest)) :
    tokens (c :: cs) = t :: tokens rest := by
  obtain ⟨hg, hc⟩ := Piece.not_isGap_of_read h
  rw [tokens, ofText, scan_token hg hc h, List.map_cons, map_token_scan]

/-- Where all tokens of a text are simple, its first character starts one. -/
theorem startsSimple_of_tokens (hg : isGap c = false) (hc : c ≠ '#')
    (h : ∀ t ∈ tokens (c :: cs), t.isSimple = true) : Token.startsSimple c = true := by
  cases hread : Token.read (c :: cs) with
  | error fault =>
    have hfault := h (.fault fault) (by simp [tokens_fault hg hc hread])
    cases hfault
  | ok result =>
    obtain ⟨t, rest⟩ := result
    exact Token.startsSimple_of_read hread (h t (by simp [tokens_token hread]))

/-! ## A text that goes on -/

/-- A text of names and punctuation that ends within a comment: there is a number sign on its last
line. -/
def EndsInComment (cs : List Char) : Prop :=
  '#' ∈ cs.rtakeWhile isComment

instance (cs : List Char) : Decidable (EndsInComment cs) :=
  inferInstanceAs (Decidable ('#' ∈ cs.rtakeWhile isComment))

theorem endsInComment_append {xs : List Char} (h : '#' ∉ xs) (ys : List Char) :
    EndsInComment (xs ++ ys) ↔ EndsInComment ys := by
  have hxs : '#' ∉ xs.reverse.takeWhile isComment := fun hmem =>
    h (List.mem_reverse.mp ((List.takeWhile_prefix _).mem hmem))
  simp only [EndsInComment, List.rtakeWhile, List.reverse_append, List.mem_reverse,
    List.takeWhile_append]
  split
  · rename_i hall
    have hys : ys.reverse.takeWhile isComment = ys.reverse :=
      (List.takeWhile_prefix isComment).eq_of_length hall
    rw [hys, List.mem_append, or_iff_left hxs]
  · rfl

/-- A line that is a comment to its end. -/
theorem endsInComment_comment (h : ∀ x ∈ cs, isComment x = true) : EndsInComment ('#' :: cs) := by
  have hall : ∀ x ∈ ('#' :: cs).reverse, isComment x = true := by
    simp only [List.mem_reverse, List.forall_mem_cons]
    exact ⟨by decide, h⟩
  rw [EndsInComment, List.rtakeWhile, List.takeWhile_eq_self_iff.mpr hall, List.reverse_reverse]
  exact List.mem_cons_self

theorem endsInComment_append_cons (h : isComment c = false) (xs ys : List Char) :
    EndsInComment (xs ++ c :: ys) ↔ EndsInComment (c :: ys) := by
  have hstop : (List.takeWhile isComment (c :: ys).reverse).length ≠ (c :: ys).reverse.length := by
    intro hlen
    have hall := List.takeWhile_eq_self_iff.mp
      ((List.takeWhile_prefix isComment).eq_of_length hlen)
    have := hall c (by simp)
    rw [h] at this
    cases this
  simp only [EndsInComment, List.rtakeWhile, List.reverse_append, List.takeWhile_append,
    if_neg hstop]

/-- A comment counts only on the last line. -/
theorem endsInComment_line {d : Char} {ds : List Char} (h : cs.dropWhile isComment = d :: ds) :
    EndsInComment ('#' :: cs) ↔ EndsInComment (d :: ds) := by
  have hstop : isComment d = false := by
    have := List.head?_dropWhile_not isComment cs
    simpa [h] using this
  have hends := endsInComment_append_cons hstop ('#' :: cs.takeWhile isComment) ds
  rwa [List.cons_append, ← h, List.takeWhile_append_dropWhile, h] at hends

/-- **A text of names and punctuation goes on with the tokens of what comes after it, unless it ends
within a comment.** What comes after it is a delimiter and more of the same line. The induction is
on the length of the text, as the scan is. -/
theorem tokens_append {tail : List Char} (htail : Delimits tail)
    (hline : ∀ x ∈ tail, isComment x = true)
    (h : (∀ t ∈ tokens cs, t.isSimple = true) ∨ ∀ t ∈ tokens (cs ++ tail), t.isSimple = true) :
    tokens (cs ++ tail) = tokens cs ++ if EndsInComment cs then [] else tokens tail := by
  induction hn : cs.length using Nat.strongRecOn generalizing cs with
  | ind n ih =>
  subst hn
  cases cs with
  | nil => simp [EndsInComment]
  | cons c cs =>
    rw [List.cons_append] at h ⊢
    by_cases hgap : isGap c = true
    · have hmark : '#' ∉ [c] := by
        rintro hmem
        obtain rfl := List.mem_singleton.mp hmem
        cases hgap
      have hends := endsInComment_append hmark cs
      rw [List.singleton_append] at hends
      simp only [tokens_gap hgap, hends] at h ⊢
      exact ih _ (by simp) h rfl
    by_cases hcomment : c = '#'
    · subst hcomment
      simp only [tokens_comment] at h ⊢
      by_cases hcs : ∀ x ∈ cs, isComment x = true
      · -- the comment takes in all that comes after it
        have hall : ∀ x ∈ cs ++ tail, isComment x = true :=
          List.forall_mem_append.mpr ⟨hcs, hline⟩
        rw [if_pos (endsInComment_comment hcs), List.dropWhile_eq_nil_iff.mpr hall,
          List.dropWhile_eq_nil_iff.mpr hcs, List.append_nil]
      · obtain ⟨d, ds, hd⟩ := List.exists_cons_of_ne_nil fun hnil =>
          hcs (List.dropWhile_eq_nil_iff.mp hnil)
        have happend : (cs ++ tail).dropWhile isComment = d :: ds ++ tail := by
          rw [List.dropWhile_append, hd]
          rfl
        have hlength : (d :: ds).length ≤ cs.length := by
          rw [← hd]
          exact (List.dropWhile_sublist isComment).length_le
        simp only [happend, hd, endsInComment_line hd] at h ⊢
        exact ih _ (Nat.lt_succ_of_le hlength) h rfl
    · have hg : isGap c = false := by simpa using hgap
      have hsimple : Token.startsSimple c = true :=
        h.elim (startsSimple_of_tokens hg hcomment) (startsSimple_of_tokens hg hcomment)
      obtain ⟨t, rest, ht, hmark, hread, happend⟩ := Token.exists_read_append hsimple cs
      have hread' := happend tail htail
      have hends := endsInComment_append hmark rest
      rw [← (Token.eq_of_read hread).1] at hends
      rw [List.cons_append] at hread'
      simp only [tokens_token hread, tokens_token hread', hends, List.forall_mem_cons, ht,
        true_and, List.cons_append] at h ⊢
      rw [ih _ (Token.length_lt_of_read hread) h rfl]

end Lexeme

end Federation
