import Federation.Document.Lexeme
import Federation.Document.Printer
import Federation.Proofs.Text.Quoted
import Federation.Proofs.Text.Block
/-!
# Document — written tokens read back

The lexemes of a written text are the tokens of its pieces
(`map_token_ofText`). A token that is written is read back when a
delimiter follows it: a gap, a punctuator or the end of the text
(`Token.IsWritten`). A `Layout` is a row of pieces in which that is so
for every token, so all that is left to show of a node is that its
pieces are laid out in such a row.
-/

namespace Federation

/-! ## Digits -/

namespace Decimal

theorem digits_ne_nil (n : Nat) : digits n ≠ [] := by
  rw [digits]
  split <;> simp

theorem exists_of_mem_digits {c : Char} {n : Nat} (h : c ∈ digits n) :
    ∃ d < 10, c = digitChar d := by
  induction n using Nat.strongRecOn with
  | ind n ih =>
    rw [digits] at h
    split at h
    · exact ⟨n, ‹_›, List.mem_singleton.mp h⟩
    · obtain h | h := List.mem_append.mp h
      · exact ih (n / 10) (by omega) h
      · exact ⟨n % 10, by omega, List.mem_singleton.mp h⟩

/-- The characters of a number are digits, so no letters and no signs. -/
theorem isDigit_of_mem_digits {c : Char} {n : Nat} (h : c ∈ digits n) :
    c.isDigit = true ∧ Token.isNameStart c = false ∧ c ≠ '-' := by
  obtain ⟨d, hd, rfl⟩ := exists_of_mem_digits h
  have all : ∀ e ∈ List.range 10, (digitChar e).isDigit = true ∧
      Token.isNameStart (digitChar e) = false ∧ digitChar e ≠ '-' := by decide
  exact all d (List.mem_range.mpr hd)

/-- A positive number has no leading zero. -/
theorem head?_digits_ne {n : Nat} (h : 0 < n) : (digits n).head? ≠ some '0' := by
  induction n using Nat.strongRecOn with
  | ind n ih =>
    rw [digits]
    split
    · rename_i hn
      have all : ∀ e ∈ List.range 10, 0 < e → digitChar e ≠ '0' := by decide
      have := all n (List.mem_range.mpr hn) h
      simpa using this
    · have hd := ih (n / 10) (by omega) (by omega)
      rw [List.head?_append, List.head?_eq_some_head (digits_ne_nil _)] at *
      exact hd

theorem length_digits_of_head? {n : Nat} (h : (digits n).head? = some '0') :
    (digits n).length = 1 := by
  have hn : n = 0 := Nat.eq_zero_of_not_pos fun hpos => head?_digits_ne hpos h
  rw [hn, digits]
  rfl

/-- An integer is read from its digits. -/
theorem intValue_ofInt (n : Int) : intValue (ofInt n) = n := by
  cases n with
  | ofNat n =>
    have hv := value_digits n
    obtain ⟨c, cs, hc⟩ := List.exists_cons_of_ne_nil (digits_ne_nil n)
    have hmem : c ∈ digits n := by
      rw [hc]
      exact List.mem_cons_self
    have hne := (isDigit_of_mem_digits hmem).2.2
    rw [hc] at hv
    rw [ofInt, hc, intValue, hv]
    · rfl
    · rintro tail ⟨⟩
      exact hne rfl
  | negSucc n =>
    rw [ofInt, intValue, value_digits]
    rfl

end Decimal

/-! ## Delimiters -/

namespace Lexeme

/-- A character that ends the token before it: a gap or a punctuator. -/
def isDelimiter (c : Char) : Bool :=
  isGap c || (Punctuator.ofChar? c).isSome

/-- The characters that end a token. -/
def delimiters : List Char :=
  [' ', '\t', '\r', '\n', '\x0c', ',', '\ufeff'] ++ Punctuator.simple.flatMap Punctuator.chars

/-- A text that ends the token before it. -/
def Delimits (cs : List Char) : Prop :=
  ∀ c ∈ cs.head?, isDelimiter c = true

theorem mem_delimiters {c : Char} (h : isDelimiter c = true) : c ∈ delimiters := by
  rw [isDelimiter, Bool.or_eq_true] at h
  obtain h | h := h
  · simp only [isGap, Bool.or_eq_true, decide_eq_true_eq] at h
    obtain (((((rfl | rfl) | rfl) | rfl) | rfl) | rfl) | rfl := h <;> decide
  · obtain ⟨p, hp⟩ := Option.isSome_iff_exists.mp h
    refine List.mem_append_right _ (List.mem_flatMap.mpr ⟨p, List.mem_of_find?_eq_some hp, ?_⟩)
    rw [Punctuator.chars_of_ofChar? hp]
    exact List.mem_singleton_self c

/-- What a delimiter is not. -/
theorem isDelimiter_spec {c : Char} (h : isDelimiter c = true) :
    Token.isNameChar c = false ∧ Token.isNameStart c = false ∧ c.isDigit = false ∧ c ≠ '.' ∧
      c ≠ '"' ∧ c ≠ 'e' ∧ c ≠ 'E' := by
  -- over the list: on `∀ c ∈ delimiters` the search may take all characters in turn
  have all : (delimiters.all fun c => decide (Token.isNameChar c = false ∧
      Token.isNameStart c = false ∧ c.isDigit = false ∧ c ≠ '.' ∧ c ≠ '"' ∧ c ≠ 'e' ∧
      c ≠ 'E')) = true := by decide
  exact of_decide_eq_true (List.all_eq_true.mp all c (mem_delimiters h))

end Lexeme

/-! ## Tokens -/

/-- Whether a text is a name. -/
def isName (s : String) : Bool :=
  match s.toList with
  | [] => false
  | c :: cs => Token.isNameStart c && cs.all Token.isNameChar

theorem isName_iff {s : String} : isName s = true ↔
    ∃ c cs, s.toList = c :: cs ∧ Token.isNameStart c = true ∧
      ∀ x ∈ cs, Token.isNameChar x = true := by
  unfold isName
  split
  · rename_i hs
    simp [hs]
  · rename_i c cs hs
    rw [Bool.and_eq_true, List.all_eq_true]
    constructor
    · rintro ⟨hc, hcs⟩
      exact ⟨c, cs, hs, hc, hcs⟩
    · rintro ⟨d, ds, hd, hc, hcs⟩
      obtain ⟨rfl, rfl⟩ := List.cons.inj (hs.symm.trans hd)
      exact ⟨hc, hcs⟩

namespace Token

variable {cs rest : List Char}

/-- A token that is read back where a delimiter follows its text. -/
def IsWritten (t : Token) : Prop :=
  ∀ rest, Lexeme.Delimits rest → read (t.chars ++ rest) = .ok (t, rest)

theorem takeWhile_append_of_delimits {p : Char → Bool} (hcs : ∀ c ∈ cs, p c = true)
    (hrest : ∀ c ∈ rest.head?, p c = false) :
    (cs ++ rest).takeWhile p = cs ∧ (cs ++ rest).dropWhile p = rest := by
  rw [List.takeWhile_append_of_pos hcs, List.dropWhile_append_of_pos hcs]
  cases rest with
  | nil => simp
  | cons c rest =>
    have hc := hrest c rfl
    simp [hc]

/-- Punctuators of one character are read back whatever follows. -/
theorem read_punctuator {p : Punctuator} (h : p ∈ Punctuator.simple) (rest : List Char) :
    read (p.chars ++ rest) = .ok (punctuator p, rest) := by
  simp only [Punctuator.simple, List.mem_cons, List.not_mem_nil, or_false] at h
  obtain rfl | rfl | rfl | rfl | rfl | rfl | rfl | rfl | rfl | rfl | rfl | rfl | rfl := h <;> rfl

/-- Names are read back. -/
theorem isWritten_name {s : String} (h : isName s = true) : (name s).IsWritten := by
  intro rest hr
  obtain ⟨c, cs, hs, hc, hcs⟩ := isName_iff.mp h
  have hrest : ∀ x ∈ rest.head?, isNameChar x = false := fun x hx =>
    (Lexeme.isDelimiter_spec (hr x hx)).1
  obtain ⟨ht, hd⟩ := takeWhile_append_of_delimits hcs hrest
  rw [chars, hs, List.cons_append, read, if_pos hc, ht, hd, ← hs, String.ofList_toList]

theorem readFraction_of_delimits (h : Lexeme.Delimits rest) : readFraction rest = ([], rest) := by
  cases rest with
  | nil => rfl
  | cons c rest =>
    have hc := (Lexeme.isDelimiter_spec (h c rfl)).2.2.2.1
    simp [readFraction, hc]

theorem readExponent_of_delimits (h : Lexeme.Delimits rest) :
    readExponent rest = ([], [], rest) := by
  cases rest with
  | nil => rfl
  | cons c rest =>
    obtain ⟨-, -, -, -, -, he, hE⟩ := Lexeme.isDelimiter_spec (h c rfl)
    simp [readExponent, he, hE]

theorem readUnsigned_digits (sign : List Char) (n : Nat) (h : Lexeme.Delimits rest) :
    readUnsigned sign (Decimal.digits n ++ rest) =
      .ok (integer (sign ++ Decimal.digits n), rest) := by
  have hrest : ∀ c ∈ rest.head?, c.isDigit = false := fun c hc =>
    (Lexeme.isDelimiter_spec (h c hc)).2.2.1
  have hdigits : ∀ c ∈ Decimal.digits n, c.isDigit = true := fun c hc =>
    (Decimal.isDigit_of_mem_digits hc).1
  obtain ⟨ht, hd⟩ := takeWhile_append_of_delimits hdigits hrest
  -- digits that start with a zero are a single digit, so no leading zero is refused
  have hzero :
      ¬((Decimal.digits n).head? == some '0' && decide (1 < (Decimal.digits n).length)) := by
    intro hz
    simp only [Bool.and_eq_true, beq_iff_eq, decide_eq_true_eq] at hz
    have := Decimal.length_digits_of_head? hz.1
    omega
  have hnext : rest.head?.any (fun c => c = '.' || isNameStart c) = false := by
    cases rest with
    | nil => rfl
    | cons c rest =>
      obtain ⟨-, hn, -, hp, -⟩ := Lexeme.isDelimiter_spec (h c rfl)
      simp [hn, hp]
  simp only [readUnsigned, ht, hd, readFraction_of_delimits h, readExponent_of_delimits h]
  rw [if_neg (by simp [Decimal.digits_ne_nil]), if_neg hzero, hnext]
  simp

/-- Integers are read back. -/
theorem isWritten_integer (n : Int) : (integer (Decimal.ofInt n)).IsWritten := by
  intro rest hr
  cases n with
  | ofNat n =>
    obtain ⟨c, cs, hc⟩ := List.exists_cons_of_ne_nil (Decimal.digits_ne_nil n)
    have hmem : c ∈ Decimal.digits n := by
      rw [hc]
      exact List.mem_cons_self
    obtain ⟨hd, hname, hne⟩ := Decimal.isDigit_of_mem_digits hmem
    have hread := readUnsigned_digits [] n hr
    rw [List.nil_append, hc, List.cons_append] at hread
    simp only [chars, Decimal.ofInt, hc, List.cons_append, read, hname, hd, readNumber, if_neg hne]
    simpa using hread
  | negSucc n =>
    have hread := readUnsigned_digits ['-'] (n + 1) hr
    have hname : isNameStart '-' = false := by decide
    simp only [chars, Decimal.ofInt, List.cons_append, read, hname, readNumber]
    simpa using hread

theorem head?_encode_ne (cs : List Char) : (Text.Quoted.encode cs).head? ≠ some '"' := by
  cases cs with
  | nil => simp [Text.Quoted.encode]
  | cons c cs =>
    obtain ⟨x, -, -, he⟩ | ⟨-, he⟩ | ⟨hq, -, -, he⟩ := Text.Quoted.encodeChar_cases c <;>
      simp [Text.Quoted.encode, he]
    exact hq

/-- Strings of the basic plane are read back from quotes. -/
theorem isWritten_string (h : ∀ c ∈ cs, c.toNat ≤ 0xFFFF) :
    (string (Text.Quoted.encode cs)).IsWritten := by
  intro rest hr
  have hs := Text.Quoted.split_encode h rest
  have hne := head?_encode_ne cs
  have hname : isNameStart '"' = false := by decide
  have hdigit : Char.isDigit '"' = false := by decide
  generalize Text.Quoted.encode cs = raw at hs hne
  -- two quotes in a row could be the start of a block string, unless a delimiter comes next
  have hread : readString (raw ++ '"' :: rest) = .ok (string raw, rest) := by
    rw [readString]
    · rw [hs]
    · intro tail he
      cases raw with
      | nil =>
        cases rest with
        | nil => simp at he
        | cons c rest =>
          have hc := (Lexeme.isDelimiter_spec (hr c rfl)).2.2.2.2.1
          simp_all
      | cons c raw => simp_all
  simp [chars, read, hname, hdigit, hread]

/-- Strings without triple quotes are read back from block quotes. -/
theorem isWritten_block (h : Text.Block.hasTripleQuotes cs = false) (n : Nat) :
    (block (Text.Block.encode (List.replicate n ' ') cs)).IsWritten := by
  intro rest hr
  have hs := Text.Block.split_encode h n rest
  have hname : isNameStart '"' = false := by decide
  have hdigit : Char.isDigit '"' = false := by decide
  simp [chars, read, hname, hdigit, readString, hs]

end Token

/-! ## Pieces -/

namespace Piece

/-- The token that a piece is, if it is one. -/
def token? : Piece → Option Token
  | token t => some t
  | gap _ => none

/-- The tokens of a row of pieces. -/
def tokens (ps : List Piece) : List Token :=
  ps.filterMap token?

/-- A piece that ends the token before it. -/
def isSoft : Piece → Bool
  | gap _ => true
  | token (.punctuator p) => p ∈ Punctuator.simple
  | token _ => false

/-- A row of pieces that ends the token before it. -/
def Opens (ps : List Piece) : Prop :=
  ∀ p ∈ ps.head?, p.isSoft = true

/-- A row of pieces in which every token is read back. -/
inductive Layout : List Piece → Prop
  | nil : Layout []
  | gap {cs : List Char} {ps : List Piece} (hne : cs ≠ [])
      (hcs : ∀ c ∈ cs, Lexeme.isGap c = true) (h : Layout ps) : Layout (.gap cs :: ps)
  | punctuator {p : Punctuator} {ps : List Piece} (hp : p ∈ Punctuator.simple) (h : Layout ps) :
      Layout (.punctuator p :: ps)
  | word {t : Token} {ps : List Piece} (ht : t.IsWritten) (ho : Opens ps) (h : Layout ps) :
      Layout (.token t :: ps)

/-- A layout that may follow any other. -/
structure Follows (ps : List Piece) : Prop where
  layout : Layout ps
  opens : Opens ps

variable {ps qs : List Piece}

@[simp] theorem tokens_nil : tokens [] = [] := rfl

@[simp] theorem tokens_cons_token (t : Token) : tokens (token t :: ps) = t :: tokens ps := rfl

@[simp] theorem tokens_cons_gap (cs : List Char) : tokens (gap cs :: ps) = tokens ps := rfl

@[simp] theorem tokens_cons_name (s : String) : tokens (name s :: ps) = .name s :: tokens ps := rfl

@[simp] theorem tokens_cons_punctuator (p : Punctuator) :
    tokens (punctuator p :: ps) = .punctuator p :: tokens ps := rfl

@[simp] theorem tokens_cons_space : tokens (space :: ps) = tokens ps := rfl

@[simp] theorem tokens_cons_newline : tokens (newline :: ps) = tokens ps := rfl

@[simp] theorem tokens_cons_indent : tokens (indent :: ps) = tokens ps := rfl

@[simp] theorem tokens_cons_comma : tokens (comma :: ps) = tokens ps := rfl

@[simp] theorem tokens_append : tokens (ps ++ qs) = tokens ps ++ tokens qs :=
  List.filterMap_append

theorem tokens_flatMap {α : Type} (f : α → List Piece) (as : List α) :
    tokens (as.flatMap f) = as.flatMap fun a => tokens (f a) := by
  induction as with
  | nil => rfl
  | cons a as ih => simp [ih]

theorem delimits_punctuator {p : Punctuator} (h : p ∈ Punctuator.simple) (rest : List Char) :
    Lexeme.Delimits (p.chars ++ rest) := by
  have all : ∀ p ∈ Punctuator.simple, p.chars.all Lexeme.isDelimiter = true := by decide
  intro x hx
  obtain ⟨c, cs, hc⟩ := List.exists_cons_of_ne_nil p.chars_ne_nil
  obtain rfl : c = x := by simpa [hc] using hx
  exact List.all_eq_true.mp (all p h) c (by rw [hc]; exact List.mem_cons_self)

/-- The text of a layout that opens softly ends the token before it. -/
theorem Follows.delimits (h : Follows ps) : Lexeme.Delimits (ps.flatMap chars) := by
  obtain ⟨hl, ho⟩ := h
  cases hl with
  | nil => simp [Lexeme.Delimits]
  | gap hne hcs hps =>
    intro c hc
    obtain ⟨x, xs, rfl⟩ := List.exists_cons_of_ne_nil hne
    obtain rfl : x = c := by simpa [chars] using hc
    simp [Lexeme.isDelimiter, hcs x List.mem_cons_self]
  | punctuator hp hps => exact delimits_punctuator hp _
  | @word t ps ht _ hps =>
    have hsoft := ho (token t) rfl
    cases t with
    | punctuator p => exact delimits_punctuator (by simpa [isSoft] using hsoft) _
    | _ => cases hsoft

theorem scan_gaps {cs : List Char} (h : ∀ c ∈ cs, Lexeme.isGap c = true) (index : LineIndex)
    (offset : Nat) (rest : List Char) :
    Lexeme.scan index offset (cs ++ rest) =
      Lexeme.scan index (offset + Text.byteCount cs) rest := by
  induction cs generalizing offset with
  | nil => rfl
  | cons c cs ih =>
    obtain ⟨hc, hcs⟩ := List.forall_mem_cons.mp h
    rw [List.cons_append, Lexeme.scan_gap hc, ih hcs, Text.byteCount_cons, Nat.add_assoc]

/-- Where a token is read, there is no gap and no comment. -/
theorem not_isGap_of_read {c : Char} {cs rest : List Char} {t : Token}
    (h : Token.read (c :: cs) = .ok (t, rest)) : Lexeme.isGap c = false ∧ c ≠ '#' := by
  constructor
  · rw [Bool.eq_false_iff]
    intro hg
    simp only [Lexeme.isGap, Bool.or_eq_true, decide_eq_true_eq] at hg
    obtain (((((rfl | rfl) | rfl) | rfl) | rfl) | rfl) | rfl := hg <;> cases h
  · rintro rfl
    cases h

theorem scan_written {t : Token} {rest : List Char}
    (h : Token.read (t.chars ++ rest) = .ok (t, rest))
    (index : LineIndex) (offset : Nat) :
    Lexeme.scan index offset (t.chars ++ rest) =
      ⟨t, index.location offset⟩ ::
        Lexeme.scan index (offset + Text.byteCount t.chars) rest := by
  obtain ⟨c, cs, hc⟩ := List.exists_cons_of_ne_nil (Token.eq_of_read h).2
  rw [hc, List.cons_append] at h ⊢
  obtain ⟨hg, hn⟩ := not_isGap_of_read h
  rw [Lexeme.scan_token hg hn h, hc]

/-- **The lexemes of a layout are its tokens.** -/
theorem map_token_scan (h : Layout ps) (index : LineIndex) (offset : Nat) :
    (Lexeme.scan index offset (ps.flatMap chars)).map (·.token) = tokens ps := by
  -- locations are not written, so the induction is over all of them
  induction h generalizing index offset with
  | nil => simp
  | gap hne hcs _ ih =>
    rw [List.flatMap_cons, chars, scan_gaps hcs, ih, tokens_cons_gap]
  | @punctuator p ps hp _ ih =>
    have hread := Token.read_punctuator hp (ps.flatMap chars)
    rw [List.flatMap_cons]
    change List.map _ (Lexeme.scan _ _ ((Token.punctuator p).chars ++ _)) = _
    rw [scan_written hread, List.map_cons, ih, tokens_cons_punctuator]
  | @word t ps ht ho hps ih =>
    have hread := ht (ps.flatMap chars) (Follows.delimits ⟨hps, ho⟩)
    rw [List.flatMap_cons, chars, scan_written hread, List.map_cons, ih, tokens_cons_token]

/-! ## Rows of pieces -/

theorem Opens.nil : Opens [] := by
  intro p hp
  cases hp

theorem Opens.append (hp : Opens ps) (hq : Opens qs) : Opens (ps ++ qs) := by
  cases ps with
  | nil => exact hq
  | cons p ps => exact hp

/-- A layout goes on with any row that may follow. -/
theorem Layout.append (hp : Layout ps) (hq : Follows qs) : Layout (ps ++ qs) := by
  induction hp with
  | nil => exact hq.layout
  | gap hne hcs _ ih => exact .gap hne hcs ih
  | punctuator hp _ ih => exact .punctuator hp ih
  | word ht ho _ ih => exact .word ht (ho.append hq.opens) ih

theorem Follows.nil : Follows [] :=
  ⟨.nil, .nil⟩

theorem Follows.append (hp : Follows ps) (hq : Follows qs) : Follows (ps ++ qs) :=
  ⟨hp.layout.append hq, hp.opens.append hq.opens⟩

theorem Follows.gap {cs : List Char} (hne : cs ≠ []) (hcs : cs.all Lexeme.isGap = true)
    (h : Layout ps) : Follows (.gap cs :: ps) :=
  ⟨.gap hne (List.all_eq_true.mp hcs) h, by rintro p ⟨⟩; rfl⟩

theorem Layout.space (h : Layout ps) : Follows (.space :: ps) :=
  .gap (by decide) (by decide) h

theorem Layout.newline (h : Layout ps) : Follows (.newline :: ps) :=
  .gap (by decide) (by decide) h

theorem Layout.indent (h : Layout ps) : Follows (.indent :: ps) :=
  .gap (by decide) (by decide) h

theorem Layout.comma (h : Layout ps) : Follows (.comma :: ps) :=
  .gap (by decide) (by decide) h

theorem Follows.mark {p : Punctuator} (hp : p ∈ Punctuator.simple) (h : Layout ps) :
    Follows (.punctuator p :: ps) :=
  ⟨.punctuator hp h, by rintro q ⟨⟩; exact decide_eq_true hp⟩

theorem Layout.name {s : String} (hs : isName s = true) (h : Follows ps) :
    Layout (.name s :: ps) :=
  .word (Token.isWritten_name hs) h.opens h.layout

theorem separated_cons_cons (sep row next : List Piece) (rows : List (List Piece)) :
    separated sep (row :: next :: rows) = row ++ sep ++ separated sep (next :: rows) := rfl

/-- Rows with a separator between them are laid out when each of them is. -/
theorem layout_separated {sep : List Piece} (hsep : ∀ qs, Layout qs → Follows (sep ++ qs))
    {rows : List (List Piece)} (h : ∀ row ∈ rows, Layout row) : Layout (separated sep rows) := by
  induction rows with
  | nil => exact .nil
  | cons row rows ih =>
    obtain ⟨hrow, hrows⟩ := List.forall_mem_cons.mp h
    cases rows with
    | nil => exact hrow
    | cons next rows =>
      rw [separated_cons_cons, List.append_assoc]
      exact hrow.append (hsep _ (ih hrows))

/-- The separator stands between rows, so in front of each but the first. -/
theorem tokens_separated (sep row : List Piece) (rows : List (List Piece)) :
    tokens (separated sep (row :: rows)) =
      tokens row ++ rows.flatMap fun row => tokens sep ++ tokens row := by
  induction rows generalizing row with
  | nil => simp [separated]
  | cons next rows ih => simp [separated_cons_cons, ih]

/-- Separators of gaps alone hold no tokens. -/
theorem tokens_separated_gaps {sep : List Piece} (hsep : tokens sep = [])
    (rows : List (List Piece)) : tokens (separated sep rows) = rows.flatMap tokens := by
  cases rows with
  | nil => rfl
  | cons row rows => simp [tokens_separated, hsep]

end Piece

end Federation
