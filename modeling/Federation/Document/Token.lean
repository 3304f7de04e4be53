import Federation.Text.Quoted
import Federation.Text.Block
/-!
# Document — tokens

The words of the language. A token knows the text it is written as
(`Token.chars`) and the words for it in error messages
(`Token.description`). `Token.read` takes the longest token off the head
of a text; `eq_of_read` says that it loses nothing, and
`length_lt_of_read` that it gets ahead.
-/

namespace Federation

/-- The punctuation of the language. -/
inductive Punctuator
  | ampersand
  | atSign
  | closeBrace
  | closeBracket
  | closeParen
  | colon
  | dollar
  | equals
  | exclamation
  | openBrace
  | openBracket
  | openParen
  | period
  | doublePeriod
  | spread
  | pipe
  deriving DecidableEq, Inhabited, Repr

namespace Punctuator

/-- The text of a punctuator. -/
def chars : Punctuator → List Char
  | ampersand => ['&']
  | atSign => ['@']
  | closeBrace => ['\x7d']
  | closeBracket => [']']
  | closeParen => [')']
  | colon => [':']
  | dollar => ['$']
  | equals => ['=']
  | exclamation => ['!']
  | openBrace => ['\x7b']
  | openBracket => ['[']
  | openParen => ['(']
  | period => ['.']
  | doublePeriod => ['.', '.']
  | spread => ['.', '.', '.']
  | pipe => ['|']

/-- The words for a punctuator in error messages. -/
def description : Punctuator → String
  | ampersand => "ampersand ('&')"
  | atSign => "at ('@')"
  | closeBrace => "closing brace ('\x7d')"
  | closeBracket => "closing bracket (']')"
  | closeParen => "closing paren (')')"
  | colon => "colon (':')"
  | dollar => "dollar ('$')"
  | equals => "equals ('=')"
  | exclamation => "exclamation mark ('!')"
  | openBrace => "open brace ('\x7b')"
  | openBracket => "open bracket ('[')"
  | openParen => "open parenthesis ('(')"
  | period => "period ('.')"
  | doublePeriod => "double period ('..')"
  | spread => "spread ('...')"
  | pipe => "pipe ('|')"

/-- The punctuators of one character that start no other token. -/
def simple : List Punctuator :=
  [ampersand, atSign, closeBrace, closeBracket, closeParen, colon, dollar, equals, exclamation,
   openBrace, openBracket, openParen, pipe]

/-- The simple punctuator that a character is. -/
def ofChar? (c : Char) : Option Punctuator :=
  simple.find? fun p => p.chars == [c]

theorem chars_ne_nil (p : Punctuator) : p.chars ≠ [] := by
  cases p <;> simp [chars]

theorem chars_of_ofChar? {c : Char} {p : Punctuator} (h : ofChar? c = some p) :
    p.chars = [c] := by
  simpa using List.find?_some h

end Punctuator

/-- Why a text does not go on with a token that a document may hold: a number with a leading zero,
without whole part or with letters after it, or no token at all. -/
inductive LexicalFault
  | number
  | invalid
  deriving DecidableEq, Inhabited, Repr

/-- A word of the language. A name may be a keyword. Strings hold the text between their quotes. -/
inductive Token
  | punctuator (p : Punctuator)
  | name (text : String)
  | integer (text : List Char)
  | float (text : List Char)
  | string (raw : List Char)
  | block (raw : List Char)
  | fault (f : LexicalFault)
  deriving DecidableEq, Inhabited, Repr

namespace Token

/-- The text of a token. -/
def chars : Token → List Char
  | punctuator p => p.chars
  | name text => text.toList
  | integer text => text
  | float text => text
  | string raw => '"' :: raw ++ ['"']
  | block raw => '"' :: '"' :: '"' :: raw ++ ['"', '"', '"']
  | fault _ => []

/-- The names with a part in the grammar. -/
def keywords : List String :=
  ["schema", "query", "mutation", "subscription", "type", "input", "true", "false", "null",
   "implements", "interface", "enum", "union", "scalar", "extend", "directive", "repeatable", "on",
   "fragment"]

/-- The words for a token in error messages: a keyword is called by itself, and `null` with a
comma. -/
def description : Token → String
  | punctuator p => p.description
  | name text =>
    if text = "null" then "null,"
    else if keywords.contains text then text
    else "non-variable identifier (e.g. 'x' or 'Foo')"
  | integer _ => "integer value (e.g. '0' or '42')"
  | float _ => "floating point value (e.g. '3.14')"
  | string _ => "string literal (e.g. '\"...\"')"
  | block _ => "block string (e.g. '\"\"\"hi\"\"\"')"
  | fault _ => "unsupported number (int or float) literal"

/-- A character that may start a name. -/
def isNameStart (c : Char) : Bool :=
  c.isAlpha || c = '_'

/-- A character that may stand in a name. -/
def isNameChar (c : Char) : Bool :=
  c.isAlphanum || c = '_'

/-- A point and digits at the head of a text, if both are there, and the rest. -/
def readFraction (cs : List Char) : List Char × List Char :=
  match cs with
  | [] => ([], [])
  | c :: rest =>
    let ds := rest.takeWhile Char.isDigit
    if c = '.' && !ds.isEmpty then (c :: ds, rest.dropWhile Char.isDigit) else ([], cs)

/-- A sign at the head of a text, if it is there, and the rest. -/
def readSign (cs : List Char) : List Char × List Char :=
  match cs with
  | [] => ([], [])
  | c :: rest => if c = '+' || c = '-' then ([c], rest) else ([], cs)

/-- An exponent at the head of a text, if it is there: its mark, its digits with their sign, and the
rest. Where no digits follow a sign the mark is read alone, and no token comes next
(`exists_read_eq_error_of_readExponent`). -/
def readExponent (cs : List Char) : List Char × List Char × List Char :=
  match cs with
  | [] => ([], [], [])
  | c :: rest =>
    let (sign, tail) := readSign rest
    let ds := tail.takeWhile Char.isDigit
    if !(c = 'e' || c = 'E') then ([], [], cs)
    else if !ds.isEmpty then ([c], sign ++ ds, tail.dropWhile Char.isDigit)
    else if !sign.isEmpty then ([c], [], rest)
    else ([], [], cs)

/-- A number after its sign: digits without a leading zero, an optional fraction and an optional
exponent, and no point, letter or underscore right after it. The mark of an exponent without digits
does not make it a float. -/
def readUnsigned (sign cs : List Char) : Except LexicalFault (Token × List Char) :=
  let whole := cs.takeWhile Char.isDigit
  let (fraction, tail) := readFraction (cs.dropWhile Char.isDigit)
  if whole.isEmpty then .error (if fraction.isEmpty then .invalid else .number)
  else if whole.head? == some '0' && 1 < whole.length then .error .number
  else
    let (mark, exponent, rest) := readExponent tail
    if rest.head?.any fun c => c = '.' || isNameStart c then .error .number
    else if fraction.isEmpty && exponent.isEmpty then .ok (integer (sign ++ whole ++ mark), rest)
    else .ok (float (sign ++ whole ++ fraction ++ mark ++ exponent), rest)

/-- A number with its sign. -/
def readNumber (c : Char) (cs : List Char) : Except LexicalFault (Token × List Char) :=
  if c = '-' then readUnsigned [c] cs else readUnsigned [] (c :: cs)

/-- A string or block string after its first quote. Three quotes always open a block string. -/
def readString (cs : List Char) : Except LexicalFault (Token × List Char) :=
  match cs with
  | '"' :: '"' :: rest =>
    match Text.Block.split rest with
    | some (raw, rest) => .ok (block raw, rest)
    | none => .error .invalid
  | cs =>
    match Text.Quoted.split cs with
    | some (raw, rest) => .ok (string raw, rest)
    | none => .error .invalid

/-- A row of points after the first one. A point before a digit is a number without whole part. -/
def readPoints (cs : List Char) : Except LexicalFault (Token × List Char) :=
  match cs with
  | '.' :: '.' :: rest => .ok (punctuator .spread, rest)
  | '.' :: rest => .ok (punctuator .doublePeriod, rest)
  | cs => if cs.head?.any Char.isDigit then .error .number else .ok (punctuator .period, cs)

/-- The longest token at the head of a text, and the rest. -/
def read : List Char → Except LexicalFault (Token × List Char)
  | [] => .error .invalid
  | c :: cs =>
    if isNameStart c then
      .ok (name (String.ofList (c :: cs.takeWhile isNameChar)), cs.dropWhile isNameChar)
    else if c.isDigit || c = '-' then readNumber c cs
    else if c = '"' then readString cs
    else if c = '.' then readPoints cs
    else match Punctuator.ofChar? c with
      | some p => .ok (punctuator p, cs)
      | none => .error .invalid

theorem readFraction_append (cs : List Char) : (readFraction cs).1 ++ (readFraction cs).2 = cs := by
  unfold readFraction
  split
  · rfl
  · dsimp only
    split <;> simp [List.takeWhile_append_dropWhile]

theorem readSign_append (cs : List Char) : (readSign cs).1 ++ (readSign cs).2 = cs := by
  unfold readSign
  split
  · rfl
  · split <;> rfl

theorem readExponent_append (cs : List Char) :
    (readExponent cs).1 ++ (readExponent cs).2.1 ++ (readExponent cs).2.2 = cs := by
  unfold readExponent
  split
  · rfl
  · rename_i c rest
    dsimp only
    split
    · rfl
    split
    · simp [List.takeWhile_append_dropWhile, readSign_append]
    split <;> rfl

/-- A number is the text it was read from. -/
theorem eq_of_readUnsigned {sign cs rest : List Char} {t : Token}
    (h : readUnsigned sign cs = .ok (t, rest)) :
    sign ++ cs = t.chars ++ rest ∧ t.chars ≠ [] := by
  have hw := List.takeWhile_append_dropWhile (p := Char.isDigit) (l := cs)
  have hf := readFraction_append (cs.dropWhile Char.isDigit)
  have he := readExponent_append (readFraction (cs.dropWhile Char.isDigit)).2
  simp only [readUnsigned] at h
  generalize readExponent (readFraction (cs.dropWhile Char.isDigit)).2 = e at he h
  generalize readFraction (cs.dropWhile Char.isDigit) = f at hf he h
  generalize cs.dropWhile Char.isDigit = d at hw hf
  generalize cs.takeWhile Char.isDigit = w at hw h
  obtain ⟨mark, exponent, rest'⟩ := e
  obtain ⟨fraction, tail⟩ := f
  simp only at hf he h
  subst he hf hw
  split at h
  · cases h
  split at h
  · cases h
  split at h
  · cases h
  rename_i hne _ _
  simp only [List.isEmpty_iff] at hne
  split at h <;> cases h <;> simp_all [chars]

/-- A token is the text it was read from, and no token is empty. -/
theorem eq_of_read {cs rest : List Char} {t : Token} (h : read cs = .ok (t, rest)) :
    cs = t.chars ++ rest ∧ t.chars ≠ [] := by
  cases cs with
  | nil => cases h
  | cons c cs =>
    simp only [read] at h
    split at h
    · cases h
      simp [chars, List.takeWhile_append_dropWhile]
    split at h
    · unfold readNumber at h
      split at h <;> simpa using eq_of_readUnsigned h
    split at h
    · rename_i hc
      subst hc
      unfold readString at h
      split at h <;> split at h <;> cases h
      · rename_i hs
        simp [chars, Text.Block.eq_of_split hs]
      · rename_i hs
        simp [chars, Text.Quoted.eq_of_split hs]
    split at h
    · rename_i hc
      subst hc
      unfold readPoints at h
      split at h
      · cases h; simp [chars, Punctuator.chars]
      · cases h; simp [chars, Punctuator.chars]
      · split at h
        · cases h
        · cases h; simp [chars, Punctuator.chars]
    split at h
    · rename_i hp
      cases h
      simp [chars, Punctuator.chars_of_ofChar? hp]
    · cases h

/-- Reading a token makes the text shorter. -/
theorem length_lt_of_read {cs rest : List Char} {t : Token} (h : read cs = .ok (t, rest)) :
    rest.length < cs.length := by
  obtain ⟨rfl, hne⟩ := eq_of_read h
  have := List.length_pos_iff.mpr hne
  simp; omega

/-- A sign without digits after it starts no token. -/
theorem exists_read_sign_eq_error {c : Char} {cs : List Char} (hc : c = '+' ∨ c = '-')
    (hcs : cs.takeWhile Char.isDigit = []) : ∃ fault, read (c :: cs) = .error fault := by
  rcases hc with rfl | rfl
  · exact ⟨.invalid, rfl⟩
  · have h : read ('-' :: cs) = readUnsigned ['-'] cs := rfl
    rw [h, readUnsigned]
    simp [hcs]

/-- Where a mark is read alone, no token comes next. -/
theorem exists_read_eq_error_of_readExponent {cs rest : List Char} {c : Char}
    (h : readExponent cs = ([c], [], rest)) : ∃ fault, read rest = .error fault := by
  unfold readExponent at h
  split at h
  · cases h
  rename_i tail
  dsimp only at h
  split at h
  · cases h
  split at h
  · simp_all
  rename_i hds
  split at h
  · cases h
    rename_i hsign
    unfold readSign at hsign hds
    split at hsign
    · simp at hsign
    split at hsign
    · rename_i s tail hs
      refine exists_read_sign_eq_error (by simpa using hs) ?_
      simpa [hs] using hds
    · simp at hsign
  · cases h

end Token

end Federation
