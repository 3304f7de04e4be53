import Federation.Document.Token
import Federation.Text.Location
/-!
# Document — lexemes

A text as a list of lexemes: tokens with the locations of their first
characters. White space, commas and comments stand between tokens and
are dropped. Where the text does not go on with a token, a fault is the
last lexeme. `scan_gap` and `scan_token` are the equations of the scan.
-/

namespace Federation

/-- A token and where it starts. -/
structure Lexeme where
  token : Token
  location : Location
  deriving DecidableEq, Inhabited, Repr

namespace Lexeme

/-- A character that may stand between tokens: space, tab, line end, form feed, comma and the byte
order mark. -/
def isGap (c : Char) : Bool :=
  c = ' ' || c = '\t' || c = '\r' || c = '\n' || c = '\x0c' || c = ',' || c = '\ufeff'

/-- A comment goes on to the end of its line. -/
def isComment (c : Char) : Bool :=
  c != '\n' && c != '\r'

/-- The lexemes of the rest of a text from a byte offset on. -/
def scan (index : LineIndex) (offset : Nat) (cs : List Char) : List Lexeme :=
  match cs with
  | [] => []
  | c :: rest =>
    if isGap c then scan index (offset + c.utf8Size) rest
    else if c = '#' then
      scan index (offset + 1 + Text.byteCount (rest.takeWhile isComment)) (rest.dropWhile isComment)
    else
      match _h : Token.read (c :: rest) with
      | .error fault => [⟨.fault fault, index.location offset⟩]
      | .ok (t, rest) =>
        ⟨t, index.location offset⟩ ::
          scan index (offset + Text.byteCount t.chars) rest
termination_by cs.length
decreasing_by
  · simp
  · have := (List.dropWhile_sublist isComment (l := rest)).length_le
    simp; omega
  · exact Token.length_lt_of_read _h

/-- The lexemes of a text. -/
def ofText (cs : List Char) : List Lexeme :=
  scan (LineIndex.ofText cs) 0 cs

@[simp] theorem scan_nil (index : LineIndex) (offset : Nat) : scan index offset [] = [] := by
  rw [scan]

/-- A character between tokens is dropped. -/
theorem scan_gap {c : Char} (h : isGap c = true) (index : LineIndex) (offset : Nat)
    (cs : List Char) : scan index offset (c :: cs) = scan index (offset + c.utf8Size) cs := by
  rw [scan]
  simp [h]

/-- A token is the next lexeme. -/
theorem scan_token {c : Char} {cs rest : List Char} {t : Token} (hg : isGap c = false)
    (hc : c ≠ '#') (h : Token.read (c :: cs) = .ok (t, rest)) (index : LineIndex) (offset : Nat) :
    scan index offset (c :: cs) =
      ⟨t, index.location offset⟩ ::
        scan index (offset + Text.byteCount t.chars) rest := by
  rw [scan]
  simp only [hg, hc, Bool.false_eq_true, if_false]
  split <;> simp_all

end Lexeme

end Federation
