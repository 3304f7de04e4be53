import Federation.Text.WhiteSpace
/-!
# Text — block strings

The text between the triple quotes of a block string. `split` finds
where it ends and `decode` gives the string it denotes: the lines
without their common indent and without blank lines at either end.
`encode` writes a string at an indent, and `isWritable` says for which
strings that reads back as the same string.
-/

namespace Federation

namespace Text

/-- The lines of a text: the pieces between its line feeds. -/
def splitLines : List Char → List (List Char)
  | [] => [[]]
  | c :: cs =>
    if c = '\n' then [] :: splitLines cs
    else match splitLines cs with
      | line :: lines => (c :: line) :: lines
      | [] => [[c]]

/-- Lines with line feeds between them. -/
def joinLines : List (List Char) → List Char
  | [] => []
  | [line] => line
  | line :: lines => line ++ '\n' :: joinLines lines

theorem splitLines_ne_nil (cs : List Char) : splitLines cs ≠ [] := by
  cases cs with
  | nil => simp [splitLines]
  | cons c cs =>
    simp only [splitLines]
    split
    · simp
    · split <;> simp

/-- Joining the lines of a text gives the text. -/
theorem joinLines_splitLines (cs : List Char) : joinLines (splitLines cs) = cs := by
  induction cs with
  | nil => rfl
  | cons c cs ih =>
    have hne := splitLines_ne_nil cs
    match h : splitLines cs with
    | [] => exact absurd h hne
    | line :: lines =>
      rw [h] at ih
      by_cases hc : c = '\n'
      · simp [splitLines, hc, joinLines, h, ih]
      · cases lines <;> simp_all [splitLines, joinLines]

namespace Block

/-- Divides the text after opening triple quotes into the text before the closing ones and the
rest. Triple quotes after a backslash do not close. -/
def split : List Char → Option (List Char × List Char)
  | '"' :: '"' :: '"' :: rest => some ([], rest)
  | '\\' :: '"' :: '"' :: '"' :: rest =>
    (split rest).map fun (raw, rest) => ('\\' :: '"' :: '"' :: '"' :: raw, rest)
  | c :: rest => (split rest).map fun (raw, rest) => (c :: raw, rest)
  | [] => none

/-- Writes triple quotes for triple quotes after a backslash. -/
def unescape : List Char → List Char
  | '\\' :: '"' :: '"' :: '"' :: rest => '"' :: '"' :: '"' :: unescape rest
  | c :: rest => c :: unescape rest
  | [] => []

/-- A line without the carriage return at its end. -/
def dropCarriageReturn (line : List Char) : List Char :=
  if line.getLast? = some '\r' then line.dropLast else line

/-- The lines of a literal: a carriage return before a line feed belongs to the line end, and an
empty line at the very end does not count. -/
def sourceLines (raw : List Char) : List (List Char) :=
  let lines := splitLines raw
  let final := lines.getLastD []
  lines.dropLast.map dropCarriageReturn ++ (if final = [] then [] else [final])

/-- The bytes of white space that a line starts with. -/
def indentOf (line : List Char) : Nat :=
  byteCount (line.takeWhile isWhiteSpace)

/-- The least indent of the lines that are not blank. -/
def commonIndent (lines : List (List Char)) : Nat :=
  ((lines.filter (!isBlank ·)).map indentOf).min?.getD 0

/-- A line without its first `n` bytes. -/
def dropBytes : Nat → List Char → List Char
  | _, [] => []
  | n, c :: cs => if n < c.utf8Size then c :: cs else dropBytes (n - c.utf8Size) cs

/-- The lines without the common indent. The line of the opening quotes keeps its own. -/
def removeIndent : List (List Char) → List (List Char)
  | [] => []
  | first :: lines => first :: lines.map (dropBytes (commonIndent lines))

/-- The lines from the first to the last that is not blank. -/
def trimBlank (lines : List (List Char)) : List (List Char) :=
  ((lines.dropWhile isBlank).reverse.dropWhile isBlank).reverse

/-- The string that the text between the triple quotes denotes. -/
def decode (raw : List Char) : List Char :=
  unescape (joinLines (trimBlank (removeIndent (sourceLines raw))))

/-- A line of spaces and tabs. -/
def isIndentOnly (line : List Char) : Bool :=
  line.all fun c => c = ' ' || c = '\t'

/-- A text that holds triple quotes. -/
def hasTripleQuotes : List Char → Bool
  | [] => false
  | c :: cs => ['"', '"', '"'].isPrefixOf (c :: cs) || hasTripleQuotes cs

/-- A string is written as a block when it has several lines, no triple quotes and no control
characters but tabs, when its first and last lines hold more than spaces and tabs, and when some
such line starts with neither. -/
def isWritable (cs : List Char) : Bool :=
  let lines := splitLines cs
  decide (1 < lines.length)
    && !hasTripleQuotes cs
    && cs.all (fun c => !isControl c || c = '\n' || c = '\t')
    && !isIndentOnly (lines.headD [])
    && !isIndentOnly (lines.getLastD [])
    && lines.any fun line => !isIndentOnly line && line.head? != some ' ' && line.head? != some '\t'

/-- The text between the triple quotes for a string at an indent: each line on its own, empty
lines without the indent, and the closing quotes at the indent. -/
def encode (indent cs : List Char) : List Char :=
  '\n' :: ((splitLines cs).flatMap fun line =>
    if line = [] then ['\n'] else indent ++ line ++ ['\n']) ++ indent

/-- Dividing loses nothing. -/
theorem eq_of_split {cs raw rest : List Char} (h : split cs = some (raw, rest)) :
    cs = raw ++ '"' :: '"' :: '"' :: rest := by
  fun_induction split cs generalizing raw rest <;> simp_all <;> grind

end Block

end Text

end Federation
