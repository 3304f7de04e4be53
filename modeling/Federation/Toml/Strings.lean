import Federation.Text.Hex
import Federation.Text.WhiteSpace
/-!
# TOML — strings

The four forms of strings: basic ones with escapes and literal ones
without, on one line or over several. Each reader takes the text after
the opening quotes and gives the string and the rest.
-/

namespace Federation

namespace Toml

/-- A character that may stand in strings and comments: a tab, or anything but a control character
of ASCII. -/
def isVisible (c : Char) : Bool :=
  c = '\t' || (decide (0x20 ≤ c.toNat) && c.toNat != 0x7F)

/-- What a one-letter escape stands for. -/
def escape? (c : Char) : Option Char :=
  if c = 'b' then some '\x08'
  else if c = 't' then some '\t'
  else if c = 'n' then some '\n'
  else if c = 'f' then some '\x0c'
  else if c = 'r' then some '\r'
  else if c = '"' then some '"'
  else if c = '\\' then some '\\'
  else none

/-- The character that an escape stands for, and the rest. -/
def readEscape : List Char → Option (Char × List Char)
  | [] => none
  | c :: cs =>
    let byCode := fun n =>
      let ds := cs.take n
      if ds.length = n && ds.all Text.isHexDigit then
        (Text.charOfCode? (Text.hexNumber ds)).map (·, cs.drop n)
      else none
    if c = 'u' then byCode 4 else if c = 'U' then byCode 8 else (escape? c).map (·, cs)

/-- A literal string up to its closing quote. -/
def readLiteral : List Char → Option (List Char × List Char)
  | [] => none
  | c :: cs =>
    if c = '\'' then some ([], cs)
    else if isVisible c then (readLiteral cs).map fun (s, rest) => (c :: s, rest)
    else none

/-- A basic string of at most `n` characters and escapes up to its closing quote. -/
def readBasicAtMost : Nat → List Char → Option (List Char × List Char)
  | 0, _ => none
  | _, [] => none
  | n + 1, c :: cs =>
    if c = '"' then some ([], cs)
    else if c = '\\' then do
      let (x, cs) ← readEscape cs
      let (s, rest) ← readBasicAtMost n cs
      return (x :: s, rest)
    else if isVisible c then (readBasicAtMost n cs).map fun (s, rest) => (c :: s, rest)
    else none

/-- A basic string up to its closing quote. -/
def readBasic (cs : List Char) : Option (List Char × List Char) :=
  readBasicAtMost (cs.length + 1) cs

/-- The rest after the end of a line, if a text starts with one. -/
def dropNewline? : List Char → Option (List Char)
  | '\n' :: cs => some cs
  | '\r' :: '\n' :: cs => some cs
  | _ => none

/-- A text without the line end at its head. -/
def dropFirstNewline (cs : List Char) : List Char :=
  (dropNewline? cs).getD cs

/-- The closing quotes at the head of a text: three, after up to two that belong to the string.
Gives the quotes that belong to the string and the rest. -/
def closing? (quote : Char) (cs : List Char) : Option (List Char × List Char) :=
  let quotes := (cs.takeWhile (· == quote)).length
  if quotes < 3 then none
  else
    let extra := min (quotes - 3) 2
    some (List.replicate extra quote, cs.drop (extra + 3))

/-- A literal string over several lines, of at most `n` characters, up to its closing quotes. -/
def readLongLiteralAtMost : Nat → List Char → Option (List Char × List Char)
  | 0, _ => none
  | _, [] => none
  | n + 1, c :: cs =>
    match closing? '\'' (c :: cs) with
    | some closed => some closed
    | none =>
      match dropNewline? (c :: cs) with
      | some rest => (readLongLiteralAtMost n rest).map fun (s, rest) => ('\n' :: s, rest)
      | none =>
        if isVisible c then (readLongLiteralAtMost n cs).map fun (s, rest) => (c :: s, rest)
        else none

/-- A text without the white space and line ends at its head. -/
def dropBlank : List Char → List Char
  | [] => []
  | '\r' :: '\n' :: cs => dropBlank cs
  | c :: cs => if c = ' ' || c = '\t' || c = '\n' then dropBlank cs else c :: cs

/-- The rest after a backslash at the end of a line: the next text that is no white space. -/
def dropLineEnd? (cs : List Char) : Option (List Char) :=
  (dropNewline? (cs.dropWhile fun c => c = ' ' || c = '\t')).map dropBlank

/-- A basic string over several lines, of at most `n` characters and escapes, up to its closing
quotes. -/
def readLongBasicAtMost : Nat → List Char → Option (List Char × List Char)
  | 0, _ => none
  | _, [] => none
  | n + 1, c :: cs =>
    match closing? '"' (c :: cs) with
    | some closed => some closed
    | none =>
      match dropNewline? (c :: cs) with
      | some rest => (readLongBasicAtMost n rest).map fun (s, rest) => ('\n' :: s, rest)
      | none =>
        if c = '\\' then
          match dropLineEnd? cs with
          | some rest => readLongBasicAtMost n rest
          | none => do
            let (x, cs) ← readEscape cs
            let (s, rest) ← readLongBasicAtMost n cs
            return (x :: s, rest)
        else if isVisible c then (readLongBasicAtMost n cs).map fun (s, rest) => (c :: s, rest)
        else none

/-- A string on one line, with its opening quote. -/
def readShortString : List Char → Option (List Char × List Char)
  | '"' :: cs => readBasic cs
  | '\'' :: cs => readLiteral cs
  | _ => none

/-- A string of any form, with its opening quotes. A line end right after three opening quotes does
not count. -/
def readString : List Char → Option (List Char × List Char)
  | '"' :: '"' :: '"' :: cs => readLongBasicAtMost (cs.length + 1) (dropFirstNewline cs)
  | '\'' :: '\'' :: '\'' :: cs => readLongLiteralAtMost (cs.length + 1) (dropFirstNewline cs)
  | cs => readShortString cs

end Toml

end Federation
