import Federation.Text.Hex
import Federation.Text.WhiteSpace
/-!
# Text — quoted strings

The text between the quotes of a string literal. `encode` writes it,
`split` finds where it ends, and `decode` gives the string it denotes.
A quote, a backslash, a line feed, a carriage return and a tab have
short escapes; other control characters are written by code point.
Reading is a little more liberal than writing: it knows the escapes
`\/`, `\b` and `\f` too, and a bare tab.
-/

namespace Federation

namespace Text

namespace Quoted

/-- The written form of one character. -/
def encodeChar (c : Char) : List Char :=
  if c = '\r' then ['\\', 'r']
  else if c = '\n' then ['\\', 'n']
  else if c = '\t' then ['\\', 't']
  else if c = '\\' then ['\\', '\\']
  else if c = '"' then ['\\', '"']
  else if isControl c then '\\' :: 'u' :: hexFour c.toNat
  else [c]

/-- The text between the quotes for a string. -/
def encode (cs : List Char) : List Char :=
  cs.flatMap encodeChar

/-- The character that stands for itself in a literal: a tab or one of U+0020 to U+FFFF. -/
def isPlain (c : Char) : Bool :=
  c = '\t' || (decide (0x20 ≤ c.toNat) && decide (c.toNat ≤ 0xFFFF))

/-- What a one-letter escape stands for. The escape `\b` stands for U+0010. -/
def escape? (c : Char) : Option Char :=
  if c = '"' then some '"'
  else if c = '\\' then some '\\'
  else if c = '/' then some '/'
  else if c = 'b' then some '\x10'
  else if c = 'f' then some '\x0c'
  else if c = 'n' then some '\n'
  else if c = 'r' then some '\r'
  else if c = 't' then some '\t'
  else none

/-- Divides the text after an opening quote into the text before the closing quote and the rest.
There is none when the literal is not well formed. -/
def split : List Char → Option (List Char × List Char)
  | [] => none
  | c :: cs =>
    if c = '"' then some ([], cs)
    else if c = '\\' then
      match cs with
      | 'u' :: a :: b :: d :: e :: rest =>
        if [a, b, d, e].all isHexDigit then
          (split rest).map fun (raw, rest) => ('\\' :: 'u' :: a :: b :: d :: e :: raw, rest)
        else none
      | x :: rest =>
        if (escape? x).isSome then
          (split rest).map fun (raw, rest) => ('\\' :: x :: raw, rest)
        else none
      | [] => none
    else if isPlain c then (split cs).map fun (raw, rest) => (c :: raw, rest)
    else none

/-- The string that the text between the quotes denotes. The failure is an escape that names no
character. -/
def decode : List Char → Except (List Char) (List Char)
  | [] => .ok []
  | c :: cs =>
    if c = '\\' then
      match cs with
      | 'u' :: a :: b :: d :: e :: rest =>
        match charOfCode? (hexNumber [a, b, d, e]) with
        | some x => (decode rest).map (x :: ·)
        | none => .error [a, b, d, e]
      | x :: rest => (decode rest).map ((escape? x).getD x :: ·)
      | [] => .ok [c]
    else (decode cs).map (c :: ·)

/-- Dividing loses nothing. -/
theorem eq_of_split {cs raw rest : List Char} (h : split cs = some (raw, rest)) :
    cs = raw ++ '"' :: rest := by
  fun_induction split cs generalizing raw rest <;> simp_all <;> grind

end Quoted

end Text

end Federation
