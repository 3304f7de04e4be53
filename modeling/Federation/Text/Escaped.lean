import Federation.Text.Hex
import Federation.Text.Unprintable
/-!
# Text — escaped texts

A text between quotes for a reader's eye, as it stands in messages:
quotes and backslashes after a backslash, short escapes for line feed,
carriage return, tab and NUL, and the number of every other character
that could not be seen.
-/

namespace Federation

namespace Text

/-- The escaped form of one character. -/
def escapeChar (c : Char) : List Char :=
  if c = '\x00' then ['\\', '0']
  else if c = '\t' then ['\\', 't']
  else if c = '\r' then ['\\', 'r']
  else if c = '\n' then ['\\', 'n']
  else if c = '"' then ['\\', '"']
  else if c = '\\' then ['\\', '\\']
  else if isUnprintable c then '\\' :: 'u' :: '\x7b' :: hexDigits c.toNat ++ ['\x7d']
  else [c]

/-- A text between quotes, with its characters escaped. -/
def escaped (s : String) : String :=
  String.ofList ('"' :: s.toList.flatMap escapeChar ++ ['"'])

end Text

end Federation
