import Federation.Toml.Basic
import Federation.Toml.Scalar
import Federation.Toml.Strings
/-!
# TOML — reading a document

A document is read line by line: headers, assignments and comments.
`Toml.parse` gives the entries of the document, or nothing when the text
is no TOML.
-/

namespace Federation

namespace Toml

/-- A rule that takes characters off the head of a text, or fails. -/
abbrev Reader := StateT (List Char) Option

namespace Reader

variable {α : Type}

/-- The next character, which stays. -/
def next? : Reader (Option Char) := fun cs =>
  some (cs.head?, cs)

/-- Drops the next character if it is a given one, and says whether it was. -/
def skip? (c : Char) : Reader Bool := fun cs =>
  if cs.head? = some c then some (true, cs.tail) else some (false, cs)

/-- Drops the next character, which has to be a given one. -/
def expect (c : Char) : Reader Unit := fun cs =>
  (dropChar c cs).map ((), ·)

/-- Drops spaces and tabs. -/
def spaces : Reader Unit := fun cs =>
  some ((), cs.dropWhile fun c => c = ' ' || c = '\t')

/-- Drops a comment, if there is one. It reaches up to the end of the line. -/
def comment : Reader Unit := fun cs =>
  if cs.head? = some '#' then some ((), cs.dropWhile isVisible) else some ((), cs)

/-- Drops the rest of a line: spaces, a comment and the line end, which may be the end of the
text. -/
def lineEnd : Reader Unit := do
  spaces
  comment
  let cs ← get
  match dropNewline? cs with
  | some rest => set rest
  | none => if cs.isEmpty then pure () else failure

/-- Drops white space, line ends and comments, in at most `n` rounds. -/
def gapAtMost : Nat → Reader Unit
  | 0 => pure ()
  | n + 1 => do
    spaces
    comment
    match dropNewline? (← get) with
    | some rest =>
      set rest
      gapAtMost n
    | none => pure ()

/-- Drops white space, line ends and comments. -/
def gap : Reader Unit := do
  let cs ← get
  gapAtMost (cs.length + 1)

/-- A character of a bare key. -/
def isBare (c : Char) : Bool :=
  c.isAlphanum || c = '_' || c = '-'

/-- A key: bare, or a string on one line. -/
def key : Reader String := fun cs =>
  let bare := cs.takeWhile isBare
  if bare.isEmpty then (readShortString cs).map fun (s, rest) => (String.ofList s, rest)
  else some (String.ofList bare, cs.dropWhile isBare)

/-- At most `n` more keys, each after a point. -/
def moreKeys : Nat → Reader (List String)
  | 0 => pure []
  | n + 1 => do
    spaces
    if ← skip? '.' then
      spaces
      let first ← key
      return first :: (← moreKeys n)
    else return []

/-- Keys with points between them. -/
def dottedKey : Reader (List String) := do
  let first ← key
  let cs ← get
  return first :: (← moreKeys (cs.length + 1))

/-- A character of a scalar that is no string. -/
def isScalarChar (c : Char) : Bool :=
  c.isAlphanum || c = '_' || c = '+' || c = '-' || c = '.' || c = ':'

/-- A scalar that is no string. A date and a time may have a space between them. -/
def scalar : Reader Toml := fun cs =>
  let word := cs.takeWhile isScalarChar
  let rest := cs.dropWhile isScalarChar
  let tail := rest.drop 1
  let both := word ++ ' ' :: tail.takeWhile isScalarChar
  if rest.head? = some ' ' && dropDate word == some [] && isDateTime both then
    some (.scalar, tail.dropWhile isScalarChar)
  else if isScalar word then some (.scalar, rest)
  else none

/-- A string of any form. -/
def string : Reader Toml := fun cs =>
  (readString cs).map fun (s, rest) => (.text (String.ofList s), rest)

/-- At most `n` items of an array up to its closing bracket. A comma may follow the last. -/
def itemsAtMost (item : Reader Toml) : Nat → Reader (List Toml)
  | 0 => failure
  | n + 1 => do
    gap
    if ← skip? ']' then return []
    else
      let first ← item
      gap
      if ← skip? ',' then return first :: (← itemsAtMost item n)
      else
        expect ']'
        return [first]

/-- A dotted key and its value. -/
def assignment (item : Reader Toml) : Reader (List String × Toml) := do
  let path ← dottedKey
  spaces
  expect '='
  spaces
  return (path, ← item)

/-- At most `n` assignments of an inline table up to its closing brace. -/
def entriesAtMost (item : Reader Toml) : Nat → Entries → Reader Entries
  | 0, _ => failure
  | n + 1, es => do
    spaces
    let (path, value) ← assignment item
    match assign value path es with
    | none => failure
    | some es =>
      spaces
      if ← skip? ',' then entriesAtMost item n es
      else
        expect '\x7d'
        return es

/-- A value in which at most `depth` arrays and inline tables stand in one another. -/
def valueAtDepth (depth : Nat) : Reader Toml := do
  let cs ← get
  match cs.head?, depth with
  | some '"', _ | some '\'', _ => string
  | some '[', depth + 1 =>
    expect '['
    return .array (← itemsAtMost (valueAtDepth depth) cs.length)
  | some '\x7b', depth + 1 =>
    expect '\x7b'
    spaces
    if ← skip? '\x7d' then return .table .inline []
    else return .table .inline (← entriesAtMost (valueAtDepth depth) cs.length [])
  | _, _ => scalar

/-- The most arrays and inline tables that may stand in one another. -/
def maxDepth : Nat := 79

/-- A value. -/
def value : Reader Toml :=
  valueAtDepth maxDepth

/-- The document so far: its entries, and the path of the table that assignments go to. -/
structure Progress where
  entries : Entries := []
  current : List String := []

/-- Opens the table of a header. -/
def openHeader (isRow : Bool) (path : List String) (p : Progress) : Option Progress :=
  match path.getLast? with
  | none => none
  | some key =>
    let step := if isRow then openRow key else openTable key
    (changeAt step path.dropLast p.entries).map fun entries => { entries, current := path }

/-- A header, with the brackets around it. -/
def header (p : Progress) : Reader Progress := do
  expect '['
  let isRow ← skip? '['
  spaces
  let path ← dottedKey
  spaces
  expect ']'
  if isRow then expect ']'
  match openHeader isRow path p with
  | some p => return p
  | none => failure

/-- What stands on a line. -/
def line (p : Progress) : Reader Progress := do
  spaces
  match ← next? with
  | none | some '#' | some '\n' | some '\r' => return p
  | some '[' => header p
  | some _ =>
    let (path, assigned) ← assignment value
    match changeAt (assign assigned path) p.current p.entries with
    | some entries => return { p with entries }
    | none => failure

/-- At most `n` lines up to the end of the text. -/
def linesAtMost : Nat → Progress → Reader Entries
  | 0, _ => failure
  | n + 1, p => do
    let p ← line p
    lineEnd
    if (← get).isEmpty then return p.entries else linesAtMost n p

end Reader

/-- The entries of a document. A byte order mark at its head does not count. -/
def parse (text : String) : Option Entries :=
  let cs := text.toList
  let cs := if cs.head? = some '\ufeff' then cs.drop 1 else cs
  ((Reader.linesAtMost (cs.length + 1) {}).run cs).map (·.1)

end Toml

end Federation
