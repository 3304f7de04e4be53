import Federation.Text.WhiteSpace
/-!
# Text — locations

A location is a line and a column, both counted from one. Lines end at
a line feed and at nothing else, and columns count bytes.
`LineIndex.ofText` lists the byte offsets at which lines start, and
`LineIndex.location` finds the line of an offset in that list by
halving. `LineIndex.location?` is the same look-up where it may fail:
no line may start at or before the offset.
-/

namespace Federation

/-- A line and a column of a text, both counted from one. -/
structure Location where
  line : Nat
  column : Nat
  deriving DecidableEq, Inhabited, Repr

namespace Location

/-- The written form, `line:column`. -/
def text (l : Location) : String :=
  s!"{l.line}:{l.column}"

/-- The location of a node that no text holds. -/
def none : Location := ⟨0, 0⟩

end Location

/-- The byte offsets at which the lines of a text start, in increasing order. -/
structure LineIndex where
  starts : Array Nat
  deriving DecidableEq, Inhabited, Repr

namespace LineIndex

/-- The offsets just after the line feeds of a text that begins at `offset`. -/
def startsAfter (offset : Nat) : List Char → List Nat
  | [] => []
  | c :: cs =>
    let next := offset + c.utf8Size
    if c = '\n' then next :: startsAfter next cs else startsAfter next cs

/-- The lines of a text. The first one starts at the first byte. -/
def ofText (cs : List Char) : LineIndex :=
  { starts := (0 :: startsAfter 0 cs).toArray }

/-- How many lines start at or before an offset, when it is known of the first `base` lines that they
do and open of the `size` lines after them. -/
def countFrom (starts : Array Nat) (offset base size : Nat) : Nat :=
  if size = 0 then base
  else
    let middle := base + size / 2
    if starts[middle]?.any (· ≤ offset) then
      countFrom starts offset (middle + 1) (size - size / 2 - 1)
    else countFrom starts offset base (size / 2)
termination_by size

/-- How many lines start at or before an offset. -/
def count (index : LineIndex) (offset : Nat) : Nat :=
  countFrom index.starts offset 0 index.starts.size

/-- The location of an offset, if a line starts at or before it. -/
def location? (index : LineIndex) (offset : Nat) : Option Location := do
  let line := max 1 (index.count offset)
  let start ← index.starts[line - 1]?
  if start ≤ offset then some { line, column := offset - start + 1 } else none

/-- The location of an offset of a text. -/
def location (index : LineIndex) (offset : Nat) : Location :=
  (index.location? offset).getD Location.none

end LineIndex

end Federation
