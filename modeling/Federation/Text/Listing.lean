/-!
# Text — listings

Names in running text: between backticks, with commas between them,
and in the order of their code points where order is not given.
-/

namespace Federation

namespace Text

/-- Texts with a comma between them. -/
def commas (items : List String) : String :=
  String.intercalate ", " items

/-- A name between backticks. -/
def ticked (name : String) : String :=
  s!"`{name}`"

/-- The order of texts by code points. -/
def stringLe (a b : String) : Bool :=
  decide (a ≤ b)

/-- Names in order, each between backticks. -/
def tickedInOrder (names : List String) : String :=
  commas ((names.mergeSort stringLe).map ticked)

end Text

end Federation
