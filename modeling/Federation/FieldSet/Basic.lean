import Federation.Document.Printer
/-!
# Field sets

A field set names fields and, below them, fields of their types, like
`id organization { id }`. `paths` lists the ways from the top down to
the innermost fields, and `text` writes the set.
-/

namespace Federation

/-- A field, and the fields selected of its type. -/
inductive FieldSelection
  | select (field : String) (nested : List FieldSelection)
  deriving Inhabited, Repr

/-- Fields selected together. -/
structure FieldSet where
  selections : List FieldSelection
  deriving Inhabited, Repr

namespace FieldSelection

/-- The name of the selected field. -/
def field : FieldSelection → String
  | select field _ => field

/-- The fields selected below. -/
def nested : FieldSelection → List FieldSelection
  | select _ nested => nested

mutual

/-- Whether two selections are equal. -/
def decEq : (a b : FieldSelection) → Decidable (a = b)
  | select f as, select g bs =>
    match decEqList as bs with
    | isTrue h => decidable_of_iff (f = g) (by simp [h])
    | isFalse h => isFalse (by simp [h])

/-- Whether two lists of selections are equal. -/
def decEqList : (as bs : List FieldSelection) → Decidable (as = bs)
  | [], [] => isTrue rfl
  | [], _ :: _ => isFalse (by simp)
  | _ :: _, [] => isFalse (by simp)
  | a :: as, b :: bs =>
    match decEq a b, decEqList as bs with
    | isTrue h, isTrue t => isTrue (by rw [h, t])
    | isFalse h, _ => isFalse (by simp [h])
    | _, isFalse t => isFalse (by simp [t])

end

instance : DecidableEq FieldSelection := decEq

mutual

/-- The pieces of a selection. -/
def pieces : FieldSelection → List Piece
  | select field [] => [.name field]
  | select field (s :: ss) =>
    .name field :: .space :: .punctuator .openBrace :: .space :: listPieces (s :: ss) ++
      [.space, .punctuator .closeBrace]

/-- The pieces of selections next to each other. -/
def listPieces : List FieldSelection → List Piece
  | [] => []
  | [s] => s.pieces
  | s :: ss => s.pieces ++ .space :: listPieces ss

end

mutual

/-- The ways from a selected field down to the innermost fields below it. -/
def paths : FieldSelection → List (List String)
  | select field [] => [[field]]
  | select field (s :: ss) => (listPaths (s :: ss)).map (field :: ·)

/-- The ways down from each of several selections, in order. -/
def listPaths : List FieldSelection → List (List String)
  | [] => []
  | s :: ss => s.paths ++ listPaths ss

end

end FieldSelection

namespace FieldSet

instance : DecidableEq FieldSet := fun a b =>
  decidable_of_iff (a.selections = b.selections) (by cases a; cases b; simp)

/-- Whether nothing is selected. -/
def isEmpty (s : FieldSet) : Bool :=
  s.selections.isEmpty

/-- The names of the fields at the top. -/
def fieldNames (s : FieldSet) : List String :=
  s.selections.map FieldSelection.field

/-- The ways from the top down to the innermost fields, in order. -/
def paths (s : FieldSet) : List (List String) :=
  FieldSelection.listPaths s.selections

/-- The written form of a field set. -/
def text (s : FieldSet) : String :=
  Piece.render (FieldSelection.listPieces s.selections)

end FieldSet

end Federation
