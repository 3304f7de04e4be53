import Federation.Diagnostic
import Federation.Document.Structure
/-!
# Directives — merging applications

Applications on one element are merged from several places. An
application that is there already is not added again. A directive that
may be applied once keeps its first application, and another one with
different arguments is a conflict.
-/

namespace Federation

namespace Directive

/-- Whether an application is there already. -/
def isIn (d : Directive) (merged : List Directive) : Bool :=
  merged.any (·.same d)

/-- The application that keeps another one out: one of the same directive, which may be applied
only once, with different arguments. -/
def conflict? (merged : List Directive) (d : Directive) (isRepeatable : Bool) : Option Directive :=
  if d.isIn merged || isRepeatable then none else merged.find? (·.name == d.name)

/-- The applications with one more, unless it is there already or kept out. -/
def add (merged : List Directive) (d : Directive) (isRepeatable : Bool) : List Directive :=
  if d.isIn merged || (conflict? merged d isRepeatable).isSome then merged else merged ++ [d]

/-- The applications with others added in order. -/
def merge (isRepeatable : String → Bool) (merged ds : List Directive) : List Directive :=
  ds.foldl (fun merged d => add merged d (isRepeatable d.name)) merged

/-- The conflicts on the way of a merge: each application that is kept out, after the one that keeps
it out. -/
def conflicts (isRepeatable : String → Bool) :
    (merged ds : List Directive) → List (Directive × Directive)
  | _, [] => []
  | merged, d :: ds =>
    let rest := conflicts isRepeatable (add merged d (isRepeatable d.name)) ds
    match conflict? merged d (isRepeatable d.name) with
    | none => rest
    | some existing => (existing, d) :: rest

/-- The diagnostics of a merge at a coordinate. -/
def conflictDiagnostics (isRepeatable : String → Bool) (merged ds : List Directive)
    (coordinate : Coordinate) : List Diagnostic :=
  (conflicts isRepeatable merged ds).map fun (existing, incoming) =>
    { cause := .conflictingApplications existing incoming, coordinate }

@[simp] theorem merge_nil (isRepeatable : String → Bool) (merged : List Directive) :
    merge isRepeatable merged [] = merged := rfl

@[simp] theorem merge_cons (isRepeatable : String → Bool) (merged : List Directive) (d : Directive)
    (ds : List Directive) :
    merge isRepeatable merged (d :: ds) =
      merge isRepeatable (add merged d (isRepeatable d.name)) ds := rfl

/-- Merging in two steps is merging at once. -/
theorem merge_append (isRepeatable : String → Bool) (merged as bs : List Directive) :
    merge isRepeatable merged (as ++ bs) =
      merge isRepeatable (merge isRepeatable merged as) bs := by
  simp [merge]

end Directive

end Federation
