import Federation.Directives.Merge
import Federation.Subgraph.Basic
/-!
# Composition — members

What holds for members of all kinds: fields, input fields and values of
enumerations. The declarations of a member are gathered by its name, in
the order in which names first occur. Of each service the first
declaration counts, and services that declare a member twice are
reported. Directives are merged, without those that mean something
inside a service only; the description is taken from the first service
that has one.
-/

namespace Federation

namespace Declared

variable {α : Type}

/-- The declarations of each name, names in the order in which they first occur. -/
def byMember (name : α → String) (ds : List (Declared α)) : List (List (Declared α)) :=
  (distinct (ds.map fun d => name d.node)).map fun n => ds.filter fun d => name d.node == n

/-- The first declaration of each service. -/
def firstPerService (ds : List (Declared α)) : List (Declared α) :=
  firstsBy (·.rank) ds

/-- The first declarations of the services that have more than one. -/
def repeatedByService (ds : List (Declared α)) : List (Declared α) :=
  (firstPerService ds).filter fun d => 1 < (ds.filter (·.rank == d.rank)).length

/-- The services of declarations, each once. -/
def services (ds : List (Declared α)) : List String :=
  distinct (ds.map (·.service))

/-- The description by the service that came first, of those that describe the element. -/
def firstDescription (description : α → Option String) (ds : List (Declared α)) : Option String :=
  let described := ds.filter fun d => (description d.node).isSome
  let inRank := described.mergeSort fun a b => decide (a.rank ≤ b.rank)
  inRank.head?.bind fun d => description d.node

/-- The applications on all declarations of an element that are composed, in order. -/
def applications (directives : α → List Directive) (ds : List (Declared α)) : List Directive :=
  (ds.flatMap fun d => directives d.node).filter fun d => !FederationDirective.isServiceOnly d.name

/-- The merged applications on an element. -/
def mergedDirectives (isRepeatable : String → Bool) (directives : α → List Directive)
    (ds : List (Declared α)) : List Directive :=
  Directive.merge isRepeatable [] (applications directives ds)

/-- The conflicts of the applications on an element. -/
def directiveProblems (isRepeatable : String → Bool) (directives : α → List Directive)
    (coordinate : Coordinate) (ds : List (Declared α)) : List Diagnostic :=
  Directive.conflictDiagnostics isRepeatable [] (applications directives ds) coordinate

/-- The services that declare a member more than once. -/
def repetitionProblems (kind : MemberKind) (coordinate : Coordinate) (ds : List (Declared α)) :
    List Diagnostic :=
  (repeatedByService ds).map fun d =>
    { cause := .repeatedMember kind, coordinate, service := some d.service }

/-- The types that services give an element, by their names. -/
def typesOf (type : α → TypeRef) (ds : List (Declared α)) : List (String × TypeRef) :=
  ds.map fun d => (d.service, type d.node)

/-- Whether all types are equal. -/
def agree (types : List (String × TypeRef)) : Bool :=
  match types with
  | [] => true
  | first :: others => others.all fun other => other.2 == first.2

/-- The disagreement about the type of an element, if there is one. -/
def typeProblems (element : TypedElement) (coordinate : Coordinate)
    (types : List (String × TypeRef)) : List Diagnostic :=
  if agree types then [] else [{ cause := .conflictingTypes element types, coordinate }]

end Declared

end Federation
