import Federation.Subgraph.Basic
/-!
# Supergraph — the graphs

In a supergraph, services go by the values of an enumeration. A service
has the value of its name in upper case, with an underscore for every
character that a name cannot hold; services that would share a value
are numbered. A value that ends like a number is closed by an
underscore, so that no value of a name looks like a numbered one.
-/

namespace Federation

/-- A service in a supergraph: its name, its address and its value of the enumeration. -/
structure Graph where
  service : String
  url : String
  value : String
  deriving DecidableEq, Inhabited, Repr

namespace Graph

/-- The form of a character in a value. -/
def valueChar (c : Char) : Char :=
  if c.isAlphanum then c.toUpper else '_'

/-- Whether a text ends with an underscore and digits. -/
def endsNumbered (cs : List Char) : Bool :=
  let digits := cs.reverse.takeWhile Char.isDigit
  !digits.isEmpty && (cs.reverse.drop digits.length).head? == some '_'

/-- The value of a name by itself. It does not start with a digit, and does not end like a
number. -/
def baseChars (name : List Char) : List Char :=
  let value := name.map valueChar
  let value := if value.head?.any Char.isDigit then '_' :: value else value
  if endsNumbered value then value ++ ['_'] else value

/-- The value of a name by itself. -/
def baseValue (name : String) : String :=
  String.ofList (baseChars name.toList)

/-- The values that a name may get, in the order in which they are tried: `n` numbered ones after
the value of the name by itself. -/
def candidates (base : String) (n : Nat) : List String :=
  base :: (List.range n).map fun k => s!"{base}_{k + 1}"

/-- The first value that is free. Of one more candidate than there are values taken, one is. -/
def freeValue (taken : List String) (base : String) : String :=
  ((candidates base taken.length).find? (!taken.contains ·)).getD base

/-- The graphs with the one of another service. -/
def add (graphs : List Graph) (s : Subgraph) : List Graph :=
  graphs ++
    [{ service := s.name
       url := s.url.getD ""
       value := freeValue (graphs.map (·.value)) (baseValue s.name) }]

end Graph

namespace Subgraphs

/-- The graphs of services, in the order of the names of the services. -/
def graphs (s : Subgraphs) : List Graph :=
  (s.byName.map (·.1)).foldl Graph.add []

end Subgraphs

end Federation
