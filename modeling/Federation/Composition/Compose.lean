import Federation.Composition.Merge
import Federation.Schema.Checks
import Federation.Schema.Extension
import Federation.Subgraph.Checks
import Federation.Supergraph.Annotation
/-!
# Composition

Services are composed to a supergraph, or to the list of everything that
is wrong with them: with the services as they were handed in, with each
by itself, between them, in the schema that they make together, and in
that schema as a whole. Composition never stops at the first problem.
-/

namespace Federation

/-- A composed schema, and the same schema annotated for a router. -/
structure Supergraph where
  schema : Schema
  document : Document
  deriving DecidableEq, Inhabited, Repr

namespace Supergraph

/-- The text that a router loads. -/
def text (s : Supergraph) : String :=
  s.document.text

end Supergraph

namespace Subgraphs

/-- The schema that the services make together, with the clashes that were found on the way. -/
def composedSchema (s : Subgraphs) : Reported Schema :=
  let (schema, clashes) := Schema.empty.applyDocument s.mergedDocument
  ({ schema with ownership := s.ownership }, clashes)

/-- Everything that is wrong with services, in the order in which it is found. -/
def allProblems (s : Subgraphs) : List Diagnostic :=
  let (schema, clashes) := s.composedSchema
  s.problems ++ s.checkProblems ++ s.mergeProblems ++ clashes ++ schema.problems

/-- The supergraph of services, or everything that is wrong with them. -/
def compose (s : Subgraphs) : Except (List Diagnostic) Supergraph :=
  match s.allProblems with
  | [] =>
    let schema := s.composedSchema.1
    .ok { schema, document := Supergraph.annotated schema s.graphs }
  | problems => .error (Diagnostic.sorted problems)

end Subgraphs

namespace Service

/-- The supergraph of services that can be read, or everything that is wrong with them. Services
that share a name are not composed at all. -/
def compose (services : List Service) :
    Except IngestError (Except (List Diagnostic) Supergraph) :=
  (Subgraphs.ofServices services).map Subgraphs.compose

end Service

end Federation
