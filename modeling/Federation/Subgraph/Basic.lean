import Federation.Document.Parser
import Federation.Directives.Sites
import Federation.Sequence
import Federation.Subgraph.RootNames
import Federation.Subgraph.Store
/-!
# Subgraphs

The services to compose. A service has a name, perhaps the address where
it is reached, and a document; a service whose text cannot be read keeps
its name and gives nothing. `Subgraphs` is a list of services with
different names, in the order in which they came.

`Subgraphs.groups` gathers the declarations of each type: types in the
order of their names, and the declarations of a type by the names of
their services and then by their places in the documents.
-/

namespace Federation

/-- A service that can be read. -/
structure Service where
  name : String
  url : Option String := none
  document : Document
  deriving DecidableEq, Inhabited, Repr

namespace Service

/-- The service whose document is a text. -/
def ofText (name : String) (url : Option String) (text : String) : Except SyntaxError Service :=
  (Document.parse text).map fun document => { name, url, document }

end Service

/-- A service as it was handed in: with its document, or with the error of its text. -/
structure Subgraph where
  name : String
  url : Option String
  content : Except SyntaxError Document

namespace Subgraph

/-- The types that a service offers to a router and to nobody else. -/
def routerTypes : List String :=
  ["_Service", "_Entity", "_Any", "_FieldSet"]

/-- The document of a service with its root types under their conventional names. -/
def document (s : Subgraph) : Document :=
  match s.content with
  | .ok d => d.withConventionalRoots
  | .error _ => {}

/-- The type definitions that take part in composition. -/
def typeDefinitions (s : Subgraph) : List TypeDefinition :=
  s.document.typeDefinitions.filter fun d => !routerTypes.contains d.name

/-- The declarations of a service, in order. -/
def declarations (s : Subgraph) : List Declaration :=
  s.typeDefinitions.map Declaration.ofDefinition

/-- The sites of the applications on the schema of a service. -/
def schemaSites (s : Subgraph) : List Site :=
  s.document.schemaDefinitions.flatMap Site.ofSchema

/-- The directive definition of a service for a name, or the built-in one. -/
def lookupDirective (s : Subgraph) (name : String) : Option DirectiveDefinition :=
  s.document.directiveDefinitions.find? (·.name == name) <|> DirectiveDefinition.builtIn? name

/-- What is wrong with a service as it is handed in: a text that cannot be read, types that shadow
root types, and malformed arguments of federation directives. -/
def problems (s : Subgraph) : List Diagnostic :=
  let found : List Diagnostic := match s.content with
    | .error e => [{ cause := .unreadable e, coordinate := .schema }]
    | .ok d =>
      (d.shadowingTypes.map fun t =>
        { cause := .shadowsRoot, coordinate := .type t.name,
          location := some t.location : Diagnostic }) ++
      s.typeDefinitions.flatMap Declaration.problems
  found.map (·.inService s.name)

end Subgraph

/-- Why a service is not taken. -/
inductive IngestError
  | duplicateName (name : String)
  deriving DecidableEq, Inhabited, Repr

namespace IngestError

/-- The wording of an error. -/
def message : IngestError → String
  | duplicateName name => s!"The service name `{name}` is used more than once."

end IngestError

/-- Services with different names, in the order in which they came. -/
structure Subgraphs where
  services : List Subgraph := []
  nodup : (services.map (·.name)).Nodup := by exact List.nodup_nil

namespace Subgraphs

/-- No services. -/
def empty : Subgraphs := {}

/-- The number of services. -/
def size (s : Subgraphs) : Nat :=
  s.services.length

/-- Whether there are no services. -/
def isEmpty (s : Subgraphs) : Bool :=
  s.services.isEmpty

/-- Takes one more service, unless its name is taken. -/
def add (s : Subgraphs) (g : Subgraph) : Except IngestError Subgraphs :=
  if h : g.name ∈ s.services.map (·.name) then .error (.duplicateName g.name)
  else
    .ok
      { services := s.services ++ [g]
        nodup := by
          rw [List.map_append, List.nodup_append]
          refine ⟨s.nodup, by simp, ?_⟩
          intro a ha b hb
          simp only [List.map_cons, List.map_nil, List.mem_singleton] at hb
          rintro rfl
          exact h (hb ▸ ha) }

/-- Takes a service that can be read. -/
def ingest (s : Subgraphs) (service : Service) : Except IngestError Subgraphs :=
  s.add { name := service.name, url := service.url, content := .ok service.document }

/-- Takes a service by its text. A text that cannot be read keeps the name, and is reported when
the services are composed. -/
def ingestText (s : Subgraphs) (name : String) (url : Option String) (text : String) :
    Except IngestError Subgraphs :=
  s.add { name, url, content := Document.parse text }

/-- Takes services in order. -/
def ofServices (services : List Service) : Except IngestError Subgraphs :=
  services.foldlM ingest empty

/-- The services in the order of their names, with their ranks. -/
def byName (s : Subgraphs) : List (Subgraph × Nat) :=
  s.services.zipIdx.mergeSort fun a b => Text.stringLe a.1.name b.1.name

/-- What the services declare, in the order of their names. -/
def collect {α : Type} (s : Subgraphs) (f : Subgraph → List α) : List (Declared α) :=
  s.byName.flatMap fun (g, rank) => (f g).map fun node => { rank, service := g.name, node }

/-- The declarations of all services. -/
def declarations (s : Subgraphs) : List (Declared Declaration) :=
  s.collect Subgraph.declarations

/-- The directive definitions of all services. -/
def directiveDefinitions (s : Subgraphs) : List (Declared DirectiveDefinition) :=
  s.collect fun g => g.document.directiveDefinitions

/-- The names that are declared, in order and each once. -/
def typeNames (s : Subgraphs) : List String :=
  (distinct (s.declarations.map (·.node.name))).mergeSort Text.stringLe

/-- What the services declare, entered service by service as they came. -/
def store (s : Subgraphs) : Store :=
  s.services.foldl (fun t g => t.ingest g.name g.declarations) {}

/-- The declarations of each name. -/
def groups (s : Subgraphs) : List (List (Declared Declaration)) :=
  s.store.groups?.getD []

/-- What was wrong with the services as they were handed in. -/
def problems (s : Subgraphs) : List Diagnostic :=
  s.services.flatMap Subgraph.problems

end Subgraphs

end Federation
