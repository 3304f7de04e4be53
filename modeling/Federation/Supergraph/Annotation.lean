import Federation.Schema.Basic
import Federation.Supergraph.Graph
/-!
# Supergraph — the annotated schema

The text that a router loads: the composed schema with annotations that
tell which service owns a type, by which keys it is found, and which
service resolves a field, together with the definitions of the
annotations themselves.
-/

namespace Federation

namespace Supergraph

/-- The feature that annotates the schema itself. -/
def coreFeature : String := "https://specs.apollo.dev/core/v0.1"

/-- The feature that annotates types and fields. -/
def joinFeature : String := "https://specs.apollo.dev/join/v0.1"

/-- The enumeration of the graphs. -/
def graphType : String := "join__Graph"

/-- The scalar of field sets. -/
def fieldSetType : String := "join__FieldSet"

/-- The enumeration of the purposes of features. -/
def purposeType : String := "core__Purpose"

/-- An application with arguments. -/
def application (name : String) (arguments : List (String × Value)) : Directive :=
  { name, arguments := arguments.map fun (name, value) => ⟨name, value⟩ }

/-- The value of the graph of a service. -/
def graphValue (graphs : List Graph) (service : String) : Value :=
  .enum (((graphs.find? (·.service == service)).map (·.value)).getD (Graph.baseValue service))

/-- The schema definition, which names the features and the root types. -/
def schemaDefinition (s : Schema) : SchemaDefinition :=
  { directives :=
      [application "core" [("feature", .string coreFeature)],
       application "core" [("feature", .string joinFeature), ("for", .enum "EXECUTION")]]
    rootOperations := OperationType.all.filterMap fun operation =>
      (s.rootType? operation).map fun root => ⟨operation, root.name⟩ }

/-- An argument in the definition of an annotation. -/
def argument (name : String) (type : TypeRef) : InputValue :=
  { name, type }

/-- The definitions of the annotations. -/
def directiveDefinitions : List DirectiveDefinition :=
  let graph := TypeRef.named graphType
  let fieldSet := TypeRef.named fieldSetType
  let string := TypeRef.named "String"
  [{ name := "core"
     arguments :=
       [argument "feature" (.nonNull string), argument "as" string,
        argument "for" (.named purposeType)]
     isRepeatable := true
     locations := [.schema] },
   { name := "join__field"
     arguments :=
       [argument "graph" graph, argument "requires" fieldSet, argument "provides" fieldSet]
     locations := [.fieldDefinition] },
   { name := "join__type"
     arguments := [argument "graph" (.nonNull graph), argument "key" fieldSet]
     isRepeatable := true
     locations := [.object, .interface] },
   { name := "join__owner"
     arguments := [argument "graph" (.nonNull graph)]
     locations := [.object, .interface] },
   { name := "join__graph"
     arguments := [argument "name" (.nonNull string), argument "url" (.nonNull string)]
     locations := [.enumValue] }]

/-- The purposes of features. -/
def purposeDefinition : TypeDefinition :=
  let purpose := fun (name description : String) =>
    { name, description := some description : EnumValue }
  { name := purposeType
    body := .enum
      [purpose "EXECUTION"
         "`EXECUTION` features provide metadata necessary to for operation execution.",
       purpose "SECURITY"
         "`SECURITY` features provide metadata necessary to securely resolve fields."] }

/-- The scalar of field sets. -/
def fieldSetDefinition : TypeDefinition :=
  { name := fieldSetType, body := .scalar }

/-- The graphs, with the names and addresses of their services. -/
def graphDefinition (graphs : List Graph) : TypeDefinition :=
  { name := graphType
    body := .enum (graphs.map fun g =>
      { name := g.value
        directives := [application "join__graph"
          [("name", .string g.service), ("url", .string g.url)]] }) }

/-- The contribution that a field is resolved by: its owner, or else the first one. -/
def resolver? (f : FieldOwnership) : Option FieldContribution :=
  f.owner? <|> f.contributions.head?

/-- The annotation of a field that a contribution resolves. -/
def annotationOfField (graphs : List Graph) (c : FieldContribution) : Directive :=
  let fieldSet := fun (name : String) (fields : Option FieldSet) =>
    (fields.map fun fields => (name, Value.string fields.text)).toList
  application "join__field"
    (("graph", graphValue graphs c.service) :: fieldSet "requires" c.requires ++
      fieldSet "provides" c.provides)

/-- A field with its annotation. -/
def annotateField (graphs : List Graph) (t : TypeOwnership) (f : Field) : Field :=
  match (t.field? f.name).bind resolver? with
  | none => f
  | some c => { f with directives := f.directives ++ [annotationOfField graphs c] }

/-- The annotations of a type: its owner, if it has one and keys, and its keys. -/
def typeAnnotations (graphs : List Graph) (t : TypeOwnership) : List Directive :=
  (match t.owner with
    | some owner =>
      if t.keys.isEmpty then []
      else [application "join__owner" [("graph", graphValue graphs owner)]]
    | none => []) ++
  t.keys.map fun (service, key) =>
    application "join__type"
      [("graph", graphValue graphs service), ("key", .string key.text)]

/-- A type with its annotations. Only objects and interfaces have them. -/
def annotate (s : Schema) (graphs : List Graph) (d : TypeDefinition) : TypeDefinition :=
  match s.ownership? d.name with
  | none => d
  | some t =>
    let annotateBody := fun (b : ObjectBody) =>
      { b with fields := b.fields.map (annotateField graphs t) }
    match d.body with
    | .object b =>
      { d with
        directives := d.directives ++ typeAnnotations graphs t
        body := .object (annotateBody b) }
    | .interface b =>
      { d with
        directives := d.directives ++ typeAnnotations graphs t
        body := .interface (annotateBody b) }
    | .scalar | .union _ | .enum _ | .inputObject _ => d

/-- The annotated schema: the schema definition, the definitions of the annotations, and then the
schema's own directive definitions and types. -/
def annotated (s : Schema) (graphs : List Graph) : Document :=
  ⟨.schema (schemaDefinition s) :: directiveDefinitions.map .directive ++
    [.type purposeDefinition, .type fieldSetDefinition, .type (graphDefinition graphs)] ++
    s.directiveDefinitions.map .directive ++
    s.types.map fun d => .type (annotate s graphs d)⟩

end Supergraph

end Federation
