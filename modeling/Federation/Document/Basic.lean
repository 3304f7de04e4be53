import Federation.Document.Value
import Federation.Text.Location
/-!
# Document — the nodes of a type system document

A document is a list of definitions: of the schema, of types and of
directives. Nodes remember where they were written; a node that no text
holds has the location `Location.none`.
-/

namespace Federation

/-- The operations that a schema has root types for. -/
inductive OperationType
  | query
  | mutation
  | subscription
  deriving DecidableEq, Inhabited, Repr

namespace OperationType

/-- The operations, in the order in which they are listed. -/
def all : List OperationType := [query, mutation, subscription]

/-- The word for an operation. -/
def keyword : OperationType → String
  | query => "query"
  | mutation => "mutation"
  | subscription => "subscription"

/-- The name of the root type for an operation, unless a schema definition names another. -/
def conventionalName : OperationType → String
  | query => "Query"
  | mutation => "Mutation"
  | subscription => "Subscription"

/-- The operation that a word stands for. -/
def ofKeyword? (word : String) : Option OperationType :=
  all.find? (·.keyword == word)

/-- The operation whose root type has a conventional name. -/
def ofConventionalName? (name : String) : Option OperationType :=
  all.find? (·.conventionalName == name)

end OperationType

/-- The places where a directive may be applied. -/
inductive DirectiveLocation
  | query
  | mutation
  | subscription
  | field
  | fragmentDefinition
  | fragmentSpread
  | inlineFragment
  | schema
  | scalar
  | object
  | fieldDefinition
  | argumentDefinition
  | interface
  | union
  | enum
  | enumValue
  | inputObject
  | inputFieldDefinition
  | variableDefinition
  deriving DecidableEq, Inhabited, Repr

namespace DirectiveLocation

/-- All locations, in the order in which they are listed. -/
def all : List DirectiveLocation :=
  [query, mutation, subscription, field, fragmentDefinition, fragmentSpread, inlineFragment,
   schema, scalar, object, fieldDefinition, argumentDefinition, interface, union, enum, enumValue,
   inputObject, inputFieldDefinition, variableDefinition]

/-- The written form of a location. -/
def text : DirectiveLocation → String
  | query => "QUERY"
  | mutation => "MUTATION"
  | subscription => "SUBSCRIPTION"
  | field => "FIELD"
  | fragmentDefinition => "FRAGMENT_DEFINITION"
  | fragmentSpread => "FRAGMENT_SPREAD"
  | inlineFragment => "INLINE_FRAGMENT"
  | schema => "SCHEMA"
  | scalar => "SCALAR"
  | object => "OBJECT"
  | fieldDefinition => "FIELD_DEFINITION"
  | argumentDefinition => "ARGUMENT_DEFINITION"
  | interface => "INTERFACE"
  | union => "UNION"
  | enum => "ENUM"
  | enumValue => "ENUM_VALUE"
  | inputObject => "INPUT_OBJECT"
  | inputFieldDefinition => "INPUT_FIELD_DEFINITION"
  | variableDefinition => "VARIABLE_DEFINITION"

/-- The location with a written form. -/
def ofText? (s : String) : Option DirectiveLocation :=
  all.find? (·.text == s)

/-- A location inside an operation, not in a type system document. -/
def isExecutable : DirectiveLocation → Bool
  | query | mutation | subscription | field | fragmentDefinition | fragmentSpread
  | inlineFragment | variableDefinition => true
  | schema | scalar | object | fieldDefinition | argumentDefinition | interface | union | enum
  | enumValue | inputObject | inputFieldDefinition => false

theorem mem_all (l : DirectiveLocation) : l ∈ all := by
  cases l <;> decide

/-- Every location is read back from its written form. -/
theorem ofText?_text (l : DirectiveLocation) : ofText? l.text = some l := by
  cases l <;> decide

end DirectiveLocation

/-- A reference to a type: a name, a list of a type or a type without null. -/
inductive TypeRef
  | named (name : String)
  | list (item : TypeRef)
  | nonNull (nullable : TypeRef)
  deriving DecidableEq, Inhabited, Repr

namespace TypeRef

/-- The innermost name. -/
def name : TypeRef → String
  | named name => name
  | list item => item.name
  | nonNull nullable => nullable.name

/-- Whether null is excluded. -/
def isNonNull : TypeRef → Bool
  | nonNull _ => true
  | named _ | list _ => false

/-- The reference with its innermost name changed by a function. -/
def mapName (f : String → String) : TypeRef → TypeRef
  | named name => named (f name)
  | list item => list (item.mapName f)
  | nonNull nullable => nonNull (nullable.mapName f)

@[simp] theorem name_mapName (f : String → String) (t : TypeRef) :
    (t.mapName f).name = f t.name := by
  induction t with
  | named => rfl
  | list _ ih => exact ih
  | nonNull _ ih => exact ih

end TypeRef

/-- A named value in the application of a directive. -/
structure Argument where
  name : String
  value : Value
  deriving DecidableEq, Inhabited, Repr

/-- The application of a directive: `@name(argument: value)`. -/
structure Directive where
  name : String
  arguments : List Argument := []
  deriving DecidableEq, Inhabited, Repr

/-- A field argument, a directive argument or the field of an input object. -/
structure InputValue where
  name : String
  description : Option String := none
  type : TypeRef
  default : Option Value := none
  directives : List Directive := []
  location : Location := Location.none
  deriving DecidableEq, Inhabited, Repr

/-- A field of an object or interface. -/
structure Field where
  name : String
  description : Option String := none
  arguments : List InputValue := []
  type : TypeRef
  directives : List Directive := []
  location : Location := Location.none
  deriving DecidableEq, Inhabited, Repr

/-- A value of an enumeration. -/
structure EnumValue where
  name : String
  description : Option String := none
  directives : List Directive := []
  location : Location := Location.none
  deriving DecidableEq, Inhabited, Repr

/-- What an object or interface holds: the interfaces it implements and its fields. -/
structure ObjectBody where
  implements : List String := []
  fields : List Field := []
  deriving DecidableEq, Inhabited, Repr

/-- The kinds of types. -/
inductive TypeKind
  | scalar
  | object
  | interface
  | union
  | enum
  | inputObject
  deriving DecidableEq, Inhabited, Repr

namespace TypeKind

/-- The name of a kind in running text. -/
def text : TypeKind → String
  | scalar => "scalar"
  | object => "object"
  | interface => "interface"
  | union => "union"
  | enum => "enum"
  | inputObject => "input object"

/-- The name of a kind after its indefinite article. -/
def withArticle : TypeKind → String
  | scalar => "a scalar"
  | object => "an object"
  | interface => "an interface"
  | union => "a union"
  | enum => "an enum"
  | inputObject => "an input object"

/-- Objects, interfaces and unions. -/
def isComposite : TypeKind → Bool
  | object | interface | union => true
  | scalar | enum | inputObject => false

/-- Scalars, enumerations and input objects. -/
def isInput : TypeKind → Bool
  | scalar | enum | inputObject => true
  | object | interface | union => false

end TypeKind

/-- What a type definition defines. -/
inductive TypeBody
  | scalar
  | object (body : ObjectBody)
  | interface (body : ObjectBody)
  | union (members : List String)
  | enum (values : List EnumValue)
  | inputObject (fields : List InputValue)
  deriving DecidableEq, Inhabited, Repr

namespace TypeBody

/-- The kind of a body. -/
def kind : TypeBody → TypeKind
  | scalar => .scalar
  | object _ => .object
  | interface _ => .interface
  | union _ => .union
  | enum _ => .enum
  | inputObject _ => .inputObject

/-- The body of a kind with no members. -/
def empty : TypeKind → TypeBody
  | .scalar => scalar
  | .object => object {}
  | .interface => interface {}
  | .union => union []
  | .enum => enum []
  | .inputObject => inputObject []

/-- The fields of an object or interface. -/
def fields : TypeBody → List Field
  | object body | interface body => body.fields
  | scalar | union _ | enum _ | inputObject _ => []

/-- The interfaces that an object or interface implements. -/
def implements : TypeBody → List String
  | object body | interface body => body.implements
  | scalar | union _ | enum _ | inputObject _ => []

/-- The members of a union. -/
def members : TypeBody → List String
  | union members => members
  | scalar | object _ | interface _ | enum _ | inputObject _ => []

/-- The values of an enumeration. -/
def enumValues : TypeBody → List EnumValue
  | enum values => values
  | scalar | object _ | interface _ | union _ | inputObject _ => []

/-- The fields of an input object. -/
def inputFields : TypeBody → List InputValue
  | inputObject fields => fields
  | scalar | object _ | interface _ | union _ | enum _ => []

@[simp] theorem kind_empty (k : TypeKind) : (empty k).kind = k := by
  cases k <;> rfl

end TypeBody

/-- The definition or the extension of a type. -/
structure TypeDefinition where
  name : String
  description : Option String := none
  directives : List Directive := []
  isExtension : Bool := false
  body : TypeBody
  location : Location := Location.none
  deriving DecidableEq, Inhabited, Repr

/-- The type of a root operation. -/
structure RootOperation where
  operation : OperationType
  typeName : String
  deriving DecidableEq, Inhabited, Repr

/-- The definition or an extension of the schema itself. -/
structure SchemaDefinition where
  description : Option String := none
  directives : List Directive := []
  rootOperations : List RootOperation := []
  isExtension : Bool := false
  location : Location := Location.none
  deriving DecidableEq, Inhabited, Repr

/-- The definition of a directive. -/
structure DirectiveDefinition where
  name : String
  description : Option String := none
  arguments : List InputValue := []
  isRepeatable : Bool := false
  locations : List DirectiveLocation
  location : Location := Location.none
  deriving DecidableEq, Inhabited, Repr

/-- A definition of a document. -/
inductive Definition
  | schema (definition : SchemaDefinition)
  | type (definition : TypeDefinition)
  | directive (definition : DirectiveDefinition)
  deriving DecidableEq, Inhabited, Repr

/-- A type system document. -/
structure Document where
  definitions : List Definition := []
  deriving DecidableEq, Inhabited, Repr

namespace Directive

/-- The value of the first argument with a name. -/
def argument? (d : Directive) (name : String) : Option Value :=
  (d.arguments.find? (·.name == name)).map (·.value)

/-- The application with one more argument. -/
def withArgument (d : Directive) (name : String) (value : Value) : Directive :=
  { d with arguments := d.arguments ++ [⟨name, value⟩] }

end Directive

namespace Field

/-- The first argument with a name. -/
def argument? (f : Field) (name : String) : Option InputValue :=
  f.arguments.find? (·.name == name)

end Field

namespace TypeDefinition

/-- The kind of the defined type. -/
def kind (d : TypeDefinition) : TypeKind :=
  d.body.kind

/-- The fields of an object or interface. -/
def fields (d : TypeDefinition) : List Field :=
  d.body.fields

/-- The interfaces that an object or interface implements. -/
def implements (d : TypeDefinition) : List String :=
  d.body.implements

/-- The first field with a name. -/
def field? (d : TypeDefinition) (name : String) : Option Field :=
  d.fields.find? (·.name == name)

/-- The applications of a directive on the type. -/
def directivesNamed (d : TypeDefinition) (name : String) : List Directive :=
  d.directives.filter (·.name == name)

end TypeDefinition

namespace DirectiveDefinition

/-- Whether the directive may be applied inside operations. -/
def isExecutable (d : DirectiveDefinition) : Bool :=
  d.locations.any (·.isExecutable)

end DirectiveDefinition

namespace Document

/-- The definitions and extensions of types, in order. -/
def typeDefinitions (d : Document) : List TypeDefinition :=
  d.definitions.filterMap fun
    | .type definition => some definition
    | .schema _ | .directive _ => none

/-- The definitions of directives, in order. -/
def directiveDefinitions (d : Document) : List DirectiveDefinition :=
  d.definitions.filterMap fun
    | .directive definition => some definition
    | .schema _ | .type _ => none

/-- The definitions and extensions of the schema, in order. -/
def schemaDefinitions (d : Document) : List SchemaDefinition :=
  d.definitions.filterMap fun
    | .schema definition => some definition
    | .type _ | .directive _ => none

variable {d : Document}

theorem mem_typeDefinitions {t : TypeDefinition} :
    t ∈ d.typeDefinitions ↔ .type t ∈ d.definitions := by
  rw [typeDefinitions, List.mem_filterMap]
  constructor
  · rintro ⟨x, hx, hsome⟩
    cases x <;> cases hsome
    exact hx
  · exact fun ht => ⟨_, ht, rfl⟩

theorem mem_directiveDefinitions {t : DirectiveDefinition} :
    t ∈ d.directiveDefinitions ↔ .directive t ∈ d.definitions := by
  rw [directiveDefinitions, List.mem_filterMap]
  constructor
  · rintro ⟨x, hx, hsome⟩
    cases x <;> cases hsome
    exact hx
  · exact fun ht => ⟨_, ht, rfl⟩

theorem mem_schemaDefinitions {t : SchemaDefinition} :
    t ∈ d.schemaDefinitions ↔ .schema t ∈ d.definitions := by
  rw [schemaDefinitions, List.mem_filterMap]
  constructor
  · rintro ⟨x, hx, hsome⟩
    cases x <;> cases hsome
    exact hx
  · exact fun ht => ⟨_, ht, rfl⟩

end Document

end Federation
