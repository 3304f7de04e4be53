import Federation.Document.Printer
import Federation.Document.Structure
import Federation.Schema.Ownership
/-!
# Schema

A schema holds types, directive definitions, root operation types and
the directives on itself, each in the order in which it came. A
composed schema also records who resolves what.
-/

namespace Federation

/-- A schema. No two types and no two directive definitions share a name, and no operation has two
roots. -/
structure Schema where
  types : List TypeDefinition := []
  directiveDefinitions : List DirectiveDefinition := []
  roots : List RootOperation := []
  directives : List Directive := []
  ownership : List TypeOwnership := []
  deriving DecidableEq, Inhabited, Repr

namespace Schema

/-- The schema that holds nothing. -/
def empty : Schema := {}

/-- The scalars that every schema knows without defining them. -/
def builtInScalars : List String :=
  ["ID", "String", "Int", "Float", "Boolean"]

/-- The type with a name. -/
def type? (s : Schema) (name : String) : Option TypeDefinition :=
  s.types.find? (·.name == name)

/-- The directive definition with a name. -/
def directiveDefinition? (s : Schema) (name : String) : Option DirectiveDefinition :=
  s.directiveDefinitions.find? (·.name == name)

/-- The name that a schema definition gives the root type of an operation. -/
def rootName? (s : Schema) (operation : OperationType) : Option String :=
  (s.roots.find? (·.operation == operation)).map (·.typeName)

/-- The root type of an operation: the one that a schema definition names, or the one with the
conventional name. -/
def rootType? (s : Schema) (operation : OperationType) : Option TypeDefinition :=
  s.type? ((s.rootName? operation).getD operation.conventionalName)

/-- The record of a type. -/
def ownership? (s : Schema) (name : String) : Option TypeOwnership :=
  s.ownership.find? (·.name == name)

/-- The service that resolves a field. -/
def fieldOwner? (s : Schema) (typeName fieldName : String) : Option String := do
  let type ← s.ownership? typeName
  let field ← type.field? fieldName
  let owner ← field.owner?
  return owner.service

/-- Whether a name is a type of the schema or a built-in scalar. -/
def isKnownType (s : Schema) (name : String) : Bool :=
  builtInScalars.contains name || (s.type? name).isSome

/-- Whether a value of type `concrete` may stand where `abstract` is expected: the type itself, a
type that implements the interface, or a member of the union. -/
def isSubtype (s : Schema) (abstract concrete : String) : Bool :=
  abstract == concrete ||
    match (s.type? abstract).map TypeDefinition.body with
    | some (.union members) => members.contains concrete
    | some (.interface _) => (s.type? concrete).any (·.implements.contains abstract)
    | _ => false

/-- Whether a root type does not have its conventional name. -/
def hasCustomRoots (s : Schema) : Bool :=
  s.roots.any fun r => r.typeName != r.operation.conventionalName

/-- The schema as a document: a schema definition if one is needed, then directive definitions,
then types. -/
def toDocument (s : Schema) : Document :=
  let definition : SchemaDefinition := { directives := s.directives, rootOperations := s.roots }
  ⟨(if s.hasCustomRoots || !s.directives.isEmpty then [.schema definition] else []) ++
    s.directiveDefinitions.map .directive ++ s.types.map .type⟩

/-- The written form of a schema. -/
def text (s : Schema) : String :=
  s.toDocument.text

/-- Whether two lists hold the same entries under their keys, in whatever order. -/
def sameEntries {α κ : Type} [BEq κ] (key : α → κ) (same : α → α → Bool) (as bs : List α) : Bool :=
  as.length == bs.length && as.all fun a => (bs.find? (key · == key a)).any (same a)

/-- Whether two schemas are the same up to locations, the sign of zero and the order of types,
directive definitions and roots. -/
def same (a b : Schema) : Bool :=
  sameEntries (·.name) TypeDefinition.same a.types b.types
    && sameEntries (·.name) DirectiveDefinition.same a.directiveDefinitions b.directiveDefinitions
    && sameEntries (·.operation) (fun x y => x == y) a.roots b.roots
    && decide (a.directives.map Directive.canonical = b.directives.map Directive.canonical)
    && sameEntries (·.name) (fun x y => x == y) a.ownership b.ownership

end Schema

end Federation
