import Federation.Diagnostic
/-!
# Subgraphs — declarations

A type definition of a service together with what its federation
directives say: whether it extends a type that is defined elsewhere, its
keys, and for each field whether it is resolved elsewhere and which
fields it asks for and offers. `Declaration.problems` reports the
malformed arguments.
-/

namespace Federation

/-- A field of a service and what its directives say. The last `@requires` and the last `@provides`
count. -/
structure FieldDeclaration where
  node : Field
  isExternal : Bool
  requires : Option FieldSet
  provides : Option FieldSet
  deriving DecidableEq, Inhabited, Repr

/-- A type definition of a service and what its directives say. -/
structure Declaration where
  node : TypeDefinition
  isExtension : Bool
  root : Option OperationType
  keys : List FieldSet
  fields : List FieldDeclaration
  deriving DecidableEq, Inhabited, Repr

namespace Directive

/-- What well-formed applications say. -/
def meanings (ds : List Directive) : List FederationDirective :=
  ds.filterMap fun d => (FederationDirective.interpret d).toOption

/-- What is malformed about applications at a coordinate. -/
def malformed (coordinate : Coordinate) (location : Location) (ds : List Directive) :
    List Diagnostic :=
  ds.filterMap fun d =>
    match FederationDirective.interpret d with
    | .ok _ => none
    | .error e => some { cause := .malformedArgument e, coordinate, location := some location }

end Directive

namespace FieldDeclaration

/-- The declaration of a field. -/
def ofField (f : Field) : FieldDeclaration :=
  let meanings := Directive.meanings f.directives
  { node := f
    isExternal := f.isExternal
    requires := (meanings.filterMap fun
      | .requires fields => some fields
      | _ => none).getLast?
    provides := (meanings.filterMap fun
      | .provides fields => some fields
      | _ => none).getLast? }

/-- The name of the field. -/
def name (f : FieldDeclaration) : String :=
  f.node.name

end FieldDeclaration

namespace Declaration

/-- The declaration of a type definition. Root types are always extended. -/
def ofDefinition (d : TypeDefinition) : Declaration :=
  let root := OperationType.ofConventionalName? d.name
  { node := d
    isExtension := d.extendsType || root.isSome
    root
    keys := (Directive.meanings d.directives).filterMap fun
      | .key fields => some fields
      | _ => none
    fields := d.fields.map FieldDeclaration.ofField }

/-- The name of the type. -/
def name (d : Declaration) : String :=
  d.node.name

/-- The kind of the type. -/
def kind (d : Declaration) : TypeKind :=
  d.node.kind

/-- What is malformed about the directives on a type and on its fields. -/
def problems (d : TypeDefinition) : List Diagnostic :=
  Directive.malformed (.type d.name) d.location d.directives ++
    d.fields.flatMap fun f => Directive.malformed (.member d.name f.name) f.location f.directives

end Declaration

/-- Something that a service declares. The rank of a service is its place in the order in which the
services came. -/
structure Declared (α : Type) where
  rank : Nat
  service : String
  node : α
  deriving DecidableEq, Inhabited, Repr

namespace Declared

/-- Something else that the same service declares. -/
def map {α β : Type} (f : α → β) (d : Declared α) : Declared β :=
  { d with node := f d.node }

end Declared

end Federation
