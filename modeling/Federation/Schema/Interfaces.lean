import Federation.Diagnostic
import Federation.Schema.Basic
/-!
# Schema — implementing interfaces

A type that implements an interface has to implement what the interface
implements, and to have its fields: of a type that is as specific or
more (`Schema.isImplementationType`), with the same arguments, and with
no further argument that is required.
-/

namespace Federation

namespace Schema

/-- Whether a field of one type may implement a field of another: it excludes null where the other
may not, and it is the same type or a more specific one. -/
def isImplementationType (s : Schema) : (field expected : TypeRef) → Bool
  | .nonNull field, .nonNull expected => s.isImplementationType field expected
  | .nonNull field, expected => s.isImplementationType field expected
  | .list field, .list expected => s.isImplementationType field expected
  | .named field, .named expected => s.isSubtype expected field
  | _, _ => false

/-- What is wrong with the arguments of a field that implements a field of an interface. -/
def argumentCauses (field expected : Field) (interface : String) : List Cause :=
  (expected.arguments.filterMap fun e =>
    match field.argument? e.name with
    | none => some (.missingArgument e.name interface)
    | some a =>
      if a.type = e.type then none else some (.incompatibleArgument a.name a.type interface e.type))
  ++ (field.arguments.filter fun a =>
      (expected.argument? a.name).isNone && a.type.isNonNull && a.default.isNone).map
    fun a => .additionalArgument a.name interface

/-- What is wrong with a field of an interface in a type that implements it. -/
def fieldCauses (s : Schema) (d : TypeDefinition) (interface : String) (expected : Field) :
    List Cause :=
  match d.field? expected.name with
  | none => [.missingField interface]
  | some field =>
    (if s.isImplementationType field.type expected.type then []
      else [.incompatibleType field.type interface expected.type]) ++
    argumentCauses field expected interface

/-- What is wrong with a type that implements an interface. -/
def implementationProblems (s : Schema) (d interface : TypeDefinition) : List Diagnostic :=
  ((interface.implements.filter (!d.implements.contains ·)).map fun required =>
    { cause := .missingInterface interface.name required,
      coordinate := .member d.name interface.name : Diagnostic }) ++
  interface.fields.flatMap fun expected =>
    (s.fieldCauses d interface.name expected).map fun cause =>
      { cause, coordinate := .member d.name expected.name }

/-- What is wrong with one name in the list of interfaces of a type. A name that the schema does
not define is reported as a reference to an unknown type. -/
def interfaceNameProblems (s : Schema) (d : TypeDefinition) (name : String) : List Diagnostic :=
  match s.type? name with
  | none => []
  | some interface =>
    if interface.kind = .interface then s.implementationProblems d interface
    else [{ cause := .notInterface name interface.kind, coordinate := .type d.name }]

/-- What is wrong with the interfaces that the types of a schema implement. -/
def interfaceProblems (s : Schema) : List Diagnostic :=
  s.types.flatMap fun d => d.implements.flatMap (s.interfaceNameProblems d)

end Schema

end Federation
