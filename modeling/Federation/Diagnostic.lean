import Federation.Directives.Interpretation
import Federation.Text.Listing
/-!
# Diagnostics

Everything that can be wrong with services and schemas. A diagnostic
has a cause, the coordinate of the element that it is about, and perhaps
the service and the location it comes from. Its kind and its wording
follow from these. `Diagnostic.sorted` orders diagnostics by kind, then
by type, then by member, and keeps the order of equals.
-/

namespace Federation

/-- The kinds of diagnostics, in the order in which they are reported. -/
inductive DiagnosticKind
  | syntaxError
  | duplicateTypeDefinition
  | fieldTypeMismatch
  | conflictingDirective
  | unresolvedExternalField
  | interfaceFieldMissing
  | directiveArgument
  | directiveLocation
  | typeKindMismatch
  | unknownType
  | reservedFieldUsed
  | externalUsedOnBase
  | requiresUsedOnBase
  | keyFieldsMissingExternal
  | extensionWithNoBase
  deriving DecidableEq, Inhabited, Repr

namespace DiagnosticKind

/-- The name of a kind. -/
def text : DiagnosticKind → String
  | syntaxError => "SyntaxError"
  | duplicateTypeDefinition => "DuplicateTypeDefinitionError"
  | fieldTypeMismatch => "FieldTypeMismatchError"
  | conflictingDirective => "ConflictingDirectiveError"
  | unresolvedExternalField => "UnresolvedExternalFieldError"
  | interfaceFieldMissing => "InterfaceFieldMissingError"
  | directiveArgument => "DirectiveArgumentError"
  | directiveLocation => "DirectiveLocationError"
  | typeKindMismatch => "TypeKindMismatchError"
  | unknownType => "UnknownTypeError"
  | reservedFieldUsed => "ReservedFieldUsedError"
  | externalUsedOnBase => "ExternalUsedOnBaseError"
  | requiresUsedOnBase => "RequiresUsedOnBaseError"
  | keyFieldsMissingExternal => "KeyFieldsMissingExternalError"
  | extensionWithNoBase => "ExtensionWithNoBaseError"

end DiagnosticKind

/-- The element of a schema that a diagnostic is about. -/
inductive Coordinate
  | schema
  | directive (name : String)
  | type (name : String)
  | member (typeName name : String)
  deriving DecidableEq, Inhabited, Repr

namespace Coordinate

/-- The written form of a coordinate in running text. -/
def text : Coordinate → String
  | schema => "the schema"
  | directive name => s!"`@{name}`"
  | type name => s!"`{name}`"
  | member typeName name => s!"`{typeName}.{name}`"

/-- The type that a coordinate belongs to. A directive goes by its name after an at sign. -/
def typeName? : Coordinate → Option String
  | schema => none
  | directive name => some s!"@{name}"
  | type name => some name
  | member typeName _ => some typeName

/-- The member of a type that a coordinate is. -/
def fieldName? : Coordinate → Option String
  | member _ name => some name
  | schema | directive _ | type _ => none

end Coordinate

/-- The kinds of members that a type may hold twice by mistake. -/
inductive MemberKind
  | field
  | inputField
  | enumValue
  deriving DecidableEq, Inhabited, Repr

namespace MemberKind

/-- The name of a kind of member at the start of a sentence. -/
def text : MemberKind → String
  | field => "Field"
  | inputField => "Input field"
  | enumValue => "Enum value"

end MemberKind

/-- An element whose type services may disagree about. -/
inductive TypedElement
  | field
  | inputField
  | argument (name : String)
  deriving DecidableEq, Inhabited, Repr

/-- What is wrong. Lists of services are in order and hold no service twice. -/
inductive Cause
  /-- The text of a service cannot be read. -/
  | unreadable (e : SyntaxError)
  /-- A type has the conventional name of a root type but is none. -/
  | shadowsRoot
  /-- A service defines a type more than once. -/
  | repeatedBase
  /-- Services define a type differently. -/
  | conflictingBases (services : List String)
  /-- A member is declared more than once in one place. -/
  | repeatedMember (kind : MemberKind)
  /-- More than one service resolves a field. -/
  | severalResolvers (services : List String)
  /-- More than one service resolves a field of a root type. -/
  | severalRootResolvers (services : List String)
  /-- A document defines a directive that is already defined. -/
  | repeatedDirective
  /-- A document defines a type that is already defined. -/
  | repeatedType
  /-- An operation has two root types. -/
  | conflictingRoots (operation : OperationType) (existing incoming : String)
  /-- Services give an element different types. -/
  | conflictingTypes (element : TypedElement) (types : List (String × TypeRef))
  /-- Services define a directive differently. -/
  | conflictingDefinitions (services : List String)
  /-- A directive that may be applied once is applied with different arguments. -/
  | conflictingApplications (existing incoming : Directive)
  /-- Every service marks a field as resolved elsewhere. -/
  | unresolvedExternal (services : List String)
  /-- A type does not implement what an interface of it implements. -/
  | missingInterface (interface required : String)
  /-- A type does not have a field of an interface. -/
  | missingField (interface : String)
  /-- A field does not have a type that an interface asks for. -/
  | incompatibleType (type : TypeRef) (interface : String) (expected : TypeRef)
  /-- A field does not have an argument of an interface. -/
  | missingArgument (argument interface : String)
  /-- An argument does not have the type that an interface asks for. -/
  | incompatibleArgument (argument : String) (type : TypeRef) (interface : String)
      (expected : TypeRef)
  /-- A field requires an argument that an interface does not know. -/
  | additionalArgument (argument interface : String)
  /-- An argument of a federation directive is malformed. -/
  | malformedArgument (e : ArgumentError)
  /-- An application has an argument that its directive does not know. -/
  | unknownArgument (directive argument : String)
  /-- An application lacks an argument that its directive requires. -/
  | absentArgument (directive argument : String)
  /-- A key selects a field that does not exist. -/
  | unresolvedKey (key : FieldSet) (typeName field : String)
  /-- A directive is applied where its definition does not allow it. -/
  | misplaced (directive : String) (location : DirectiveLocation)
      (allowed : List DirectiveLocation)
  /-- Services define a name as different kinds of types. -/
  | conflictingKinds (kinds : List (TypeKind × String))
  /-- An extension is of another kind than its type. -/
  | extensionKind (extension existing : TypeKind)
  /-- A type implements a type that is no interface. -/
  | notInterface (name : String) (kind : TypeKind)
  /-- A reference names no type. -/
  | unknownType (name : String)
  /-- A service declares a field that is reserved. -/
  | reservedField
  /-- A field of a base definition is marked as resolved elsewhere. -/
  | externalOnBase
  /-- A field of a base definition asks for fields of other services. -/
  | requiresOnBase
  /-- A key field of an extension is not marked as resolved elsewhere. -/
  | keyFieldNotExternal
  /-- A type is extended and never defined. -/
  | neverDefined (services : List String)
  deriving DecidableEq, Inhabited, Repr

namespace Cause

/-- The kind of a cause. -/
def kind : Cause → DiagnosticKind
  | unreadable _ => .syntaxError
  | shadowsRoot | repeatedBase | conflictingBases _ | repeatedMember _ | severalResolvers _
  | severalRootResolvers _ | repeatedDirective | repeatedType | conflictingRoots .. =>
    .duplicateTypeDefinition
  | conflictingTypes .. => .fieldTypeMismatch
  | conflictingDefinitions _ | conflictingApplications .. => .conflictingDirective
  | unresolvedExternal _ => .unresolvedExternalField
  | missingInterface .. | missingField _ | incompatibleType .. | missingArgument ..
  | incompatibleArgument .. | additionalArgument .. => .interfaceFieldMissing
  | malformedArgument _ | unknownArgument .. | absentArgument .. | unresolvedKey .. =>
    .directiveArgument
  | misplaced .. => .directiveLocation
  | conflictingKinds _ | extensionKind .. | notInterface .. => .typeKindMismatch
  | unknownType _ => .unknownType
  | reservedField => .reservedFieldUsed
  | externalOnBase => .externalUsedOnBase
  | requiresOnBase => .requiresUsedOnBase
  | keyFieldNotExternal => .keyFieldsMissingExternal
  | neverDefined _ => .extensionWithNoBase

end Cause

namespace TypedElement

/-- The written form of an element at a coordinate: an argument goes by the coordinate of its field
and its own name. -/
def text (c : Coordinate) : TypedElement → String
  | field => s!"field {c.text}"
  | inputField => s!"input field {c.text}"
  | argument name =>
    let typeName := c.typeName?.getD ""
    let fieldName := c.fieldName?.getD ""
    s!"argument `{typeName}.{fieldName}({name}:)`"

end TypedElement

/-- A finding about services or a schema. -/
structure Diagnostic where
  cause : Cause
  coordinate : Coordinate
  service : Option String := none
  location : Option Location := none
  deriving DecidableEq, Inhabited, Repr

namespace Diagnostic

/-- The kind of a diagnostic. -/
def kind (d : Diagnostic) : DiagnosticKind :=
  d.cause.kind

/-- The two applications of a conflict, in the order of their written forms. -/
def applications (existing incoming : Directive) : List String :=
  [existing.text, incoming.text].mergeSort Text.stringLe

/-- The wording of a diagnostic without the name of its service. -/
def wording (d : Diagnostic) : String :=
  let site := d.coordinate.text
  let typeName := d.coordinate.typeName?.getD ""
  let fieldName := d.coordinate.fieldName?.getD ""
  match d.cause with
  | .unreadable e => e.message
  | .shadowsRoot =>
    s!"The {site} type has the default name for a root type but is itself not a root."
  | .repeatedBase => s!"The type {site} is defined more than once."
  | .conflictingBases services =>
    s!"The type {site} is defined in {Text.tickedInOrder services} with different " ++
      "definitions. Only one service may define a type, the others must extend it."
  | .repeatedMember kind => s!"{kind.text} {site} can only be defined once."
  | .severalResolvers services =>
    s!"The field {site} is defined in {Text.tickedInOrder services}. " ++
      "Only one service may define a field, the others must mark it @external."
  | .severalRootResolvers services =>
    s!"The root field {site} is defined in {Text.tickedInOrder services}. " ++
      "Only one service may resolve a root field."
  | .repeatedDirective => s!"There can be only one directive named {site}."
  | .repeatedType => s!"There can be only one type named {site}."
  | .conflictingRoots operation existing incoming =>
    s!"The {operation.keyword} root type is already `{existing}`, it cannot also be `{incoming}`."
  | .conflictingTypes element types =>
    let listing := Text.commas (types.map fun (service, type) => s!"`{type.text}` in `{service}`")
    s!"The {element.text d.coordinate} has conflicting types across services: {listing}."
  | .conflictingDefinitions services =>
    s!"The directive {site} is defined differently in {Text.tickedInOrder services}."
  | .conflictingApplications existing incoming =>
    let texts := String.intercalate " and " ((applications existing incoming).map Text.ticked)
    s!"The directive `@{incoming.name}` is applied to {site} with different arguments: {texts}."
  | .unresolvedExternal services =>
    s!"The field {site} is marked @external in {Text.tickedInOrder services} " ++
      "but no service defines it."
  | .missingInterface interface required =>
    s!"`{typeName}` implements `{interface}`, so it must also implement `{required}`."
  | .missingField interface =>
    s!"`{typeName}` implements `{interface}` but does not define `{interface}.{fieldName}`."
  | .incompatibleType type interface expected =>
    s!"{site} is of type `{type.text}`, which does not implement " ++
      s!"`{interface}.{fieldName}` of type `{expected.text}`."
  | .missingArgument argument interface =>
    s!"{site} is missing the argument `{argument}` of `{interface}.{fieldName}`."
  | .incompatibleArgument argument type interface expected =>
    s!"The argument `{typeName}.{fieldName}({argument}:)` is of type `{type.text}` but " ++
      s!"`{interface}.{fieldName}` expects `{expected.text}`."
  | .additionalArgument argument interface =>
    s!"The argument `{typeName}.{fieldName}({argument}:)` is required but " ++
      s!"`{interface}.{fieldName}` does not declare it."
  | .malformedArgument e => s!"{e.message} (on {site})"
  | .unknownArgument directive argument =>
    s!"The directive `@{directive}` has no argument named `{argument}` (on {site})."
  | .absentArgument directive argument =>
    s!"The directive `@{directive}` is missing its required `{argument}` argument (on {site})."
  | .unresolvedKey key current field =>
    s!"The @key(fields: \"{key.text}\") on {site} is invalid: `{current}` has no field `{field}`."
  | .misplaced directive location allowed =>
    let listing := String.intercalate " | " (allowed.map DirectiveLocation.text)
    s!"The directive `@{directive}` is not allowed at {location.text} (on {site}). " ++
      s!"Its allowed locations are: {listing}."
  | .conflictingKinds kinds =>
    let listing := Text.commas (kinds.map fun (kind, service) => s!"{kind.text} in `{service}`")
    s!"The type {site} is defined with different kinds: {listing}."
  | .extensionKind extension existing =>
    s!"Cannot extend {site} as {extension.withArticle}: it is {existing.withArticle}."
  | .notInterface name kind =>
    s!"{site} implements `{name}`, which is {kind.text} and not an interface."
  | .unknownType name => s!"Unknown type `{name}` (on {site})."
  | .reservedField =>
    s!"{site} is a field reserved for federation and cannot be defined by a service."
  | .externalOnBase => s!"{site} is marked @external but `{typeName}` is not an extension."
  | .requiresOnBase => s!"{site} uses @requires but `{typeName}` is not an extension."
  | .keyFieldNotExternal =>
    s!"{site} is part of a @key on an extension and must be marked @external."
  | .neverDefined services =>
    s!"The type {site} is extended in {Text.tickedInOrder services} but never defined."

/-- The wording of a diagnostic, after the name of its service if it has one. -/
def message (d : Diagnostic) : String :=
  match d.service with
  | some service => s!"[{service}] {d.wording}"
  | none => d.wording

/-- The diagnostic with the service that it comes from. -/
def inService (d : Diagnostic) (service : String) : Diagnostic :=
  { d with service := some service }

/-- The written form of a diagnostic: its kind and its message. -/
def text (d : Diagnostic) : String :=
  s!"{d.kind.text}: {d.message}"

/-- The order of optional names: none comes first, names by code points. -/
def optionLe : Option String → Option String → Bool
  | none, _ => true
  | some _, none => false
  | some a, some b => Text.stringLe a b

/-- The order in which diagnostics are reported: by kind, then by type, then by member. -/
def le (a b : Diagnostic) : Bool :=
  if a.kind ≠ b.kind then decide (a.kind.ctorIdx < b.kind.ctorIdx)
  else if a.coordinate.typeName? ≠ b.coordinate.typeName? then
    optionLe a.coordinate.typeName? b.coordinate.typeName?
  else optionLe a.coordinate.fieldName? b.coordinate.fieldName?

/-- Diagnostics in the order in which they are reported. Equals keep their order. -/
def sorted (ds : List Diagnostic) : List Diagnostic :=
  ds.mergeSort le

/-- The written form of diagnostics: one on each line. -/
def listing (ds : List Diagnostic) : String :=
  String.join (ds.map fun d => d.text ++ "\n")

end Diagnostic

end Federation
