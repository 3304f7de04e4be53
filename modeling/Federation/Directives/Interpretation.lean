import Federation.FieldSet.Parser
/-!
# Directives — what the federation directives say

Services annotate their types and fields with a few directives that
tell who resolves what. `FederationDirective.interpret` takes an
application to what it says, or to the argument that is malformed.
-/

namespace Federation

/-- What is wrong with an argument. -/
inductive ArgumentFault
  | missing
  | notString (found : Value)
  | notFieldSet (cause : FieldSetError)
  deriving DecidableEq, Inhabited, Repr

namespace ArgumentFault

/-- The wording of a fault. -/
def message : ArgumentFault → String
  | missing => "missing argument"
  | notString found => s!"expected a string, found {found.text}"
  | notFieldSet cause => cause.message

end ArgumentFault

/-- A malformed argument of an application. -/
structure ArgumentError where
  directive : String
  argument : String
  fault : ArgumentFault
  deriving DecidableEq, Inhabited, Repr

namespace ArgumentError

/-- The wording of an error. -/
def message (e : ArgumentError) : String :=
  s!"The `{e.argument}` argument of `@{e.directive}` is invalid: {e.fault.message}"

end ArgumentError

namespace Directive

/-- An argument that has to be a string. -/
def stringArgument (d : Directive) (name : String) : Except ArgumentError String :=
  match d.argument? name with
  | some (.string s) => .ok s
  | some found => .error ⟨d.name, name, .notString found⟩
  | none => .error ⟨d.name, name, .missing⟩

/-- The argument `fields`, which has to be a field set. -/
def fieldSetArgument (d : Directive) : Except ArgumentError FieldSet :=
  match d.stringArgument "fields" with
  | .error e => .error e
  | .ok text =>
    match FieldSet.parse text with
    | .error cause => .error ⟨d.name, "fields", .notFieldSet cause⟩
    | .ok fields => .ok fields

end Directive

/-- What an application says: `@key`, `@external`, `@extends`, `@requires`, `@provides` and `@tag`
have a meaning of their own, and any other directive is carried as it is. -/
inductive FederationDirective
  | key (fields : FieldSet)
  | external
  | extending
  | requires (fields : FieldSet)
  | provides (fields : FieldSet)
  | tag (name : String)
  | other (application : Directive)
  deriving DecidableEq, Inhabited, Repr

namespace FederationDirective

/-- The name of the directive that gives a key of a type. -/
def keyName : String := "key"

/-- The name of the directive that marks a field as resolved elsewhere. -/
def externalName : String := "external"

/-- The name of the directive that marks a definition as an extension. -/
def extendingName : String := "extends"

/-- The name of the directive that asks for fields of other services. -/
def requiresName : String := "requires"

/-- The name of the directive that offers fields of other services. -/
def providesName : String := "provides"

/-- The name of the directive that labels an element. -/
def tagName : String := "tag"

/-- The directives that mean something inside a service only. They are not composed. -/
def serviceOnlyNames : List String :=
  [keyName, externalName, extendingName, requiresName, providesName]

/-- Whether a directive means something inside a service only. -/
def isServiceOnly (name : String) : Bool :=
  serviceOnlyNames.contains name

/-- What an application says. -/
def interpret (d : Directive) : Except ArgumentError FederationDirective :=
  if d.name = keyName then d.fieldSetArgument.map key
  else if d.name = externalName then .ok external
  else if d.name = extendingName then .ok extending
  else if d.name = requiresName then d.fieldSetArgument.map requires
  else if d.name = providesName then d.fieldSetArgument.map provides
  else if d.name = tagName then (d.stringArgument "name").map tag
  else .ok (other d)

end FederationDirective

namespace TypeDefinition

/-- The keys of a type, in order. The first malformed one decides the error. -/
def keys (d : TypeDefinition) : Except ArgumentError (List FieldSet) :=
  (d.directivesNamed FederationDirective.keyName).mapM Directive.fieldSetArgument

/-- Whether a definition extends a type that is defined elsewhere: by its keyword or by
`@extends`. -/
def extendsType (d : TypeDefinition) : Bool :=
  d.isExtension || d.directives.any (·.name == FederationDirective.extendingName)

end TypeDefinition

namespace Field

/-- Whether a field is marked as resolved elsewhere. -/
def isExternal (f : Field) : Bool :=
  f.directives.any (·.name == FederationDirective.externalName)

end Field

end Federation
