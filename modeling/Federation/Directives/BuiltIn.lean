import Federation.Directives.Interpretation
/-!
# Directives — the built-in definitions

The directives that need no definition in a document: those of
federation, `@tag`, and those of the language itself.
-/

namespace Federation

namespace DirectiveDefinition

/-- A definition without text of its own. -/
def plain (name : String) (arguments : List InputValue) (isRepeatable : Bool)
    (locations : List DirectiveLocation) : DirectiveDefinition :=
  { name, arguments, isRepeatable, locations }

/-- A required argument of a named type. -/
def required (name typeName : String) : InputValue :=
  { name, type := .nonNull (.named typeName) }

/-- The built-in definitions. -/
def builtIn : List DirectiveDefinition :=
  [plain FederationDirective.keyName [required "fields" "String"] true [.object, .interface],
   plain FederationDirective.extendingName [] false [.object, .interface],
   plain FederationDirective.externalName [] false [.object, .fieldDefinition],
   plain FederationDirective.requiresName [required "fields" "String"] false [.fieldDefinition],
   plain FederationDirective.providesName [required "fields" "String"] false [.fieldDefinition],
   plain FederationDirective.tagName [required "name" "String"] true
     [.fieldDefinition, .object, .interface, .union],
   plain "deprecated"
     [{ name := "reason"
        type := .named "String"
        default := some (.string "No longer supported") }]
     false [.fieldDefinition, .argumentDefinition, .inputFieldDefinition, .enumValue],
   plain "specifiedBy" [required "url" "String"] false [.scalar],
   plain "skip" [required "if" "Boolean"] false [.field, .fragmentSpread, .inlineFragment],
   plain "include" [required "if" "Boolean"] false [.field, .fragmentSpread, .inlineFragment]]

/-- The built-in definition of a name. -/
def builtIn? (name : String) : Option DirectiveDefinition :=
  builtIn.find? (·.name == name)

/-- The arguments that every application has to have. -/
def requiredArguments (d : DirectiveDefinition) : List InputValue :=
  d.arguments.filter fun a => a.type.isNonNull && a.default.isNone

end DirectiveDefinition

end Federation
