import Federation.Document.Grammar
/-!
# Document — reading a document

The grammar of type system documents, and `Document.parse`, which reads
a text by it. A definition is located at its keyword; a member is
located at its description, or at its name if it has none.
-/

namespace Federation

namespace Grammar

/-- An argument in a definition, or a field of an input object. -/
def inputValue : Grammar InputValue := do
  let location ← here
  let description ← string?
  let valueName ← name
  expectPunctuator .colon
  let type ← typeRef
  let hasDefault ← skip? (.punctuator .equals)
  let default ← if hasDefault then some <$> value else pure none
  let directives ← directives
  return { name := valueName, description, type, default, directives, location }

/-- The arguments of a field or of a directive. A list of arguments is not empty. -/
def argumentDefinitions : Grammar (List InputValue) := do
  if ← skip? (.punctuator .openParen) then someBefore .closeParen inputValue else return []

/-- A field of an object or interface. -/
def field : Grammar Field := do
  let location ← here
  let description ← string?
  let fieldName ← name
  let arguments ← argumentDefinitions
  expectPunctuator .colon
  let type ← typeRef
  let directives ← directives
  return { name := fieldName, description, arguments, type, directives, location }

/-- The name of a value of an enumeration: not `true`, `false` or `null`. -/
def enumValueName : Grammar String := do
  match ← next? with
  | some (.name text) =>
    if text = "true" || text = "false" || text = "null" then refuse
    else
      advance
      return text
  | _ => refuse

/-- A value of an enumeration. -/
def enumValue : Grammar EnumValue := do
  let location ← here
  let description ← string?
  let valueName ← enumValueName
  let directives ← directives
  return { name := valueName, description, directives, location }

/-- A block of members, which is not empty, if there is one. -/
def block {α : Type} (member : Grammar α) : Grammar (List α) := do
  if ← skip? (.punctuator .openBrace) then someBefore .closeBrace member else return []

/-- The interfaces that a type implements. -/
def implemented : Grammar (List String) := do
  if ← skip? (.name "implements") then separatedBy .ampersand name else return []

/-- What a definition of a kind holds after its name, with its directives. -/
def typeBody (kind : TypeKind) : Grammar (List Directive × TypeBody) := do
  match kind with
  | .scalar => return (← directives, .scalar)
  | .object =>
    let implements ← implemented
    let applied ← directives
    return (applied, .object { implements, fields := ← block field })
  | .interface =>
    let implements ← implemented
    let applied ← directives
    return (applied, .interface { implements, fields := ← block field })
  | .union =>
    let applied ← directives
    let hasMembers ← skip? (.punctuator .equals)
    return (applied, .union (← if hasMembers then separatedBy .pipe name else pure []))
  | .enum =>
    let applied ← directives
    return (applied, .enum (← block enumValue))
  | .inputObject =>
    let applied ← directives
    return (applied, .inputObject (← block inputValue))

/-- The kind of type that a keyword defines. -/
def kindOfKeyword? (word : String) : Option TypeKind :=
  if word = "scalar" then some .scalar
  else if word = "type" then some .object
  else if word = "interface" then some .interface
  else if word = "union" then some .union
  else if word = "enum" then some .enum
  else if word = "input" then some .inputObject
  else none

/-- A type definition or extension from its keyword on. -/
def typeDefinition (description : Option String) (isExtension : Bool) (kind : TypeKind) :
    Grammar TypeDefinition := do
  let location ← here
  advance
  let typeName ← name
  let (directives, body) ← typeBody kind
  return { name := typeName, description, directives, isExtension, body, location }

/-- The type of a root operation. -/
def rootOperation : Grammar RootOperation := do
  match ← next? with
  | some (.name text) =>
    match OperationType.ofKeyword? text with
    | some operation =>
      advance
      expectPunctuator .colon
      return ⟨operation, ← name⟩
    | none => refuse
  | _ => refuse

/-- The first type for each operation, in the order of the operations. -/
def firstRoots (roots : List RootOperation) : List RootOperation :=
  OperationType.all.filterMap fun operation => roots.find? (·.operation == operation)

/-- A schema definition or extension from its keyword on. Only an extension goes without a block. -/
def schemaDefinition (description : Option String) (isExtension : Bool) :
    Grammar SchemaDefinition := do
  let location ← here
  advance
  let directives ← directives
  let hasBlock ← skip? (.punctuator .openBrace)
  let roots ←
    if hasBlock then manyBefore .closeBrace rootOperation
    else if isExtension then pure []
    else refuse
  return { description, directives, rootOperations := firstRoots roots, isExtension, location }

/-- The words that a definition may start with. -/
def definitionKeywords : List String :=
  ["schema", "scalar", "type", "interface", "union", "enum", "input", "directive", "extend"]

/-- Whether a token may follow a location: another location, another definition or the end. -/
def mayFollowLocation : Option Token → Bool
  | none | some (.punctuator .pipe) | some (.string _) | some (.block _) => true
  | some (.name word) => definitionKeywords.contains word
  | some _ => false

/-- The name of a location. -/
def directiveLocation : Grammar DirectiveLocation := do
  let text ← name
  match DirectiveLocation.ofText? text with
  | some location => return location
  | none => failBefore mayFollowLocation (.unknownLocation text)

/-- A directive definition from its keyword on. -/
def directiveDefinition (description : Option String) : Grammar DirectiveDefinition := do
  let location ← here
  advance
  expectPunctuator .atSign
  let directiveName ← name
  let arguments ← argumentDefinitions
  let isRepeatable ← skip? (.name "repeatable")
  expect (.name "on")
  let locations ← separatedBy .pipe directiveLocation
  return { name := directiveName, description, arguments, isRepeatable, locations, location }

/-- A definition. Directive definitions have no extensions. -/
def definition : Grammar Definition := do
  let description ← string?
  let isExtension ← skip? (.name "extend")
  match ← next? with
  | some (.name word) =>
    if word = "schema" then return .schema (← schemaDefinition description isExtension)
    else if word = "directive" && !isExtension then
      return .directive (← directiveDefinition description)
    else match kindOfKeyword? word with
      | some kind => return .type (← typeDefinition description isExtension kind)
      | none => refuse
  | _ => refuse

/-- A document: one definition or more, and nothing else. -/
def document : Grammar Document := do
  let first ← definition
  let others ← many (·.isSome) definition
  return ⟨first :: others⟩

end Grammar

namespace Document

/-- The document that a text holds. -/
def parse (text : String) : Except SyntaxError Document :=
  if Text.isBlank text.toList then .error .emptyDocument
  else Grammar.document.run text.toList

end Document

end Federation
