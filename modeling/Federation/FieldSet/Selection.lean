import Federation.Document.Grammar
/-!
# Field sets — the grammar of selections

The grammar of executable documents, of which a field set uses little:
operations and fragments with their selections. Of arguments,
variables and applications of directives only their presence is kept,
since no field set may have them.
-/

namespace Federation

/-- What an operation selects: a field, perhaps under an alias, or a fragment. -/
inductive Selection
  | field (responseKey : Option String) (name : String) (hasArguments hasDirectives : Bool)
      (selections : List Selection)
  | inlineFragment
  | fragmentSpread
  deriving Inhabited, Repr

/-- A definition of an executable document: an operation, by what it selects, or a fragment. -/
inductive ExecutableDefinition
  | operation (selections : List Selection)
  | fragment
  deriving Inhabited, Repr

namespace Grammar

/-- A value that is read and forgotten, no deeper than an allowance of lexemes is long. Whether it
may hold variables depends on where it stands. -/
def skippedValueWithin (allowVariables : Bool) : List Lexeme → Grammar Unit
  | [] => refuse
  | _ :: allowance => do
    match ← next? with
    | some (.integer _) | some (.float _) | some (.block _) | some (.name _) => advance
    | some (.string raw) =>
      advance
      let _ ← decodeString raw
    | some (.punctuator .openBracket) =>
      advance
      let _ ← manyBefore .closeBracket (skippedValueWithin allowVariables allowance)
    | some (.punctuator .openBrace) =>
      advance
      let _ ← manyBefore .closeBrace do
        let _ ← name
        expectPunctuator .colon
        skippedValueWithin allowVariables allowance
    | some (.punctuator .dollar) =>
      if !allowVariables then refuse
      advance
      let _ ← name
    | _ => refuse

/-- A value that is read and forgotten, perhaps with variables in it. -/
def skippedValue : Grammar Unit := do
  skippedValueWithin true (← get)

/-- A constant value that is read and forgotten. -/
def skippedConstant : Grammar Unit := do
  skippedValueWithin false (← get)

/-- A list of arguments, if there is one, and whether it holds any. -/
def skippedArguments : Grammar Bool := do
  if ← skip? (.punctuator .openParen) then
    let arguments ← manyBefore .closeParen do
      let _ ← name
      expectPunctuator .colon
      skippedValue
    return !arguments.isEmpty
  else return false

/-- Applications of directives, and whether there are any. -/
def skippedDirectives : Grammar Bool := do
  let applications ← many (· == some (.punctuator .atSign)) do
    advance
    let _ ← name
    let _ ← skippedArguments
  return !applications.isEmpty

/-- A selection, no deeper than an allowance of lexemes is long. After the spread, the word `on`
always starts a type condition. -/
def selectionWithin : List Lexeme → Grammar Selection
  | [] => refuse
  | _ :: allowance => do
    let selectionSet := do
      expectPunctuator .openBrace
      someBefore .closeBrace (selectionWithin allowance)
    if ← skip? (.punctuator .spread) then
      if ← skip? (.name "on") then
        let _ ← name
        let _ ← skippedDirectives
        let _ ← selectionSet
        return .inlineFragment
      else match ← next? with
        | some (.name _) =>
          advance
          let _ ← skippedDirectives
          return .fragmentSpread
        | _ =>
          let _ ← skippedDirectives
          let _ ← selectionSet
          return .inlineFragment
    else
      let first ← name
      let hasAlias ← skip? (.punctuator .colon)
      let fieldName ← if hasAlias then name else pure first
      let hasArguments ← skippedArguments
      let hasDirectives ← skippedDirectives
      let selections ←
        if (← next?) = some (.punctuator .openBrace) then selectionSet else pure []
      return .field (if hasAlias then some first else none) fieldName hasArguments hasDirectives
        selections

/-- Selections between braces, at least one. -/
def selectionSet : Grammar (List Selection) := do
  let allowance ← get
  expectPunctuator .openBrace
  someBefore .closeBrace (selectionWithin allowance)

/-- The variables of an operation, if it has a list of them. The list is not empty, and the default
of a variable is a constant. -/
def skippedVariables : Grammar Unit := do
  if ← skip? (.punctuator .openParen) then
    let _ ← someBefore .closeParen do
      expectPunctuator .dollar
      let _ ← name
      expectPunctuator .colon
      let _ ← typeRef
      if ← skip? (.punctuator .equals) then skippedConstant
      let _ ← skippedDirectives

/-- An operation from its keyword on. -/
def operation : Grammar (List Selection) := do
  advance
  match ← next? with
  | some (.name _) => advance
  | _ => pure ()
  skippedVariables
  let _ ← skippedDirectives
  selectionSet

/-- A fragment from its keyword on. Its name is not `on`. -/
def fragment : Grammar Unit := do
  advance
  if (← next?) = some (.name "on") then refuse
  let _ ← name
  expect (.name "on")
  let _ ← name
  let _ ← skippedDirectives
  let _ ← selectionSet

/-- A definition of an executable document. -/
def executableDefinition : Grammar ExecutableDefinition := do
  match ← next? with
  | some (.punctuator .openBrace) => return .operation (← selectionSet)
  | some (.name word) =>
    if (OperationType.ofKeyword? word).isSome then return .operation (← operation)
    else if word = "fragment" then
      fragment
      return .fragment
    else refuse
  | _ => refuse

/-- An executable document. -/
def executableDocument : Grammar (List ExecutableDefinition) :=
  many (·.isSome) executableDefinition

end Grammar

end Federation
