import Federation.Document.Basic
import Federation.Document.Lexeme
/-!
# Document — reading lexemes

A grammar rule takes lexemes off the head of a row of lexemes or fails
with a syntax error. The rules here are the ones that the grammar of
documents and the grammar of selections share: names, repetition,
strings, values, type references and applications of directives.

A rule looks one lexeme ahead to decide what it reads, so the error is
always at the first lexeme with which no document could go on
(`refuse`). Repetition and depth are bounded by the lexemes that are
left, of which each round and each level takes one.
-/

namespace Federation

/-- Why a text cannot be read. -/
inductive SyntaxError
  | emptyDocument
  | unexpected (t : Token)
  | unexpectedEnd
  | malformedString (escape : String)
  | unknownLocation (name : String)
  deriving DecidableEq, Inhabited, Repr

namespace SyntaxError

/-- The wording of an error. -/
def message : SyntaxError → String
  | emptyDocument => "the graphql document was empty, please provide at least one definition"
  | unexpected (.fault .invalid) => "invalid token"
  | unexpected t => s!"unexpected {t.description} token"
  | unexpectedEnd => "unexpected end of file"
  | malformedString escape =>
    s!"malformed string literal: {escape} is not a valid unicode code point"
  | unknownLocation name =>
    let expected := String.intercalate ", " (DirectiveLocation.all.map DirectiveLocation.text)
    s!"unknown directive location: {name}. expected one of {expected}"

end SyntaxError

/-- A rule of a grammar: it takes lexemes off the head of a row, or fails. -/
abbrev Grammar := StateT (List Lexeme) (Except SyntaxError)

namespace Grammar

variable {α : Type}

/-- The error that the next lexeme is not expected. -/
def refuse : Grammar α := fun ls =>
  match ls with
  | [] => .error .unexpectedEnd
  | l :: _ => .error (.unexpected l.token)

/-- The next token, which stays. -/
def next? : Grammar (Option Token) := fun ls =>
  .ok (ls.head?.map (·.token), ls)

/-- The location of the next lexeme. -/
def here : Grammar Location := fun ls =>
  .ok ((ls.head?.map (·.location)).getD Location.none, ls)

/-- Drops the next lexeme. -/
def advance : Grammar Unit := fun ls =>
  .ok ((), ls.tail)

/-- Drops the next lexeme if it is a given token, and says whether it was. -/
def skip? (t : Token) : Grammar Bool := do
  if (← next?) = some t then
    advance
    return true
  else return false

/-- Drops the next lexeme, which has to be a given token. -/
def expect (t : Token) : Grammar Unit := do
  if (← next?) = some t then advance else refuse

/-- Drops the next lexeme, which has to be a given punctuator. -/
def expectPunctuator (p : Punctuator) : Grammar Unit :=
  expect (.punctuator p)

/-- A name. Keywords are names too. -/
def name : Grammar String := do
  match ← next? with
  | some (.name text) =>
    advance
    return text
  | _ => refuse

/-- A rule as long as the next token allows it, once at most for each lexeme of an allowance. -/
def manyWithin (starts : Option Token → Bool) (item : Grammar α) :
    List Lexeme → Grammar (List α)
  | [] => pure []
  | _ :: allowance => do
    if starts (← next?) then
      let a ← item
      let as ← manyWithin starts item allowance
      return a :: as
    else return []

/-- A rule as long as the next token allows it. Each round takes at least one lexeme, so there are
no more rounds than lexemes. -/
def many (starts : Option Token → Bool) (item : Grammar α) : Grammar (List α) := do
  manyWithin starts item (← get)

/-- A rule as often as it fits before a closing punctuator, which is dropped. -/
def manyBefore (close : Punctuator) (item : Grammar α) : Grammar (List α) := do
  let as ← many (· != some (.punctuator close)) item
  expectPunctuator close
  return as

/-- A rule once or more before a closing punctuator, which is dropped. -/
def someBefore (close : Punctuator) (item : Grammar α) : Grammar (List α) := do
  let a ← item
  let as ← manyBefore close item
  return a :: as

/-- A rule once or more, with a punctuator between the rounds and perhaps one in front. -/
def separatedBy (p : Punctuator) (item : Grammar α) : Grammar (List α) := do
  let _ ← skip? (.punctuator p)
  let a ← item
  let as ← many (· == some (.punctuator p)) do
    advance
    item
  return a :: as

/-- The failure of what was just read. It is reported when the next lexeme may follow what was
read; a lexeme that may not is the error that counts. -/
def failBefore (mayFollow : Option Token → Bool) (e : SyntaxError) : Grammar α := do
  if mayFollow (← next?) then throw e else refuse

/-- Whether a token may follow a value or a description, in one place or another. -/
def mayFollowValue : Option Token → Bool
  | some (.name _) | some (.integer _) | some (.float _) | some (.string _)
  | some (.block _) => true
  | some (.punctuator p) =>
    [.openBracket, .openBrace, .dollar, .closeBracket, .closeBrace, .closeParen, .atSign].contains p
  | some (.fault _) | none => false

/-- The string that a string token denotes. -/
def decodeString (raw : List Char) : Grammar String :=
  match Text.Quoted.decode raw with
  | .ok cs => pure (String.ofList cs)
  | .error escape => failBefore mayFollowValue (.malformedString (String.ofList escape))

/-- A string or a block string, if there is one. -/
def string? : Grammar (Option String) := do
  match ← next? with
  | some (.string raw) =>
    advance
    return some (← decodeString raw)
  | some (.block raw) =>
    advance
    return some (String.ofList (Text.Block.decode raw))
  | _ => return none

/-- A constant value, no deeper than an allowance of lexemes is long. A variable is none, and is
refused by the message for an unknown location. -/
def valueWithin : List Lexeme → Grammar Value
  | [] => refuse
  | _ :: allowance => do
    match ← next? with
    | some (.integer text) =>
      advance
      return .int (Decimal.intValue text)
    | some (.float text) =>
      advance
      return .float (Binary64.ofText text)
    | some (.string raw) =>
      advance
      return .string (← decodeString raw)
    | some (.block raw) =>
      advance
      return .string (String.ofList (Text.Block.decode raw))
    | some (.name text) =>
      advance
      if text = "null" then return .null
      else if text = "true" then return .boolean true
      else if text = "false" then return .boolean false
      else return .enum text
    | some (.punctuator .openBracket) =>
      advance
      return .list (← manyBefore .closeBracket (valueWithin allowance))
    | some (.punctuator .openBrace) =>
      advance
      return .object (← manyBefore .closeBrace do
        let field ← name
        expectPunctuator .colon
        return (field, ← valueWithin allowance))
    | some (.punctuator .dollar) =>
      advance
      let variableName ← name
      failBefore mayFollowValue (.unknownLocation variableName)
    | _ => refuse

/-- A constant value. Each level of depth takes a lexeme. -/
def value : Grammar Value := do
  valueWithin (← get)

/-- A type reference with one more closing bracket or exclamation mark. A second exclamation mark
adds nothing. -/
def wrap (type : TypeRef) (p : Punctuator) : TypeRef :=
  match p, type with
  | .exclamation, .nonNull nullable => .nonNull nullable
  | .exclamation, type => .nonNull type
  | _, type => .list type

/-- The punctuator that makes a type out of another after its name. -/
def wrapper : Grammar Punctuator := do
  match ← next? with
  | some (.punctuator p) =>
    advance
    return p
  | _ => refuse

/-- A type reference. What follows the name makes lists and excludes null; opening brackets add
nothing, and need no partners. -/
def typeRef : Grammar TypeRef := do
  let _ ← many (· == some (.punctuator .openBracket)) advance
  let innermost ← name
  let wrappers ← many
    (fun t => t == some (.punctuator .exclamation) || t == some (.punctuator .closeBracket)) wrapper
  return wrappers.foldl wrap (.named innermost)

/-- An argument of an application. -/
def argument : Grammar Argument := do
  let argumentName ← name
  expectPunctuator .colon
  return ⟨argumentName, ← value⟩

/-- The application of a directive. Its list of arguments may be empty. -/
def directive : Grammar Directive := do
  expectPunctuator .atSign
  let directiveName ← name
  let hasArguments ← skip? (.punctuator .openParen)
  return ⟨directiveName, ← if hasArguments then manyBefore .closeParen argument else pure []⟩

/-- Applications of directives, perhaps none. -/
def directives : Grammar (List Directive) :=
  many (· == some (.punctuator .atSign)) directive

/-- A rule on all lexemes of a text. What the rule leaves is not looked at. -/
def run (rule : Grammar α) (cs : List Char) : Except SyntaxError α :=
  (StateT.run rule (Lexeme.ofText cs)).map (·.1)

end Grammar

end Federation
