import Federation.FieldSet.Basic
import Federation.FieldSet.Selection
import Federation.Text.Escaped
/-!
# Field sets — reading

A field set is read by putting braces around its text and reading the
whole as an executable document. It has to be one operation and nothing
else, and its selections have to be bare fields: no alias, no
arguments, no directives and no fragments.
-/

namespace Federation

/-- Why a text is no field set. -/
inductive FieldSetError
  | unreadable (text : String) (cause : SyntaxError)
  | notSingle (text : String)
  | aliased (field : String)
  | withArguments (field : String)
  | withDirectives (field : String)
  | inlineFragment
  | fragmentSpread
  deriving DecidableEq, Inhabited, Repr

namespace FieldSetError

/-- The wording of an error. -/
def message : FieldSetError → String
  | unreadable text cause =>
    s!"could not parse {Text.escaped text} as a selection set: {cause.message}"
  | notSingle text => s!"{Text.escaped text} is not a single selection set"
  | aliased field => s!"aliases are not allowed (on `{field}`)"
  | withArguments field => s!"arguments are not allowed (on `{field}`)"
  | withDirectives field => s!"directives are not allowed (on `{field}`)"
  | inlineFragment => "inline fragments are not allowed"
  | fragmentSpread => "fragment spreads are not allowed"

end FieldSetError

namespace FieldSelection

mutual

/-- The bare field that a selection is. -/
def ofSelection : Selection → Except FieldSetError FieldSelection
  | .field responseKey name hasArguments hasDirectives selections =>
    if responseKey.isSome then .error (.aliased name)
    else if hasArguments then .error (.withArguments name)
    else if hasDirectives then .error (.withDirectives name)
    else (ofSelections selections).map (select name)
  | .inlineFragment => .error .inlineFragment
  | .fragmentSpread => .error .fragmentSpread

/-- The bare fields that selections are. The first that is none decides the error. -/
def ofSelections : List Selection → Except FieldSetError (List FieldSelection)
  | [] => .ok []
  | s :: ss =>
    match ofSelection s with
    | .error e => .error e
    | .ok field => (ofSelections ss).map (field :: ·)

end

end FieldSelection

namespace FieldSet

/-- The field set that executable definitions are: a single operation over bare fields. -/
def ofDefinitions (text : String) :
    List ExecutableDefinition → Except FieldSetError FieldSet
  | [.operation selections] => (FieldSelection.ofSelections selections).map FieldSet.mk
  | _ => .error (.notSingle text)

/-- The field set that a text holds. -/
def parse (text : String) : Except FieldSetError FieldSet :=
  match Grammar.executableDocument.run ('\x7b' :: ' ' :: text.toList ++ [' ', '\x7d']) with
  | .error e => .error (.unreadable text e)
  | .ok definitions => ofDefinitions text definitions

end FieldSet

end Federation
