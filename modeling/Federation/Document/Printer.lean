import Federation.Document.Basic
import Federation.Document.Token
import Federation.Number.Shortest
/-!
# Document — written form

Nodes are written as pieces: tokens, and the gaps between them. The text
of a node is the text of its pieces (`render`), so that what a text
says and how it is laid out stay apart. Definitions stand one blank
line apart; members stand on lines of their own, indented by four
spaces; empty blocks are left out.
-/

namespace Federation

/-- A piece of a written text: a token, or the gap between two tokens. -/
inductive Piece
  | token (t : Token)
  | gap (cs : List Char)
  deriving DecidableEq, Inhabited, Repr

namespace Piece

/-- The text of a piece. -/
def chars : Piece → List Char
  | token t => t.chars
  | gap cs => cs

/-- The piece of a name. -/
def name (text : String) : Piece :=
  token (.name text)

/-- The piece of a punctuator. -/
def punctuator (p : Punctuator) : Piece :=
  token (.punctuator p)

/-- A single space. -/
def space : Piece :=
  gap [' ']

/-- The end of a line. -/
def newline : Piece :=
  gap ['\n']

/-- The indent of members. -/
def indent : Piece :=
  gap [' ', ' ', ' ', ' ']

/-- A comma and a space. -/
def comma : Piece :=
  gap [',', ' ']

/-- The text of a row of pieces. -/
def render (ps : List Piece) : String :=
  String.ofList (ps.flatMap chars)

end Piece

/-- Rows of pieces with a separator between them. -/
def separated (separator : List Piece) : List (List Piece) → List Piece
  | [] => []
  | [row] => row
  | row :: rows => row ++ separator ++ separated separator rows

namespace TypeRef

/-- The pieces of a type reference. -/
def pieces : TypeRef → List Piece
  | named name => [.name name]
  | list item => .punctuator .openBracket :: item.pieces ++ [.punctuator .closeBracket]
  | nonNull nullable => nullable.pieces ++ [.punctuator .exclamation]

/-- The written form of a type reference. -/
def text (t : TypeRef) : String :=
  Piece.render t.pieces

end TypeRef

/-- The piece of a quoted string. -/
def quotedPiece (s : String) : Piece :=
  .token (.string (Text.Quoted.encode s.toList))

namespace Value

mutual

/-- The pieces of a value. -/
def pieces : Value → List Piece
  | null => [.name "null"]
  | int n => [.token (.integer (Decimal.ofInt n))]
  | float x => [.token (.float x.text)]
  | string s => [quotedPiece s]
  | boolean b => [.name (if b then "true" else "false")]
  | enum name => [.name name]
  | list items =>
    .punctuator .openBracket :: itemPieces items ++ [.punctuator .closeBracket]
  | object fields =>
    .punctuator .openBrace :: fieldPieces fields ++ [.punctuator .closeBrace]

/-- The pieces of the items of a list. -/
def itemPieces : List Value → List Piece
  | [] => []
  | [v] => v.pieces
  | v :: vs => v.pieces ++ .comma :: itemPieces vs

/-- The pieces of the fields of an object. -/
def fieldPieces : List (String × Value) → List Piece
  | [] => []
  | [(name, v)] => .name name :: .punctuator .colon :: .space :: v.pieces
  | (name, v) :: fs =>
    .name name :: .punctuator .colon :: .space :: v.pieces ++ .comma :: fieldPieces fs

end

/-- The written form of a value. -/
def text (v : Value) : String :=
  Piece.render v.pieces

end Value

namespace Argument

/-- The pieces of an argument. -/
def pieces (a : Argument) : List Piece :=
  .name a.name :: .punctuator .colon :: .space :: a.value.pieces

end Argument

namespace Directive

/-- The pieces of an application. -/
def pieces (d : Directive) : List Piece :=
  .punctuator .atSign :: .name d.name ::
    if d.arguments = [] then []
    else .punctuator .openParen :: separated [.comma] (d.arguments.map Argument.pieces) ++
      [.punctuator .closeParen]

/-- The written form of an application. -/
def text (d : Directive) : String :=
  Piece.render d.pieces

/-- The pieces of applications that follow something. -/
def trailing (ds : List Directive) : List Piece :=
  ds.flatMap fun d => .space :: d.pieces

end Directive

/-- The piece of a description that stands on lines of its own: a block string where that reads
back as the same string, and a quoted string otherwise. -/
def descriptionPiece (indent : List Char) (s : String) : Piece :=
  if Text.Block.isWritable s.toList then
    .token (.block (Text.Block.encode indent s.toList))
  else quotedPiece s

/-- The pieces of the description of a definition. -/
def definitionDescription : Option String → List Piece
  | none => []
  | some s => [descriptionPiece [] s, .newline]

/-- The pieces of the description of a member. -/
def memberDescription : Option String → List Piece
  | none => []
  | some s => [.indent, descriptionPiece [' ', ' ', ' ', ' '] s, .newline]

/-- The pieces of a block of members, which is left out when it is empty. Each member has its
description and its own pieces. -/
def blockPieces (members : List (Option String × List Piece)) : List Piece :=
  if members = [] then []
  else .space :: .punctuator .openBrace :: .newline ::
    (members.flatMap fun m => memberDescription m.1 ++ .indent :: m.2 ++ [.newline]) ++
    [.punctuator .closeBrace]

namespace InputValue

/-- The pieces of an input value without its description. -/
def pieces (v : InputValue) : List Piece :=
  .name v.name :: .punctuator .colon :: .space :: v.type.pieces ++
    (match v.default with
      | none => []
      | some value => .space :: .punctuator .equals :: .space :: value.pieces) ++
    Directive.trailing v.directives

/-- The pieces of an argument, after its description as a quoted string. -/
def argumentPieces (v : InputValue) : List Piece :=
  match v.description with
  | none => v.pieces
  | some s => quotedPiece s :: .space :: v.pieces

/-- The pieces of a list of arguments, which is left out when it is empty. -/
def listPieces (vs : List InputValue) : List Piece :=
  if vs = [] then []
  else .punctuator .openParen :: separated [.comma] (vs.map argumentPieces) ++
    [.punctuator .closeParen]

end InputValue

namespace Field

/-- The pieces of a field without its description. -/
def pieces (f : Field) : List Piece :=
  .name f.name :: InputValue.listPieces f.arguments ++
    .punctuator .colon :: .space :: f.type.pieces ++ Directive.trailing f.directives

end Field

namespace EnumValue

/-- The pieces of a value of an enumeration without its description. -/
def pieces (v : EnumValue) : List Piece :=
  .name v.name :: Directive.trailing v.directives

end EnumValue

/-- The pieces of names with a punctuator between them. -/
def namePieces (p : Punctuator) (names : List String) : List Piece :=
  separated [.space, .punctuator p, .space] (names.map fun name => [.name name])

/-- The word `extend` in front of extensions. -/
def extensionPieces (isExtension : Bool) : List Piece :=
  if isExtension then [.name "extend", .space] else []

namespace TypeKind

/-- The word that a definition of a kind starts with. -/
def keyword : TypeKind → String
  | scalar => "scalar"
  | object => "type"
  | interface => "interface"
  | union => "union"
  | enum => "enum"
  | inputObject => "input"

end TypeKind

namespace TypeBody

/-- The pieces of what a definition holds. -/
def pieces : TypeBody → List Piece
  | scalar => []
  | object body | interface body => blockPieces (body.fields.map fun f => (f.description, f.pieces))
  | union members =>
    if members = [] then []
    else .space :: .punctuator .equals :: .space :: namePieces .pipe members
  | enum values => blockPieces (values.map fun v => (v.description, v.pieces))
  | inputObject fields => blockPieces (fields.map fun f => (f.description, f.pieces))

end TypeBody

namespace TypeDefinition

/-- The pieces of a type definition. -/
def pieces (d : TypeDefinition) : List Piece :=
  definitionDescription d.description ++ extensionPieces d.isExtension ++
    .name d.kind.keyword :: .space :: .name d.name ::
    (if d.implements = [] then []
      else .space :: .name "implements" :: .space :: namePieces .ampersand d.implements) ++
    Directive.trailing d.directives ++ d.body.pieces ++ [.newline]

end TypeDefinition

namespace SchemaDefinition

/-- The pieces of a schema definition. -/
def pieces (d : SchemaDefinition) : List Piece :=
  definitionDescription d.description ++ extensionPieces d.isExtension ++
    .name "schema" :: Directive.trailing d.directives ++
    blockPieces (d.rootOperations.map fun r =>
      (none, [.name r.operation.keyword, .punctuator .colon, .space, .name r.typeName])) ++
    [.newline]

end SchemaDefinition

namespace DirectiveDefinition

/-- The pieces of a directive definition. -/
def pieces (d : DirectiveDefinition) : List Piece :=
  definitionDescription d.description ++
    .name "directive" :: .space :: .punctuator .atSign :: .name d.name ::
    InputValue.listPieces d.arguments ++
    (if d.isRepeatable then [.space, .name "repeatable"] else []) ++
    .space :: .name "on" :: .space :: namePieces .pipe (d.locations.map DirectiveLocation.text) ++
    [.newline]

end DirectiveDefinition

namespace Definition

/-- The pieces of a definition. -/
def pieces : Definition → List Piece
  | schema d => d.pieces
  | type d => d.pieces
  | directive d => d.pieces

end Definition

namespace Document

/-- The pieces of a document. -/
def pieces (d : Document) : List Piece :=
  separated [.newline] (d.definitions.map Definition.pieces)

/-- The written form of a document. -/
def text (d : Document) : String :=
  Piece.render d.pieces

end Document

end Federation
