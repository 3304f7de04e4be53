import Federation.Document.Visit
/-!
# Document — editing by rules

A rule names a kind of node, perhaps a name, and what happens to the
nodes it is about. The first rule about a node decides. `editing` is
the transform of a list of rules; it keeps a trace of the nodes that it
was asked about.
-/

namespace Federation

/-- The kinds of nodes that a visit asks about. -/
inductive NodeKind
  | schema
  | type
  | directiveDefinition
  | field
  | inputValue
  | enumValue
  | directive
  deriving DecidableEq, Inhabited, Repr

namespace NodeKind

/-- All kinds of nodes. -/
def all : List NodeKind :=
  [schema, type, directiveDefinition, field, inputValue, enumValue, directive]

/-- The word for a kind of node. -/
def text : NodeKind → String
  | schema => "schema"
  | type => "type"
  | directiveDefinition => "directive_definition"
  | field => "field"
  | inputValue => "input_value"
  | enumValue => "enum_value"
  | directive => "directive"

end NodeKind

/-- The changes that make a replacement out of a node. A change that a kind of node has no room for
does nothing. -/
structure Edits where
  /-- The new name. -/
  name : Option String := none
  /-- The new description, or the wish for none. -/
  description : Option (Option String) := none
  /-- The name of an application to add. -/
  application : Option String := none
  /-- Whether a type becomes a scalar. -/
  toScalar : Bool := false
  deriving DecidableEq, Inhabited, Repr

/-- A rule: what happens to the nodes of a kind, or to those of them with a name. -/
structure Rule where
  node : NodeKind
  name : Option String := none
  action : Action Edits
  deriving Inhabited, Repr

namespace Edits

/-- The applications with the one to add. -/
def directives (e : Edits) (ds : List Directive) : List Directive :=
  ds ++ (e.application.map fun name => { name : Directive }).toList

/-- The edited schema definition. -/
def schemaDefinition (e : Edits) (d : SchemaDefinition) : SchemaDefinition :=
  { d with
    description := e.description.getD d.description
    directives := e.directives d.directives }

/-- The edited type definition. -/
def typeDefinition (e : Edits) (d : TypeDefinition) : TypeDefinition :=
  { d with
    name := e.name.getD d.name
    description := e.description.getD d.description
    directives := e.directives d.directives
    body := if e.toScalar then .scalar else d.body }

/-- The edited directive definition. -/
def directiveDefinition (e : Edits) (d : DirectiveDefinition) : DirectiveDefinition :=
  { d with name := e.name.getD d.name, description := e.description.getD d.description }

/-- The edited field. -/
def field (e : Edits) (f : Field) : Field :=
  { f with
    name := e.name.getD f.name
    description := e.description.getD f.description
    directives := e.directives f.directives }

/-- The edited argument or input field. -/
def inputValue (e : Edits) (v : InputValue) : InputValue :=
  { v with
    name := e.name.getD v.name
    description := e.description.getD v.description
    directives := e.directives v.directives }

/-- The edited value of an enumeration. -/
def enumValue (e : Edits) (v : EnumValue) : EnumValue :=
  { v with
    name := e.name.getD v.name
    description := e.description.getD v.description
    directives := e.directives v.directives }

/-- The edited application. -/
def directive (e : Edits) (d : Directive) : Directive :=
  { d with name := e.name.getD d.name }

end Edits

namespace Rule

/-- Whether a rule is about a node. -/
def isAbout (r : Rule) (node : NodeKind) (name : String) : Bool :=
  r.node == node && (r.name.all (· == name))

/-- What the rules decide about a node. -/
def decide (rules : List Rule) (node : NodeKind) (name : String) : Action Edits :=
  ((rules.find? (·.isAbout node name)).map (·.action)).getD .keep

/-- The nodes that a visit asked about, each by its kind and its name. -/
abbrev Trace := List (NodeKind × String)

/-- The decision about a node, with the node itself edited and the trace one node longer. -/
def hook {α : Type} (rules : List Rule) (node : NodeKind) (name : α → String)
    (edit : Edits → α → α) (a : α) : StateM Trace (Action α) := do
  modify (· ++ [(node, name a)])
  match decide rules node (name a) with
  | .keep => return .keep
  | .replace edits => return .replace (edit edits a)
  | .delete => return .delete

/-- The transform of a list of rules. The node of a schema definition goes by the name `schema`. -/
def editing (rules : List Rule) : Transform (StateM Trace) where
  schemaDefinition := hook rules .schema (fun _ => "schema") Edits.schemaDefinition
  typeDefinition := hook rules .type (·.name) Edits.typeDefinition
  directiveDefinition := hook rules .directiveDefinition (·.name) Edits.directiveDefinition
  field := hook rules .field (·.name) Edits.field
  inputValue := hook rules .inputValue (·.name) Edits.inputValue
  enumValue := hook rules .enumValue (·.name) Edits.enumValue
  directive := hook rules .directive (·.name) Edits.directive

end Rule

namespace Document

/-- The document edited by rules, and the trace of the visit. -/
def edit (d : Document) (rules : List Rule) : Document × Rule.Trace :=
  (d.visit (Rule.editing rules)).run []

end Document

end Federation
