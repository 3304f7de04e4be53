import Federation.Document.Basic
/-!
# Document — visits

A visit walks a document and asks a hook for each node whether to keep
it, to put another node in its place or to delete it. The hook runs
before the children are visited, and the children of a replacement are
visited. Hooks may have effects, which happen in the order of the walk:
arguments before the applications on a field, members before the
applications on a type.

`stripDirectives` is the visit that deletes applications of directives.
-/

namespace Federation

/-- What a hook decides about a node. -/
inductive Action (α : Type)
  | keep
  | replace (node : α)
  | delete
  deriving DecidableEq, Inhabited, Repr

namespace Action

/-- The node that stands after a decision, if one does. -/
def resolve {α : Type} (node : α) : Action α → Option α
  | keep => some node
  | replace other => some other
  | delete => none

end Action

/-- A hook for each kind of node. Hooks keep their nodes unless told otherwise. -/
structure Transform (m : Type → Type) [Pure m] where
  schemaDefinition : SchemaDefinition → m (Action SchemaDefinition) := fun _ => pure .keep
  typeDefinition : TypeDefinition → m (Action TypeDefinition) := fun _ => pure .keep
  directiveDefinition : DirectiveDefinition → m (Action DirectiveDefinition) := fun _ => pure .keep
  field : Field → m (Action Field) := fun _ => pure .keep
  inputValue : InputValue → m (Action InputValue) := fun _ => pure .keep
  enumValue : EnumValue → m (Action EnumValue) := fun _ => pure .keep
  directive : Directive → m (Action Directive) := fun _ => pure .keep

namespace Transform

variable {m : Type → Type} [Monad m]

/-- Visits the nodes of a list: the hook decides about each, and `children` visits what is below
the node that stays. -/
def visitList {α : Type} (hook : α → m (Action α)) (children : α → m α) : List α → m (List α)
  | [] => pure []
  | node :: nodes => do
    match (← hook node).resolve node with
    | none => visitList hook children nodes
    | some node =>
      let node ← children node
      let nodes ← visitList hook children nodes
      return node :: nodes

/-- Visits applications of directives. -/
def visitDirectives (t : Transform m) (ds : List Directive) : m (List Directive) :=
  visitList t.directive pure ds

/-- Visits arguments or input fields. -/
def visitInputValues (t : Transform m) (vs : List InputValue) : m (List InputValue) :=
  visitList t.inputValue
    (fun v => do return { v with directives := ← t.visitDirectives v.directives })
    vs

/-- Visits the values of an enumeration. -/
def visitEnumValues (t : Transform m) (vs : List EnumValue) : m (List EnumValue) :=
  visitList t.enumValue
    (fun v => do return { v with directives := ← t.visitDirectives v.directives })
    vs

/-- Visits fields. -/
def visitFields (t : Transform m) (fs : List Field) : m (List Field) :=
  visitList t.field
    (fun f => do
      let arguments ← t.visitInputValues f.arguments
      let directives ← t.visitDirectives f.directives
      return { f with arguments, directives })
    fs

/-- Visits what a type definition holds. -/
def visitBody (t : Transform m) : TypeBody → m TypeBody
  | .scalar => pure .scalar
  | .object body => do return .object { body with fields := ← t.visitFields body.fields }
  | .interface body => do return .interface { body with fields := ← t.visitFields body.fields }
  | .union members => pure (.union members)
  | .enum values => do return .enum (← t.visitEnumValues values)
  | .inputObject fields => do return .inputObject (← t.visitInputValues fields)

/-- Visits what is below a type definition. -/
def visitType (t : Transform m) (d : TypeDefinition) : m TypeDefinition := do
  let body ← t.visitBody d.body
  let directives ← t.visitDirectives d.directives
  return { d with body, directives }

/-- Visits a definition, if the hook lets it stay. -/
def visitDefinition (t : Transform m) : Definition → m (Option Definition)
  | .schema d => do
    match (← t.schemaDefinition d).resolve d with
    | none => return none
    | some d => return some (.schema { d with directives := ← t.visitDirectives d.directives })
  | .type d => do
    match (← t.typeDefinition d).resolve d with
    | none => return none
    | some d => return some (.type (← t.visitType d))
  | .directive d => do
    match (← t.directiveDefinition d).resolve d with
    | none => return none
    | some d => return some (.directive { d with arguments := ← t.visitInputValues d.arguments })

/-- Visits definitions in order. -/
def visitDefinitions (t : Transform m) : List Definition → m (List Definition)
  | [] => pure []
  | d :: ds => do
    match ← t.visitDefinition d with
    | none => t.visitDefinitions ds
    | some d =>
      let ds ← t.visitDefinitions ds
      return d :: ds

end Transform

namespace Document

/-- The document that a visit makes out of a document. -/
def visit {m : Type → Type} [Monad m] (d : Document) (t : Transform m) : m Document := do
  return ⟨← t.visitDefinitions d.definitions⟩

end Document

/-- The transform that deletes the applications of directives with a property. -/
def Transform.strip (p : Directive → Bool) : Transform Id :=
  { directive := fun d => if p d then .delete else .keep }

namespace Document

/-- The document without the applications of directives that have a property. -/
def stripDirectives (d : Document) (p : Directive → Bool) : Document :=
  (d.visit (Transform.strip p)).run

end Document

end Federation
