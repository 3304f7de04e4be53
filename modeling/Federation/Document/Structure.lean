import Federation.Document.Basic
/-!
# Document — structural equality

The structure of a node is what stays when locations are forgotten and
the two zeros are taken for one. Structural equality (`same`) compares
structures, so it is an equivalence relation by construction.
-/

namespace Federation

namespace Argument

/-- The structure of an argument. -/
def canonical (a : Argument) : Argument :=
  { a with value := a.value.canonical }

end Argument

namespace Directive

/-- The structure of an application. -/
def canonical (d : Directive) : Directive :=
  { d with arguments := d.arguments.map Argument.canonical }

/-- Two applications are the same: the same name and the same arguments in the same order. -/
def same (a b : Directive) : Bool :=
  decide (a.canonical = b.canonical)

theorem same_iff {a b : Directive} : a.same b = true ↔ a.canonical = b.canonical :=
  decide_eq_true_iff

end Directive

namespace InputValue

/-- The structure of an argument or input field. -/
def canonical (v : InputValue) : InputValue :=
  { v with
    default := v.default.map Value.canonical
    directives := v.directives.map Directive.canonical
    location := Location.none }

end InputValue

namespace Field

/-- The structure of a field. -/
def canonical (f : Field) : Field :=
  { f with
    arguments := f.arguments.map InputValue.canonical
    directives := f.directives.map Directive.canonical
    location := Location.none }

end Field

namespace EnumValue

/-- The structure of a value of an enumeration. -/
def canonical (v : EnumValue) : EnumValue :=
  { v with directives := v.directives.map Directive.canonical, location := Location.none }

end EnumValue

namespace ObjectBody

/-- The structure of what an object or interface holds. -/
def canonical (b : ObjectBody) : ObjectBody :=
  { b with fields := b.fields.map Field.canonical }

end ObjectBody

namespace TypeBody

/-- The structure of a body. -/
def canonical : TypeBody → TypeBody
  | scalar => scalar
  | object body => object body.canonical
  | interface body => interface body.canonical
  | union members => union members
  | enum values => enum (values.map EnumValue.canonical)
  | inputObject fields => inputObject (fields.map InputValue.canonical)

@[simp] theorem kind_canonical (b : TypeBody) : b.canonical.kind = b.kind := by
  cases b <;> rfl

/-- Two bodies are the same up to locations and the sign of zero. -/
def same (a b : TypeBody) : Bool :=
  decide (a.canonical = b.canonical)

end TypeBody

namespace TypeDefinition

/-- The structure of a type definition. -/
def canonical (d : TypeDefinition) : TypeDefinition :=
  { d with
    directives := d.directives.map Directive.canonical
    body := d.body.canonical
    location := Location.none }

/-- Two type definitions are the same up to locations and the sign of zero. -/
def same (a b : TypeDefinition) : Bool :=
  decide (a.canonical = b.canonical)

end TypeDefinition

namespace SchemaDefinition

/-- The structure of a schema definition. -/
def canonical (d : SchemaDefinition) : SchemaDefinition :=
  { d with directives := d.directives.map Directive.canonical, location := Location.none }

end SchemaDefinition

namespace DirectiveDefinition

/-- The structure of a directive definition. -/
def canonical (d : DirectiveDefinition) : DirectiveDefinition :=
  { d with arguments := d.arguments.map InputValue.canonical, location := Location.none }

/-- Two directive definitions are the same up to locations and the sign of zero. -/
def same (a b : DirectiveDefinition) : Bool :=
  decide (a.canonical = b.canonical)

end DirectiveDefinition

namespace Definition

/-- The structure of a definition. -/
def canonical : Definition → Definition
  | schema d => schema d.canonical
  | type d => type d.canonical
  | directive d => directive d.canonical

end Definition

namespace Document

/-- The structure of a document. -/
def canonical (d : Document) : Document :=
  ⟨d.definitions.map Definition.canonical⟩

/-- Two documents are the same up to locations and the sign of zero. -/
def same (a b : Document) : Bool :=
  decide (a.canonical = b.canonical)

theorem same_iff {a b : Document} : a.same b = true ↔ a.canonical = b.canonical :=
  decide_eq_true_iff

end Document

end Federation
