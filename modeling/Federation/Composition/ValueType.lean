import Federation.Document.Structure
import Federation.Document.Visit
import Federation.Text.Listing
/-!
# Composition — value types

Services may define a type identically; then it is a value type. The
outline of a definition is its body once descriptions and directives are
erased and members are put in the order of their names. Two definitions
have the same structure when their outlines are the same.
-/

namespace Federation

/-- The transform that erases descriptions and directives. -/
def Transform.eraseTexts : Transform Id where
  field f := .replace { f with description := none }
  inputValue v := .replace { v with description := none }
  enumValue v := .replace { v with description := none }
  directive _ := .delete

/-- A list in the order of names. -/
def sortByName {α : Type} (name : α → String) (as : List α) : List α :=
  as.mergeSort fun a b => Text.stringLe (name a) (name b)

namespace TypeBody

/-- The body with its members, and the arguments of its fields, in the order of their names. -/
def inOrder : TypeBody → TypeBody
  | scalar => scalar
  | object b => object (objectInOrder b)
  | interface b => interface (objectInOrder b)
  | union members => union (sortByName id members)
  | enum values => enum (sortByName EnumValue.name values)
  | inputObject fields => inputObject (sortByName InputValue.name fields)
where
  objectInOrder (b : ObjectBody) : ObjectBody :=
    { implements := sortByName id b.implements
      fields := (sortByName Field.name b.fields).map fun f =>
        { f with arguments := sortByName InputValue.name f.arguments } }

end TypeBody

namespace TypeDefinition

/-- What services have to agree about to share a type. -/
def outline (d : TypeDefinition) : TypeBody :=
  (Transform.eraseTexts.visitBody d.body).run.inOrder

/-- Whether two definitions have the same structure. -/
def sameStructure (a b : TypeDefinition) : Bool :=
  a.outline.same b.outline

end TypeDefinition

end Federation
