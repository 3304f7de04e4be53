import Federation.Diagnostic
import Federation.Document.Printer
import Federation.Document.Structure
import Mathlib.Data.List.Basic
/-!
# Document — locations

`relocate` moves every node of a document to the location that a
function says, and leaves the nodes as they are otherwise. The written
form of a document does not show locations (`text_relocate`). Two
documents that differ in locations only are those that are equal once
every node is nowhere (`Document.unlocated`).
-/

namespace Federation

/-! ## Nodes -/

namespace InputValue

/-- The argument or input field at another location. -/
def relocate (τ : Location → Location) (v : InputValue) : InputValue :=
  { v with location := τ v.location }

end InputValue

namespace Field

/-- The field and its arguments at other locations. -/
def relocate (τ : Location → Location) (f : Field) : Field :=
  { f with arguments := f.arguments.map (InputValue.relocate τ), location := τ f.location }

end Field

namespace EnumValue

/-- The value at another location. -/
def relocate (τ : Location → Location) (v : EnumValue) : EnumValue :=
  { v with location := τ v.location }

end EnumValue

namespace TypeBody

/-- The members at other locations. -/
def relocate (τ : Location → Location) : TypeBody → TypeBody
  | scalar => scalar
  | object b => object { b with fields := b.fields.map (Field.relocate τ) }
  | interface b => interface { b with fields := b.fields.map (Field.relocate τ) }
  | union members => union members
  | enum values => enum (values.map (EnumValue.relocate τ))
  | inputObject fields => inputObject (fields.map (InputValue.relocate τ))

end TypeBody

namespace TypeDefinition

/-- The type and its members at other locations. -/
def relocate (τ : Location → Location) (d : TypeDefinition) : TypeDefinition :=
  { d with body := d.body.relocate τ, location := τ d.location }

end TypeDefinition

namespace SchemaDefinition

/-- The schema definition at another location. -/
def relocate (τ : Location → Location) (d : SchemaDefinition) : SchemaDefinition :=
  { d with location := τ d.location }

end SchemaDefinition

namespace DirectiveDefinition

/-- The directive definition and its arguments at other locations. -/
def relocate (τ : Location → Location) (d : DirectiveDefinition) : DirectiveDefinition :=
  { d with arguments := d.arguments.map (InputValue.relocate τ), location := τ d.location }

end DirectiveDefinition

namespace Definition

/-- The definition and what is below it at other locations. -/
def relocate (τ : Location → Location) : Definition → Definition
  | schema d => schema (d.relocate τ)
  | type d => type (d.relocate τ)
  | directive d => directive (d.relocate τ)

end Definition

namespace Document

/-- The document with every node at another location. -/
def relocate (τ : Location → Location) (d : Document) : Document :=
  ⟨d.definitions.map (Definition.relocate τ)⟩

/-- The document with every node nowhere. -/
def unlocated (d : Document) : Document :=
  d.relocate fun _ => Location.none

end Document

namespace Diagnostic

/-- The diagnostic at another location, if it has one. -/
def relocate (τ : Location → Location) (d : Diagnostic) : Diagnostic :=
  { d with location := d.location.map τ }

/-- The diagnostic with its location, if it has one, nowhere. -/
def unlocated (d : Diagnostic) : Diagnostic :=
  d.relocate fun _ => Location.none

end Diagnostic

/-! Nodes that stay where they are. -/

@[simp] theorem InputValue.relocate_id : relocate id = id := rfl

@[simp] theorem EnumValue.relocate_id : relocate id = id := rfl

@[simp] theorem Field.relocate_id : relocate id = id := by
  funext f
  simp [relocate]

@[simp] theorem TypeBody.relocate_id : relocate id = id := by
  funext b
  cases b <;> simp [relocate]

@[simp] theorem TypeDefinition.relocate_id : relocate id = id := by
  funext d
  simp [relocate]

@[simp] theorem DirectiveDefinition.relocate_id : relocate id = id := by
  funext d
  simp [relocate]

@[simp] theorem Definition.relocate_id : relocate id = id := by
  funext x
  cases x <;> simp [relocate, SchemaDefinition.relocate]

@[simp] theorem Document.relocate_id : relocate id = id := by
  funext d
  simp [relocate]

@[simp] theorem Diagnostic.relocate_id : relocate id = id := by
  funext d
  simp [relocate]

/-- Nodes that are moved twice. -/
theorem TypeBody.relocate_relocate (τ τ' : Location → Location) (b : TypeBody) :
    (b.relocate τ).relocate τ' = b.relocate (τ' ∘ τ) := by
  cases b <;> simp [relocate, Field.relocate, InputValue.relocate, EnumValue.relocate]

/-! ## What is left as it is -/

section

variable (τ : Location → Location)

namespace TypeBody

variable (b : TypeBody)

@[simp] theorem kind_relocate : (b.relocate τ).kind = b.kind := by
  cases b <;> rfl

@[simp] theorem implements_relocate : (b.relocate τ).implements = b.implements := by
  cases b <;> rfl

@[simp] theorem members_relocate : (b.relocate τ).members = b.members := by
  cases b <;> rfl

@[simp] theorem fields_relocate : (b.relocate τ).fields = b.fields.map (Field.relocate τ) := by
  cases b <;> rfl

@[simp] theorem enumValues_relocate :
    (b.relocate τ).enumValues = b.enumValues.map (EnumValue.relocate τ) := by
  cases b <;> rfl

@[simp] theorem inputFields_relocate :
    (b.relocate τ).inputFields = b.inputFields.map (InputValue.relocate τ) := by
  cases b <;> rfl

end TypeBody

namespace TypeDefinition

variable (d : TypeDefinition)

@[simp] theorem kind_relocate : (d.relocate τ).kind = d.kind :=
  d.body.kind_relocate τ

@[simp] theorem implements_relocate : (d.relocate τ).implements = d.implements :=
  d.body.implements_relocate τ

@[simp] theorem fields_relocate : (d.relocate τ).fields = d.fields.map (Field.relocate τ) :=
  d.body.fields_relocate τ

end TypeDefinition

theorem Field.argument?_relocate (f : Field) (name : String) :
    (f.relocate τ).argument? name = (f.argument? name).map (InputValue.relocate τ) :=
  List.find?_map ..

namespace Document

variable (d : Document)

theorem typeDefinitions_relocate :
    (d.relocate τ).typeDefinitions = d.typeDefinitions.map (TypeDefinition.relocate τ) := by
  rw [typeDefinitions, relocate, List.filterMap_map, typeDefinitions, List.map_filterMap]
  refine List.filterMap_congr fun x _ => ?_
  cases x <;> rfl

theorem directiveDefinitions_relocate :
    (d.relocate τ).directiveDefinitions =
      d.directiveDefinitions.map (DirectiveDefinition.relocate τ) := by
  rw [directiveDefinitions, relocate, List.filterMap_map, directiveDefinitions, List.map_filterMap]
  refine List.filterMap_congr fun x _ => ?_
  cases x <;> rfl

theorem schemaDefinitions_relocate :
    (d.relocate τ).schemaDefinitions = d.schemaDefinitions.map (SchemaDefinition.relocate τ) := by
  rw [schemaDefinitions, relocate, List.filterMap_map, schemaDefinitions, List.map_filterMap]
  refine List.filterMap_congr fun x _ => ?_
  cases x <;> rfl

end Document

/-! ## The written form -/

theorem InputValue.listPieces_relocate (vs : List InputValue) :
    listPieces (vs.map (relocate τ)) = listPieces vs := by
  rw [listPieces, listPieces, List.map_map]
  cases vs <;> rfl

theorem Field.pieces_relocate (f : Field) : (f.relocate τ).pieces = f.pieces := by
  rw [pieces, pieces]
  simp only [relocate, InputValue.listPieces_relocate]

theorem TypeBody.pieces_relocate (b : TypeBody) : (b.relocate τ).pieces = b.pieces := by
  have hfields : ∀ fs : List Field,
      (fs.map (Field.relocate τ)).map (fun f => (f.description, f.pieces)) =
        fs.map fun f => (f.description, f.pieces) := by
    intro fs
    rw [List.map_map]
    refine List.map_congr_left fun f _ => ?_
    simp only [Function.comp, Field.pieces_relocate]
    rfl
  cases b with
  | scalar => rfl
  | object b => simp only [relocate, pieces, hfields]
  | interface b => simp only [relocate, pieces, hfields]
  | union members => rfl
  | enum values =>
    rw [relocate, pieces, List.map_map]
    rfl
  | inputObject fields =>
    rw [relocate, pieces, List.map_map]
    rfl

theorem Definition.pieces_relocate (x : Definition) : (x.relocate τ).pieces = x.pieces := by
  cases x with
  | schema d => rfl
  | type d =>
    have hbody := d.body.pieces_relocate τ
    simp only [relocate, pieces, TypeDefinition.pieces, TypeDefinition.kind_relocate,
      TypeDefinition.implements_relocate]
    simp only [TypeDefinition.relocate, hbody]
  | directive d =>
    simp only [relocate, pieces, DirectiveDefinition.pieces, DirectiveDefinition.relocate,
      InputValue.listPieces_relocate]

/-- **Locations are not written.** -/
theorem Document.text_relocate (d : Document) : (d.relocate τ).text = d.text := by
  rw [text, text, pieces, pieces, relocate, List.map_map]
  simp only [Function.comp_def, Definition.pieces_relocate]

end

end Federation
