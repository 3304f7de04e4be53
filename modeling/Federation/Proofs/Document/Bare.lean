import Federation.Proofs.Document.Locations
/-!
# Document — bare members

A bare member has no description and no directives: only its name, its
type, its arguments and their defaults are left of it. Bare members
stand where the members stood (`TypeBody.bare_relocate`).
-/

namespace Federation

namespace InputValue

/-- The argument or input field without description and directives. -/
def bare (v : InputValue) : InputValue :=
  { v with description := none, directives := [] }

end InputValue

namespace Field

/-- The field without description and directives, and its arguments without theirs. -/
def bare (f : Field) : Field :=
  { f with description := none, arguments := f.arguments.map InputValue.bare, directives := [] }

end Field

namespace EnumValue

/-- The value without description and directives. -/
def bare (v : EnumValue) : EnumValue :=
  { v with description := none, directives := [] }

end EnumValue

namespace TypeBody

/-- The body with bare members. -/
def bare : TypeBody → TypeBody
  | scalar => scalar
  | object b => object { b with fields := b.fields.map Field.bare }
  | interface b => interface { b with fields := b.fields.map Field.bare }
  | union members => union members
  | enum values => enum (values.map EnumValue.bare)
  | inputObject fields => inputObject (fields.map InputValue.bare)

variable (b : TypeBody)

@[simp] theorem kind_bare : b.bare.kind = b.kind := by
  cases b <;> rfl

@[simp] theorem implements_bare : b.bare.implements = b.implements := by
  cases b <;> rfl

@[simp] theorem fields_bare : b.bare.fields = b.fields.map Field.bare := by
  cases b <;> rfl

/-- Bare members stand where the members stood. -/
theorem bare_relocate (τ : Location → Location) : (b.relocate τ).bare = b.bare.relocate τ := by
  cases b <;> simp [bare, relocate, Field.bare, Field.relocate, InputValue.bare,
    InputValue.relocate, EnumValue.bare, EnumValue.relocate]

end TypeBody

end Federation
