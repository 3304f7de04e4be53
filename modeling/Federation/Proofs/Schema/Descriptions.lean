import Federation.Proofs.Schema.Skeleton
import Federation.Proofs.Sequence
import Federation.Schema.Extension
/-!
# Schema — descriptions

`Schema.describe` gives every type, field, input field, value of an
enumeration and directive definition of a schema the description that a
function of coordinates says. The descriptions of arguments stay. No
check of a schema reads a description (`problems_describe`).
-/

namespace Federation

/-! ## Nodes -/

namespace Field

/-- The field with the description of its name. -/
def describe (σ : String → Option String) (f : Field) : Field :=
  { f with description := σ f.name }

end Field

namespace InputValue

/-- The input field with the description of its name. -/
def describe (σ : String → Option String) (v : InputValue) : InputValue :=
  { v with description := σ v.name }

end InputValue

namespace EnumValue

/-- The value with the description of its name. -/
def describe (σ : String → Option String) (v : EnumValue) : EnumValue :=
  { v with description := σ v.name }

end EnumValue

namespace TypeBody

/-- The body whose members have the descriptions of their names. -/
def describe (σ : String → Option String) : TypeBody → TypeBody
  | scalar => scalar
  | object b => object { b with fields := b.fields.map (Field.describe σ) }
  | interface b => interface { b with fields := b.fields.map (Field.describe σ) }
  | union members => union members
  | enum values => enum (values.map (EnumValue.describe σ))
  | inputObject fields => inputObject (fields.map (InputValue.describe σ))

variable (σ : String → Option String) (b : TypeBody)

/-- A body whose members have their descriptions stays as it is. -/
theorem describe_eq_self (hfields : ∀ f ∈ b.fields, f.description = σ f.name)
    (hvalues : ∀ v ∈ b.enumValues, v.description = σ v.name)
    (hinputs : ∀ v ∈ b.inputFields, v.description = σ v.name) : b.describe σ = b := by
  have hobject : ∀ fs : List Field, (∀ f ∈ fs, f.description = σ f.name) →
      fs.map (Field.describe σ) = fs := by
    intro fs hfs
    refine map_eq_self fun f hf => ?_
    rw [Field.describe, ← hfs f hf]
  cases b with
  | scalar => rfl
  | object b => rw [describe, hobject b.fields hfields]
  | interface b => rw [describe, hobject b.fields hfields]
  | union members => rfl
  | enum values =>
    refine congrArg enum (map_eq_self fun v hv => ?_)
    rw [EnumValue.describe, ← hvalues v hv]
  | inputObject fields =>
    refine congrArg inputObject (map_eq_self fun v hv => ?_)
    rw [InputValue.describe, ← hinputs v hv]

theorem describe_describe (σ σ' : String → Option String) :
    (b.describe σ).describe σ' = b.describe σ' := by
  cases b <;> simp [describe, Field.describe, InputValue.describe, EnumValue.describe]

theorem describe_relocate (τ : Location → Location) :
    (b.relocate τ).describe σ = (b.describe σ).relocate τ := by
  cases b <;> simp [describe, relocate, Field.describe, Field.relocate, InputValue.describe,
    InputValue.relocate, EnumValue.describe, EnumValue.relocate]

end TypeBody

namespace TypeDefinition

/-- The type that has, with its members, the descriptions of their coordinates. -/
def describe (σ : Coordinate → Option String) (d : TypeDefinition) : TypeDefinition :=
  { d with
    description := σ (.type d.name)
    body := d.body.describe fun name => σ (.member d.name name) }

theorem describe_relocate (σ : Coordinate → Option String) (τ : Location → Location)
    (d : TypeDefinition) : (d.relocate τ).describe σ = (d.describe σ).relocate τ := by
  simp only [describe, relocate, TypeBody.describe_relocate]

/-- The checks read no description. -/
theorem skeleton_describe (σ : Coordinate → Option String) (d : TypeDefinition) :
    (d.describe σ).skeleton = d.skeleton := by
  have hbare : ∀ σ : String → Option String, (d.body.describe σ).bare = d.body.bare := by
    intro σ
    cases d.body <;> simp [TypeBody.describe, TypeBody.bare, Field.describe, Field.bare,
      InputValue.describe, InputValue.bare, EnumValue.describe, EnumValue.bare]
  rw [TypeDefinition.skeleton, TypeDefinition.describe, hbare, TypeDefinition.skeleton]

end TypeDefinition

namespace DirectiveDefinition

/-- The directive definition with the description of its coordinate. -/
def describe (σ : Coordinate → Option String) (d : DirectiveDefinition) : DirectiveDefinition :=
  { d with description := σ (.directive d.name) }

end DirectiveDefinition

namespace Schema

/-- The schema whose elements have the descriptions of their coordinates. -/
def describe (σ : Coordinate → Option String) (s : Schema) : Schema :=
  { s with
    types := s.types.map (TypeDefinition.describe σ)
    directiveDefinitions := s.directiveDefinitions.map (DirectiveDefinition.describe σ) }

/-- The schema without the descriptions of its elements. -/
def undescribed (s : Schema) : Schema :=
  s.describe fun _ => none

theorem describe_describe (σ σ' : Coordinate → Option String) (s : Schema) :
    (s.describe σ).describe σ' = s.describe σ' := by
  simp only [describe, List.map_map]
  congr 1
  refine List.map_congr_left fun d _ => ?_
  simp [TypeDefinition.describe, TypeBody.describe_describe]

/-- Descriptions and locations do not depend on each other. -/
theorem describe_relocate (σ : Coordinate → Option String) (τ : Location → Location) (s : Schema) :
    (s.relocate τ).describe σ = (s.describe σ).relocate τ := by
  simp only [describe, relocate, List.map_map, Function.comp_def, TypeDefinition.describe_relocate]
  rfl

/-! ## What the checks read -/

/-- **No check reads a description.** -/
theorem problems_describe (σ : Coordinate → Option String) (s : Schema) :
    (s.describe σ).problems = s.problems := by
  have h : (s.describe σ).problems = s.problems.map (Diagnostic.relocate id) :=
    problems_retouched (TypeDefinition.skeleton_describe σ) (fun _ => rfl) rfl rfl rfl
  rwa [Diagnostic.relocate_id, List.map_id] at h

/-- Schemas that differ in descriptions only have the same problems. -/
theorem problems_eq_of_undescribed {a b : Schema} (h : a.undescribed = b.undescribed) :
    a.problems = b.problems := by
  rw [← problems_describe (fun _ => none) a, ← problems_describe (fun _ => none) b]
  exact congrArg problems h

end Schema

end Federation
