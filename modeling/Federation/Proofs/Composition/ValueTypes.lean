import Federation.Composition.ValueType
import Federation.Proofs.Document.Bare
import Federation.Proofs.Subgraph.Contributions
/-!
# Composition — what services agree about to share a type

The outline of a definition is its bare body in the order of names
(`TypeDefinition.outline_eq`). Definitions have the same structure
wherever they and their members stand (`sameStructure_relocate`).
-/

namespace Federation

/-! ## The visit that erases texts -/

namespace Transform

theorem visitDirectives_eraseTexts (ds : List Directive) :
    (eraseTexts.visitDirectives ds).run = [] := by
  induction ds with
  | nil => rfl
  | cons d ds ih => exact ih

theorem visitInputValues_eraseTexts (vs : List InputValue) :
    (eraseTexts.visitInputValues vs).run = vs.map InputValue.bare := by
  refine visitList_eq_map _ _ (fun v => ⟨{ v with description := none }, rfl, ?_⟩) vs
  simp only [Id.run_bind, Id.run_pure, visitDirectives_eraseTexts]
  rfl

theorem visitFields_eraseTexts (fs : List Field) :
    (eraseTexts.visitFields fs).run = fs.map Field.bare := by
  refine visitList_eq_map _ _ (fun f => ⟨{ f with description := none }, rfl, ?_⟩) fs
  simp only [Id.run_bind, Id.run_pure, visitDirectives_eraseTexts, visitInputValues_eraseTexts]
  rfl

theorem visitEnumValues_eraseTexts (vs : List EnumValue) :
    (eraseTexts.visitEnumValues vs).run = vs.map EnumValue.bare := by
  refine visitList_eq_map _ _ (fun v => ⟨{ v with description := none }, rfl, ?_⟩) vs
  simp only [Id.run_bind, Id.run_pure, visitDirectives_eraseTexts]
  rfl

theorem visitBody_eraseTexts (b : TypeBody) : (eraseTexts.visitBody b).run = b.bare := by
  cases b <;> simp [visitBody, TypeBody.bare, visitFields_eraseTexts, visitEnumValues_eraseTexts,
    visitInputValues_eraseTexts]

end Transform

/-! ## Outlines -/

/-- An order by name stays when names stay. -/
theorem sortByName_map {α : Type} {name : α → String} (e : α → α) (h : ∀ a, name (e a) = name a)
    (as : List α) : sortByName name (as.map e) = (sortByName name as).map e := by
  refine (List.map_mergeSort fun a _ b _ => ?_).symm
  rw [h, h]

namespace TypeBody

variable (τ : Location → Location) (b : TypeBody)

theorem inOrder_relocate : (b.relocate τ).inOrder = b.inOrder.relocate τ := by
  have hobject : ∀ b : ObjectBody,
      inOrder.objectInOrder { b with fields := b.fields.map (Field.relocate τ) } =
        { inOrder.objectInOrder b with
          fields := (inOrder.objectInOrder b).fields.map (Field.relocate τ) } := by
    intro b
    have harguments : ∀ f : Field,
        sortByName InputValue.name (f.relocate τ).arguments =
          (sortByName InputValue.name f.arguments).map (InputValue.relocate τ) :=
      fun f => sortByName_map (InputValue.relocate τ) (fun _ => rfl) _
    have hfields : sortByName Field.name (b.fields.map (Field.relocate τ)) =
        (sortByName Field.name b.fields).map (Field.relocate τ) :=
      sortByName_map (Field.relocate τ) (fun _ => rfl) _
    simp only [inOrder.objectInOrder, hfields, List.map_map, Function.comp_def, harguments]
    rfl
  cases b with
  | scalar => rfl
  | object b => exact congrArg object (hobject b)
  | interface b => exact congrArg interface (hobject b)
  | union members => rfl
  | enum values => exact congrArg enum (sortByName_map (EnumValue.relocate τ) (fun _ => rfl) values)
  | inputObject fields =>
    exact congrArg inputObject (sortByName_map (InputValue.relocate τ) (fun _ => rfl) fields)

/-- Structures do not hold locations. -/
theorem canonical_relocate : (b.relocate τ).canonical = b.canonical := by
  cases b <;> simp [canonical, relocate, ObjectBody.canonical, Field.canonical, Field.relocate,
    InputValue.canonical, InputValue.relocate, EnumValue.canonical, EnumValue.relocate]

end TypeBody

namespace TypeDefinition

variable (τ : Location → Location) (d : TypeDefinition)

/-- **The outline of a type** is its bare body in the order of names. -/
theorem outline_eq : d.outline = d.body.bare.inOrder := by
  rw [outline, Transform.visitBody_eraseTexts]

theorem outline_relocate : (d.relocate τ).outline = d.outline.relocate τ := by
  have hbody : (d.relocate τ).body = d.body.relocate τ := rfl
  rw [outline_eq, hbody, TypeBody.bare_relocate, TypeBody.inOrder_relocate, outline_eq]

/-- **Definitions have the same structure wherever they stand.** -/
@[simp] theorem sameStructure_relocate (a b : TypeDefinition) :
    (a.relocate τ).sameStructure (b.relocate τ) = a.sameStructure b := by
  simp only [sameStructure, outline_relocate, TypeBody.same, TypeBody.canonical_relocate]

end TypeDefinition

end Federation
