import Federation.Directives.Sites
/-!
# Directives — the sites of a type

The sites of a type are collected level by level. What a type carries,
and at which kind of place, is said here without them
(`TypeDefinition.Carries`), and it is what is collected
(`TypeDefinition.carries_iff`).
-/

namespace Federation

/-- A type carries an application at a place: on itself, on a member or on an argument of one. -/
inductive TypeDefinition.Carries (t : TypeDefinition) : Directive → DirectiveLocation → Prop
  | scalar {x : Directive} (hbody : t.body = .scalar) (hx : x ∈ t.directives) : t.Carries x .scalar
  | object {x : Directive} {b : ObjectBody} (hbody : t.body = .object b) (hx : x ∈ t.directives) :
      t.Carries x .object
  | interface {x : Directive} {b : ObjectBody} (hbody : t.body = .interface b)
      (hx : x ∈ t.directives) : t.Carries x .interface
  | union {x : Directive} {members : List String} (hbody : t.body = .union members)
      (hx : x ∈ t.directives) : t.Carries x .union
  | enum {x : Directive} {values : List EnumValue} (hbody : t.body = .enum values)
      (hx : x ∈ t.directives) : t.Carries x .enum
  | inputObject {x : Directive} {fields : List InputValue} (hbody : t.body = .inputObject fields)
      (hx : x ∈ t.directives) : t.Carries x .inputObject
  | field {x : Directive} {f : Field} (hf : f ∈ t.fields) (hx : x ∈ f.directives) :
      t.Carries x .fieldDefinition
  | argument {x : Directive} {f : Field} {a : InputValue} (hf : f ∈ t.fields)
      (ha : a ∈ f.arguments) (hx : x ∈ a.directives) : t.Carries x .argumentDefinition
  | enumValue {x : Directive} {v : EnumValue} (hv : v ∈ t.body.enumValues)
      (hx : x ∈ v.directives) : t.Carries x .enumValue
  | inputField {x : Directive} {v : InputValue} (hv : v ∈ t.body.inputFields)
      (hx : x ∈ v.directives) : t.Carries x .inputFieldDefinition

namespace Site

theorem mem_listAt {place : DirectiveLocation} {coordinate : Coordinate} {location : Location}
    {ds : List Directive} {x : Site} :
    x ∈ listAt place coordinate location ds ↔
      ∃ d ∈ ds, (⟨d, place, coordinate, location⟩ : Site) = x :=
  List.mem_map

/-- A site of a type stands on the type or on one of its members. -/
theorem mem_ofType {t : TypeDefinition} {x : Site} :
    x ∈ ofType t ↔ x ∈ listAt (placeOfKind t.kind) (.type t.name) t.location t.directives ∨
      (∃ f ∈ t.fields, x ∈ ofField t.name f) ∨
      (∃ v ∈ t.body.enumValues, x ∈ ofEnumValue t.name v) ∨
      ∃ v ∈ t.body.inputFields, x ∈ ofInputField t.name v := by
  rw [ofType, List.mem_append, TypeDefinition.fields]
  cases t.body <;>
    simp [TypeBody.fields, TypeBody.enumValues, TypeBody.inputFields]

/-- A site is allowed by the arguments and the locations of a definition. -/
theorem problems_eq_nil_iff {x : Site} {lookup : String → Option DirectiveDefinition} :
    x.problems lookup = [] ↔ ∀ d ∈ lookup x.directive.name,
      d.locations.contains x.place = true ∧
        (isInterpreted x.directive.name = true ∨
          (∀ a ∈ x.directive.arguments, d.arguments.any (·.name == a.name) = true) ∧
          ∀ a ∈ d.requiredArguments, (x.directive.argument? a.name).isSome = true) := by
  rw [problems]
  cases lookup x.directive.name with
  | none => simp
  | some d =>
    by_cases hlocation : x.place ∈ d.locations <;>
      by_cases hinterpreted : isInterpreted x.directive.name = true <;>
        simp [hlocation, hinterpreted, argumentProblems, Option.isSome_iff_ne_none]

end Site

namespace TypeDefinition

variable {t : TypeDefinition} {x : Directive} {place : DirectiveLocation}

/-- What is applied on a type itself is carried at the place for types of its kind. -/
theorem carries_self (hx : x ∈ t.directives) : t.Carries x (Site.placeOfKind t.kind) := by
  rw [kind]
  cases hbody : t.body with
  | scalar => exact .scalar hbody hx
  | object => exact .object hbody hx
  | interface => exact .interface hbody hx
  | union => exact .union hbody hx
  | enum => exact .enum hbody hx
  | inputObject => exact .inputObject hbody hx

/-- An application is carried by the type itself, or by one of its members. -/
theorem Carries.cases_self (h : t.Carries x place) :
    (x ∈ t.directives ∧ place = Site.placeOfKind t.kind) ∨
      (∃ f ∈ t.fields, x ∈ f.directives ∧ place = .fieldDefinition) ∨
      (∃ f ∈ t.fields, ∃ a ∈ f.arguments, x ∈ a.directives ∧ place = .argumentDefinition) ∨
      (∃ v ∈ t.body.enumValues, x ∈ v.directives ∧ place = .enumValue) ∨
      ∃ v ∈ t.body.inputFields, x ∈ v.directives ∧ place = .inputFieldDefinition := by
  cases h with
  | scalar hbody hx | object hbody hx | interface hbody hx | union hbody hx | enum hbody hx
  | inputObject hbody hx => exact .inl ⟨hx, by rw [kind, hbody]; rfl⟩
  | field hf hx => exact .inr (.inl ⟨_, hf, hx, rfl⟩)
  | argument hf ha hx => exact .inr (.inr (.inl ⟨_, hf, _, ha, hx, rfl⟩))
  | enumValue hv hx => exact .inr (.inr (.inr (.inl ⟨_, hv, hx, rfl⟩)))
  | inputField hv hx => exact .inr (.inr (.inr (.inr ⟨_, hv, hx, rfl⟩)))

/-- **All that a type carries is collected**, at the place where it stands, and nothing else is. -/
theorem carries_iff : t.Carries x place ↔
    ∃ y ∈ Site.ofType t, y.directive = x ∧ y.place = place := by
  constructor
  · intro h
    rcases h.cases_self with ⟨hx, rfl⟩ | ⟨f, hf, hx, rfl⟩ | ⟨f, hf, a, ha, hx, rfl⟩ |
      ⟨v, hv, hx, rfl⟩ | ⟨v, hv, hx, rfl⟩
    · exact ⟨_, Site.mem_ofType.mpr (.inl (Site.mem_listAt.mpr ⟨x, hx, rfl⟩)), rfl, rfl⟩
    · have hsite : ⟨x, .fieldDefinition, .member t.name f.name, f.location⟩ ∈
          Site.ofField t.name f :=
        List.mem_append_left _ (Site.mem_listAt.mpr ⟨x, hx, rfl⟩)
      exact ⟨_, Site.mem_ofType.mpr (.inr (.inl ⟨f, hf, hsite⟩)), rfl, rfl⟩
    · have hsite : ⟨x, .argumentDefinition, .member t.name f.name, a.location⟩ ∈
          Site.ofField t.name f :=
        List.mem_append_right _ (List.mem_flatMap.mpr ⟨a, ha, Site.mem_listAt.mpr ⟨x, hx, rfl⟩⟩)
      exact ⟨_, Site.mem_ofType.mpr (.inr (.inl ⟨f, hf, hsite⟩)), rfl, rfl⟩
    · have hsite : ⟨x, .enumValue, .member t.name v.name, v.location⟩ ∈
          Site.ofEnumValue t.name v := Site.mem_listAt.mpr ⟨x, hx, rfl⟩
      exact ⟨_, Site.mem_ofType.mpr (.inr (.inr (.inl ⟨v, hv, hsite⟩))), rfl, rfl⟩
    · have hsite : ⟨x, .inputFieldDefinition, .member t.name v.name, v.location⟩ ∈
          Site.ofInputField t.name v := Site.mem_listAt.mpr ⟨x, hx, rfl⟩
      exact ⟨_, Site.mem_ofType.mpr (.inr (.inr (.inr ⟨v, hv, hsite⟩))), rfl, rfl⟩
  · rintro ⟨y, hy, rfl, rfl⟩
    rcases Site.mem_ofType.mp hy with hy | ⟨f, hf, hy⟩ | ⟨v, hv, hy⟩ | ⟨v, hv, hy⟩
    · obtain ⟨d, hd, rfl⟩ := Site.mem_listAt.mp hy
      exact carries_self hd
    · rcases List.mem_append.mp hy with hy | hy
      · obtain ⟨d, hd, rfl⟩ := Site.mem_listAt.mp hy
        exact .field hf hd
      · obtain ⟨a, ha, hy⟩ := List.mem_flatMap.mp hy
        obtain ⟨d, hd, rfl⟩ := Site.mem_listAt.mp hy
        exact .argument hf ha hd
    · obtain ⟨d, hd, rfl⟩ := Site.mem_listAt.mp hy
      exact .enumValue hv hd
    · obtain ⟨d, hd, rfl⟩ := Site.mem_listAt.mp hy
      exact .inputField hv hd

end TypeDefinition

end Federation
