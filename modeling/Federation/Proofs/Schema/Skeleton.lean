import Federation.Proofs.Document.Bare
import Federation.Schema.Checks
/-!
# Schema — what the checks read

The checks of a schema read which types there are, what they refer to,
and the names, types and arguments of members. They read no description,
no directive and no location: what they read is the skeleton of the
schema. So types that are retouched and keep their skeletons have the
problems that they had (`Schema.problems_retouched`).
-/

namespace Federation

namespace InputValue

/-- What the checks read of an argument or input field. -/
def skeleton (v : InputValue) : InputValue :=
  v.bare.relocate fun _ => Location.none

end InputValue

namespace Field

/-- What the checks read of a field. -/
def skeleton (f : Field) : Field :=
  f.bare.relocate fun _ => Location.none

theorem arguments_skeleton (f : Field) :
    f.skeleton.arguments = f.arguments.map InputValue.skeleton := by
  simp only [skeleton, bare, relocate, List.map_map]
  rfl

theorem argument?_skeleton (f : Field) (name : String) :
    f.skeleton.argument? name = (f.argument? name).map InputValue.skeleton := by
  rw [argument?, arguments_skeleton, List.find?_map, argument?]
  rfl

end Field

namespace TypeDefinition

/-- What the checks read of a type. -/
def skeleton (d : TypeDefinition) : TypeDefinition :=
  { name := d.name, body := d.body.bare.relocate fun _ => Location.none }

variable (d : TypeDefinition)

@[simp] theorem kind_skeleton : d.skeleton.kind = d.kind := by
  rw [kind, skeleton, TypeBody.kind_relocate, TypeBody.kind_bare, kind]

@[simp] theorem implements_skeleton : d.skeleton.implements = d.implements := by
  rw [implements, skeleton, TypeBody.implements_relocate, TypeBody.implements_bare, implements]

@[simp] theorem fields_skeleton : d.skeleton.fields = d.fields.map Field.skeleton := by
  rw [fields, skeleton, TypeBody.fields_relocate, TypeBody.fields_bare, List.map_map]
  rfl

theorem field?_skeleton (name : String) :
    d.skeleton.field? name = (d.field? name).map Field.skeleton := by
  rw [field?, fields_skeleton, List.find?_map, field?]
  rfl

/-- Skeletons stand nowhere. -/
theorem skeleton_relocate (τ : Location → Location) : (d.relocate τ).skeleton = d.skeleton := by
  have hbody : (d.relocate τ).body = d.body.relocate τ := rfl
  rw [skeleton, hbody, TypeBody.bare_relocate, TypeBody.relocate_relocate]
  rfl

/-- A type refers to what its skeleton refers to. -/
theorem references_skeleton : d.skeleton.references = d.references := by
  have hfields : ∀ fs : List Field, (fs.map Field.skeleton).flatMap (fun f =>
      (Coordinate.member d.name f.name, f.type.name) ::
        f.arguments.map fun a => (Coordinate.member d.name f.name, a.type.name)) =
          fs.flatMap fun f => (Coordinate.member d.name f.name, f.type.name) ::
            f.arguments.map fun a => (Coordinate.member d.name f.name, a.type.name) := by
    intro fs
    rw [List.flatMap_map]
    refine List.flatMap_congr fun f _ => ?_
    rw [Field.arguments_skeleton, List.map_map]
    rfl
  rw [references, implements_skeleton, references]
  congr 1
  cases hbody : d.body with
  | scalar => simp [skeleton, hbody, TypeBody.bare, TypeBody.relocate]
  | object b =>
    simp only [skeleton, hbody, TypeBody.bare, TypeBody.relocate, List.map_map]
    exact hfields b.fields
  | interface b =>
    simp only [skeleton, hbody, TypeBody.bare, TypeBody.relocate, List.map_map]
    exact hfields b.fields
  | union members => simp [skeleton, hbody, TypeBody.bare, TypeBody.relocate]
  | enum values => simp [skeleton, hbody, TypeBody.bare, TypeBody.relocate]
  | inputObject fields =>
    simp only [skeleton, hbody, TypeBody.bare, TypeBody.relocate, List.map_map]
    rfl

end TypeDefinition

namespace Schema

/-- What the checks read of a schema. -/
def skeleton (s : Schema) : Schema :=
  { types := s.types.map TypeDefinition.skeleton, roots := s.roots, ownership := s.ownership }

variable (s : Schema)

theorem type?_skeleton (name : String) :
    s.skeleton.type? name = (s.type? name).map TypeDefinition.skeleton := by
  rw [type?, skeleton, List.find?_map, type?]
  rfl

theorem isKnownType_skeleton : s.skeleton.isKnownType = s.isKnownType := by
  funext name
  rw [isKnownType, type?_skeleton, Option.isSome_map, isKnownType]

/-! ## Keys -/

theorem followPath_skeleton (typeName : String) (path : List String) :
    s.skeleton.followPath typeName path = s.followPath typeName path := by
  induction path generalizing typeName with
  | nil => rfl
  | cons field path ih =>
    have hfield : (s.skeleton.type? typeName).bind (·.field? field) =
        ((s.type? typeName).bind (·.field? field)).map Field.skeleton := by
      rw [type?_skeleton, Option.bind_map, Option.map_bind]
      simp only [Function.comp_def, TypeDefinition.field?_skeleton]
    rw [followPath, followPath, hfield]
    cases (s.type? typeName).bind (·.field? field) with
    | none => rfl
    | some f => exact ih _

theorem keyProblems_skeleton : s.skeleton.keyProblems = s.keyProblems := by
  simp only [keyProblems, followPath_skeleton]
  rfl

/-! ## Interfaces -/

theorem isSubtype_skeleton : s.skeleton.isSubtype = s.isSubtype := by
  funext abstract concrete
  have hany : ((s.type? concrete).map TypeDefinition.skeleton).any
      (·.implements.contains abstract) =
        (s.type? concrete).any (·.implements.contains abstract) := by
    simp only [Option.any_map, TypeDefinition.implements_skeleton]
  rw [isSubtype, isSubtype, type?_skeleton, type?_skeleton, Option.map_map, hany]
  cases s.type? abstract with
  | none => rfl
  | some d =>
    simp only [Option.map_some, Function.comp, TypeDefinition.skeleton]
    cases d.body <;> rfl

theorem isImplementationType_skeleton (field expected : TypeRef) :
    s.skeleton.isImplementationType field expected = s.isImplementationType field expected := by
  induction field, expected using isImplementationType.induct <;>
    simp_all [isImplementationType, isSubtype_skeleton]

theorem argumentCauses_skeleton (field expected : Field) (interface : String) :
    argumentCauses field.skeleton expected.skeleton interface =
      argumentCauses field expected interface := by
  rw [argumentCauses, argumentCauses, Field.arguments_skeleton, Field.arguments_skeleton,
    List.filterMap_map, List.filter_map, List.map_map]
  congr 1
  · refine List.filterMap_congr fun e _ => ?_
    have hname : e.skeleton.name = e.name := rfl
    simp only [Function.comp, hname, Field.argument?_skeleton]
    cases field.argument? e.name <;> rfl
  · have hfilter : ((fun a : InputValue => (expected.skeleton.argument? a.name).isNone &&
        a.type.isNonNull && a.default.isNone) ∘ InputValue.skeleton) = fun a =>
          (expected.argument? a.name).isNone && a.type.isNonNull && a.default.isNone := by
      funext a
      have hname : a.skeleton.name = a.name := rfl
      simp only [Function.comp, hname, Field.argument?_skeleton, Option.isNone_map]
      rfl
    rw [hfilter]
    rfl

theorem fieldCauses_skeleton (d : TypeDefinition) (interface : String) (expected : Field) :
    s.skeleton.fieldCauses d.skeleton interface expected.skeleton =
      s.fieldCauses d interface expected := by
  have hname : expected.skeleton.name = expected.name := rfl
  rw [fieldCauses, fieldCauses, TypeDefinition.field?_skeleton, hname]
  cases d.field? expected.name with
  | none => rfl
  | some f =>
    simp only [Option.map_some, isImplementationType_skeleton, argumentCauses_skeleton]
    rfl

theorem implementationProblems_skeleton (d interface : TypeDefinition) :
    s.skeleton.implementationProblems d.skeleton interface.skeleton =
      s.implementationProblems d interface := by
  rw [implementationProblems, implementationProblems, TypeDefinition.implements_skeleton,
    TypeDefinition.implements_skeleton, TypeDefinition.fields_skeleton, List.flatMap_map]
  congr 1
  refine List.flatMap_congr fun expected _ => ?_
  exact congrArg (List.map _) (fieldCauses_skeleton s d interface.name expected)

theorem interfaceNameProblems_skeleton (d : TypeDefinition) (name : String) :
    s.skeleton.interfaceNameProblems d.skeleton name = s.interfaceNameProblems d name := by
  rw [interfaceNameProblems, interfaceNameProblems, type?_skeleton]
  cases s.type? name with
  | none => rfl
  | some interface =>
    simp only [Option.map_some, TypeDefinition.kind_skeleton, implementationProblems_skeleton]
    rfl

theorem interfaceProblems_skeleton : s.skeleton.interfaceProblems = s.interfaceProblems := by
  have htypes : s.skeleton.types = s.types.map TypeDefinition.skeleton := rfl
  rw [interfaceProblems, interfaceProblems, htypes, List.flatMap_map]
  refine List.flatMap_congr fun d _ => ?_
  rw [TypeDefinition.implements_skeleton]
  exact List.flatMap_congr fun name _ => interfaceNameProblems_skeleton s d name

/-! ## Root types -/

theorem rootFieldProblems_skeleton : s.skeleton.rootFieldProblems = s.rootFieldProblems := by
  have hroot : s.skeleton.rootType? =
      fun operation => (s.rootType? operation).map TypeDefinition.skeleton := by
    funext operation
    rw [rootType?, type?_skeleton]
    rfl
  rw [rootFieldProblems, rootFieldProblems, hroot, ← List.map_filterMap, List.flatMap_map]
  rfl

/-! ## Types that are retouched -/

theorem relocate_interfaceNameProblems (τ : Location → Location) (d : TypeDefinition)
    (name : String) : (s.interfaceNameProblems d name).map (Diagnostic.relocate τ) =
      s.interfaceNameProblems d name := by
  rw [interfaceNameProblems]
  split
  · rfl
  · split
    · simp only [implementationProblems, List.map_append, List.map_flatMap, List.map_map]
      rfl
    · rfl

/-- Only references to unknown types are reported at a location. -/
theorem relocate_unplacedProblems (τ : Location → Location) :
    (s.keyProblems ++ s.externalFieldProblems ++ s.interfaceProblems ++
        s.rootFieldProblems).map (Diagnostic.relocate τ) =
      s.keyProblems ++ s.externalFieldProblems ++ s.interfaceProblems ++ s.rootFieldProblems := by
  have hkeys : s.keyProblems.map (Diagnostic.relocate τ) = s.keyProblems := by
    simp only [keyProblems, List.map_flatMap, List.map_filterMap]
    refine List.flatMap_congr fun t _ => List.flatMap_congr fun key _ => ?_
    refine List.filterMap_congr fun path _ => ?_
    cases s.followPath t.name path <;> rfl
  have hexternal : s.externalFieldProblems.map (Diagnostic.relocate τ) =
      s.externalFieldProblems := by
    simp only [externalFieldProblems, List.map_flatMap, List.map_map]
    rfl
  have hinterfaces : s.interfaceProblems.map (Diagnostic.relocate τ) = s.interfaceProblems := by
    simp only [interfaceProblems, List.map_flatMap, relocate_interfaceNameProblems]
  have hroots : s.rootFieldProblems.map (Diagnostic.relocate τ) = s.rootFieldProblems := by
    rw [rootFieldProblems, List.map_flatMap]
    refine List.flatMap_congr fun root _ => ?_
    cases s.ownership? root.name with
    | none => rfl
    | some t =>
      rw [List.map_map]
      rfl
  simp only [List.map_append, hkeys, hexternal, hinterfaces, hroots]

/-- **Types that keep their skeletons keep their problems**, at the locations that the types are
moved to. -/
theorem problems_retouched {s s' : Schema} {τ : Location → Location}
    {e : TypeDefinition → TypeDefinition} (hskeleton : ∀ d, (e d).skeleton = d.skeleton)
    (hlocation : ∀ d, (e d).location = τ d.location) (htypes : s'.types = s.types.map e)
    (hroots : s'.roots = s.roots) (hownership : s'.ownership = s.ownership) :
    s'.problems = s.problems.map (Diagnostic.relocate τ) := by
  have hsame : s'.skeleton = s.skeleton := by
    simp only [skeleton, htypes, hroots, hownership, List.map_map, Function.comp_def, hskeleton]
  have hexternal : s'.externalFieldProblems = s.externalFieldProblems := by
    rw [externalFieldProblems, hownership, externalFieldProblems]
  have hreferences : s'.referenceProblems =
      s.referenceProblems.map (Diagnostic.relocate τ) := by
    rw [referenceProblems, ← isKnownType_skeleton, hsame, isKnownType_skeleton, htypes,
      List.flatMap_map, referenceProblems, List.map_flatMap]
    refine List.flatMap_congr fun d _ => ?_
    rw [TypeDefinition.unknownReferences, ← TypeDefinition.references_skeleton, hskeleton,
      TypeDefinition.references_skeleton, hlocation, TypeDefinition.unknownReferences,
      List.map_map]
    rfl
  rw [problems, ← keyProblems_skeleton, ← interfaceProblems_skeleton,
    ← rootFieldProblems_skeleton, hsame, keyProblems_skeleton, interfaceProblems_skeleton,
    rootFieldProblems_skeleton, hexternal, hreferences, problems, List.map_append,
    relocate_unplacedProblems]

/-! ## Locations -/

/-- The schema with its types and directive definitions at other locations. -/
def relocate (τ : Location → Location) (s : Schema) : Schema :=
  { s with
    types := s.types.map (TypeDefinition.relocate τ)
    directiveDefinitions := s.directiveDefinitions.map (DirectiveDefinition.relocate τ) }

/-- The schema with every node nowhere. -/
def unlocated (s : Schema) : Schema :=
  s.relocate fun _ => Location.none

@[simp] theorem relocate_id : relocate id = id := by
  funext s
  simp [relocate]

/-- **What is wrong with a schema is wrong with it at other locations.** -/
theorem problems_relocate (τ : Location → Location) :
    (s.relocate τ).problems = s.problems.map (Diagnostic.relocate τ) :=
  problems_retouched (fun d => d.skeleton_relocate τ) (fun _ => rfl) rfl rfl rfl

end Schema

end Federation
