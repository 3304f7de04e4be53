import Federation.Proofs.Composition.Composed
/-!
# Composition — what each stage reports

Every check has diagnostics of a few kinds, and so has every stage of a
composition. A property of these kinds is one of all that the stage has
to report: `OfKinds` states it for reports of a list, and each theorem
asks it of the kinds that a stage knows.
-/

namespace Federation

namespace Diagnostic

/-- Reports whose kinds have a property. -/
def OfKinds (p : DiagnosticKind → Prop) (ds : List Diagnostic) : Prop :=
  ∀ d ∈ ds, p d.kind

variable {α : Type} {p : DiagnosticKind → Prop}

@[simp] theorem ofKinds_nil : OfKinds p [] := by simp [OfKinds]

@[simp] theorem ofKinds_singleton {d : Diagnostic} : OfKinds p [d] ↔ p d.kind := by
  simp [OfKinds]

@[simp] theorem ofKinds_append {as bs : List Diagnostic} :
    OfKinds p (as ++ bs) ↔ OfKinds p as ∧ OfKinds p bs := by
  simp only [OfKinds, List.mem_append, or_imp, forall_and]

theorem ofKinds_flatMap {as : List α} {f : α → List Diagnostic}
    (h : ∀ a ∈ as, OfKinds p (f a)) : OfKinds p (as.flatMap f) := by
  intro d hd
  obtain ⟨a, ha, hda⟩ := List.mem_flatMap.mp hd
  exact h a ha d hda

theorem ofKinds_map {as : List α} {f : α → Diagnostic}
    (h : ∀ a ∈ as, p (f a).kind) : OfKinds p (as.map f) := by
  intro d hd
  obtain ⟨a, ha, rfl⟩ := List.mem_map.mp hd
  exact h a ha

theorem ofKinds_filterMap {as : List α} {f : α → Option Diagnostic}
    (h : ∀ a ∈ as, ∀ d, f a = some d → p d.kind) : OfKinds p (as.filterMap f) := by
  intro d hd
  obtain ⟨a, ha, hda⟩ := List.mem_filterMap.mp hd
  exact h a ha d hda

theorem ofKinds_ite {c : Prop} [Decidable c] {as bs : List Diagnostic} (has : OfKinds p as)
    (hbs : OfKinds p bs) : OfKinds p (if c then as else bs) := by
  split
  · exact has
  · exact hbs

theorem OfKinds.inService {ds : List Diagnostic} (h : OfKinds p ds) (service : String) :
    OfKinds p (ds.map (·.inService service)) :=
  ofKinds_map h

end Diagnostic

open Diagnostic

variable {p : DiagnosticKind → Prop}

/-! ## Services by themselves -/

theorem Directive.ofKinds_malformed (hp : p .directiveArgument) (coordinate : Coordinate)
    (location : Location) (ds : List Directive) :
    OfKinds p (malformed coordinate location ds) := by
  refine ofKinds_filterMap fun x _ d hd => ?_
  cases hinterpret : FederationDirective.interpret x with
  | ok m =>
    rw [hinterpret] at hd
    cases hd
  | error e =>
    rw [hinterpret] at hd
    cases hd
    exact hp

theorem Declaration.ofKinds_problems (hp : p .directiveArgument) (t : TypeDefinition) :
    OfKinds p (problems t) :=
  ofKinds_append.mpr ⟨Directive.ofKinds_malformed hp _ _ _,
    ofKinds_flatMap fun _ _ => Directive.ofKinds_malformed hp _ _ _⟩

theorem Subgraph.ofKinds_problems (hs : p .syntaxError)
    (hduplicate : p .duplicateTypeDefinition) (hargument : p .directiveArgument) (s : Subgraph) :
    OfKinds p s.problems := by
  refine OfKinds.inService ?_ _
  split
  · exact ofKinds_singleton.mpr hs
  · exact ofKinds_append.mpr ⟨ofKinds_map fun _ _ => hduplicate,
      ofKinds_flatMap fun t _ => Declaration.ofKinds_problems hargument t⟩

theorem Site.ofKinds_problems (hplace : p .directiveLocation) (hargument : p .directiveArgument)
    (lookup : String → Option DirectiveDefinition) (x : Site) : OfKinds p (x.problems lookup) := by
  have harguments : ∀ d, OfKinds p (x.argumentProblems d) := fun d =>
    ofKinds_append.mpr ⟨ofKinds_map fun _ _ => hargument, ofKinds_map fun _ _ => hargument⟩
  rw [Site.problems]
  split
  · exact ofKinds_nil
  · exact ofKinds_append.mpr ⟨ofKinds_ite ofKinds_nil (ofKinds_singleton.mpr hplace),
      ofKinds_ite ofKinds_nil (harguments _)⟩

namespace Subgraph

/-- The kinds of what can be wrong with a service by itself. -/
def checkKinds : List DiagnosticKind :=
  [.directiveArgument, .directiveLocation, .reservedFieldUsed, .externalUsedOnBase,
    .requiresUsedOnBase, .keyFieldsMissingExternal]

theorem ofKinds_checkProblems (hp : ∀ k ∈ checkKinds, p k) (s : Subgraph) :
    OfKinds p s.checkProblems := by
  simp only [checkKinds, List.forall_mem_cons] at hp
  obtain ⟨hargument, hplace, hreserved, hexternal, hrequires, hkey, -⟩ := hp
  refine OfKinds.inService ?_ _
  simp only [ofKinds_append]
  refine ⟨⟨⟨?_, ?_⟩, ?_⟩, ?_⟩
  · exact ofKinds_flatMap fun x _ => Site.ofKinds_problems hplace hargument _ x
  · exact ofKinds_flatMap fun d _ => ofKinds_map fun _ _ => hreserved
  · exact ofKinds_flatMap fun d _ => ofKinds_flatMap fun f _ => ofKinds_append.mpr
      ⟨ofKinds_ite (ofKinds_singleton.mpr hexternal) ofKinds_nil,
        ofKinds_ite (ofKinds_singleton.mpr hrequires) ofKinds_nil⟩
  · exact ofKinds_flatMap fun d _ => ofKinds_map fun _ _ => hkey

end Subgraph

/-! ## Between services -/

namespace Declared

variable {α : Type} (ds : List (Declared α)) (coordinate : Coordinate)

theorem ofKinds_repetitionProblems (hp : p .duplicateTypeDefinition) (kind : MemberKind) :
    OfKinds p (repetitionProblems kind coordinate ds) :=
  ofKinds_map fun _ _ => hp

theorem ofKinds_typeProblems (hp : p .fieldTypeMismatch) (element : TypedElement)
    (types : List (String × TypeRef)) : OfKinds p (typeProblems element coordinate types) :=
  ofKinds_ite ofKinds_nil (ofKinds_singleton.mpr hp)

theorem ofKinds_directiveProblems (hp : p .conflictingDirective) (isRepeatable : String → Bool)
    (directives : α → List Directive) :
    OfKinds p (directiveProblems isRepeatable directives coordinate ds) :=
  ofKinds_map fun _ _ => hp

end Declared

open Declared

theorem DirectiveGroup.ofKinds_problems (hp : p .conflictingDirective) (g : DirectiveGroup) :
    OfKinds p g.problems := by
  cases g with
  | nil => exact ofKinds_nil
  | cons first others => exact ofKinds_ite ofKinds_nil (ofKinds_singleton.mpr hp)

section

variable (hduplicate : p .duplicateTypeDefinition) (htype : p .fieldTypeMismatch)
variable (hdirective : p .conflictingDirective)

theorem FieldDeclaration.ofKinds_argumentProblems (htype : p .fieldTypeMismatch)
    (coordinate : Coordinate) (ds : List (Declared FieldDeclaration)) :
    OfKinds p (argumentProblems coordinate ds) :=
  ofKinds_flatMap fun _ _ => ofKinds_typeProblems _ htype _ _

include hduplicate htype hdirective

theorem FieldDeclaration.ofKinds_problems (isRepeatable : String → Bool) (typeName : String)
    (isShared : Bool) (ds : List (Declared FieldDeclaration)) :
    OfKinds p (problems isRepeatable typeName isShared ds) := by
  simp only [problems, ofKinds_append]
  refine ⟨⟨⟨⟨?_, ?_⟩, ?_⟩, ?_⟩, ?_⟩
  · exact ofKinds_repetitionProblems _ _ hduplicate _
  · exact ofKinds_typeProblems _ htype _ _
  · exact ofKinds_argumentProblems htype _ _
  · exact ofKinds_ite ofKinds_nil
      (ofKinds_ite (ofKinds_singleton.mpr hduplicate) ofKinds_nil)
  · exact ofKinds_directiveProblems _ _ hdirective _ _

theorem TypeGroup.ofKinds_memberProblems (isRepeatable : String → Bool) (g : TypeGroup) :
    OfKinds p (g.memberProblems isRepeatable) := by
  rw [memberProblems]
  split
  · exact ofKinds_flatMap fun ds _ =>
      FieldDeclaration.ofKinds_problems hduplicate htype hdirective _ _ _ ds
  · exact ofKinds_flatMap fun ds _ =>
      FieldDeclaration.ofKinds_problems hduplicate htype hdirective _ _ _ ds
  · refine ofKinds_flatMap fun ds _ => ?_
    simp only [EnumValue.problems, ofKinds_append]
    exact ⟨ofKinds_repetitionProblems _ _ hduplicate _,
      ofKinds_directiveProblems _ _ hdirective _ _⟩
  · refine ofKinds_flatMap fun ds _ => ?_
    simp only [InputValue.problems, ofKinds_append]
    exact ⟨⟨ofKinds_repetitionProblems _ _ hduplicate _, ofKinds_typeProblems _ htype _ _⟩,
      ofKinds_directiveProblems _ _ hdirective _ _⟩
  · exact ofKinds_nil
  · exact ofKinds_nil

omit hduplicate htype hdirective in
theorem TypeGroup.ofKinds_kindProblems (hp : p .typeKindMismatch) (g : TypeGroup) :
    OfKinds p g.kindProblems :=
  ofKinds_ite ofKinds_nil (ofKinds_singleton.mpr hp)

omit hduplicate htype hdirective in
theorem TypeGroup.ofKinds_missingBaseProblems (hp : p .extensionWithNoBase) (g : TypeGroup) :
    OfKinds p g.missingBaseProblems :=
  ofKinds_ite (ofKinds_singleton.mpr hp) ofKinds_nil

theorem TypeGroup.ofKinds_problems (hkind : p .typeKindMismatch) (hbase : p .extensionWithNoBase)
    (isRepeatable : String → Bool) (g : TypeGroup) : OfKinds p (g.problems isRepeatable) := by
  simp only [problems, problemsOfOneKind, ofKinds_append]
  refine ⟨?_, ⟨⟨⟨?_, ?_⟩, ?_⟩, ?_⟩, ?_⟩
  · exact ofKinds_kindProblems hkind g
  · exact ofKinds_map fun _ _ => hduplicate
  · exact ofKinds_ite (ofKinds_singleton.mpr hduplicate) ofKinds_nil
  · exact ofKinds_missingBaseProblems hbase _
  · exact ofKinds_memberProblems hduplicate htype hdirective _ _
  · exact ofKinds_directiveProblems _ _ hdirective _ _

theorem Subgraphs.ofKinds_mergeProblems (hkind : p .typeKindMismatch)
    (hbase : p .extensionWithNoBase) (s : Subgraphs) : OfKinds p s.mergeProblems :=
  ofKinds_append.mpr ⟨ofKinds_flatMap fun g _ => g.ofKinds_problems hdirective,
    ofKinds_flatMap fun g _ =>
      TypeGroup.ofKinds_problems hduplicate htype hdirective hkind hbase _ g⟩

end

/-! ## The composed schema -/

namespace Schema

variable (s : Schema)

theorem ofKinds_keyProblems (hp : p .directiveArgument) : OfKinds p s.keyProblems := by
  refine ofKinds_flatMap fun t _ => ofKinds_flatMap fun key _ =>
    ofKinds_filterMap fun path _ d hd => ?_
  split at hd
  · cases hd
  · cases hd
    exact hp

theorem ofKinds_externalFieldProblems (hp : p .unresolvedExternalField) :
    OfKinds p s.externalFieldProblems :=
  ofKinds_flatMap fun _ _ => ofKinds_map fun _ _ => hp

theorem ofKinds_interfaceProblems (hp : p .interfaceFieldMissing) (hkind : p .typeKindMismatch) :
    OfKinds p s.interfaceProblems := by
  have hfield : ∀ d interface expected, ∀ cause ∈ s.fieldCauses d interface expected,
      cause.kind = .interfaceFieldMissing := by
    intro d interface expected cause hcause
    rw [fieldCauses] at hcause
    split at hcause
    · cases List.mem_singleton.mp hcause
      rfl
    · simp only [argumentCauses, List.mem_append, List.mem_filterMap, List.mem_map] at hcause
      obtain hcause | ⟨e, -, hcause⟩ | ⟨a, -, rfl⟩ := hcause
      · split at hcause
        · cases hcause
        · cases List.mem_singleton.mp hcause
          rfl
      · split at hcause
        · cases hcause
          rfl
        · split at hcause
          · cases hcause
          · cases hcause
            rfl
      · rfl
  refine ofKinds_flatMap fun d _ => ofKinds_flatMap fun name _ => ?_
  rw [interfaceNameProblems]
  split
  · exact ofKinds_nil
  · refine ofKinds_ite (ofKinds_append.mpr ⟨ofKinds_map fun _ _ => hp, ?_⟩)
      (ofKinds_singleton.mpr hkind)
    refine ofKinds_flatMap fun expected _ => ofKinds_map fun cause hcause => ?_
    rw [Diagnostic.kind, hfield d _ expected cause hcause]
    exact hp

theorem ofKinds_rootFieldProblems (hp : p .duplicateTypeDefinition) :
    OfKinds p s.rootFieldProblems := by
  refine ofKinds_flatMap fun root _ => ?_
  split
  · exact ofKinds_nil
  · exact ofKinds_map fun _ _ => hp

theorem ofKinds_referenceProblems (hp : p .unknownType) : OfKinds p s.referenceProblems :=
  ofKinds_flatMap fun _ _ => ofKinds_map fun _ _ => hp

end Schema

/-- Applications that clash in the composed schema are reported as applications that conflict. -/
theorem Subgraphs.ofKinds_clashes (hp : p .conflictingDirective) (s : Subgraphs) :
    OfKinds p s.composedSchema.2 := by
  rw [composedSchema_eq]
  exact ofKinds_flatMap fun _ _ => ofKinds_map fun _ _ => hp

end Federation
