import Federation.Composition.Merge
import Federation.Proofs.Composition.Members
import Federation.Proofs.Composition.ValueTypes
import Federation.Proofs.Schema.Descriptions
import Federation.Proofs.Subgraph.Locations
/-!
# Composition — ranks and locations are labels

Ranks tell services apart, and say whose description counts. Locations
are carried along and never looked at. So when services are given other
ranks, one to one, and their nodes other locations, every report stays
as it is up to its location, every record stays as it is, and what
declarations are composed to stays up to locations and descriptions.
-/

namespace Federation

open Declared

namespace Declared

variable {α β : Type} {ρ : Nat → Nat} {e : α → β} (ds : List (Declared α))

/-! ## Members -/

theorem filter_node_relabel (p : β → Bool) :
    ((ds.map (relabel ρ e)).filter fun d => p d.node) =
      (ds.filter fun d => p (e d.node)).map (relabel ρ e) :=
  List.filter_map ..

theorem byMember_relabel (name : β → String) :
    byMember name (ds.map (relabel ρ e)) =
      (byMember (fun a => name (e a)) ds).map (List.map (relabel ρ e)) := by
  rw [byMember_eq, byMember_eq, List.map_map, List.map_map]
  exact List.map_congr_left fun n _ => filter_node_relabel ds fun b => name b == n

@[simp] theorem services_relabel : services (ds.map (relabel ρ e)) = services ds := by
  rw [services, List.map_map]
  rfl

@[simp] theorem applications_relabel (directives : β → List Directive) :
    applications directives (ds.map (relabel ρ e)) =
      applications (fun a => directives (e a)) ds := by
  rw [applications, List.flatMap_map]
  rfl

@[simp] theorem mergedDirectives_relabel (isRepeatable : String → Bool)
    (directives : β → List Directive) :
    mergedDirectives isRepeatable directives (ds.map (relabel ρ e)) =
      mergedDirectives isRepeatable (fun a => directives (e a)) ds := by
  rw [mergedDirectives, applications_relabel, mergedDirectives]

@[simp] theorem directiveProblems_relabel (isRepeatable : String → Bool)
    (directives : β → List Directive) (coordinate : Coordinate) :
    directiveProblems isRepeatable directives coordinate (ds.map (relabel ρ e)) =
      directiveProblems isRepeatable (fun a => directives (e a)) coordinate ds := by
  rw [directiveProblems, applications_relabel, directiveProblems]

@[simp] theorem typesOf_relabel (type : β → TypeRef) :
    typesOf type (ds.map (relabel ρ e)) = typesOf (fun a => type (e a)) ds := by
  rw [typesOf, List.map_map]
  rfl

/-- The coordinate of a member depends on its name only. -/
theorem head_name_relabel (name : β → String) :
    ((ds.map (relabel ρ e)).head?.map fun d => name d.node) =
      ds.head?.map fun d => name (e d.node) := by
  rw [List.head?_map, Option.map_map]
  rfl

/-- The service that came first is the same under ranks in the same order. -/
theorem firstDescription_relabel (hρ : StrictMono ρ) (description : β → Option String) :
    firstDescription description (ds.map (relabel ρ e)) =
      firstDescription (fun a => description (e a)) ds := by
  have hfilter := filter_node_relabel (ρ := ρ) (e := e) ds fun b => (description b).isSome
  have hsort := List.map_mergeSort (f := relabel ρ e)
    (l := ds.filter fun d => (description (e d.node)).isSome)
    (r := fun a b => decide (a.rank ≤ b.rank)) (s := fun a b => decide (a.rank ≤ b.rank))
    fun a _ b _ => by simp only [relabel_rank, hρ.le_iff_le]
  simp only [firstDescription, hfilter, ← hsort, List.head?_map, Option.bind_map]
  rfl

section

variable (hρ : Function.Injective ρ)
include hρ

theorem firstPerService_relabel :
    firstPerService (ds.map (relabel ρ e)) = (firstPerService ds).map (relabel ρ e) :=
  firstsBy_map Declared.rank Declared.rank (fun _ _ => hρ.eq_iff) ds

theorem filter_rank_relabel (n : Nat) :
    ((ds.map (relabel ρ e)).filter (·.rank == ρ n)) =
      (ds.filter (·.rank == n)).map (relabel ρ e) := by
  rw [List.filter_map]
  congr 1
  refine List.filter_congr fun d _ => ?_
  simp only [Function.comp, relabel_rank, beq_eq_beq]
  exact hρ.eq_iff

theorem repeatedByService_relabel :
    repeatedByService (ds.map (relabel ρ e)) = (repeatedByService ds).map (relabel ρ e) := by
  rw [repeatedByService, firstPerService_relabel ds hρ, List.filter_map]
  congr 1
  refine List.filter_congr fun d _ => ?_
  simp only [Function.comp, relabel_rank, filter_rank_relabel ds hρ, List.length_map]

theorem repetitionProblems_relabel (kind : MemberKind) (coordinate : Coordinate) :
    repetitionProblems kind coordinate (ds.map (relabel ρ e)) =
      repetitionProblems kind coordinate ds := by
  rw [repetitionProblems, repeatedByService_relabel ds hρ, List.map_map]
  rfl

/-- The members that declarations are composed to are those under other labels, up to what the way
to compose them is indifferent to. -/
theorem map_composed_relabel {γ δ ε : Type} {name : β → String}
    {compose : List (Declared β) → Option γ} {compose' : List (Declared α) → Option δ}
    {t : γ → ε} {t' : δ → ε}
    (h : ∀ ds, (compose (ds.map (relabel ρ e))).map t = (compose' ds).map t') :
    ((byMember name (ds.map (relabel ρ e))).filterMap fun ds =>
        compose (firstPerService ds)).map t =
      ((byMember (fun a => name (e a)) ds).filterMap fun ds =>
        compose' (firstPerService ds)).map t' := by
  rw [byMember_relabel, List.filterMap_map, List.map_filterMap, List.map_filterMap]
  refine List.filterMap_congr fun ds _ => ?_
  rw [Function.comp, firstPerService_relabel ds hρ, h]

/-- Where the way to compose them is indifferent to nothing, the members are the same. -/
theorem composed_relabel {γ δ : Type} {name : β → String} {compose : List (Declared β) → Option γ}
    {compose' : List (Declared α) → Option δ} {t : δ → γ}
    (h : ∀ ds, compose (ds.map (relabel ρ e)) = (compose' ds).map t) :
    ((byMember name (ds.map (relabel ρ e))).filterMap fun ds => compose (firstPerService ds)) =
      ((byMember (fun a => name (e a)) ds).filterMap fun ds =>
        compose' (firstPerService ds)).map t := by
  have hid : ∀ ds, (compose (ds.map (relabel ρ e))).map id = (compose' ds).map t := by
    intro ds
    rw [h, Option.map_id_fun, id]
  exact (List.map_id _).symm.trans (map_composed_relabel ds hρ hid)

end

/-! What is wrong with a member is not reported at a location. -/

variable (τ : Location → Location)

theorem relocate_repetitionProblems (kind : MemberKind) (coordinate : Coordinate) :
    (repetitionProblems kind coordinate ds).map (Diagnostic.relocate τ) =
      repetitionProblems kind coordinate ds := by
  rw [repetitionProblems, List.map_map]
  rfl

theorem relocate_typeProblems (element : TypedElement) (coordinate : Coordinate)
    (types : List (String × TypeRef)) :
    (typeProblems element coordinate types).map (Diagnostic.relocate τ) =
      typeProblems element coordinate types := by
  rw [typeProblems]
  split <;> rfl

theorem relocate_directiveProblems (isRepeatable : String → Bool)
    (directives : α → List Directive) (coordinate : Coordinate) :
    (directiveProblems isRepeatable directives coordinate ds).map (Diagnostic.relocate τ) =
      directiveProblems isRepeatable directives coordinate ds := by
  rw [directiveProblems, Directive.conflictDiagnostics, List.map_map]
  rfl

end Declared

namespace FieldDeclaration

variable {ρ : Nat → Nat} {τ : Location → Location} (isRepeatable : String → Bool)
variable (ds : List (Declared FieldDeclaration))

theorem canonical?_relabel :
    canonical? (ds.map (relabel ρ (relocate τ))) =
      (canonical? ds).map (relabel ρ (relocate τ)) := by
  have hfind : (ds.map (relabel ρ (relocate τ))).find? (!·.node.isExternal) =
      (ds.find? (!·.node.isExternal)).map (relabel ρ (relocate τ)) := List.find?_map ..
  rw [canonical?, hfind, List.head?_map, canonical?]
  cases ds.find? (!·.node.isExternal) <;> rfl

theorem resolving_relabel :
    resolving (ds.map (relabel ρ (relocate τ))) = (resolving ds).map (relabel ρ (relocate τ)) :=
  List.filter_map ..

/-- Arguments are added by their names. -/
theorem addArguments_relocate (arguments others : List InputValue) :
    addArguments (arguments.map (InputValue.relocate τ)) (others.map (InputValue.relocate τ)) =
      (addArguments arguments others).map (InputValue.relocate τ) := by
  induction others generalizing arguments with
  | nil => rfl
  | cons a others ih =>
    have hany : (arguments.map (InputValue.relocate τ)).any (·.name == (a.relocate τ).name) =
        arguments.any (·.name == a.name) := List.any_map
    rw [addArguments, List.map_cons, List.foldl_cons, hany, addArguments, List.foldl_cons]
    split
    · exact ih arguments
    · have h := ih (arguments ++ [a])
      rw [List.map_append] at h
      exact h

/-- **A field is composed as under other labels**, with the description that ranks give it. -/
theorem compose?_map_relabel :
    compose? isRepeatable (ds.map (relabel ρ (relocate τ))) =
      (compose? isRepeatable ds).map fun f =>
        { f.relocate τ with
          description :=
            firstDescription (·.node.description) (ds.map (relabel ρ (relocate τ))) } := by
  have harguments : (ds.map (relabel ρ (relocate τ))).flatMap (·.node.node.arguments) =
      (ds.flatMap (·.node.node.arguments)).map (InputValue.relocate τ) := by
    rw [List.flatMap_map, List.map_flatMap]
    rfl
  simp only [compose?, canonical?_relabel, Option.map_map, harguments, mergedDirectives_relabel]
  refine Option.map_congr fun c _ => ?_
  have hadd := addArguments_relocate (τ := τ) c.node.node.arguments
    (ds.flatMap (·.node.node.arguments))
  simp only [Function.comp, relabel_node, relocate, Field.relocate, hadd]

theorem compose?_relabel (σ : String → Option String) :
    (compose? isRepeatable (ds.map (relabel ρ (relocate τ)))).map (Field.describe σ) =
      (compose? isRepeatable ds).map fun f => (f.relocate τ).describe σ := by
  rw [compose?_map_relabel, Option.map_map]
  rfl

/-- Under ranks in the same order the description is the same too. -/
theorem compose?_relabel_of_strictMono (hρ : StrictMono ρ) :
    compose? isRepeatable (ds.map (relabel ρ (relocate τ))) =
      (compose? isRepeatable ds).map (Field.relocate τ) := by
  rw [compose?_map_relabel, firstDescription_relabel ds hρ, compose?, Option.map_map,
    Option.map_map]
  rfl

theorem argumentProblems_relabel (coordinate : Coordinate) :
    argumentProblems coordinate (ds.map (relabel ρ (relocate τ))) =
      argumentProblems coordinate ds := by
  have hnames : (ds.map (relabel ρ (relocate τ))).flatMap
      (fun d => d.node.node.arguments.map (·.name)) =
        ds.flatMap fun d => d.node.node.arguments.map (·.name) := by
    rw [List.flatMap_map]
    refine List.flatMap_congr fun d _ => ?_
    exact List.map_map
  have htypes : ∀ name : String, (ds.map (relabel ρ (relocate τ))).filterMap
      (fun d => (d.node.node.argument? name).map fun a => (d.service, a.type)) =
        ds.filterMap fun d => (d.node.node.argument? name).map fun a => (d.service, a.type) := by
    intro name
    rw [List.filterMap_map]
    refine List.filterMap_congr fun d _ => ?_
    have hargument := Field.argument?_relocate τ d.node.node name
    simp only [Function.comp, relabel_node, relabel_service, relocate, hargument, Option.map_map]
    rfl
  simp only [argumentProblems, hnames, htypes]

theorem resolverProblems_relabel (coordinate : Coordinate) :
    resolverProblems coordinate (ds.map (relabel ρ (relocate τ))) =
      resolverProblems coordinate ds := by
  simp only [resolverProblems, resolving_relabel, typesOf_relabel, List.length_map,
    services_relabel]
  rfl

/-- **What is wrong with a field is wrong with it under other labels.** -/
theorem problems_relabel (hρ : Function.Injective ρ) (typeName : String) (isShared : Bool) :
    problems isRepeatable typeName isShared (ds.map (relabel ρ (relocate τ))) =
      problems isRepeatable typeName isShared ds := by
  simp only [problems, head_name_relabel ds FieldDeclaration.name, firstPerService_relabel ds hρ,
    repetitionProblems_relabel ds hρ, typesOf_relabel, argumentProblems_relabel,
    resolverProblems_relabel, directiveProblems_relabel]
  rfl

theorem relocate_problems (typeName : String) (isShared : Bool) :
    (problems isRepeatable typeName isShared ds).map (Diagnostic.relocate τ) =
      problems isRepeatable typeName isShared ds := by
  have harguments : ∀ coordinate (ds : List (Declared FieldDeclaration)),
      (argumentProblems coordinate ds).map (Diagnostic.relocate τ) =
        argumentProblems coordinate ds := by
    intro coordinate ds
    rw [argumentProblems, List.map_flatMap]
    exact List.flatMap_congr fun name _ => relocate_typeProblems τ _ _ _
  have hresolvers : ∀ coordinate (ds : List (Declared FieldDeclaration)),
      (resolverProblems coordinate ds).map (Diagnostic.relocate τ) =
        resolverProblems coordinate ds := by
    intro coordinate ds
    simp only [resolverProblems]
    split <;> rfl
  simp only [problems, List.map_append, relocate_repetitionProblems, relocate_typeProblems,
    harguments, relocate_directiveProblems]
  congr 2
  split
  · rfl
  · exact hresolvers _ _

end FieldDeclaration

namespace InputValue

variable {ρ : Nat → Nat} {τ : Location → Location} (isRepeatable : String → Bool)
variable (ds : List (Declared InputValue))

/-- **An input field is composed as under other labels**, with the description that ranks give
it. -/
theorem compose?_map_relabel :
    compose? isRepeatable (ds.map (relabel ρ (relocate τ))) =
      (compose? isRepeatable ds).map fun v =>
        { v.relocate τ with
          description := firstDescription (·.description) (ds.map (relabel ρ (relocate τ))) } := by
  simp only [compose?, List.head?_map, Option.map_map, List.findSome?_map,
    mergedDirectives_relabel]
  rfl

theorem compose?_relabel (σ : String → Option String) :
    (compose? isRepeatable (ds.map (relabel ρ (relocate τ)))).map (describe σ) =
      (compose? isRepeatable ds).map fun v => (v.relocate τ).describe σ := by
  rw [compose?_map_relabel, Option.map_map]
  rfl

theorem compose?_relabel_of_strictMono (hρ : StrictMono ρ) :
    compose? isRepeatable (ds.map (relabel ρ (relocate τ))) =
      (compose? isRepeatable ds).map (relocate τ) := by
  rw [compose?_map_relabel, firstDescription_relabel ds hρ, compose?, Option.map_map,
    Option.map_map]
  rfl

theorem problems_relabel (hρ : Function.Injective ρ) (typeName : String) :
    problems isRepeatable typeName (ds.map (relabel ρ (relocate τ))) =
      problems isRepeatable typeName ds := by
  simp only [problems, head_name_relabel ds InputValue.name, firstPerService_relabel ds hρ,
    repetitionProblems_relabel ds hρ, typesOf_relabel, directiveProblems_relabel]
  rfl

theorem relocate_problems (typeName : String) :
    (problems isRepeatable typeName ds).map (Diagnostic.relocate τ) =
      problems isRepeatable typeName ds := by
  simp only [problems, List.map_append, relocate_repetitionProblems, relocate_typeProblems,
    relocate_directiveProblems]

end InputValue

namespace EnumValue

variable {ρ : Nat → Nat} {τ : Location → Location} (isRepeatable : String → Bool)
variable (ds : List (Declared EnumValue))

/-- **A value is composed as under other labels**, with the description that ranks give it. -/
theorem compose?_map_relabel :
    compose? isRepeatable (ds.map (relabel ρ (relocate τ))) =
      (compose? isRepeatable ds).map fun v =>
        { v.relocate τ with
          description := firstDescription (·.description) (ds.map (relabel ρ (relocate τ))) } := by
  simp only [compose?, List.head?_map, Option.map_map, mergedDirectives_relabel]
  rfl

theorem compose?_relabel (σ : String → Option String) :
    (compose? isRepeatable (ds.map (relabel ρ (relocate τ)))).map (describe σ) =
      (compose? isRepeatable ds).map fun v => (v.relocate τ).describe σ := by
  rw [compose?_map_relabel, Option.map_map]
  rfl

theorem compose?_relabel_of_strictMono (hρ : StrictMono ρ) :
    compose? isRepeatable (ds.map (relabel ρ (relocate τ))) =
      (compose? isRepeatable ds).map (relocate τ) := by
  rw [compose?_map_relabel, firstDescription_relabel ds hρ, compose?, Option.map_map,
    Option.map_map]
  rfl

theorem problems_relabel (hρ : Function.Injective ρ) (typeName : String) :
    problems isRepeatable typeName (ds.map (relabel ρ (relocate τ))) =
      problems isRepeatable typeName ds := by
  simp only [problems, head_name_relabel ds EnumValue.name, firstPerService_relabel ds hρ,
    repetitionProblems_relabel ds hρ, directiveProblems_relabel]
  rfl

theorem relocate_problems (typeName : String) :
    (problems isRepeatable typeName ds).map (Diagnostic.relocate τ) =
      problems isRepeatable typeName ds := by
  simp only [problems, List.map_append, relocate_repetitionProblems, relocate_directiveProblems]

end EnumValue

/-! ## Types -/

namespace TypeGroup

/-- The declarations of a type under other ranks and at other locations. -/
def relabel (ρ : Nat → Nat) (τ : Location → Location) (g : TypeGroup) : TypeGroup :=
  g.map (Declared.relabel ρ (Declaration.relocate τ))

variable {ρ : Nat → Nat} {τ : Location → Location} (g : TypeGroup)

@[simp] theorem name_relabel : (g.relabel ρ τ).name = g.name := by
  rw [name, relabel, List.head?_map, Option.map_map]
  rfl

@[simp] theorem kind_relabel : (g.relabel ρ τ).kind = g.kind := by
  rw [kind, relabel, List.head?_map, Option.map_map, kind]
  congr 2
  funext d
  exact d.node.node.kind_relocate τ

theorem kind_node_relabel (d : Declared Declaration) :
    (d.relabel ρ (Declaration.relocate τ)).node.kind = d.node.kind :=
  d.node.node.kind_relocate τ

theorem ofOneKind_relabel : (g.relabel ρ τ).ofOneKind = g.ofOneKind.relabel ρ τ := by
  rw [ofOneKind, kind_relabel, relabel, List.filter_map, ofOneKind, relabel]
  simp only [Function.comp_def, kind_node_relabel]

@[simp] theorem isRoot_relabel : (g.relabel ρ τ).isRoot = g.isRoot := by
  rw [isRoot, relabel, List.any_map]
  rfl

theorem baseDeclarations_relabel :
    (g.relabel ρ τ).baseDeclarations = g.baseDeclarations.relabel ρ τ :=
  filter_node_relabel g fun d : Declaration => !d.isExtension

theorem fieldDeclarations_relabel :
    (g.relabel ρ τ).fieldDeclarations =
      g.fieldDeclarations.map (Declared.relabel ρ (FieldDeclaration.relocate τ)) := by
  simp only [fieldDeclarations, relabel, List.flatMap_map, List.map_flatMap, List.map_map,
    relabel_node, Declaration.relocate]
  rfl

theorem enumValues_relabel :
    (g.relabel ρ τ).enumValues =
      g.enumValues.map (Declared.relabel ρ (EnumValue.relocate τ)) := by
  simp only [enumValues, relabel, List.flatMap_map, List.map_flatMap, List.map_map, relabel_node,
    Declaration.relocate, TypeDefinition.relocate, TypeBody.enumValues_relocate]
  rfl

theorem inputFields_relabel :
    (g.relabel ρ τ).inputFields =
      g.inputFields.map (Declared.relabel ρ (InputValue.relocate τ)) := by
  simp only [inputFields, relabel, List.flatMap_map, List.map_flatMap, List.map_map, relabel_node,
    Declaration.relocate, TypeDefinition.relocate, TypeBody.inputFields_relocate]
  rfl

theorem fieldGroups_relabel :
    (g.relabel ρ τ).fieldGroups =
      g.fieldGroups.map (List.map (Declared.relabel ρ (FieldDeclaration.relocate τ))) := by
  rw [fieldGroups, fieldDeclarations_relabel, byMember_relabel]
  rfl

@[simp] theorem implements_relabel : (g.relabel ρ τ).implements = g.implements := by
  simp only [implements, relabel, List.flatMap_map, relabel_node, Declaration.relocate,
    TypeDefinition.implements_relocate]

theorem location_relabel (hτ : τ Location.none = Location.none) :
    ((g.relabel ρ τ).head?.map (·.node.node.location)).getD Location.none =
      τ ((g.head?.map (·.node.node.location)).getD Location.none) := by
  rw [relabel]
  cases g with
  | nil => exact hτ.symm
  | cons d ds => rfl

theorem mergedDirectives_node_relabel (isRepeatable : String → Bool) :
    mergedDirectives isRepeatable (·.node.directives) (g.relabel ρ τ) =
      mergedDirectives isRepeatable (·.node.directives) g := by
  rw [relabel, mergedDirectives_relabel]
  rfl

@[simp] theorem keys_relabel : (g.relabel ρ τ).keys = g.keys := by
  rw [keys, relabel, List.flatMap_map]
  rfl

@[simp] theorem kindProblems_relabel : (g.relabel ρ τ).kindProblems = g.kindProblems := by
  rw [kindProblems, kindListing, kind_relabel, name_relabel, kindProblems, kindListing, relabel,
    List.all_map, List.map_map]
  simp only [Function.comp_def, kind_node_relabel, relabel_service]

section

variable (hρ : Function.Injective ρ)
include hρ

theorem bases_relabel : (g.relabel ρ τ).bases = g.bases.relabel ρ τ := by
  rw [bases, baseDeclarations_relabel, relabel, firstPerService_relabel _ hρ, bases, relabel]

theorem isValueType_relabel : (g.relabel ρ τ).isValueType = g.isValueType := by
  rw [isValueType, bases_relabel g hρ, isValueType]
  rcases g.bases with _ | ⟨first, _ | ⟨second, others⟩⟩
  · rfl
  · rfl
  · simp [relabel, Declaration.relocate, List.all_map, Function.comp_def]

theorem hasConflictingBases_relabel :
    (g.relabel ρ τ).hasConflictingBases = g.hasConflictingBases := by
  rw [hasConflictingBases, bases_relabel g hρ, isValueType_relabel g hρ, relabel, List.length_map,
    hasConflictingBases]

theorem isShared_relabel : (g.relabel ρ τ).isShared = g.isShared := by
  rw [isShared, isRoot_relabel, isValueType_relabel g hρ, hasConflictingBases_relabel g hρ,
    isShared]

theorem owner?_relabel : (g.relabel ρ τ).owner? = g.owner? := by
  rw [owner?, bases_relabel g hρ, owner?]
  rcases g.bases with _ | ⟨first, _ | ⟨second, others⟩⟩ <;> rfl

theorem fieldOwnership_relabel (ds : List (Declared FieldDeclaration)) :
    fieldOwnership (ds.map (Declared.relabel ρ (FieldDeclaration.relocate τ))) =
      fieldOwnership ds := by
  rw [fieldOwnership, head_name_relabel ds FieldDeclaration.name, firstPerService_relabel ds hρ,
    List.map_map]
  rfl

/-- **The record of a type is that under other labels.** -/
theorem ownership_relabel : (g.relabel ρ τ).ownership = g.ownership := by
  have hfields : (g.relabel ρ τ).fieldGroups.map fieldOwnership =
      g.fieldGroups.map fieldOwnership := by
    rw [fieldGroups_relabel, List.map_map]
    exact List.map_congr_left fun ds _ => fieldOwnership_relabel hρ ds
  simp only [ownership, name_relabel, owner?_relabel g hρ, isValueType_relabel g hρ, keys_relabel,
    kind_relabel, hfields]

theorem repeatedBaseProblems_relabel :
    (g.relabel ρ τ).repeatedBaseProblems =
      g.repeatedBaseProblems.map (Diagnostic.relocate τ) := by
  rw [repeatedBaseProblems, name_relabel, baseDeclarations_relabel, relabel,
    repeatedByService_relabel _ hρ, List.map_map, repeatedBaseProblems, List.map_map]
  refine List.map_congr_left fun d _ => ?_
  simp only [Function.comp, relabel_rank, relabel_service, filter_rank_relabel _ hρ,
    List.getElem?_map, Option.map_map, Diagnostic.relocate]
  rfl

theorem memberProblems_relabel (isRepeatable : String → Bool) :
    (g.relabel ρ τ).memberProblems isRepeatable =
      (g.memberProblems isRepeatable).map (Diagnostic.relocate τ) := by
  have hfields : (g.relabel ρ τ).fieldGroups.flatMap
      (FieldDeclaration.problems isRepeatable g.name g.isShared) =
        (g.fieldGroups.flatMap (FieldDeclaration.problems isRepeatable g.name g.isShared)).map
          (Diagnostic.relocate τ) := by
    rw [fieldGroups_relabel, List.flatMap_map, List.map_flatMap]
    refine List.flatMap_congr fun ds _ => ?_
    rw [FieldDeclaration.problems_relabel _ ds hρ, FieldDeclaration.relocate_problems]
  have henum : (byMember EnumValue.name (g.relabel ρ τ).enumValues).flatMap
      (EnumValue.problems isRepeatable g.name) =
        ((byMember EnumValue.name g.enumValues).flatMap
          (EnumValue.problems isRepeatable g.name)).map (Diagnostic.relocate τ) := by
    rw [enumValues_relabel, byMember_relabel, List.flatMap_map, List.map_flatMap]
    refine List.flatMap_congr fun ds _ => ?_
    rw [EnumValue.problems_relabel _ ds hρ, EnumValue.relocate_problems]
  have hinput : (byMember InputValue.name (g.relabel ρ τ).inputFields).flatMap
      (InputValue.problems isRepeatable g.name) =
        ((byMember InputValue.name g.inputFields).flatMap
          (InputValue.problems isRepeatable g.name)).map (Diagnostic.relocate τ) := by
    rw [inputFields_relabel, byMember_relabel, List.flatMap_map, List.map_flatMap]
    refine List.flatMap_congr fun ds _ => ?_
    rw [InputValue.problems_relabel _ ds hρ, InputValue.relocate_problems]
  rw [memberProblems, memberProblems, kind_relabel, name_relabel, isShared_relabel g hρ, hfields,
    henum, hinput]
  cases g.kind <;> rfl

/-- **What is wrong with a type is wrong with it under other labels.** -/
theorem problems_relabel (isRepeatable : String → Bool) :
    (g.relabel ρ τ).problems isRepeatable =
      (g.problems isRepeatable).map (Diagnostic.relocate τ) := by
  have hone : ∀ g : TypeGroup, problemsOfOneKind isRepeatable (g.relabel ρ τ) =
      (g.problemsOfOneKind isRepeatable).map (Diagnostic.relocate τ) := by
    intro g
    have hmissing : (g.relabel ρ τ).missingBaseProblems =
        g.missingBaseProblems.map (Diagnostic.relocate τ) := by
      have hempty : (g.bases.relabel ρ τ).isEmpty = g.bases.isEmpty := List.isEmpty_map
      have hservices : services (g.relabel ρ τ) = services g := services_relabel g
      simp only [missingBaseProblems, bases_relabel g hρ, hempty, isRoot_relabel, name_relabel,
        hservices]
      split <;> rfl
    have hconflict : (g.relabel ρ τ).conflictingBaseProblems =
        g.conflictingBaseProblems.map (Diagnostic.relocate τ) := by
      have hservices : services (g.bases.relabel ρ τ) = services g.bases :=
        services_relabel g.bases
      simp only [conflictingBaseProblems, hasConflictingBases_relabel g hρ, bases_relabel g hρ,
        name_relabel, hservices]
      split <;> rfl
    have hdirectives : directiveProblems isRepeatable (·.node.directives) (.type g.name)
        (g.relabel ρ τ) =
          (directiveProblems isRepeatable (·.node.directives) (.type g.name) g).map
            (Diagnostic.relocate τ) := by
      rw [relabel, directiveProblems_relabel, relocate_directiveProblems]
      rfl
    simp only [problemsOfOneKind, repeatedBaseProblems_relabel g hρ, hconflict, hmissing,
      memberProblems_relabel g hρ, name_relabel, hdirectives, List.map_append]
  have hkind : g.kindProblems = g.kindProblems.map (Diagnostic.relocate τ) := by
    rw [kindProblems]
    split <;> rfl
  rw [problems, kindProblems_relabel, ofOneKind_relabel, hone, problems, List.map_append, ← hkind]

theorem fields_relabel (isRepeatable : String → Bool) (σ : String → Option String) :
    ((g.relabel ρ τ).fields isRepeatable).map (Field.describe σ) =
      (g.fields isRepeatable).map fun f => (f.relocate τ).describe σ := by
  rw [fields, fieldGroups, fieldDeclarations_relabel]
  exact map_composed_relabel _ hρ fun ds => FieldDeclaration.compose?_relabel isRepeatable ds σ

/-- **What a type holds is what it holds under other labels**, up to descriptions. -/
theorem body_relabel (isRepeatable : String → Bool) (σ : String → Option String) :
    ((g.relabel ρ τ).body isRepeatable).describe σ =
      ((g.body isRepeatable).relocate τ).describe σ := by
  have hobject : ∀ implements : List String,
      ({ implements, fields := ((g.relabel ρ τ).fields isRepeatable).map (Field.describe σ) } :
        ObjectBody) =
        { implements,
          fields := ((g.fields isRepeatable).map (Field.relocate τ)).map (Field.describe σ) } := by
    intro implements
    rw [fields_relabel g hρ, List.map_map]
    rfl
  rw [body, body, kind_relabel, implements_relabel]
  cases g.kind with
  | scalar => rfl
  | object => exact congrArg TypeBody.object (hobject _)
  | interface => exact congrArg TypeBody.interface (hobject _)
  | union =>
    simp only [relabel, List.flatMap_map, relabel_node, Declaration.relocate,
      TypeDefinition.relocate, TypeBody.members_relocate]
    rfl
  | enum =>
    simp only [TypeBody.relocate, TypeBody.describe, enumValues_relabel, List.map_map]
    exact congrArg TypeBody.enum (map_composed_relabel _ hρ fun ds =>
      EnumValue.compose?_relabel isRepeatable ds σ)
  | inputObject =>
    simp only [TypeBody.relocate, TypeBody.describe, inputFields_relabel, List.map_map]
    exact congrArg TypeBody.inputObject (map_composed_relabel _ hρ fun ds =>
      InputValue.compose?_relabel isRepeatable ds σ)

/-- **A type is composed as under other labels**, up to descriptions. -/
theorem definition_relabel (hτ : τ Location.none = Location.none) (isRepeatable : String → Bool)
    (σ : Coordinate → Option String) :
    ((g.relabel ρ τ).definition isRepeatable).describe σ =
      ((g.definition isRepeatable).relocate τ).describe σ := by
  simp only [definition, TypeDefinition.relocate, TypeDefinition.describe, name_relabel,
    mergedDirectives_node_relabel, location_relabel g hτ, body_relabel g hρ]

end

/-! Under ranks in the same order descriptions are the same too. -/

section

variable (hρ : StrictMono ρ)
include hρ

theorem body_relabel_of_strictMono (isRepeatable : String → Bool) :
    (g.relabel ρ τ).body isRepeatable = (g.body isRepeatable).relocate τ := by
  have hfields : (g.relabel ρ τ).fields isRepeatable =
      (g.fields isRepeatable).map (Field.relocate τ) := by
    rw [fields, fieldGroups, fieldDeclarations_relabel]
    exact composed_relabel _ hρ.injective fun ds =>
      FieldDeclaration.compose?_relabel_of_strictMono isRepeatable ds hρ
  rw [body, body, kind_relabel, implements_relabel, hfields]
  cases g.kind with
  | scalar => rfl
  | object => rfl
  | interface => rfl
  | union =>
    simp only [relabel, List.flatMap_map, relabel_node, Declaration.relocate,
      TypeDefinition.relocate, TypeBody.members_relocate]
    rfl
  | enum =>
    rw [enumValues_relabel]
    exact congrArg TypeBody.enum (composed_relabel _ hρ.injective fun ds =>
      EnumValue.compose?_relabel_of_strictMono isRepeatable ds hρ)
  | inputObject =>
    rw [inputFields_relabel]
    exact congrArg TypeBody.inputObject (composed_relabel _ hρ.injective fun ds =>
      InputValue.compose?_relabel_of_strictMono isRepeatable ds hρ)

/-- **A type is composed as under other labels whose ranks are in the same order.** -/
theorem definition_relabel_of_strictMono (hτ : τ Location.none = Location.none)
    (isRepeatable : String → Bool) :
    (g.relabel ρ τ).definition isRepeatable = (g.definition isRepeatable).relocate τ := by
  have hdescription : firstDescription (·.node.description) (g.relabel ρ τ) =
      firstDescription (·.node.description) g := firstDescription_relabel g hρ _
  simp only [definition, TypeDefinition.relocate, name_relabel, hdescription,
    mergedDirectives_node_relabel, location_relabel g hτ, body_relabel_of_strictMono g hρ]

end

end TypeGroup

/-! ## Directive definitions -/

namespace DirectiveDefinition

variable (τ : Location → Location)

/-- **Definitions of a directive agree wherever they stand.** -/
@[simp] theorem sameSignature_relocate (a b : DirectiveDefinition) :
    (a.relocate τ).sameSignature (b.relocate τ) = a.sameSignature b := by
  have hsignature : ∀ d : DirectiveDefinition,
      (d.relocate τ).argumentSignature = d.argumentSignature := by
    intro d
    have hsort : sortByName InputValue.name (d.arguments.map (InputValue.relocate τ)) =
        (sortByName InputValue.name d.arguments).map (InputValue.relocate τ) :=
      sortByName_map (InputValue.relocate τ) (fun _ => rfl) _
    have hsignature := congrArg
      (List.map fun a : InputValue => (a.name, a.type, a.default.map Value.canonical)) hsort
    rw [List.map_map] at hsignature
    exact hsignature
  rw [sameSignature, hsignature, hsignature]
  rfl

end DirectiveDefinition

namespace DirectiveGroup

variable {ρ : Nat → Nat} {τ : Location → Location} (g : DirectiveGroup)

theorem definition?_relabel (σ : Coordinate → Option String) :
    (definition? (g.map (relabel ρ (DirectiveDefinition.relocate τ)))).map
        (DirectiveDefinition.describe σ) =
      (definition? g).map fun d => (d.relocate τ).describe σ := by
  rw [definition?, definition?, List.head?_map, Option.map_map, Option.map_map, Option.map_map]
  rfl

theorem definition?_relabel_of_strictMono (hρ : StrictMono ρ) :
    definition? (g.map (relabel ρ (DirectiveDefinition.relocate τ))) =
      (definition? g).map (DirectiveDefinition.relocate τ) := by
  rw [definition?, definition?, List.head?_map, firstDescription_relabel g hρ, Option.map_map,
    Option.map_map]
  rfl

theorem problems_relabel :
    problems (g.map (relabel ρ (DirectiveDefinition.relocate τ))) =
      (problems g).map (Diagnostic.relocate τ) := by
  cases g with
  | nil => rfl
  | cons first others =>
    have hall : ((first :: others).map (relabel ρ (DirectiveDefinition.relocate τ))).all
        (fun d => (first.relabel ρ (DirectiveDefinition.relocate τ)).node.sameSignature d.node) =
          (first :: others).all fun d => first.node.sameSignature d.node := by
      simp only [List.all_map, Function.comp_def, relabel_node,
        DirectiveDefinition.sameSignature_relocate]
    have hservices := services_relabel (ρ := ρ) (e := DirectiveDefinition.relocate τ)
      (first :: others)
    rw [List.map_cons] at hall hservices
    rw [List.map_cons, problems, hall, hservices, problems]
    split <;> rfl

end DirectiveGroup

end Federation
