import Federation.Proofs.Composition.Descriptions
import Federation.Proofs.Composition.OrderIndependence
import Federation.Proofs.Composition.Reordering
import Mathlib
/-!
# Composition — source positions do not matter

Services at other locations are composed to the supergraph at these
locations, or rejected by the same diagnostics at these locations
(`compose_relocate`). Locations are carried along and nothing depends on
them, so services that differ in locations only are composed to
supergraphs that differ in locations only, with the same text
(`compose_sameButLocations`).
-/

namespace Federation

variable {τ : Location → Location}

/-! ## The annotated schema -/

theorem Schema.rootType?_relocate (τ : Location → Location) (s : Schema)
    (operation : OperationType) :
    (s.relocate τ).rootType? operation =
      (s.rootType? operation).map (TypeDefinition.relocate τ) :=
  List.find?_map ..

namespace Supergraph

/-- The supergraph with every node at another location. -/
def relocate (τ : Location → Location) (g : Supergraph) : Supergraph :=
  { schema := g.schema.relocate τ, document := g.document.relocate τ }

theorem annotateField_relocate (graphs : List Graph) (t : TypeOwnership) (f : Field) :
    annotateField graphs t (f.relocate τ) = (annotateField graphs t f).relocate τ := by
  have hname : (f.relocate τ).name = f.name := rfl
  rw [annotateField, hname, annotateField]
  cases (t.field? f.name).bind resolver? <;> rfl

theorem annotate_relocate (s : Schema) (graphs : List Graph) (d : TypeDefinition) :
    annotate (s.relocate τ) graphs (d.relocate τ) = (annotate s graphs d).relocate τ := by
  have hownership : (s.relocate τ).ownership? (d.relocate τ).name = s.ownership? d.name := rfl
  rw [annotate, hownership, annotate]
  cases s.ownership? d.name with
  | none => rfl
  | some t =>
    have hfields : ∀ fs : List Field,
        (fs.map (Field.relocate τ)).map (annotateField graphs t) =
          (fs.map (annotateField graphs t)).map (Field.relocate τ) := by
      intro fs
      rw [List.map_map, List.map_map]
      exact List.map_congr_left fun f _ => annotateField_relocate graphs t f
    have hbody : (d.relocate τ).body = d.body.relocate τ := rfl
    rw [hbody]
    cases hd : d.body with
    | object b => simp only [TypeBody.relocate, TypeDefinition.relocate, hfields]
    | interface b => simp only [TypeBody.relocate, TypeDefinition.relocate, hfields]
    | scalar => rfl
    | union members => rfl
    | enum values => rfl
    | inputObject fields => rfl

/-- **The annotations do not depend on locations.** What they are defined by stands nowhere. -/
theorem annotated_relocate (hτ : τ Location.none = Location.none) (s : Schema)
    (graphs : List Graph) :
    annotated (s.relocate τ) graphs = (annotated s graphs).relocate τ := by
  have hroots : (OperationType.all.filterMap fun operation =>
      ((s.relocate τ).rootType? operation).map fun root =>
        (⟨operation, root.name⟩ : RootOperation)) =
        OperationType.all.filterMap fun operation =>
          (s.rootType? operation).map fun root => ⟨operation, root.name⟩ := by
    simp only [Schema.rootType?_relocate, Option.map_map]
    rfl
  have hschema : schemaDefinition (s.relocate τ) = (schemaDefinition s).relocate τ := by
    simp only [schemaDefinition, hroots, SchemaDefinition.relocate, hτ]
  have hdirectives : directiveDefinitions.map (DirectiveDefinition.relocate τ) =
      directiveDefinitions := by
    simp [directiveDefinitions, argument, DirectiveDefinition.relocate, InputValue.relocate, hτ]
  have hpurpose : purposeDefinition.relocate τ = purposeDefinition := by
    simp [purposeDefinition, TypeDefinition.relocate, TypeBody.relocate, EnumValue.relocate, hτ]
  have hfieldSet : fieldSetDefinition.relocate τ = fieldSetDefinition := by
    simp [fieldSetDefinition, TypeDefinition.relocate, TypeBody.relocate, hτ]
  have hgraph : (graphDefinition graphs).relocate τ = graphDefinition graphs := by
    simp [graphDefinition, TypeDefinition.relocate, TypeBody.relocate, EnumValue.relocate, hτ]
  have hlift : ∀ ds : List DirectiveDefinition,
      (ds.map Definition.directive).map (Definition.relocate τ) =
        (ds.map (DirectiveDefinition.relocate τ)).map Definition.directive := by
    intro ds
    rw [List.map_map, List.map_map]
    rfl
  have htypes : (s.types.map (TypeDefinition.relocate τ)).map
      (fun d => Definition.type (annotate (s.relocate τ) graphs d)) =
        (s.types.map fun d => Definition.type (annotate s graphs d)).map
          (Definition.relocate τ) := by
    rw [List.map_map, List.map_map]
    exact List.map_congr_left fun d _ => congrArg Definition.type (annotate_relocate s graphs d)
  simp only [annotated, Document.relocate, List.map_append, List.map_cons, List.map_nil, hlift,
    hschema, hdirectives, ← htypes, Definition.relocate, hpurpose, hfieldSet, hgraph]
  rfl

end Supergraph

/-! ## The outcome of a composition -/

/-- The outcome of a composition with everything at another location. -/
def Supergraph.relocateOutcome (τ : Location → Location) :
    Except (List Diagnostic) Supergraph → Except (List Diagnostic) Supergraph
  | .error ds => .error (ds.map (Diagnostic.relocate τ))
  | .ok g => .ok (g.relocate τ)

theorem Diagnostic.sorted_relocate (τ : Location → Location) (ds : List Diagnostic) :
    sorted (ds.map (relocate τ)) = (sorted ds).map (relocate τ) := by
  have hsort := List.map_mergeSort (f := relocate τ) (l := ds) (r := le) (s := le)
    fun _ _ _ _ => rfl
  exact hsort.symm

namespace Service

/-- The service with its document at other locations. -/
def relocate (τ : Location → Location) (s : Service) : Service :=
  { s with document := s.document.relocate τ }

variable (s : Service)

theorem typeContributions_relocate :
    (s.relocate τ).typeContributions = s.typeContributions.map (TypeDefinition.relocate τ) := by
  simp only [typeContributions, relocate, Document.typeDefinitions_relocate,
    Document.rootRenames_relocate, List.map_map, List.filter_map, Function.comp_def,
    RootRename.definition_relocate]
  rfl

theorem directiveContributions_relocate :
    (s.relocate τ).directiveContributions =
      s.directiveContributions.map (DirectiveDefinition.relocate τ) := by
  simp only [directiveContributions, relocate, Document.directiveDefinitions_relocate,
    Document.rootRenames_relocate, List.map_map, Function.comp_def, RootRename.directive_relocate]

/-- A service describes elements alike wherever they stand. -/
theorem description?_relocate : (s.relocate τ).description? = s.description? := by
  have hmember : ∀ (b : TypeBody) (name : String),
      (b.relocate τ).memberDescription? name = b.memberDescription? name := by
    intro b name
    cases b <;> simp only [TypeBody.relocate, TypeBody.memberDescription?, List.filter_map,
      List.findSome?_map] <;> rfl
  funext c
  cases c with
  | schema => rfl
  | directive name =>
    rw [description?, directiveContributions_relocate, List.filter_map, List.findSome?_map]
    rfl
  | type name =>
    rw [description?, typeContributions_relocate, List.filter_map, List.findSome?_map]
    rfl
  | member typeName name =>
    rw [description?, typeContributions_relocate, List.filter_map, List.findSome?_map]
    simp only [Function.comp_def, TypeDefinition.relocate, hmember]
    rfl

theorem firstDescription_relocate (services : List Service) :
    firstDescription (services.map (relocate τ)) = firstDescription services := by
  funext c
  simp only [firstDescription, List.findSome?_map, Function.comp_def, description?_relocate]

end Service

namespace Subgraphs

variable (s : Subgraphs) (hτ : τ Location.none = Location.none)
include hτ

/-- **Services at other locations have the same problems at these locations**, in the same
order. -/
theorem allProblems_relocate :
    (s.relocate τ).allProblems = s.allProblems.map (Diagnostic.relocate τ) := by
  have hself := List.Perm.refl (s.relocate τ).services
  rw [allProblems, allProblems]
  simp only [problems_relocate, checkProblems_relocate s hτ, mergeProblems_of_perm hself,
    clashes_of_perm hself hτ, problems_composedSchema_of_perm hself hτ, List.map_append]

/-- Services at other locations make the same schema at these locations. -/
theorem composedSchema_relocate {services : List Service}
    (hs : s.services = services.map Service.toSubgraph) (hnone : s.allProblems = []) :
    (s.relocate τ).composedSchema.1 = s.composedSchema.1.relocate τ := by
  have hs' : (s.relocate τ).services = (services.map (Service.relocate τ)).map
      Service.toSubgraph := by
    rw [services_relocate, hs, List.map_map, List.map_map]
    rfl
  have hnone' : (s.relocate τ).allProblems = [] := by
    rw [allProblems_relocate s hτ, hnone, List.map_nil]
  -- the same service describes an element first, so descriptions do not differ either
  have hdescribe := describe_composedSchema hs hnone (typeDefinitions_eq_of_problems hs hnone)
  have hdescribe' := describe_composedSchema hs' hnone' (typeDefinitions_eq_of_problems hs' hnone')
  rw [Service.firstDescription_relocate] at hdescribe'
  refine Service.eq_of_undescribed (composedSchema_of_perm (List.Perm.refl _) hτ) hdescribe' ?_
  rw [Schema.describe_relocate, hdescribe]

/-- **Services at other locations are composed to the same at these locations.** -/
theorem compose_relocate {services : List Service}
    (hs : s.services = services.map Service.toSubgraph) :
    (s.relocate τ).compose = Supergraph.relocateOutcome τ s.compose := by
  have hproblems := allProblems_relocate s hτ
  by_cases hnone : s.allProblems = []
  · rw [hnone, List.map_nil] at hproblems
    rw [compose_of_eq_nil hproblems, compose_of_eq_nil hnone, composedSchema_relocate s hτ hs hnone,
      graphs_of_perm (List.Perm.refl (s.relocate τ).services), Supergraph.annotated_relocate hτ]
    rfl
  · have hnone' : (s.relocate τ).allProblems ≠ [] := by
      rw [hproblems]
      simpa using hnone
    rw [compose_of_ne_nil hnone', compose_of_ne_nil hnone, hproblems, Diagnostic.sorted_relocate]
    rfl

end Subgraphs

/-! ## Taking services -/

namespace Subgraphs

/-- A service is taken wherever its nodes stand. -/
theorem ingest_relocate (s : Subgraphs) (service : Service) :
    (s.relocate τ).ingest (service.relocate τ) = (s.ingest service).map (relocate τ) := by
  have hnames : (s.relocate τ).services.map (·.name) = s.services.map (·.name) := by
    rw [services_relocate, List.map_map]
    rfl
  by_cases h : service.name ∈ s.services.map (·.name)
  · have h' : (service.relocate τ).name ∈ (s.relocate τ).services.map (·.name) := by
      rw [hnames]
      exact h
    rw [ingest, add, dif_pos h', ingest, add, dif_pos h]
    rfl
  · have h' : (service.relocate τ).name ∉ (s.relocate τ).services.map (·.name) := by
      rw [hnames]
      exact h
    rw [ingest, add, dif_neg h', ingest, add, dif_neg h, Except.map]
    have happend : (s.services ++ [service.toSubgraph]).map (Subgraph.relocate τ) =
        s.services.map (Subgraph.relocate τ) ++ [(service.relocate τ).toSubgraph] :=
      List.map_append
    exact congrArg Except.ok (eq_of_services happend.symm)

theorem ofServices_relocate (services : List Service) :
    ofServices (services.map (Service.relocate τ)) = (ofServices services).map (relocate τ) := by
  have hfold : ∀ s : Subgraphs, (services.map (Service.relocate τ)).foldlM ingest (s.relocate τ) =
      (services.foldlM ingest s).map (relocate τ) := by
    induction services with
    | nil => exact fun _ => rfl
    | cons service services ih =>
      intro s
      rw [List.map_cons, List.foldlM_cons, ingest_relocate, List.foldlM_cons]
      cases s.ingest service with
      | error e => rfl
      | ok t => exact ih t
  exact hfold empty

end Subgraphs

namespace Service

/-- **Locations are carried along.** Services at other locations are composed to the same at these
locations. -/
theorem compose_relocate (hτ : τ Location.none = Location.none) (services : List Service) :
    compose (services.map (relocate τ)) =
      (compose services).map (Supergraph.relocateOutcome τ) := by
  rw [compose, Subgraphs.ofServices_relocate, compose]
  cases hs : Subgraphs.ofServices services with
  | error e => rfl
  | ok s =>
    exact congrArg Except.ok
      (Subgraphs.compose_relocate s hτ (Subgraphs.services_of_ofServices hs))

/-- Services that are the same, except that their nodes may stand elsewhere. -/
structure SameButLocations (a b : Service) : Prop where
  name : a.name = b.name
  url : a.url = b.url
  document : a.document.unlocated = b.document.unlocated

/-- Outcomes that are the same, except that nodes and diagnostics may stand elsewhere. -/
inductive OutcomesAlike :
    Except IngestError (Except (List Diagnostic) Supergraph) →
      Except IngestError (Except (List Diagnostic) Supergraph) → Prop
  | refused (e : IngestError) : OutcomesAlike (.error e) (.error e)
  | rejected {ds ds' : List Diagnostic}
      (diagnostics : ds.map Diagnostic.unlocated = ds'.map Diagnostic.unlocated) :
      OutcomesAlike (.ok (.error ds)) (.ok (.error ds'))
  | composed {g g' : Supergraph} (schema : g.schema.unlocated = g'.schema.unlocated)
      (ownership : g.schema.ownership = g'.schema.ownership) (text : g.text = g'.text) :
      OutcomesAlike (.ok (.ok g)) (.ok (.ok g'))

/-- Outcomes that become the same nowhere are alike. -/
theorem OutcomesAlike.of_relocate {r r' : Except IngestError (Except (List Diagnostic) Supergraph)}
    (h : r.map (Supergraph.relocateOutcome fun _ => Location.none) =
      r'.map (Supergraph.relocateOutcome fun _ => Location.none)) : OutcomesAlike r r' := by
  cases r with
  | error e =>
    cases r' with
    | error e' =>
      cases h
      exact .refused e
    | ok r' => cases h
  | ok r =>
    cases r' with
    | error e' => cases h
    | ok r' =>
      have houtcome := Except.ok.inj h
      cases r with
      | error ds =>
        cases r' with
        | error ds' => exact .rejected (Except.error.inj houtcome)
        | ok g' => cases houtcome
      | ok g =>
        cases r' with
        | error ds' => cases houtcome
        | ok g' =>
          have hgraph := Except.ok.inj houtcome
          have hschema : g.schema.unlocated = g'.schema.unlocated :=
            congrArg Supergraph.schema hgraph
          have hdocument : g.document.unlocated = g'.document.unlocated :=
            congrArg Supergraph.document hgraph
          have hownership : g.schema.unlocated.ownership = g'.schema.unlocated.ownership := by
            rw [hschema]
          refine .composed hschema hownership ?_
          calc g.text = g.document.unlocated.text := (g.document.text_relocate _).symm
            _ = g'.document.unlocated.text := by rw [hdocument]
            _ = g'.text := g'.document.text_relocate _

/-- **Source positions never influence composition.** -/
theorem compose_sameButLocations {services services' : List Service}
    (h : List.Forall₂ SameButLocations services services') :
    OutcomesAlike (compose services) (compose services') := by
  have hnowhere : services.map (relocate fun _ => Location.none) =
      services'.map (relocate fun _ => Location.none) := by
    induction h with
    | nil => rfl
    | @cons a b _ _ hab _ ih =>
      obtain ⟨hname, hurl, hdocument⟩ := hab
      have hservice : a.relocate (fun _ => Location.none) = b.relocate fun _ => Location.none := by
        cases a
        cases b
        cases hname
        cases hurl
        exact congrArg (Service.mk _ _) hdocument
      rw [List.map_cons, List.map_cons, ih, hservice]
  refine .of_relocate ?_
  rw [← compose_relocate rfl, ← compose_relocate rfl, hnowhere]

/-- A service with one field, all at a location. -/
def serviceAt (l : Location) : Service :=
  { name := "a"
    document :=
      ⟨[.type
          { name := "Query"
            body := .object { fields := [{ name := "n", type := .named "Int", location := l }] }
            location := l }]⟩ }

/-- The types of the supergraph stand where those of the service stand, and its text is the same. -/
theorem serviceAt_sameButLocations :
    List.Forall₂ SameButLocations [serviceAt ⟨1, 1⟩] [serviceAt ⟨3, 5⟩] ∧
      ∃ g g', compose [serviceAt ⟨1, 1⟩] = .ok (.ok g) ∧
        compose [serviceAt ⟨3, 5⟩] = .ok (.ok g') ∧
        g.schema.types.map (·.location) = [⟨1, 1⟩] ∧
        g'.schema.types.map (·.location) = [⟨3, 5⟩] ∧
        OutcomesAlike (.ok (.ok g)) (.ok (.ok g')) := by
  have hsame : List.Forall₂ SameButLocations [serviceAt ⟨1, 1⟩] [serviceAt ⟨3, 5⟩] :=
    .cons ⟨rfl, rfl, rfl⟩ .nil
  obtain ⟨g, hg, htypes⟩ : ∃ g, compose [serviceAt ⟨1, 1⟩] = .ok (.ok g) ∧
      g.schema.types.map (·.location) = [⟨1, 1⟩] :=
    exists_compose (fun s => s.types.map (·.location)) (by cbv)
  obtain ⟨g', hg', htypes'⟩ : ∃ g, compose [serviceAt ⟨3, 5⟩] = .ok (.ok g) ∧
      g.schema.types.map (·.location) = [⟨3, 5⟩] :=
    exists_compose (fun s => s.types.map (·.location)) (by cbv)
  have halike := compose_sameButLocations hsame
  rw [hg, hg'] at halike
  exact ⟨hsame, g, g', hg, hg', htypes, htypes', halike⟩

end Service

end Federation
