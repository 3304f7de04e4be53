import Federation.Proofs.Composition.Applications
import Federation.Proofs.Composition.Recomposition
/-!
# Composition — building a composed schema from its document

A document is checked by its own directive definitions when a schema is
built from it. What composition hands out passes every other check of
the builder, so the document of a composed schema is built exactly when
its applications are allowed by the definitions that were composed, and
the same schema comes out (`compose_rebuilt`). Composition does not ask
for this: it checks a service by the definitions of that service, which
leaves out what others define (`unknownCosts_not_rebuilt`).
-/

namespace Federation

namespace Schema

/-- What the builder asks of a schema whose document it is given, applications apart: no two types
and no two directive definitions share a name, types are base definitions without repeated members,
applications on types are merged, and references name types. -/
structure Assembled (s : Schema) : Prop where
  roots : s.roots = []
  directives : s.directives = []
  typeNames : (s.types.map (·.name)).Nodup
  directiveNames : (s.directiveDefinitions.map (·.name)).Nodup
  base : ∀ t ∈ s.types, t.isExtension = false ∧ t.body.DistinctMembers
  applications : ∀ t ∈ s.types, t.directives.Pairwise (Directive.Apart s.isRepeatable)
  references : s.referenceProblems = []

/-- The applications on the types of a schema that the definitions do not allow. -/
def siteProblems (s : Schema) : List Diagnostic :=
  (s.types.flatMap Site.ofType).flatMap (Site.problems s.definitionOf?)

namespace Assembled

variable {s : Schema} (h : s.Assembled)
include h

/-- **The document is applied without loss**, and without a clash. -/
theorem applyDocument_toDocument :
    empty.applyDocument s.toDocument = ({ s with ownership := [] }, []) := by
  have hmerged : ∀ t ∈ s.types, t.mergeApplications s.isRepeatable = t ∧
      t.applicationConflicts s.isRepeatable = [] := by
    intro t ht
    have hapart : ([] ++ t.directives).Pairwise (Directive.Apart s.isRepeatable) :=
      h.applications t ht
    obtain ⟨hmerge, hconflicts⟩ := Directive.merge_of_pairwise hapart
    constructor
    · rw [TypeDefinition.mergeApplications, hmerge]
      rfl
    · rw [TypeDefinition.applicationConflicts, Directive.conflictDiagnostics, hconflicts]
      rfl
  have htypes : s.types.map (TypeDefinition.mergeApplications s.isRepeatable) = s.types :=
    map_eq_self fun t ht => (hmerged t ht).1
  have hconflicts : s.types.flatMap (TypeDefinition.applicationConflicts s.isRepeatable) = [] :=
    List.flatMap_eq_nil_iff.mpr fun t ht => (hmerged t ht).2
  have happly := applyDocument_distinct h.directiveNames h.typeNames h.base
  have hrepeatable :
      ({ empty with directiveDefinitions := s.directiveDefinitions } : Schema).isRepeatable =
        s.isRepeatable := rfl
  rw [toDocument_of_nil h.roots h.directives]
  simp only [hrepeatable, htypes, hconflicts] at happly
  rw [happly]
  obtain ⟨hroots, hdirectives⟩ := And.intro h.roots h.directives
  cases s
  simp only at hroots hdirectives
  rw [hroots, hdirectives]
  rfl

/-- The document knows the types and the directives that the schema knows. -/
theorem documentProblems_toDocument :
    empty.documentProblems s.toDocument = s.siteProblems := by
  have hlookup : empty.lookupDirective s.toDocument = s.definitionOf? := by
    funext name
    rw [lookupDirective, directiveDefinitions_toDocument]
    rfl
  have hknown : (fun name => empty.isKnownType name ||
      s.toDocument.typeDefinitions.any (·.name == name)) = s.isKnownType := by
    funext name
    rw [typeDefinitions_toDocument, isKnownType, isKnownType, type?, type?, List.isSome_find?,
      List.isSome_find?]
    simp [empty]
  have hreferences : s.types.flatMap (TypeDefinition.unknownReferences s.isKnownType) = [] :=
    h.references
  rw [documentProblems, schemaDefinitions_toDocument h.roots h.directives, hknown, hlookup,
    typeDefinitions_toDocument, hreferences, List.append_nil]
  rfl

/-- **The document is built to the same schema**, unless it applies a directive where its definition
does not allow it. -/
theorem build_toDocument :
    build s.toDocument =
      match s.siteProblems with
      | [] => .ok { s with ownership := [] }
      | problems => .error (Diagnostic.sorted problems) := by
  cases hsites : s.siteProblems with
  | nil => simp [build, extend, h.applyDocument_toDocument, h.documentProblems_toDocument, hsites]
  | cons p ps =>
    simp [build, extend, h.applyDocument_toDocument, h.documentProblems_toDocument, hsites]

end Assembled

end Schema

/-! ## Composed schemas -/

/-- **Composed schemas are assembled.** -/
theorem Subgraphs.assembled_composedSchema {s : Subgraphs} (h : s.allProblems = []) :
    s.composedSchema.1.Assembled := by
  obtain ⟨-, -, hproblems⟩ := problems_eq_nil h
  have htypes : ∀ t ∈ s.composedSchema.1.types, ∃ g : TypeGroup,
      t = TypeDefinition.mergeApplications s.isRepeatable
        (TypeGroup.definition s.repeatableNames.contains g) := by
    intro t ht
    rw [composedSchema_eq, mergedTypes_eq] at ht
    obtain ⟨m, hm, rfl⟩ := List.mem_map.mp ht
    obtain ⟨n, -, rfl⟩ := List.mem_map.mp hm
    exact ⟨(s.group n).ofOneKind, rfl⟩
  constructor
  case roots => rw [composedSchema_eq]
  case directives => rw [composedSchema_eq]
  case typeNames =>
    rw [map_name_composedSchema]
    exact s.nodup_typeNames
  case directiveNames =>
    rw [composedSchema_eq]
    exact s.nodup_mergedDirectiveDefinitions
  case base =>
    intro t ht
    obtain ⟨g, rfl⟩ := htypes t ht
    exact ⟨rfl, TypeGroup.distinctMembers_body _ g⟩
  case applications =>
    intro t ht
    have hrepeatable : s.composedSchema.1.isRepeatable = s.isRepeatable := by
      rw [composedSchema_eq]
      rfl
    obtain ⟨g, rfl⟩ := htypes t ht
    rw [hrepeatable]
    exact Directive.pairwise_merge List.Pairwise.nil
  case references =>
    simp only [Schema.problems, List.append_eq_nil_iff] at hproblems
    exact hproblems.2

namespace Service

/-- Services of which each defines the directives that it applies, as far as any of them does, and
no built-in one that it applies. -/
def KnowDirectives (services : List Service) : Prop :=
  ∀ service ∈ services, service.toSubgraph.KnowsDirectives (services.map toSubgraph)

/-- **A composed schema is built from its document exactly where the composed definitions allow the
applications on its types.** The types, the directive definitions and the root types are the same
then, and otherwise the forbidden applications are all there is to report. They are allowed where
every service defines the directives that it applies. -/
theorem compose_rebuilt {services : List Service} {g : Supergraph}
    (h : compose services = .ok (.ok g)) :
    (∀ b, Schema.build g.schema.toDocument = .ok b →
      b.types = g.schema.types ∧ b.directiveDefinitions = g.schema.directiveDefinitions ∧
        b.rootType? = g.schema.rootType?) ∧
    ((∃ b, Schema.build g.schema.toDocument = .ok b) ↔
      ∀ t ∈ g.schema.types, ∀ x ∈ Site.ofType t, x.problems g.schema.definitionOf? = []) ∧
    (∀ problems, Schema.build g.schema.toDocument = .error problems →
      problems = Diagnostic.sorted g.schema.siteProblems) ∧
    (KnowDirectives services → ∃ b, Schema.build g.schema.toDocument = .ok b) := by
  obtain ⟨s, hs, hnone, hschema, -⟩ := exists_of_compose h
  have hbuild := (Subgraphs.assembled_composedSchema hnone).build_toDocument
  rw [← hschema] at hbuild
  have hallowed : g.schema.siteProblems = [] ↔
      ∀ t ∈ g.schema.types, ∀ x ∈ Site.ofType t, x.problems g.schema.definitionOf? = [] := by
    rw [Schema.siteProblems, List.flatMap_eq_nil_iff]
    constructor
    · intro hsites t ht x hx
      exact hsites x (List.mem_flatMap.mpr ⟨t, ht, hx⟩)
    · intro hsites x hx
      obtain ⟨t, ht, hxt⟩ := List.mem_flatMap.mp hx
      exact hsites t ht x hxt
  have hiff : (∃ b, Schema.build g.schema.toDocument = .ok b) ↔ g.schema.siteProblems = [] := by
    rw [hbuild]
    cases g.schema.siteProblems with
    | nil => exact ⟨fun _ => rfl, fun _ => ⟨_, rfl⟩⟩
    | cons p ps =>
      constructor
      · rintro ⟨b, hb⟩
        cases hb
      · intro hnil
        cases hnil
  refine ⟨fun b hb => ?_, hiff.trans hallowed, fun problems hproblems => ?_, fun hknow => ?_⟩
  · have hnil := hiff.mp ⟨b, hb⟩
    rw [hbuild, hnil] at hb
    cases hb
    exact ⟨rfl, rfl, rfl⟩
  · rw [hbuild] at hproblems
    split at hproblems
    · cases hproblems
    · exact (Except.error.inj hproblems).symm
  · refine hiff.mpr (hallowed.mpr fun t ht x hx => ?_)
    rw [hschema] at ht ⊢
    refine Subgraphs.problems_of_knowsDirectives hnone (fun g' hg' => ?_) ht hx
    rw [hs] at hg' ⊢
    obtain ⟨service, hservice, rfl⟩ := List.mem_map.mp hg'
    exact hknow service hservice

/-- A service with directive definitions and one root field. -/
def fieldService (name : String) (definitions : List DirectiveDefinition)
    (directives : List Directive) : Service :=
  { name
    document :=
      ⟨definitions.map .directive ++
        [.type
          { name := "Query"
            body := .object { fields := [{ name, type := .named "Int", directives }] } }]⟩ }

/-- A definition of the directive for costs, by the places that it allows. -/
def costDefinition (locations : List DirectiveLocation) : DirectiveDefinition :=
  { name := "cost", arguments := [{ name := "weight", type := .named "Int" }], locations }

/-- Both services define the directive that they apply. -/
def knownCosts : List Service :=
  let cost : Directive := { name := "cost", arguments := [⟨"weight", .int 1⟩] }
  [fieldService "a" [costDefinition [.object, .fieldDefinition]] [cost],
   fieldService "b" [costDefinition [.fieldDefinition, .object]] [cost]]

/-- One service defines a directive for types, and another one applies it to a field. -/
def unknownCosts : List Service :=
  [fieldService "a" [costDefinition [.object]] [], fieldService "b" [] [{ name := "cost" }]]

instance (services : List Service) : Decidable (KnowDirectives services) :=
  inferInstanceAs (Decidable (∀ service ∈ services,
    ∀ t ∈ service.toSubgraph.typeDefinitions, ∀ x ∈ Site.ofType t,
      (∃ d ∈ service.toSubgraph.document.directiveDefinitions, d.name = x.directive.name) ↔
        DirectiveDefinition.builtIn? x.directive.name = none ∧
          ∃ g ∈ services.map toSubgraph, ∃ d ∈ g.document.directiveDefinitions,
            d.name = x.directive.name))

/-- Services that define the directive alike are composed to what is built again. -/
theorem knownCosts_rebuilt :
    KnowDirectives knownCosts ∧ ∃ g, compose knownCosts = .ok (.ok g) ∧
      (g.schema.types.flatMap Site.ofType).map (·.directive.name) = ["cost", "cost"] ∧
      ∃ b, Schema.build g.schema.toDocument = .ok b ∧ b.types = g.schema.types ∧
        b.directiveDefinitions = g.schema.directiveDefinitions ∧
        b.rootType? = g.schema.rootType? := by
  have hknow : KnowDirectives knownCosts := by decide
  obtain ⟨g, hg, hsites⟩ : ∃ g, compose knownCosts = .ok (.ok g) ∧
      (g.schema.types.flatMap Site.ofType).map (·.directive.name) = ["cost", "cost"] :=
    exists_compose (fun s => (s.types.flatMap Site.ofType).map (·.directive.name)) (by cbv)
  obtain ⟨hsame, -, -, hbuild⟩ := compose_rebuilt hg
  obtain ⟨b, hb⟩ := hbuild hknow
  exact ⟨hknow, g, hg, hsites, b, hb, hsame b hb⟩

/-- What the builder reports about the document of a schema. -/
def rebuildReports (s : Schema) : List (DiagnosticKind × Coordinate) :=
  match Schema.build s.toDocument with
  | .ok _ => []
  | .error problems => problems.map fun p => (p.kind, p.coordinate)

/-- Not every composed schema is built again: the definition of one service forbids what another one
applies. -/
theorem unknownCosts_not_rebuilt :
    ∃ g, compose unknownCosts = .ok (.ok g) ∧
      ∃ problems, Schema.build g.schema.toDocument = .error problems ∧
        problems.map (fun p => (p.kind, p.coordinate)) =
          [(.directiveLocation, .member "Query" "b")] := by
  obtain ⟨g, hg, hreports⟩ : ∃ g, compose unknownCosts = .ok (.ok g) ∧
      rebuildReports g.schema = [(.directiveLocation, .member "Query" "b")] :=
    exists_compose rebuildReports (by cbv)
  rw [rebuildReports] at hreports
  refine ⟨g, hg, ?_⟩
  cases hbuild : Schema.build g.schema.toDocument with
  | ok b =>
    rw [hbuild] at hreports
    cases hreports
  | error problems =>
    rw [hbuild] at hreports
    exact ⟨problems, rfl, hreports⟩

end Service

end Federation
