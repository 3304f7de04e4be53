import Federation.Proofs.DiagnosticOrder
import Federation.Proofs.Document.RoundTrip
import Federation.Proofs.Schema.Locality
import Federation.Proofs.Supergraph.Legible
/-!
# Supergraph — loading the document

The text of a supergraph reads back as its document exactly when the
schema has a root type (`parse_text_annotated_iff`): without one, the
schema definition would need an empty block, which is not written.

The builder refuses the document either way. A schema definition is
applied with the directive definitions that stand before it. The
document of a supergraph starts with its schema definition, which
applies `@core` twice, and defines `@core` as repeatable only after
that, so the builder takes the second application for a conflict
(`build_annotated`).
-/

namespace Federation

namespace Schema

/-! ## A schema definition that comes first -/

/-- On the empty schema, a directive without a built-in definition may not be applied twice with
different arguments. -/
theorem mem_addSchemaDefinition_empty {d : SchemaDefinition} {a b : Directive}
    (hdirectives : d.directives = [a, b]) (hname : a.name = b.name)
    (hbuiltIn : DirectiveDefinition.builtIn? b.name = none) (hsame : a.same b = false) :
    { cause := .conflictingApplications a b, coordinate := .schema : Diagnostic } ∈
      (empty.addSchemaDefinition d).2 := by
  obtain ⟨roots, hroots⟩ := exists_fold_addRoot d.location empty d.rootOperations
  have hrepeatable : ({ empty with roots } : Schema).isRepeatable b.name = false := by
    rw [isRepeatable, hbuiltIn]
    rfl
  have hconflict : Directive.conflicts ({ empty with roots } : Schema).isRepeatable [] [a, b] =
      [(a, b)] := by
    simp [Directive.conflicts, Directive.add, Directive.conflict?, Directive.isIn, hrepeatable,
      hname, hsame]
  have hempty : ({ empty with roots } : Schema).directives = [] := rfl
  rw [addSchemaDefinition, hdirectives]
  simp only [hroots, hempty, Directive.conflictDiagnostics, hconflict]
  exact List.mem_append_right _ (List.mem_singleton_self _)

/-- **What clashes in the definition that comes first, the builder reports.** -/
theorem exists_build_eq_error {d : Document} {x : Definition} {xs : List Definition}
    (hd : d.definitions = x :: xs) {e : Diagnostic} (he : e ∈ (empty.addDefinition x).2) :
    ∃ errors, build d = .error errors ∧ e ∈ errors := by
  have hmem : e ∈ empty.documentProblems d ++ (empty.applyDocument d).2 := by
    rw [applyDocument, hd, Reported.fold_cons]
    exact List.mem_append_right _ (List.mem_append_left _ (List.mem_append_left _ he))
  obtain ⟨p, ps, hcons⟩ := List.exists_cons_of_ne_nil (List.ne_nil_of_mem hmem)
  rw [hcons] at hmem
  refine ⟨Diagnostic.sorted (p :: ps), ?_, (Diagnostic.sorted_perm _).mem_iff.mpr hmem⟩
  rw [build, extend]
  simp only [Bool.false_eq_true, if_false, hcons]

end Schema

/-! ## The document of a supergraph -/

/-- A definition with the structure of a schema definition is one. -/
theorem Definition.exists_schema_of_canonical_eq {x : Definition} {d : SchemaDefinition}
    (h : x.canonical = canonical (.schema d)) : ∃ e, x = .schema e ∧ e.canonical = d.canonical := by
  cases x with
  | schema e => exact ⟨e, rfl, schema.inj h⟩
  | type e => cases h
  | directive e => cases h

namespace Supergraph

/-- **The builder refuses the document of every supergraph**, and every document of the same
structure: it reports the two applications of `@core` on the schema. -/
theorem build_annotated (s : Schema) (graphs : List Graph) {d : Document}
    (hd : d.same (annotated s graphs) = true) :
    ∃ errors, Schema.build d = .error errors ∧
      ∃ e ∈ errors, e.coordinate = .schema ∧ ∃ a b, e.cause = .conflictingApplications a b ∧
        a.same (application "core" [("feature", .string coreFeature)]) = true ∧
        b.same (application "core"
          [("feature", .string joinFeature), ("for", .enum "EXECUTION")]) = true := by
  have hcanonical := congrArg Document.definitions (Document.same_iff.mp hd)
  rw [annotated, List.append_assoc, List.append_assoc, List.cons_append] at hcanonical
  obtain ⟨x, xs, hdefinitions, hx, -⟩ := List.map_eq_cons_iff.mp hcanonical
  obtain ⟨sd, rfl, hsd⟩ := Definition.exists_schema_of_canonical_eq hx
  have hdirectives := congrArg SchemaDefinition.directives hsd
  obtain ⟨a, as, has, ha, htail⟩ := List.map_eq_cons_iff.mp hdirectives
  obtain ⟨b, hb, hbcore⟩ := List.map_eq_singleton_iff.mp htail
  rw [hb] at has
  -- the names are part of the structure, and so is the second argument that only one of them has
  have hname : a.name = b.name :=
    (congrArg Directive.name ha).trans (congrArg Directive.name hbcore).symm
  have hcore : b.name = "core" := congrArg Directive.name hbcore
  have hsame : a.same b = false := by
    rw [Directive.same, ha, hbcore]
    decide
  obtain ⟨errors, herrors, hmem⟩ := Schema.exists_build_eq_error hdefinitions
    (Schema.mem_addSchemaDefinition_empty has hname (by rw [hcore]; decide) hsame)
  exact ⟨errors, herrors, _, hmem, rfl, a, b, rfl, Directive.same_iff.mpr ha,
    Directive.same_iff.mpr hbcore⟩

/-- The schema definition of a supergraph has root operations where the schema has root types. -/
theorem rootOperations_ne_nil_iff {s : Schema} : (schemaDefinition s).rootOperations ≠ [] ↔
    ∃ operation, (s.rootType? operation).isSome = true := by
  constructor
  · intro hne
    obtain ⟨r, hr⟩ := List.exists_mem_of_ne_nil _ hne
    obtain ⟨operation, -, hr⟩ := List.mem_filterMap.mp hr
    obtain ⟨root, hroot, -⟩ := Option.map_eq_some_iff.mp hr
    exact ⟨operation, by rw [hroot]; rfl⟩
  · rintro ⟨operation, hsome⟩
    obtain ⟨root, hroot⟩ := Option.isSome_iff_exists.mp hsome
    have hall : operation ∈ OperationType.all := by cases operation <;> decide
    exact List.ne_nil_of_mem (List.mem_filterMap.mpr ⟨operation, hall, by rw [hroot]; rfl⟩)

/-- **The text of a legible supergraph reads back exactly when there is a root type.** -/
theorem parse_text_annotated_iff {s : Schema} {graphs : List Graph}
    (h : (annotated s graphs).Legible) :
    (∃ d, Document.parse (annotated s graphs).text = .ok d ∧ d.same (annotated s graphs) = true) ↔
      ∃ operation, (s.rootType? operation).isSome = true := by
  have hschema : (annotated s graphs).schemaDefinitions = [schemaDefinition s] := by
    simp [annotated, Document.schemaDefinitions, directiveDefinitions, List.filterMap_append,
      List.filterMap_map]
  rw [← rootOperations_ne_nil_iff]
  constructor
  · rintro ⟨d, hd, -⟩ hnone
    -- without root operations the schema definition does not read back, so neither does the text
    have hbroken : ¬Grammar.ReadsBack (.schema (schemaDefinition s)) := fun hread =>
      hread.elim Bool.false_ne_true (absurd hnone)
    obtain ⟨e, he⟩ := Document.exists_parse_text_error h ⟨_, List.mem_cons_self, hbroken⟩
    rw [hd] at he
    cases he
  · intro hne
    have hread := Document.readsBack_iff.mpr fun x hx => by
      rw [hschema] at hx
      rw [List.mem_singleton.mp hx]
      exact .inr hne
    obtain ⟨d, hd, hsame, -⟩ := Document.exists_parse_text h hread
    exact ⟨d, hd, hsame⟩

end Supergraph

/-! ## Services -/

namespace Service

open Supergraph

/-- A service that is read from a text. Its name is not empty, and it has nothing in it that a
written document does not bring back. -/
structure IsPlain (s : Service) : Prop where
  named : s.toSubgraph.IsNamedPlainly
  read : ∃ text, Document.parse text = .ok s.document
  document : s.document.IsPlain

/-- **The document of plain services is legible.** -/
theorem legible_document {services : List Service} {g : Supergraph}
    (h : compose services = .ok (.ok g)) (hplain : ∀ s ∈ services, s.IsPlain) :
    g.document.Legible := by
  obtain ⟨s, hservices, hcompose⟩ := exists_subgraphs_of_compose h
  obtain ⟨hnone, hschema⟩ := Subgraphs.compose_eq_ok hcompose
  obtain ⟨-, hmerge, -⟩ := Subgraphs.problems_eq_nil hnone
  have hdocument : ∀ service ∈ services, service.document.Legible := by
    intro service hservice
    obtain ⟨text, htext⟩ := (hplain service hservice).read
    exact Document.legible_of_parse htext (hplain service hservice).document
  have htypes : ∀ g ∈ s.services, ∀ t ∈ g.typeDefinitions, t.Legible := by
    rw [hservices, List.forall_mem_map]
    intro service hservice
    rw [Subgraphs.typeDefinitions_eq_of_problems hservices hnone service hservice]
    exact legible_typeContributions (hdocument service hservice)
  have hdirectives : ∀ g ∈ s.services, ∀ d ∈ g.document.directiveDefinitions, d.Legible := by
    rw [hservices, List.forall_mem_map]
    intro service hservice
    rw [directiveDefinitions_toSubgraph]
    exact legible_directiveContributions (hdocument service hservice)
  have hgraphs : ∀ g ∈ s.graphs, g.Legible := by
    refine Subgraphs.legible_graphs ?_
    rw [hservices, List.forall_mem_map]
    exact fun service hservice => (hplain service hservice).named
  rw [Subgraphs.document_of_compose hcompose, hschema]
  refine Supergraph.legible_annotated (Subgraphs.legible_types_composedSchema htypes)
    (Subgraphs.legible_directiveDefinitions_composedSchema hdirectives) hgraphs ?_
  intro t ht r hr
  -- declarations without problems are of one kind, so the record is that of all of them
  obtain ⟨hn, -, -⟩ := Subgraphs.mem_types_composedSchema s ht
  have hone := TypeGroup.ofOneKind_eq_self (Subgraphs.group_problems_eq_nil hmerge hn)
  rw [Subgraphs.ownership?_composedSchema s hn, hone] at hr
  rw [← Option.some.inj hr]
  exact Subgraphs.writable_ownership hgraphs t.name

/-- **No supergraph is loaded.** The builder refuses its document, and every document of the same
structure, for the two applications of `@core`. The text of plain services reads back as the
document exactly when there is a root type. -/
theorem compose_refused {services : List Service} {g : Supergraph}
    (h : compose services = .ok (.ok g)) :
    (∀ d : Document, d.same g.document = true →
      ∃ errors, Schema.build d = .error errors ∧
        ∃ e ∈ errors, e.coordinate = .schema ∧ ∃ a b, e.cause = .conflictingApplications a b ∧
          a.same (application "core" [("feature", .string coreFeature)]) = true ∧
          b.same (application "core"
            [("feature", .string joinFeature), ("for", .enum "EXECUTION")]) = true) ∧
    ((∀ s ∈ services, s.IsPlain) →
      ((∃ d, Document.parse g.text = .ok d ∧ d.same g.document = true) ↔
        ∃ operation, (g.schema.rootType? operation).isSome = true)) := by
  obtain ⟨s, -, hcompose⟩ := exists_subgraphs_of_compose h
  have hdocument := Subgraphs.document_of_compose hcompose
  constructor
  · intro d hd
    rw [hdocument] at hd
    exact build_annotated g.schema s.graphs hd
  · intro hplain
    have hlegible := legible_document h hplain
    rw [hdocument] at hlegible
    rw [Supergraph.text, hdocument]
    exact parse_text_annotated_iff hlegible

/-- A service with a query root. -/
def queryService : Service :=
  { name := "a"
    document :=
      ⟨[.type
          { name := "Query"
            body := .object
              { fields := [{ name := "a", type := .named "Int", location := ⟨1, 14⟩ }] }
            location := ⟨1, 1⟩ }]⟩ }

theorem queryService_isPlain : queryService.IsPlain where
  named := ⟨by decide, by decide, nofun⟩
  read := by
    refine ⟨"type Query \x7b a: Int \x7d", ?_⟩
    rw [Document.parse_eq (by decide)]
    cbv
  document := by decide

/-- The service is composed to a supergraph with a root type. -/
theorem exists_compose_queryService :
    ∃ g, compose [queryService] = .ok (.ok g) ∧ (g.schema.rootType? .query).isSome = true :=
  exists_compose (fun s => (s.rootType? .query).isSome) (by cbv)

/-- The text of the supergraph reads back, and the builder refuses what is read. -/
theorem queryService_refused :
    ∃ g, compose [queryService] = .ok (.ok g) ∧
      ∃ d, Document.parse g.text = .ok d ∧ d.same g.document = true ∧
        ∃ errors, Schema.build d = .error errors ∧ ∃ e ∈ errors, e.coordinate = .schema := by
  obtain ⟨g, hg, hroot⟩ := exists_compose_queryService
  obtain ⟨hbuild, htext⟩ := compose_refused hg
  have hplain : ∀ s ∈ [queryService], s.IsPlain := by
    intro s hs
    rw [List.mem_singleton.mp hs]
    exact queryService_isPlain
  obtain ⟨d, hd, hsame⟩ := (htext hplain).mpr ⟨.query, hroot⟩
  obtain ⟨errors, herrors, e, he, hcoordinate, -⟩ := hbuild d hsame
  exact ⟨g, hg, d, hd, hsame, errors, herrors, e, he, hcoordinate⟩

/-- Not every supergraph is loaded: the builder refuses what the text of this one holds. -/
theorem queryService_not_loadable :
    ¬∀ services g, compose services = .ok (.ok g) →
      ∃ d, Document.parse g.text = .ok d ∧ d.same g.document = true ∧
        ∃ s, Schema.build d = .ok s := by
  intro hall
  obtain ⟨g, hg, -⟩ := exists_compose_queryService
  obtain ⟨d, -, hsame, s, hs⟩ := hall _ g hg
  obtain ⟨t, -, hcompose⟩ := exists_subgraphs_of_compose hg
  rw [Subgraphs.document_of_compose hcompose] at hsame
  obtain ⟨errors, herrors, -⟩ := build_annotated _ _ hsame
  rw [hs] at herrors
  cases herrors

end Service

end Federation
