import Federation.Proofs.Composition.Stripping
import Federation.Proofs.Schema.References
/-!
# Composition — references of composed schemas

The references of composed types are checked, and a composed schema has
no root operations. The arguments of its directive definitions are those
of the services, and no check looks at them: the schema is closed
exactly when every service names known types there
(`closed_iff_of_compose`). A document that is built leaves the same gap,
and another one in its schema definitions (`references_known`).
-/

namespace Federation

/-- The types that arguments of composed directive definitions have are those in the definitions of
services, but for directives that are built in. -/
theorem Subgraphs.exists_argumentType_iff {s : Subgraphs} {services : List Service}
    (hs : s.services = services.map Service.toSubgraph) (hmerge : s.mergeProblems = [])
    {type : TypeRef} :
    (∃ x ∈ s.mergedDirectiveDefinitions, ∃ a ∈ x.arguments, a.type = type) ↔
      ∃ service ∈ services, ∃ x ∈ service.directiveContributions,
        DirectiveDefinition.builtIn? x.name = none ∧ ∃ a ∈ x.arguments, a.type = type := by
  constructor
  · rintro ⟨x, hx, a, ha, rfl⟩
    obtain ⟨hbuiltIn, g, hg, y, hy, hcopy⟩ := exists_of_mem_mergedDirectiveDefinitions hx
    rw [hs] at hg
    obtain ⟨service, hservice, rfl⟩ := List.mem_map.mp hg
    rw [Service.directiveDefinitions_toSubgraph] at hy
    rw [hcopy] at ha hbuiltIn
    exact ⟨service, hservice, y, hy, hbuiltIn, a, ha, rfl⟩
  · rintro ⟨service, hservice, x, hx, hbuiltIn, a, ha, rfl⟩
    rw [← Service.directiveDefinitions_toSubgraph] at hx
    obtain ⟨y, hy, hsame⟩ := exists_mem_mergedDirectiveDefinitions
      (directiveProblems_eq_nil hmerge) (toSubgraph_mem_services hs hservice) hx hbuiltIn
    obtain ⟨b, hb, -, htype, -⟩ := DirectiveDefinition.exists_argument_of_sameSignature hsame ha
    exact ⟨y, hy, b, hb, htype⟩

namespace Service

/-- **The types of a composed schema refer to what it knows**, and the whole schema does exactly
when the directive definitions of the services do. -/
theorem closed_iff_of_compose {services : List Service} {g : Supergraph}
    (h : compose services = .ok (.ok g)) :
    (∀ t ∈ g.schema.types, ∀ name, t.RefersTo name → g.schema.Knows name) ∧
    (g.schema.Closed ↔ ∀ service ∈ services, ∀ x ∈ service.directiveContributions,
      DirectiveDefinition.builtIn? x.name = none →
        ∀ a ∈ x.arguments, g.schema.Knows a.type.name) := by
  obtain ⟨s, hs, hnone, hschema, -⟩ := exists_of_compose h
  obtain ⟨-, hmerge, hproblems⟩ := Subgraphs.problems_eq_nil hnone
  have hreferences : s.composedSchema.1.referenceProblems = [] :=
    (List.append_eq_nil_iff.mp hproblems).2
  have htypes : ∀ t ∈ g.schema.types, ∀ name, t.RefersTo name → g.schema.Knows name := by
    rw [hschema]
    exact fun t ht name => Schema.knows_of_refersTo hreferences ht
  have hroots : g.schema.roots = [] := by
    rw [hschema, Subgraphs.composedSchema_eq]
  have hdirectives : g.schema.directiveDefinitions = s.mergedDirectiveDefinitions := by
    rw [hschema, Subgraphs.composedSchema_eq]
  refine ⟨htypes, ?_⟩
  rw [Schema.closed_iff htypes, hroots, hdirectives, and_iff_left (List.forall_mem_nil _)]
  constructor
  · intro hknown service hservice x hx hbuiltIn a ha
    obtain ⟨y, hy, b, hb, htype⟩ := (Subgraphs.exists_argumentType_iff hs hmerge).mpr
      ⟨service, hservice, x, hx, hbuiltIn, a, ha, rfl⟩
    rw [← htype]
    exact hknown y hy b hb
  · intro hknown x hx a ha
    obtain ⟨service, hservice, y, hy, hbuiltIn, b, hb, htype⟩ :=
      (Subgraphs.exists_argumentType_iff hs hmerge).mp ⟨x, hx, a, ha, rfl⟩
    rw [← htype]
    exact hknown service hservice y hy hbuiltIn b hb

/-- **Types refer to what the schema knows**, whether it is composed or built. What else it refers
to, no check looks at: a composed schema knows it exactly when the services name known types in the
arguments of the directive definitions that are composed, and a schema that is built exactly when
its document does in the arguments of directive definitions and as root operations. -/
theorem references_known (services : List Service) (d : Document) :
    (∀ g, compose services = .ok (.ok g) →
      (∀ t ∈ g.schema.types, ∀ name, t.RefersTo name → g.schema.Knows name) ∧
      (g.schema.Closed ↔ ∀ service ∈ services, ∀ x ∈ service.directiveContributions,
        DirectiveDefinition.builtIn? x.name = none →
          ∀ a ∈ x.arguments, g.schema.Knows a.type.name)) ∧
    ∀ s, Schema.build d = .ok s →
      (∀ t ∈ s.types, ∀ name, t.RefersTo name → s.Knows name) ∧
      (s.Closed ↔ (∀ x ∈ d.directiveDefinitions, ∀ a ∈ x.arguments, d.Knows a.type.name) ∧
        ∀ x ∈ d.schemaDefinitions, ∀ r ∈ x.rootOperations, d.Knows r.typeName) :=
  ⟨fun _ => closed_iff_of_compose, fun _ => Schema.closed_iff_of_build⟩

/-- The definition of a directive with an argument of a type. -/
def weightDefinition (typeName : String) : DirectiveDefinition :=
  { name := "cost"
    arguments := [{ name := "weight", type := .named typeName }]
    locations := [.object] }

/-- A service that defines the directive. -/
def weightService (typeName : String) : Service :=
  rootFieldService "a" [weightDefinition typeName] { name := "n", type := .named "Int" }

/-- A document that defines the directive and names a root type. -/
def weightDocument (typeName root : String) : Document :=
  ⟨.schema { rootOperations := [⟨.query, root⟩] } :: (weightService typeName).document.definitions⟩

/-- Where all names are known, both are composed and built to closed schemas. -/
theorem weights_known :
    (∃ g, compose [weightService "Float"] = .ok (.ok g) ∧ g.schema.Closed) ∧
      ∃ s, Schema.build (weightDocument "Float" "Query") = .ok s ∧ s.Closed := by
  obtain ⟨hcomposed, hbuilt⟩ :=
    references_known [weightService "Float"] (weightDocument "Float" "Query")
  constructor
  · obtain ⟨g, hg, -⟩ : ∃ g, compose [weightService "Float"] = .ok (.ok g) ∧
        g.schema.types.length = 1 := exists_compose (·.types.length) (by cbv)
    refine ⟨g, hg, (hcomposed g hg).2.mpr ?_⟩
    have hfloat : ∀ service ∈ [weightService "Float"], ∀ d ∈ service.directiveContributions,
        ∀ a ∈ d.arguments, a.type.name = "Float" := by decide
    intro service hservice d hd _ a ha
    rw [hfloat service hservice d hd a ha]
    exact .inl (by decide)
  · obtain ⟨s, hs⟩ : ∃ s, Schema.build (weightDocument "Float" "Query") = .ok s := ⟨_, by cbv⟩
    refine ⟨s, hs, (hbuilt s hs).2.mpr ⟨?_, ?_⟩⟩
    · have hfloat : ∀ x ∈ (weightDocument "Float" "Query").directiveDefinitions,
          ∀ a ∈ x.arguments, a.type.name = "Float" := by decide
      intro x hx a ha
      rw [hfloat x hx a ha]
      exact .inl (by decide)
    · have hquery : ∀ x ∈ (weightDocument "Float" "Query").schemaDefinitions,
          ∀ r ∈ x.rootOperations, r.typeName = "Query" := by decide
      intro x hx r hr
      rw [hquery x hx r hr]
      exact .inr ⟨_, List.mem_singleton_self _, rfl⟩

/-- A name of no type is accepted as the type of the argument, and as the root type. -/
theorem weights_unknown :
    (∃ g, compose [weightService "Missing"] = .ok (.ok g) ∧
      g.schema.RefersTo "Missing" ∧ ¬g.schema.Knows "Missing") ∧
    (∃ s, Schema.build (weightDocument "Missing" "Query") = .ok s ∧
      s.RefersTo "Missing" ∧ ¬s.Knows "Missing") ∧
    ∃ s, Schema.build (weightDocument "Float" "Missing") = .ok s ∧
      s.RefersTo "Missing" ∧ ¬s.Knows "Missing" := by
  have hunknown : ∀ s : Schema, s.types.map (·.name) = ["Query"] → ¬s.Knows "Missing" := by
    rintro s htypes (hscalar | ⟨t, ht, hname⟩)
    · exact absurd hscalar (by decide)
    · have hmem := List.mem_map_of_mem (f := (·.name)) ht
      rw [htypes, List.mem_singleton, hname] at hmem
      exact absurd hmem (by decide)
  have hargument : ∀ s : Schema, s.directiveDefinitions = [weightDefinition "Missing"] →
      s.RefersTo "Missing" := by
    intro s hdefinitions
    exact .directiveArgument (a := { name := "weight", type := .named "Missing" })
      (hdefinitions ▸ List.mem_singleton_self _) (List.mem_singleton_self _)
  refine ⟨?_, ?_, ?_⟩
  · obtain ⟨g, hg, hview⟩ : ∃ g, compose [weightService "Missing"] = .ok (.ok g) ∧
        (g.schema.types.map (·.name), g.schema.directiveDefinitions) =
          (["Query"], [weightDefinition "Missing"]) :=
      exists_compose (fun s => (s.types.map (·.name), s.directiveDefinitions)) (by cbv)
    obtain ⟨htypes, hdefinitions⟩ := Prod.mk.inj hview
    exact ⟨g, hg, hargument _ hdefinitions, hunknown _ htypes⟩
  · exact ⟨_, by cbv, hargument _ rfl, hunknown _ rfl⟩
  · refine ⟨_, by cbv, ?_, hunknown _ rfl⟩
    exact .root (r := ⟨.query, "Missing"⟩) (List.mem_singleton_self _)

end Service

end Federation
