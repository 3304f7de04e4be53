import Federation.Proofs.Composition.Applications
import Federation.Proofs.Composition.Recomposition
/-!
# Composition — composing a second time changes nothing

What one service is composed to is settled, provided that it defines no
built-in directive of its own: every application that is left comes from
the service, stands where it stood, and is checked against the same
definition (`settled_of_single`). So the document of the composed schema
is composed to the same schema again (`compose_compose`).
-/

namespace Federation

open Declared

/-! ## One service -/

namespace Subgraphs

variable {s : Subgraphs} {g : Subgraph} (hs : s.services = [g])
variable (hbuiltIn : ∀ d ∈ g.document.directiveDefinitions,
  DirectiveDefinition.builtIn? d.name = none)
include hs hbuiltIn

theorem builtIn?_of_single :
    ∀ d ∈ s.directiveDefinitions, DirectiveDefinition.builtIn? d.node.name = none := by
  intro d hd
  rw [directiveDefinitions, collect_of_single hs] at hd
  obtain ⟨d', hd', rfl⟩ := List.mem_map.mp hd
  exact hbuiltIn d' hd'

/-- One service knows the directives that it defines. -/
theorem knowsDirectives_of_single : ∀ g' ∈ s.services, g'.KnowsDirectives s.services := by
  intro g' hg' t _ x _
  rw [hs, List.mem_singleton] at hg'
  rw [hs, hg']
  refine ⟨fun ⟨d, hd, hname⟩ => ?_, fun ⟨_, h⟩ => ?_⟩
  · exact ⟨hname ▸ hbuiltIn d hd, g, List.mem_singleton_self g, d, hd, hname⟩
  · obtain ⟨g', hg', hd⟩ := h
    rwa [List.mem_singleton.mp hg'] at hd

/-- The composed types are those that were merged. -/
theorem types_composedSchema (hmerge : s.mergeProblems = []) :
    s.composedSchema.1.types = s.mergedTypes := by
  have hgroups := directiveProblems_eq_nil hmerge
  rw [composedSchema_eq]
  refine map_eq_self fun t ht => ?_
  obtain ⟨group, -, rfl⟩ := List.mem_map.mp ht
  have hsettled := TypeGroup.settled_definition s.repeatableNames.contains group
  rw [contains_repeatableNames (builtIn?_of_single hs hbuiltIn) hgroups] at hsettled ⊢
  rw [TypeDefinition.mergeApplications, hsettled.directives.merge_eq.1]

variable (h : s.allProblems = [])
include h

/-- A composed type is what the declarations of its name are composed to. -/
theorem eq_definition_of_mem_types {t : TypeDefinition} (ht : t ∈ s.composedSchema.1.types) :
    t.name ∈ s.typeNames ∧ (s.group t.name).problems s.repeatableNames.contains = [] ∧
      t = (s.group t.name).definition s.repeatableNames.contains := by
  obtain ⟨-, hmerge, -⟩ := problems_eq_nil h
  rw [types_composedSchema hs hbuiltIn hmerge, mergedTypes_eq] at ht
  obtain ⟨n, hn, rfl⟩ := List.mem_map.mp ht
  have hproblems := group_problems_eq_nil hmerge hn
  have hname : (TypeGroup.definition s.repeatableNames.contains
      (s.group n).ofOneKind).name = n := name_ofOneKind_group hn
  rw [hname, TypeGroup.ofOneKind_eq_self hproblems]
  exact ⟨hn, hproblems, rfl⟩

theorem reserved_of_single {t : TypeDefinition} (ht : t ∈ s.composedSchema.1.types)
    (hname : t.name = OperationType.query.conventionalName) {f : Field} (hf : f ∈ t.fields) :
    f.name ∉ Subgraph.reservedQueryFields := by
  obtain ⟨-, hproblems, heq⟩ := eq_definition_of_mem_types hs hbuiltIn h ht
  have hbody : t.body = (s.group t.name).body s.repeatableNames.contains :=
    congrArg TypeDefinition.body heq
  rw [TypeDefinition.fields, hbody] at hf
  -- the service declares the field on its query root, where the check would have reported it
  obtain ⟨d, hd, -⟩ := exists_of_mem_fields hproblems (TypeGroup.mem_fields_of_body _ hf)
  obtain ⟨c, hc, hmem, hfield⟩ := exists_contribution_of_named hd
  obtain ⟨g', hg', hc, hcname⟩ := mem_contributions.mp hc
  rw [hs, List.mem_singleton] at hg'
  rw [hg'] at hc
  have hg : g ∈ s.services := hs ▸ List.mem_singleton_self g
  obtain ⟨-, hreserved⟩ := checks_of_mem h hg
  have hroot : Declaration.ofDefinition c ∈ g.declarations.filter (·.root == some .query) := by
    refine List.mem_filter.mpr ⟨List.mem_map_of_mem hc, ?_⟩
    rw [Declaration.ofDefinition, hcname, hname]
    rfl
  have hnone := List.flatMap_eq_nil_iff.mp hreserved _ hroot
  have hfree := List.filter_eq_nil_iff.mp (List.map_eq_nil_iff.mp hnone)
    (FieldDeclaration.ofField d.node.node) (List.mem_map_of_mem hmem)
  have hname : (FieldDeclaration.ofField d.node.node).name = f.name := hfield
  rw [hname] at hfree
  simpa using hfree

/-- **What one service is composed to is settled.** -/
theorem settled_of_single : s.composedSchema.1.Settled where
  roots := by rw [composedSchema_eq]
  directives := by rw [composedSchema_eq]
  typeNames := by
    rw [map_name_composedSchema]
    exact s.pairwise_typeNames
  directiveNames := by
    rw [composedSchema_eq]
    exact s.pairwise_name_mergedDirectiveDefinitions
  notBuiltIn d hd := by
    rw [composedSchema_eq, mergedDirectiveDefinitions_eq] at hd
    obtain ⟨n, -, hdefinition⟩ := List.mem_filterMap.mp hd
    obtain ⟨first, hfirst, rfl⟩ := Option.map_eq_some_iff.mp hdefinition
    have hmem := List.mem_of_mem_head? hfirst
    exact builtIn?_of_single hs hbuiltIn first (List.mem_filter.mp (List.mem_filter.mp hmem).1).1
  types t ht := by
    obtain ⟨-, hmerge, -⟩ := problems_eq_nil h
    have hgroups := directiveProblems_eq_nil hmerge
    have hrepeatable : s.composedSchema.1.isRepeatable = s.repeatableNames.contains := by
      rw [contains_repeatableNames (builtIn?_of_single hs hbuiltIn) hgroups, composedSchema_eq]
      rfl
    obtain ⟨-, -, heq⟩ := eq_definition_of_mem_types hs hbuiltIn h ht
    rw [hrepeatable, heq]
    exact TypeGroup.settled_definition _ _
  routerTypes t ht := by
    obtain ⟨hn, -, -⟩ := eq_definition_of_mem_types hs hbuiltIn h ht
    obtain ⟨g', -, d, hd, hname⟩ := mem_typeNames.mp hn
    rw [← hname]
    simpa using (List.mem_filter.mp hd).2
  interpreted t ht := interpreted_of_mem_types h ht
  sites t ht x hx := problems_of_knowsDirectives h (knowsDirectives_of_single hs hbuiltIn) ht hx
  reserved t ht hname f hf := reserved_of_single hs hbuiltIn h ht hname hf
  interfaces := by
    have hproblems := (problems_eq_nil h).2.2
    simp only [Schema.problems, List.append_eq_nil_iff] at hproblems
    exact hproblems.1.1.2
  references := by
    have hproblems := (problems_eq_nil h).2.2
    simp only [Schema.problems, List.append_eq_nil_iff] at hproblems
    exact hproblems.2

end Subgraphs

namespace Service

/-- **Composing a second time changes nothing.** The document of what a service is composed to is
composed to the same types and directive definitions, under whatever name and address, unless the
service defines a built-in directive. -/
theorem compose_compose {service : Service} {g : Supergraph}
    (h : compose [service] = .ok (.ok g))
    (hbuiltIn : ∀ d ∈ service.document.directiveDefinitions,
      DirectiveDefinition.builtIn? d.name = none) (name : String) (url : Option String) :
    ∃ g', compose [{ name, url, document := g.schema.toDocument }] = .ok (.ok g') ∧
      g'.schema.types = g.schema.types ∧
      g'.schema.directiveDefinitions = g.schema.directiveDefinitions := by
  obtain ⟨s, hs, hnone, hschema, -⟩ := exists_of_compose h
  have hcontributed : ∀ d ∈ service.toSubgraph.document.directiveDefinitions,
      DirectiveDefinition.builtIn? d.name = none := by
    intro d hd
    rw [directiveDefinitions_toSubgraph] at hd
    obtain ⟨d', hd', rfl⟩ := List.mem_map.mp hd
    exact hbuiltIn d' hd'
  rw [hschema]
  exact (Subgraphs.settled_of_single hs hcontributed hnone).compose_toDocument name url

/-- A service with a root type of its own name, an extension, a key, and applications that are
merged. -/
def scatteredService : Service :=
  let tag : Directive := { name := "tag", arguments := [⟨"name", .string "public"⟩] }
  { name := "users"
    document :=
      ⟨[.type
          { name := "User"
            isExtension := true
            directives := [tag, { name := "cached" }]
            body := .object { fields := [{ name := "name", type := .named "String" }] } },
        .schema { rootOperations := [⟨.query, "Root"⟩] },
        .directive { name := "cached", locations := [.object] },
        .type
          { name := "User"
            directives :=
              [{ name := FederationDirective.keyName, arguments := [⟨"fields", .string "id"⟩] },
               tag]
            body := .object { fields := [{ name := "id", type := .named "ID" }] } },
        .type
          { name := "Root"
            body := .object { fields := [{ name := "me", type := .named "User" }] } }]⟩ }

/-- The service is composed to merged types, and these to themselves. -/
theorem scatteredService_compose_compose :
    ∃ g, compose [scatteredService] = .ok (.ok g) ∧
      g.schema.types.map (fun t => (t.name, t.directives.map (·.name), t.fields.map (·.name))) =
        [("Query", [], ["me"]), ("User", ["tag", "cached"], ["name", "id"])] ∧
      ∃ g', compose [{ name := "again", document := g.schema.toDocument }] = .ok (.ok g') ∧
        g'.schema.types = g.schema.types ∧
        g'.schema.directiveDefinitions = g.schema.directiveDefinitions := by
  obtain ⟨g, hg, htypes⟩ : ∃ g, compose [scatteredService] = .ok (.ok g) ∧
      g.schema.types.map (fun t => (t.name, t.directives.map (·.name), t.fields.map (·.name))) =
        [("Query", [], ["me"]), ("User", ["tag", "cached"], ["name", "id"])] :=
    exists_compose (fun s =>
      s.types.map fun t => (t.name, t.directives.map (·.name), t.fields.map (·.name))) (by cbv)
  exact ⟨g, hg, htypes, compose_compose hg (by decide) "again" none⟩

end Service

end Federation
