import Federation.Proofs.Composition.DirectiveDefinitions
import Federation.Proofs.Composition.Settled
/-!
# Composition — composing a settled schema

A service whose document is that of a settled schema is fit to be
composed, declares every type and every directive once, and makes the
same schema again (`compose_toDocument`), whatever the service is
called.
-/

namespace Federation

open Declared

/-! ## The document of a settled schema -/

namespace Schema

/-! The checks of interfaces and references read nothing of a schema but its types. -/

section

variable {a b : Schema} (h : a.types = b.types)
include h

theorem type?_congr : a.type? = b.type? := by
  funext name
  rw [type?, h, type?]

theorem isImplementationType_congr : a.isImplementationType = b.isImplementationType := by
  have hsubtype : a.isSubtype = b.isSubtype := by
    funext abstract concrete
    rw [isSubtype, type?_congr h, isSubtype]
  funext field expected
  induction field, expected using isImplementationType.induct <;>
    simp_all [isImplementationType]

theorem interfaceProblems_congr : a.interfaceProblems = b.interfaceProblems := by
  have hfield : a.fieldCauses = b.fieldCauses := by
    funext d interface expected
    rw [fieldCauses, isImplementationType_congr h, fieldCauses]
  have himplementation : a.implementationProblems = b.implementationProblems := by
    funext d interface
    rw [implementationProblems, hfield, implementationProblems]
  have hname : a.interfaceNameProblems = b.interfaceNameProblems := by
    funext d name
    rw [interfaceNameProblems, type?_congr h, himplementation, interfaceNameProblems]
  rw [interfaceProblems, h, hname, interfaceProblems]

theorem referenceProblems_congr : a.referenceProblems = b.referenceProblems := by
  have hknown : a.isKnownType = b.isKnownType := by
    funext name
    rw [isKnownType, type?_congr h, isKnownType]
  rw [referenceProblems, h, hknown, referenceProblems]

end

/-! ### What a service with the document declares -/

theorem typeDefinitions_toDocument (s : Schema) : s.toDocument.typeDefinitions = s.types := by
  rw [toDocument, Document.typeDefinitions]
  split <;> simp [List.filterMap_append, List.filterMap_map]

theorem directiveDefinitions_toDocument (s : Schema) :
    s.toDocument.directiveDefinitions = s.directiveDefinitions := by
  rw [toDocument, Document.directiveDefinitions]
  split <;> simp [List.filterMap_append, List.filterMap_map]

/-- A schema without roots and directives of its own needs no schema definition. -/
theorem toDocument_of_nil {s : Schema} (hroots : s.roots = []) (hdirectives : s.directives = []) :
    s.toDocument = ⟨s.directiveDefinitions.map .directive ++ s.types.map .type⟩ := by
  rw [toDocument, hasCustomRoots, hroots, hdirectives]
  rfl

theorem schemaDefinitions_toDocument {s : Schema} (hroots : s.roots = [])
    (hdirectives : s.directives = []) : s.toDocument.schemaDefinitions = [] := by
  rw [toDocument_of_nil hroots hdirectives, Document.schemaDefinitions]
  simp [List.filterMap_append, List.filterMap_map]

/-- The roots of a settled schema have their conventional names. -/
theorem Settled.rootRenames_toDocument {s : Schema} (h : s.Settled) :
    s.toDocument.rootRenames = [] := by
  rw [Document.rootRenames, schemaDefinitions_toDocument h.roots h.directives]
  rfl

end Schema

/-- A settled field asks for no fields of other services. -/
theorem Directive.Settled.requires_ofField {isRepeatable : String → Bool} {f : Field}
    (h : Directive.Settled isRepeatable f.directives) :
    (FieldDeclaration.ofField f).requires = none := by
  refine List.getLast?_eq_none_iff.mpr (List.filterMap_eq_nil_iff.mpr fun m hm => ?_)
  obtain ⟨name, rfl⟩ | ⟨x, rfl⟩ := h.meanings hm <;> rfl

section

variable {schema : Schema} (h : schema.Settled) {g : Subgraph}
variable (hg : g.content = .ok schema.toDocument)
include h hg

namespace Subgraph

theorem document_of_settled : g.document = schema.toDocument := by
  rw [document, hg]
  show schema.toDocument.withConventionalRoots = _
  rw [Document.withConventionalRoots, h.rootRenames_toDocument]

theorem typeDefinitions_of_settled : g.typeDefinitions = schema.types := by
  rw [typeDefinitions, document_of_settled h hg, Schema.typeDefinitions_toDocument,
    List.filter_eq_self]
  intro t ht
  simpa using h.routerTypes t ht

theorem directiveDefinitions_of_settled :
    g.document.directiveDefinitions = schema.directiveDefinitions := by
  rw [document_of_settled h hg, Schema.directiveDefinitions_toDocument]

/-- **There is nothing wrong with the service as it is handed in.** -/
theorem problems_of_settled : g.problems = [] := by
  have hshadowing : schema.toDocument.shadowingTypes = [] := by
    rw [Document.shadowingTypes, h.rootRenames_toDocument]
    exact List.filter_eq_nil_iff.mpr fun t _ => Bool.false_ne_true
  have hinterpreted : schema.types.flatMap Declaration.problems = [] :=
    List.flatMap_eq_nil_iff.mpr h.interpreted
  rw [problems, typeDefinitions_of_settled h hg, hinterpreted]
  simp [hg, hshadowing]

theorem declarations_of_settled : g.declarations = schema.types.map Declaration.ofDefinition := by
  rw [declarations, typeDefinitions_of_settled h hg]

theorem siteProblems_of_settled : g.siteProblems = [] := by
  have hlookup : g.lookupDirective = schema.definitionOf? := by
    funext name
    rw [lookupDirective, directiveDefinitions_of_settled h hg]
    rfl
  rw [siteProblems, schemaSites, document_of_settled h hg,
    Schema.schemaDefinitions_toDocument h.roots h.directives,
    typeDefinitions_of_settled h hg, hlookup]
  refine List.flatMap_eq_nil_iff.mpr fun x hx => ?_
  obtain ⟨t, ht, hxt⟩ := List.mem_flatMap.mp hx
  exact h.sites t ht x hxt

/-- A declaration of the query root is one of the type with the conventional name. -/
theorem reservedFieldProblems_of_settled : reservedFieldProblems g.declarations = [] := by
  refine List.flatMap_eq_nil_iff.mpr fun d hd => ?_
  rw [declarations_of_settled h hg] at hd
  obtain ⟨hd, hroot⟩ := List.mem_filter.mp hd
  obtain ⟨t, ht, rfl⟩ := List.mem_map.mp hd
  have hquery : OperationType.ofConventionalName? t.name = some .query := beq_iff_eq.mp hroot
  have hfound := List.find?_some hquery
  have hname : t.name = OperationType.query.conventionalName := (beq_iff_eq.mp hfound).symm
  refine List.map_eq_nil_iff.mpr (List.filter_eq_nil_iff.mpr fun f hf => ?_)
  obtain ⟨f', hf', rfl⟩ := List.mem_map.mp hf
  have hfree : (FieldDeclaration.ofField f').name ∉ reservedQueryFields :=
    h.reserved t ht hname f' hf'
  simpa using hfree

theorem baseFieldProblems_of_settled : baseFieldProblems g.declarations = [] := by
  refine List.flatMap_eq_nil_iff.mpr fun d hd => List.flatMap_eq_nil_iff.mpr fun f hf => ?_
  rw [declarations_of_settled h hg] at hd
  obtain ⟨t, ht, rfl⟩ := List.mem_map.mp (List.mem_filter.mp hd).1
  obtain ⟨f', hf', rfl⟩ := List.mem_map.mp hf
  have hsettled := (h.types t ht).fields f' hf'
  have hexternal : (FieldDeclaration.ofField f').isExternal = false :=
    hsettled.any_name_eq_false (by decide)
  rw [hexternal, hsettled.requires_ofField]
  rfl

/-- Only root types are extensions, and the check leaves them out. -/
theorem extensionKeyProblems_of_settled : extensionKeyProblems g.declarations = [] := by
  have hnone : (g.declarations.filter fun d => d.isExtension && d.root.isNone) = [] := by
    rw [declarations_of_settled h hg, List.filter_eq_nil_iff]
    intro d hd
    obtain ⟨t, ht, rfl⟩ := List.mem_map.mp hd
    cases hroot : OperationType.ofConventionalName? t.name <;>
      simp [Declaration.ofDefinition, (h.types t ht).extendsType_eq_false, hroot]
  rw [extensionKeyProblems, hnone]
  rfl

/-- **There is nothing wrong with the service by itself.** -/
theorem checkProblems_of_settled : g.checkProblems = [] := by
  rw [checkProblems, siteProblems_of_settled h hg, reservedFieldProblems_of_settled h hg,
    baseFieldProblems_of_settled h hg, extensionKeyProblems_of_settled h hg]
  rfl

end Subgraph

/-! ## Composing a settled schema -/

namespace Subgraphs

variable {s : Subgraphs} (hs : s.services = [g])
include hs

theorem typeNames_of_settled : s.typeNames = schema.types.map (·.name) := by
  have htypes := Subgraph.typeDefinitions_of_settled h hg
  rw [typeNames_of_single hs (by rw [htypes]; exact h.typeNames), htypes]

theorem group_of_settled {t : TypeDefinition} (ht : t ∈ schema.types) :
    s.group t.name = [only g.name (Declaration.ofDefinition t)] := by
  have htypes := Subgraph.typeDefinitions_of_settled h hg
  refine group_of_single hs ?_ ?_
  · rw [htypes]
    exact nodup_of_pairwise_lt h.typeNames
  · rw [htypes]
    exact ht

/-- The service defines no built-in directive. -/
theorem notBuiltIn_of_settled :
    ∀ d ∈ s.directiveDefinitions, DirectiveDefinition.builtIn? d.node.name = none := by
  intro d hd
  rw [directiveDefinitions, collect_of_single hs,
    Subgraph.directiveDefinitions_of_settled h hg] at hd
  obtain ⟨d', hd', rfl⟩ := List.mem_map.mp hd
  exact h.notBuiltIn d' hd'

/-- Every directive is defined once. -/
theorem directiveGroups_of_settled :
    s.directiveGroups = schema.directiveDefinitions.map fun d => [only g.name d] := by
  have hdefinitions : s.directiveDefinitions = schema.directiveDefinitions.map (only g.name) := by
    rw [directiveDefinitions, collect_of_single hs, Subgraph.directiveDefinitions_of_settled h hg]
  have hall := filter_builtIn?_eq_self (notBuiltIn_of_settled h hg hs)
  have hnodup := nodup_of_pairwise_lt h.directiveNames
  have hnames : s.directiveDefinitions.map (·.node.name) =
      schema.directiveDefinitions.map (·.name) := by
    rw [hdefinitions, List.map_map]
    rfl
  rw [directiveGroups, hall, hnames, distinct_eq_self hnodup, List.mergeSort_of_pairwise
    (h.directiveNames.imp fun hlt => Text.stringLe_iff.mpr (Std.le_of_lt hlt)), List.map_map]
  refine List.map_congr_left fun d hd => ?_
  have hmem : only g.name d ∈ s.directiveDefinitions := by
    rw [hdefinitions]
    exact List.mem_map_of_mem hd
  rw [← hnames] at hnodup
  exact filter_eq_singleton hnodup hmem

theorem mergedDirectiveDefinitions_of_settled :
    s.mergedDirectiveDefinitions = schema.directiveDefinitions := by
  have hone : ∀ d ∈ schema.directiveDefinitions,
      DirectiveGroup.definition? [only g.name d] = some d := by
    intro d _
    rw [DirectiveGroup.definition?, firstDescription_singleton]
    rfl
  rw [mergedDirectiveDefinitions, directiveGroups_of_settled h hg hs, List.filterMap_map]
  exact (List.filterMap_congr hone).trans List.filterMap_some

theorem directiveProblems_of_settled :
    s.directiveGroups.flatMap DirectiveGroup.problems = [] := by
  rw [directiveGroups_of_settled h hg hs, List.flatMap_map, List.flatMap_eq_nil_iff]
  intro d _
  have hsame : d.sameSignature d = true := by
    simp [DirectiveDefinition.sameSignature, DirectiveDefinition.sameLocations]
  simp [DirectiveGroup.problems, hsame]

theorem isRepeatable_of_settled : s.isRepeatable = schema.isRepeatable := by
  funext name
  rw [Subgraphs.isRepeatable, mergedDirectiveDefinitions_of_settled h hg hs]
  rfl

theorem contains_repeatableNames_of_settled :
    s.repeatableNames.contains = schema.isRepeatable := by
  rw [← isRepeatable_of_settled h hg hs]
  exact contains_repeatableNames (notBuiltIn_of_settled h hg hs)
    (directiveProblems_of_settled h hg hs)

/-- **The merged types are those of the schema**, and there is nothing wrong with any. -/
theorem mergedTypes_of_settled : s.mergedTypes = schema.types := by
  rw [mergedTypes_eq, typeNames_of_settled h hg hs, List.map_map]
  refine map_eq_self fun t ht => ?_
  rw [Function.comp, group_of_settled h hg hs ht, TypeGroup.ofOneKind_only,
    contains_repeatableNames_of_settled h hg hs]
  exact TypeGroup.definition_only g.name (h.types t ht)

theorem mergeProblems_of_settled : s.mergeProblems = [] := by
  rw [mergeProblems, directiveProblems_of_settled h hg hs, groups_eq,
    typeNames_of_settled h hg hs, List.nil_append, List.map_map, List.flatMap_map,
    List.flatMap_eq_nil_iff]
  intro t ht
  rw [Function.comp, group_of_settled h hg hs ht, contains_repeatableNames_of_settled h hg hs]
  exact TypeGroup.problems_only g.name (h.types t ht)

/-- **The composed schema is the schema**, with the record of one service. -/
theorem composedSchema_of_settled :
    s.composedSchema =
      ({ types := schema.types
         directiveDefinitions := schema.directiveDefinitions
         ownership := s.ownership }, []) := by
  have hmerge : ∀ t ∈ schema.types, t.mergeApplications s.isRepeatable = t := by
    intro t ht
    rw [isRepeatable_of_settled h hg hs, TypeDefinition.mergeApplications,
      (h.types t ht).directives.merge_eq.1]
  have hconflicts : schema.types.flatMap
      (TypeDefinition.applicationConflicts s.isRepeatable) = [] := by
    refine List.flatMap_eq_nil_iff.mpr fun t ht => ?_
    rw [isRepeatable_of_settled h hg hs, TypeDefinition.applicationConflicts,
      Directive.conflictDiagnostics, (h.types t ht).directives.merge_eq.2]
    rfl
  rw [composedSchema_eq, mergedTypes_of_settled h hg hs, map_eq_self hmerge, hconflicts,
    mergedDirectiveDefinitions_of_settled h hg hs]

/-- No type has keys, and every field is resolved by the one service. -/
theorem ownership_of_settled {r : TypeOwnership} (hr : r ∈ s.ownership) :
    r.keys = [] ∧ ∀ f ∈ r.fields, ∃ c, f.contributions = [c] ∧ c.isExternal = false := by
  rw [ownership_eq, typeNames_of_settled h hg hs, List.map_map] at hr
  obtain ⟨t, ht, rfl⟩ := List.mem_map.mp hr
  rw [Function.comp, group_of_settled h hg hs ht, TypeGroup.ofOneKind_only]
  exact TypeGroup.ownership_only g.name (h.types t ht)

theorem schemaProblems_of_settled : s.composedSchema.1.problems = [] := by
  -- the checks of the record find no keys, and one resolver wherever they look for one
  have howned := fun r hr => ownership_of_settled h hg hs (r := r) hr
  have hkeys : s.composedSchema.1.keyProblems = [] := by
    rw [composedSchema_of_settled h hg hs]
    refine List.flatMap_eq_nil_iff.mpr fun r hr => ?_
    rw [(howned r hr).1]
    rfl
  have hexternal : s.composedSchema.1.externalFieldProblems = [] := by
    rw [composedSchema_of_settled h hg hs]
    refine List.flatMap_eq_nil_iff.mpr fun r hr =>
      List.map_eq_nil_iff.mpr (List.filter_eq_nil_iff.mpr fun f hf => ?_)
    obtain ⟨c, hc, hinternal⟩ := (howned r hr).2 f hf
    simp [FieldOwnership.owner?, hc, hinternal]
  have hroots : s.composedSchema.1.rootFieldProblems = [] := by
    rw [composedSchema_of_settled h hg hs]
    refine List.flatMap_eq_nil_iff.mpr fun root _ => ?_
    split
    · rfl
    · rename_i r hr
      refine List.map_eq_nil_iff.mpr (List.filter_eq_nil_iff.mpr fun f hf => ?_)
      obtain ⟨c, hc, hinternal⟩ := (howned r (List.mem_of_find?_eq_some hr)).2 f hf
      simp [FieldOwnership.resolvers, hc, hinternal]
  have htypes : s.composedSchema.1.types = schema.types := by
    rw [composedSchema_of_settled h hg hs]
  rw [Schema.problems, hkeys, hexternal, hroots, Schema.interfaceProblems_congr htypes,
    Schema.referenceProblems_congr htypes, h.interfaces, h.references]
  rfl

/-- **There is nothing wrong at any stage.** -/
theorem allProblems_of_settled : s.allProblems = [] := by
  have hproblems : s.problems = [] := by
    rw [problems, hs, List.flatMap_singleton, Subgraph.problems_of_settled h hg]
  have hchecks : s.checkProblems = [] := by
    rw [checkProblems, hs, List.flatMap_singleton, Subgraph.checkProblems_of_settled h hg]
  have hclashes : s.composedSchema.2 = [] := by
    rw [composedSchema_of_settled h hg hs]
  show s.problems ++ s.checkProblems ++ s.mergeProblems ++ s.composedSchema.2 ++
    s.composedSchema.1.problems = []
  rw [hproblems, hchecks, mergeProblems_of_settled h hg hs, hclashes,
    schemaProblems_of_settled h hg hs]
  rfl

end Subgraphs

end

/-- **A settled schema is composed to itself.** -/
theorem Schema.Settled.compose_toDocument {schema : Schema} (h : schema.Settled) (name : String)
    (url : Option String) :
    ∃ g, Service.compose [{ name, url, document := schema.toDocument }] = .ok (.ok g) ∧
      g.schema.types = schema.types ∧
      g.schema.directiveDefinitions = schema.directiveDefinitions := by
  have hnodup : ([{ name, url, document := schema.toDocument }].map Service.name).Nodup :=
    List.nodup_singleton name
  obtain ⟨s, hs⟩ := Subgraphs.exists_ofServices hnodup
  have hservices := Subgraphs.services_of_ofServices hs
  have hcompose := Subgraphs.compose_of_eq_nil
    (Subgraphs.allProblems_of_settled h rfl hservices)
  have hschema := Subgraphs.composedSchema_of_settled h rfl hservices
  refine ⟨{ schema := s.composedSchema.1,
            document := Supergraph.annotated s.composedSchema.1 s.graphs }, ?_, ?_, ?_⟩
  · rw [Service.compose, hs]
    exact congrArg Except.ok hcompose
  · rw [hschema]
  · rw [hschema]

end Federation
