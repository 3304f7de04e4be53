import Federation.Composition.Compose
import Federation.Proofs.Composition.Members
import Federation.Proofs.Schema.Building
import Federation.Proofs.Subgraph.Collection
/-!
# Composition — the schema that services make

The merged document repeats nothing, so the schema holds what was
merged: a type for every declared name, in order, and the directive
definitions (`composedSchema_eq`). Services that are composed without a
diagnostic have no problem at any stage, and contribute all that they
were written with (`exists_of_compose`).
-/

namespace Federation

open Declared

namespace TypeGroup

variable {g : TypeGroup}

theorem ofOneKind_cons (d : Declared Declaration) (ds : TypeGroup) :
    ofOneKind (d :: ds) = d :: ds.filter (·.node.kind == d.node.kind) := by
  rw [ofOneKind, List.filter_cons_of_pos]
  · rfl
  · exact beq_self_eq_true _

/-- The first declaration is of the kind that wins. -/
theorem head_ofOneKind (g : TypeGroup) : g.ofOneKind.head? = g.head? := by
  cases g with
  | nil => rfl
  | cons d ds => rw [ofOneKind_cons, List.head?_cons, List.head?_cons]

@[simp] theorem name_ofOneKind (g : TypeGroup) : g.ofOneKind.name = g.name := by
  rw [name, name, head_ofOneKind]

variable (isRepeatable : String → Bool)

theorem kind_body (g : TypeGroup) : (g.body isRepeatable).kind = g.kind := by
  rw [body]
  cases g.kind <;> rfl

theorem map_name_fields (g : TypeGroup) :
    (g.fields isRepeatable).map Field.name =
      distinct (g.fieldDeclarations.map fun d => d.node.name) :=
  (FieldDeclaration.keepsName_compose isRepeatable).map_name_composed _

/-- What is composed repeats no member. -/
theorem distinctMembers_body (g : TypeGroup) : (g.body isRepeatable).DistinctMembers := by
  have hobject : g.implements.Nodup ∧ ((g.fields isRepeatable).map Field.name).Nodup := by
    refine ⟨nodup_distinct _, ?_⟩
    rw [map_name_fields]
    exact nodup_distinct _
  rw [body]
  cases g.kind with
  | scalar => exact True.intro
  | object => exact hobject
  | interface => exact hobject
  | union => exact nodup_distinct _
  | enum =>
    show List.Nodup (List.map _ _)
    rw [(EnumValue.keepsName_compose isRepeatable).map_name_composed]
    exact nodup_distinct _
  | inputObject =>
    show List.Nodup (List.map _ _)
    rw [(InputValue.keepsName_compose isRepeatable).map_name_composed]
    exact nodup_distinct _

theorem nodup_map_name_fields (g : TypeGroup) :
    ((g.body isRepeatable).fields.map Field.name).Nodup :=
  (distinctMembers_body isRepeatable g).fields

end TypeGroup

namespace DirectiveGroup

theorem name_of_definition {ds : DirectiveGroup} {n : String} {d : DirectiveDefinition}
    (h : definition? (ds.filter (·.node.name == n)) = some d) : d.name = n := by
  obtain ⟨first, hfirst, rfl⟩ := Option.map_eq_some_iff.mp h
  exact beq_iff_eq.mp (List.mem_filter.mp (List.mem_of_mem_head? hfirst)).2

end DirectiveGroup

namespace Subgraphs

variable (s : Subgraphs)

/-! ## The merged document -/

theorem typeGroups_eq : s.typeGroups = s.typeNames.map fun n => (s.group n).ofOneKind := by
  rw [typeGroups, groups_eq, List.map_map]
  rfl

theorem name_ofOneKind_group {s : Subgraphs} {typeName : String} (h : typeName ∈ s.typeNames) :
    (s.group typeName).ofOneKind.name = typeName := by
  rw [TypeGroup.name_ofOneKind, name_group h]

theorem mergedTypes_eq :
    s.mergedTypes = s.typeNames.map fun n =>
      TypeGroup.definition s.repeatableNames.contains (s.group n).ofOneKind := by
  rw [mergedTypes, typeGroups_eq, List.map_map]
  rfl

theorem map_name_mergedTypes : s.mergedTypes.map (·.name) = s.typeNames := by
  rw [mergedTypes_eq, List.map_map]
  exact map_eq_self fun n hn => name_ofOneKind_group hn

theorem nodup_mergedDirectiveDefinitions :
    (s.mergedDirectiveDefinitions.map (·.name)).Nodup := by
  rw [mergedDirectiveDefinitions, directiveGroups, List.filterMap_map, List.map_filterMap]
  refine List.Nodup.filterMap ?_ ((List.mergeSort_perm _ _).nodup_iff.mpr (nodup_distinct _))
  -- a composed definition goes by the name of its group, so two groups do not share it
  intro n m name hn hm
  obtain ⟨d, hd, hdn⟩ := Option.map_eq_some_iff.mp hn
  obtain ⟨e, he, hen⟩ := Option.map_eq_some_iff.mp hm
  rw [← DirectiveGroup.name_of_definition hd, ← DirectiveGroup.name_of_definition he, hdn, hen]

/-! ## The composed schema -/

/-- Whether a directive may be repeated, by the composed definitions. -/
def isRepeatable (name : String) : Bool :=
  ({ directiveDefinitions := s.mergedDirectiveDefinitions } : Schema).isRepeatable name

/-- **The merged document is applied without loss**, with the applications on each type merged once
more. -/
theorem applyDocument_mergedDocument :
    Schema.empty.applyDocument s.mergedDocument =
      ({ types := s.mergedTypes.map (TypeDefinition.mergeApplications s.isRepeatable)
         directiveDefinitions := s.mergedDirectiveDefinitions },
        s.mergedTypes.flatMap (TypeDefinition.applicationConflicts s.isRepeatable)) := by
  have hnames : (s.mergedTypes.map (·.name)).Nodup := by
    rw [map_name_mergedTypes]
    exact s.nodup_typeNames
  have hbase : ∀ t ∈ s.mergedTypes, t.isExtension = false ∧ t.body.DistinctMembers := by
    intro t ht
    obtain ⟨g, -, rfl⟩ := List.mem_map.mp ht
    exact ⟨rfl, TypeGroup.distinctMembers_body _ g⟩
  rw [mergedDocument,
    Schema.applyDocument_distinct s.nodup_mergedDirectiveDefinitions hnames hbase]
  rfl

/-- **The composed schema holds what was merged**, and the records of who resolves what. -/
theorem composedSchema_eq :
    s.composedSchema =
      ({ types := s.mergedTypes.map (TypeDefinition.mergeApplications s.isRepeatable)
         directiveDefinitions := s.mergedDirectiveDefinitions
         ownership := s.ownership },
        s.mergedTypes.flatMap (TypeDefinition.applicationConflicts s.isRepeatable)) := by
  rw [composedSchema, applyDocument_mergedDocument]

/-- The composed types have the declared names, in order. -/
theorem map_name_composedSchema : s.composedSchema.1.types.map (·.name) = s.typeNames := by
  rw [composedSchema_eq]
  simp only [List.map_map]
  exact s.map_name_mergedTypes

theorem ownership_eq :
    s.ownership = s.typeNames.map fun n => (s.group n).ofOneKind.ownership := by
  rw [ownership, typeGroups_eq, List.map_map]
  rfl

/-- Every declared type has the record of its declarations. -/
theorem ownership?_composedSchema {typeName : String} (h : typeName ∈ s.typeNames) :
    s.composedSchema.1.ownership? typeName = some (s.group typeName).ofOneKind.ownership := by
  rw [composedSchema_eq]
  simp only [Schema.ownership?, ownership_eq]
  have hname : ∀ n ∈ s.typeNames, (s.group n).ofOneKind.ownership.name = n :=
    fun n hn => name_ofOneKind_group hn
  rw [List.find?_map]
  -- the names of types are distinct, so the record that is found is that of the type
  have hfind : s.typeNames.find?
      ((fun t : TypeOwnership => t.name == typeName) ∘ fun n => (s.group n).ofOneKind.ownership) =
        some typeName := by
    rw [List.find?_eq_some_iff_append]
    obtain ⟨as, bs, hsplit⟩ := List.append_of_mem h
    refine ⟨?_, as, bs, hsplit, ?_⟩
    · simp [hname typeName h]
    · intro n hn
      have hmem : n ∈ s.typeNames := by
        rw [hsplit]
        exact List.mem_append_left _ hn
      have hne : n ≠ typeName := by
        have hnodup := s.nodup_typeNames
        rw [hsplit] at hnodup
        exact (List.nodup_append.mp hnodup).2.2 n hn typeName List.mem_cons_self
      simp [hname n hmem, hne]
  rw [hfind, Option.map_some]

/-- No other name has a record. -/
theorem ownership?_composedSchema_eq_none {typeName : String} (h : typeName ∉ s.typeNames) :
    s.composedSchema.1.ownership? typeName = none := by
  rw [composedSchema_eq]
  simp only [Schema.ownership?, ownership_eq]
  refine List.find?_eq_none.mpr fun t ht hname => h ?_
  obtain ⟨n, hn, rfl⟩ := List.mem_map.mp ht
  have hnamed : (s.group n).ofOneKind.name = n := name_ofOneKind_group hn
  rw [← beq_iff_eq.mp hname, TypeGroup.ownership, hnamed]
  exact hn

/-- A composed type is composed from the declarations of its name. -/
theorem mem_types_composedSchema {d : TypeDefinition} (h : d ∈ s.composedSchema.1.types) :
    d.name ∈ s.typeNames ∧
      d.description = firstDescription (·.node.description) (s.group d.name).ofOneKind ∧
      d.body = (s.group d.name).ofOneKind.body s.repeatableNames.contains := by
  rw [composedSchema_eq] at h
  simp only [mergedTypes_eq, List.map_map, List.mem_map] at h
  obtain ⟨n, hn, rfl⟩ := h
  have hdname : (TypeDefinition.mergeApplications s.isRepeatable
      (TypeGroup.definition s.repeatableNames.contains (s.group n).ofOneKind)).name = n :=
    name_ofOneKind_group hn
  rw [Function.comp, hdname]
  exact ⟨hn, rfl, rfl⟩

/-! ## Success -/

theorem compose_of_eq_nil {s : Subgraphs} (h : s.allProblems = []) :
    s.compose = .ok
      { schema := s.composedSchema.1
        document := Supergraph.annotated s.composedSchema.1 s.graphs } := by
  rw [compose, h]

theorem compose_of_ne_nil {s : Subgraphs} (h : s.allProblems ≠ []) :
    s.compose = .error (Diagnostic.sorted s.allProblems) := by
  rw [compose]
  split
  · rename_i hnone
    exact absurd hnone h
  · rfl

theorem compose_eq_ok {s : Subgraphs} {g : Supergraph} (h : s.compose = .ok g) :
    s.allProblems = [] ∧ g.schema = s.composedSchema.1 := by
  by_cases hnone : s.allProblems = []
  · rw [compose_of_eq_nil hnone] at h
    cases h
    exact ⟨hnone, rfl⟩
  · rw [compose_of_ne_nil hnone] at h
    cases h

/-- The document that is handed out is the composed schema with its annotations. -/
theorem document_of_compose {s : Subgraphs} {g : Supergraph} (h : s.compose = .ok g) :
    g.document = Supergraph.annotated g.schema s.graphs := by
  rw [compose_of_eq_nil (compose_eq_ok h).1] at h
  cases h
  rfl

/-- Services that are composed have no problem at any stage. -/
theorem problems_eq_nil {s : Subgraphs} (h : s.allProblems = []) :
    s.problems = [] ∧ s.mergeProblems = [] ∧ s.composedSchema.1.problems = [] := by
  simp only [allProblems, List.append_eq_nil_iff] at h
  exact ⟨h.1.1.1.1, h.1.1.2, h.2⟩

theorem group_problems_eq_nil {s : Subgraphs} (h : s.mergeProblems = []) {typeName : String}
    (hn : typeName ∈ s.typeNames) :
    (s.group typeName).problems s.repeatableNames.contains = [] := by
  rw [mergeProblems, groups_eq, List.append_eq_nil_iff] at h
  exact (List.flatMap_eq_nil_iff.mp h.2) _ (List.mem_map_of_mem hn)

theorem directiveProblems_eq_nil {s : Subgraphs} (h : s.mergeProblems = []) :
    s.directiveGroups.flatMap DirectiveGroup.problems = [] :=
  (List.append_eq_nil_iff.mp h).1

theorem toSubgraph_mem_services {s : Subgraphs} {services : List Service}
    (hs : s.services = services.map Service.toSubgraph) {service : Service}
    (hservice : service ∈ services) : service.toSubgraph ∈ s.services := by
  rw [hs]
  exact List.mem_map_of_mem hservice

/-- Services without problems contribute all that they were written with. -/
theorem typeDefinitions_eq_of_problems {s : Subgraphs} {services : List Service}
    (hs : s.services = services.map Service.toSubgraph) (h : s.allProblems = []) :
    ∀ service ∈ services, service.toSubgraph.typeDefinitions = service.typeContributions := by
  intro service hservice
  have hproblems := (problems_eq_nil h).1
  rw [problems, hs, List.flatMap_eq_nil_iff] at hproblems
  exact Service.typeDefinitions_toSubgraph (hproblems _ (List.mem_map_of_mem hservice))

end Subgraphs

namespace Service

/-- Services that are composed are all taken. -/
theorem exists_subgraphs_of_compose {services : List Service} {g : Supergraph}
    (h : compose services = .ok (.ok g)) :
    ∃ s : Subgraphs, s.services = services.map toSubgraph ∧ s.compose = .ok g := by
  cases hs : Subgraphs.ofServices services with
  | error e =>
    rw [compose, hs] at h
    cases h
  | ok s =>
    rw [compose, hs] at h
    exact ⟨s, Subgraphs.services_of_ofServices hs, Except.ok.inj h⟩

/-- **Services that are composed contribute all that they were written with**, and have no problem
at any stage. -/
theorem exists_of_compose {services : List Service} {g : Supergraph}
    (h : compose services = .ok (.ok g)) :
    ∃ s : Subgraphs, s.services = services.map toSubgraph ∧ s.allProblems = [] ∧
      g.schema = s.composedSchema.1 ∧
      ∀ service ∈ services, service.toSubgraph.typeDefinitions = service.typeContributions := by
  obtain ⟨s, hservices, hcompose⟩ := exists_subgraphs_of_compose h
  obtain ⟨hnone, hschema⟩ := Subgraphs.compose_eq_ok hcompose
  exact ⟨s, hservices, hnone, hschema, Subgraphs.typeDefinitions_eq_of_problems hservices hnone⟩

end Service

end Federation
