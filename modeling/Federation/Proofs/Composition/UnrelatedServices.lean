import Federation.Proofs.Composition.Applications
import Federation.Proofs.Composition.Content
import Federation.Proofs.Composition.MoreServices
import Federation.Proofs.Composition.Repeatability
import Federation.Proofs.Composition.Resolvers
import Federation.Proofs.Schema.Unions
import Federation.Proofs.Supergraph.Annotations
/-!
# Composition — unrelated services

Services that declare no type and no directive of others can be composed
together with them. Three things of the others reach them: more services
have ranks, more directives may be repeated, and more names are known.
None of it changes a type, a definition or a record of services that are
composed by themselves (`definition_of_part`, `definition?_of_part`,
`mergeApplications_of_part`), and none of it makes a check find anything
(`Schema.problems_of_union`). So what is composed is what either part is
composed to (`compose_append`).
-/

namespace Federation

open Declared

namespace Subgraphs

variable {s a b : Subgraphs}

/-! ## Part of more services -/

/-- Services among others that declare none of their types and directives. -/
structure PartOf (a s : Subgraphs) : Prop where
  services : a.services.Sublist s.services
  types : ∀ n ∈ a.typeNames, DeclaresWithin s a n
  directives : ∀ d ∈ a.directiveDefinitions, DefinesDirectiveWithin s a d.node.name

section

variable (h : a.PartOf s)
include h

theorem repeatableNames_of_part (name : String) (hname : a.repeatableNames.contains name = true) :
    s.repeatableNames.contains name = true := by
  simp only [repeatableNames, List.contains_iff_mem, List.mem_map, List.mem_filter,
    List.mem_append] at hname ⊢
  obtain ⟨d, ⟨hd | ⟨e, he, rfl⟩, hrepeatable⟩, hdname⟩ := hname
  · exact ⟨d, ⟨.inl hd, hrepeatable⟩, hdname⟩
  · obtain ⟨g, hg, -, hnode⟩ := mem_collect he
    have hg : g ∈ s.services := h.services.subset hg
    obtain ⟨e', he', heq, -⟩ :=
      exists_mem_collect (f := fun g => g.document.directiveDefinitions) hg hnode
    exact ⟨e.node, ⟨.inr ⟨e', he', heq⟩, hrepeatable⟩, hdname⟩

/-- A directive that a part defines is what the part makes of it. -/
theorem definition?_of_part {name : String} (hname : name ∈ a.directiveNames) :
    (s.definitionsOfDirective name).definition? = (a.definitionsOfDirective name).definition? ∧
      (s.definitionsOfDirective name).problems = (a.definitionsOfDirective name).problems := by
  rw [directiveNames, List.mem_mergeSort, mem_distinct] at hname
  obtain ⟨d, hd, rfl⟩ := List.mem_map.mp hname
  exact definitionsOfDirective_of_within h.services (h.directives d (List.mem_filter.mp hd).1)

theorem mergedDirectiveDefinitions_of_part : a.mergedDirectiveDefinitions =
    a.directiveNames.filterMap fun n => (s.definitionsOfDirective n).definition? := by
  rw [mergedDirectiveDefinitions_eq]
  exact List.filterMap_congr fun n hn => (definition?_of_part h hn).1.symm

theorem isRepeatable_of_part (name : String) (hname : a.isRepeatable name = true) :
    s.isRepeatable name = true := by
  rw [isRepeatable_eq] at hname ⊢
  by_cases hdefined : a.definitionsOfDirective name = []
  · rw [hdefined] at hname
    obtain ⟨d, hd, hrepeatable⟩ := (Option.any_eq_true _ _).mp hname
    rw [definitionsOfDirective_of_builtIn hd]
    exact hname
  · rwa [(definition?_of_part h (mem_directiveNames hdefined)).1]

variable (hnone : a.allProblems = [])
include hnone

/-- **A type that a part declares** is what the part makes of it. -/
theorem definition_of_part {n : String} (hn : n ∈ a.typeNames) :
    (s.group n).ofOneKind.definition s.repeatableNames.contains =
        (a.group n).ofOneKind.definition a.repeatableNames.contains ∧
      (s.group n).ofOneKind.ownership = (a.group n).ofOneKind.ownership ∧
      (s.group n).problems s.repeatableNames.contains = [] := by
  obtain ⟨hdefinition, hownership, hproblems⟩ :=
    group_of_within h.services (h.types n hn) s.repeatableNames.contains
  obtain ⟨hallowed, hnone⟩ := TypeGroup.definition_of_le (repeatableNames_of_part h)
    (group_problems_eq_nil (problems_eq_nil hnone).2.1 hn)
  exact ⟨hdefinition.trans hallowed, hownership, hproblems.trans hnone⟩

/-- The applications on a type that a part declares are merged as by the part. -/
theorem mergeApplications_of_part {n : String} (hn : n ∈ a.typeNames) :
    ((s.group n).ofOneKind.definition s.repeatableNames.contains).mergeApplications
        s.isRepeatable =
      ((a.group n).ofOneKind.definition a.repeatableNames.contains).mergeApplications
        a.isRepeatable ∧
    ((s.group n).ofOneKind.definition s.repeatableNames.contains).applicationConflicts
        s.isRepeatable = [] := by
  rw [(definition_of_part h hnone hn).1]
  simp only [allProblems, List.append_eq_nil_iff, composedSchema_eq, mergedTypes_eq,
    List.flatMap_map, List.flatMap_eq_nil_iff] at hnone
  exact TypeDefinition.mergeApplications_of_le (isRepeatable_of_part h) (hnone.1.2 n hn)

theorem types_of_part : a.composedSchema.1.types = a.typeNames.map fun n =>
    ((s.group n).ofOneKind.definition s.repeatableNames.contains).mergeApplications
      s.isRepeatable := by
  rw [composedSchema_eq]
  simp only [mergedTypes_eq, List.map_map]
  exact List.map_congr_left fun n hn => (mergeApplications_of_part h hnone hn).1.symm

theorem ownership_of_part :
    a.ownership = a.typeNames.map fun n => (s.group n).ofOneKind.ownership := by
  rw [ownership_eq]
  exact List.map_congr_left fun n hn => (definition_of_part h hnone hn).2.1.symm

/-- The definitions of a directive that a part defines agree. -/
theorem directiveProblems_of_part {name : String} (hname : name ∈ a.directiveNames) :
    (s.definitionsOfDirective name).problems = [] := by
  have hdirectives := directiveProblems_eq_nil (problems_eq_nil hnone).2.1
  rw [directiveGroups_eq, List.flatMap_map, List.flatMap_eq_nil_iff] at hdirectives
  rw [(definition?_of_part h hname).2]
  exact hdirectives name hname

end

/-! ## Services side by side -/

/-- Services that are those of two parts, which declare different types and directives. -/
structure Joins (s a b : Subgraphs) : Prop where
  left : a.PartOf s
  right : b.PartOf s
  services : ∀ g ∈ s.services, g ∈ a.services ∨ g ∈ b.services
  typesApart : a.typeNames.Disjoint b.typeNames
  directivesApart : (a.directiveDefinitions.map (·.node.name)).Disjoint
    (b.directiveDefinitions.map (·.node.name))

/-- Services are part of more services if the others declare different types and directives. -/
theorem partOf_of_apart (hsublist : a.services.Sublist s.services)
    (hservices : ∀ g ∈ s.services, g ∈ a.services ∨ g ∈ b.services)
    (htypes : a.typeNames.Disjoint b.typeNames)
    (hdirectives : (a.directiveDefinitions.map (·.node.name)).Disjoint
      (b.directiveDefinitions.map (·.node.name))) : a.PartOf s := by
  refine ⟨hsublist, fun n hn g hg hother hmem => ?_, fun d hd g hg hother hmem => ?_⟩
  · have hgb := (hservices g hg).resolve_left hother
    obtain ⟨t, ht, hname⟩ := List.mem_map.mp hmem
    exact htypes hn (mem_typeNames.mpr ⟨g, hgb, t, ht, hname⟩)
  · have hgb := (hservices g hg).resolve_left hother
    obtain ⟨d', hd', hname⟩ := List.mem_map.mp hmem
    obtain ⟨e, he, hnode, -⟩ :=
      exists_mem_collect (f := fun g => g.document.directiveDefinitions) hgb hd'
    refine hdirectives (List.mem_map_of_mem hd) (List.mem_map.mpr ⟨e, he, ?_⟩)
    rw [hnode, hname]

/-- Services taken in order after others that declare different types and directives. -/
theorem joins_of_append (hs : s.services = a.services ++ b.services)
    (htypes : a.typeNames.Disjoint b.typeNames)
    (hdirectives : (a.directiveDefinitions.map (·.node.name)).Disjoint
      (b.directiveDefinitions.map (·.node.name))) : s.Joins a b := by
  have hservices : ∀ g ∈ s.services, g ∈ a.services ∨ g ∈ b.services := by
    intro g hg
    rwa [hs, List.mem_append] at hg
  refine ⟨?_, ?_, hservices, htypes, hdirectives⟩
  · exact partOf_of_apart (hs ▸ List.sublist_append_left _ _) hservices htypes hdirectives
  · exact partOf_of_apart (hs ▸ List.sublist_append_right _ _)
      (fun g hg => (hservices g hg).symm) (fun n hb ha => htypes ha hb)
      fun n hb ha => hdirectives ha hb

/-- A schema that services make has one record for each type, and no schema definition. -/
theorem recorded_composedSchema (s : Subgraphs) : s.composedSchema.1.Recorded where
  roots := composedSchema_roots
  names := by
    rw [map_name_composedSchema, composedSchema_eq]
    simp only [ownership_eq, List.map_map]
    exact map_eq_self fun n hn => name_ofOneKind_group hn
  nodup := by
    rw [map_name_composedSchema]
    exact s.nodup_typeNames

theorem nodup_directiveNames (s : Subgraphs) : s.directiveNames.Nodup :=
  (List.mergeSort_perm _ _).nodup_iff.mpr (nodup_distinct _)

theorem mem_directiveNames_iff {n : String} : n ∈ s.directiveNames ↔
    ∃ g ∈ s.services, DirectiveDefinition.builtIn? n = none ∧
      ∃ d ∈ g.document.directiveDefinitions, d.name = n := by
  constructor
  · intro hn
    rw [directiveNames, List.mem_mergeSort, mem_distinct] at hn
    obtain ⟨e, he, rfl⟩ := List.mem_map.mp hn
    obtain ⟨hbuiltIn, -, g, hg, hnode⟩ := exists_of_mem_definitionsOfDirective
      (List.mem_filter.mpr ⟨he, beq_self_eq_true _⟩)
    exact ⟨g, hg, hbuiltIn, e.node, hnode, rfl⟩
  · rintro ⟨g, hg, hbuiltIn, d, hd, rfl⟩
    obtain ⟨e, he, -⟩ := exists_mem_definitionsOfDirective hg hd hbuiltIn
    exact mem_directiveNames (List.ne_nil_of_mem he)

theorem mem_directiveNames_of_mem {d : DirectiveDefinition}
    (hd : d ∈ s.mergedDirectiveDefinitions) : d.name ∈ s.directiveNames := by
  rw [mergedDirectiveDefinitions_eq] at hd
  obtain ⟨n, hn, hdefinition⟩ := List.mem_filterMap.mp hd
  rwa [DirectiveGroup.name_of_definition hdefinition]

section

variable (h : s.Joins a b)
include h

/-- Distinct names that each come from a service are those of the one part and those of the
other. -/
theorem names_perm_of_joins {names : Subgraphs → List String} {declares : Subgraph → String → Prop}
    (hnodup : ∀ s, (names s).Nodup)
    (hmem : ∀ s n, n ∈ names s ↔ ∃ g ∈ s.services, declares g n)
    (hapart : (names a).Disjoint (names b)) : (names s).Perm (names a ++ names b) := by
  refine (List.perm_ext_iff_of_nodup (hnodup s) ?_).mpr fun n => ?_
  · exact List.nodup_append.mpr ⟨hnodup a, hnodup b, fun n hn m hm heq => hapart hn (heq ▸ hm)⟩
  · rw [List.mem_append, hmem, hmem, hmem]
    constructor
    · rintro ⟨g, hg, hdeclares⟩
      exact (h.services g hg).imp (fun hg => ⟨g, hg, hdeclares⟩) fun hg => ⟨g, hg, hdeclares⟩
    · rintro (⟨g, hg, hdeclares⟩ | ⟨g, hg, hdeclares⟩)
      · exact ⟨g, h.left.services.subset hg, hdeclares⟩
      · exact ⟨g, h.right.services.subset hg, hdeclares⟩

theorem typeNames_perm_of_joins : s.typeNames.Perm (a.typeNames ++ b.typeNames) :=
  names_perm_of_joins h nodup_typeNames (fun _ _ => mem_typeNames) h.typesApart

theorem directiveNames_perm_of_joins :
    s.directiveNames.Perm (a.directiveNames ++ b.directiveNames) := by
  have hdefined : ∀ {s : Subgraphs} {n : String}, n ∈ s.directiveNames →
      n ∈ s.directiveDefinitions.map (·.node.name) := by
    intro s n hn
    rw [directiveNames, List.mem_mergeSort, mem_distinct] at hn
    exact (List.filter_sublist.map _).subset hn
  exact names_perm_of_joins h nodup_directiveNames (fun _ _ => mem_directiveNames_iff)
    fun n ha hb => h.directivesApart (hdefined ha) (hdefined hb)

variable (ha : a.allProblems = []) (hb : b.allProblems = [])
include ha hb

theorem types_perm_of_joins : s.composedSchema.1.types.Perm
    (a.composedSchema.1.types ++ b.composedSchema.1.types) := by
  rw [types_of_part h.left ha, types_of_part h.right hb, ← List.map_append, composedSchema_eq]
  simp only [mergedTypes_eq, List.map_map]
  exact (typeNames_perm_of_joins h).map _

omit ha hb in
theorem directiveDefinitions_perm_of_joins : s.mergedDirectiveDefinitions.Perm
    (a.mergedDirectiveDefinitions ++ b.mergedDirectiveDefinitions) := by
  rw [mergedDirectiveDefinitions_of_part h.left, mergedDirectiveDefinitions_of_part h.right,
    ← List.filterMap_append, mergedDirectiveDefinitions_eq]
  exact (directiveNames_perm_of_joins h).filterMap _

theorem ownership_perm_of_joins : s.ownership.Perm (a.ownership ++ b.ownership) := by
  rw [ownership_of_part h.left ha, ownership_of_part h.right hb, ← List.map_append, ownership_eq]
  exact (typeNames_perm_of_joins h).map _

/-- **Services side by side make the schemas of the parts side by side.** -/
theorem unionOf_of_joins : s.composedSchema.1.UnionOf a.composedSchema.1 b.composedSchema.1 where
  types := types_perm_of_joins h ha hb
  typesApart := by
    rw [map_name_composedSchema, map_name_composedSchema]
    exact h.typesApart
  directiveDefinitions := by
    rw [composedSchema_eq, composedSchema_eq, composedSchema_eq]
    exact directiveDefinitions_perm_of_joins h
  directivesApart := by
    rw [composedSchema_eq, composedSchema_eq]
    intro n hna hnb
    obtain ⟨d, hd, rfl⟩ := List.mem_map.mp hna
    obtain ⟨d', hd', heq⟩ := List.mem_map.mp hnb
    have hnodup := (directiveNames_perm_of_joins h).nodup_iff.mp s.nodup_directiveNames
    exact (List.nodup_append.mp hnodup).2.2 _ (mem_directiveNames_of_mem hd) _
      (mem_directiveNames_of_mem hd') heq.symm
  ownership := by
    rw [composedSchema_eq, composedSchema_eq, composedSchema_eq]
    exact ownership_perm_of_joins h ha hb
  ownershipApart := by
    rw [a.recorded_composedSchema.names, b.recorded_composedSchema.names,
      map_name_composedSchema, map_name_composedSchema]
    exact h.typesApart

theorem mergeProblems_of_joins : s.mergeProblems = [] := by
  rw [mergeProblems, directiveGroups_eq, groups_eq]
  simp only [List.append_eq_nil_iff, List.flatMap_map, List.flatMap_eq_nil_iff]
  constructor
  · intro n hn
    rcases List.mem_append.mp ((directiveNames_perm_of_joins h).mem_iff.mp hn) with hn | hn
    · exact directiveProblems_of_part h.left ha hn
    · exact directiveProblems_of_part h.right hb hn
  · intro n hn
    rcases List.mem_append.mp ((typeNames_perm_of_joins h).mem_iff.mp hn) with hn | hn
    · exact (definition_of_part h.left ha hn).2.2
    · exact (definition_of_part h.right hb hn).2.2

theorem clashes_of_joins : s.composedSchema.2 = [] := by
  rw [composedSchema_eq]
  simp only [mergedTypes_eq, List.flatMap_map, List.flatMap_eq_nil_iff]
  intro n hn
  rcases List.mem_append.mp ((typeNames_perm_of_joins h).mem_iff.mp hn) with hn | hn
  · exact (mergeApplications_of_part h.left ha hn).2
  · exact (mergeApplications_of_part h.right hb hn).2

/-- **Nothing is wrong with services side by side**, if neither part defines a built-in scalar. -/
theorem allProblems_of_joins (hscalars : ∀ n ∈ s.typeNames, n ∉ Schema.builtInScalars) :
    s.allProblems = [] := by
  have hunion := unionOf_of_joins h ha hb
  have hparts : ∀ {f : Subgraph → List Diagnostic}, a.services.flatMap f = [] →
      b.services.flatMap f = [] → s.services.flatMap f = [] := by
    intro f hfa hfb
    rw [List.flatMap_eq_nil_iff] at *
    exact fun g hg => (h.services g hg).elim (hfa g) (hfb g)
  have hschema : s.composedSchema.1.problems = [] := by
    refine Schema.problems_of_union hunion s.recorded_composedSchema a.recorded_composedSchema
      b.recorded_composedSchema (fun t ht => hscalars _ ?_) (problems_eq_nil ha).2.2
      (problems_eq_nil hb).2.2
    rw [← map_name_composedSchema]
    exact List.mem_map_of_mem (hunion.types.mem_iff.mpr ht)
  have hmerge := mergeProblems_of_joins h ha hb
  have hclashes := clashes_of_joins h ha hb
  simp only [allProblems, List.append_eq_nil_iff] at ha hb ⊢
  exact ⟨⟨⟨⟨hparts ha.1.1.1.1 hb.1.1.1.1, hparts ha.1.1.1.2 hb.1.1.1.2⟩, hmerge⟩, hclashes⟩,
    hschema⟩

end

end Subgraphs

namespace Service

/-! ## Services that are composed by themselves -/

/-- Every name that is composed is one that a service contributes. -/
theorem mem_contributions_of_mem_typeNames {s : Subgraphs} {services : List Service}
    (hs : s.services = services.map toSubgraph)
    (hwritten : ∀ service ∈ services,
      service.toSubgraph.typeDefinitions = service.typeContributions) {n : String}
    (hn : n ∈ s.typeNames) : n ∈ (services.flatMap typeContributions).map (·.name) := by
  obtain ⟨service, hservice, c, hc, hname⟩ :=
    (Subgraphs.mem_typeNames_of_services hs hwritten).mp hn
  exact List.mem_map.mpr ⟨c, List.mem_flatMap.mpr ⟨service, hservice, hc⟩, hname⟩

theorem mem_contributions_of_mem_directiveDefinitions {s : Subgraphs} {services : List Service}
    (hs : s.services = services.map toSubgraph) {n : String}
    (hn : n ∈ s.directiveDefinitions.map (·.node.name)) :
    n ∈ (services.flatMap directiveContributions).map (·.name) := by
  obtain ⟨d, hd, hname⟩ := List.mem_map.mp hn
  obtain ⟨g, hg, -, hnode⟩ := Subgraphs.mem_collect hd
  rw [hs] at hg
  obtain ⟨service, hservice, rfl⟩ := List.mem_map.mp hg
  rw [directiveDefinitions_toSubgraph] at hnode
  exact List.mem_map.mpr ⟨d.node, List.mem_flatMap.mpr ⟨service, hservice, hnode⟩, hname⟩

/-- **Unrelated services do not disturb each other.** Two lists of services that are composed by
themselves, that share no name of a service, a type or a directive, and that declare no built-in
scalar, are composed together: the types, the directive definitions and the records are those of
the one and those of the other, as they are. -/
theorem compose_append {as bs : List Service} {a b : Supergraph}
    (ha : compose as = .ok (.ok a)) (hb : compose bs = .ok (.ok b))
    (hservices : (as.map (·.name)).Disjoint (bs.map (·.name)))
    (htypes : ((as.flatMap typeContributions).map (·.name)).Disjoint
      ((bs.flatMap typeContributions).map (·.name)))
    (hdirectives : ((as.flatMap directiveContributions).map (·.name)).Disjoint
      ((bs.flatMap directiveContributions).map (·.name)))
    (hscalars : ∀ service ∈ as ++ bs, ∀ c ∈ service.typeContributions,
      c.name ∉ Schema.builtInScalars) :
    ∃ g, compose (as ++ bs) = .ok (.ok g) ∧ g.schema.UnionOf a.schema b.schema := by
  obtain ⟨sa, hsa, hnonea, hschemaa, hwrittena⟩ := exists_of_compose ha
  obtain ⟨sb, hsb, hnoneb, hschemab, hwrittenb⟩ := exists_of_compose hb
  have hnames : ∀ {s : Subgraphs} {services : List Service},
      s.services = services.map toSubgraph → (services.map (·.name)).Nodup := by
    intro s services hs
    have hnodup := s.nodup
    rw [hs, List.map_map] at hnodup
    exact hnodup
  have hnodup : ((as ++ bs).map (·.name)).Nodup := by
    rw [List.map_append]
    exact List.nodup_append.mpr ⟨hnames hsa, hnames hsb,
      fun n hn m hm heq => hservices hn (heq ▸ hm)⟩
  obtain ⟨s, hs⟩ := Subgraphs.exists_ofServices hnodup
  have hsall := Subgraphs.services_of_ofServices hs
  have hjoins : s.Joins sa sb := by
    refine Subgraphs.joins_of_append (by rw [hsall, List.map_append, hsa, hsb])
      (fun n hna hnb => ?_) fun n hna hnb => ?_
    · exact htypes (mem_contributions_of_mem_typeNames hsa hwrittena hna)
        (mem_contributions_of_mem_typeNames hsb hwrittenb hnb)
    · exact hdirectives (mem_contributions_of_mem_directiveDefinitions hsa hna)
        (mem_contributions_of_mem_directiveDefinitions hsb hnb)
  have hwritten : ∀ service ∈ as ++ bs,
      service.toSubgraph.typeDefinitions = service.typeContributions := fun service hservice =>
    (List.mem_append.mp hservice).elim (hwrittena service) (hwrittenb service)
  have hnone : s.allProblems = [] := by
    refine Subgraphs.allProblems_of_joins hjoins hnonea hnoneb fun n hn => ?_
    obtain ⟨c, hc, rfl⟩ :=
      List.mem_map.mp (mem_contributions_of_mem_typeNames hsall hwritten hn)
    obtain ⟨service, hservice, hc⟩ := List.mem_flatMap.mp hc
    exact hscalars service hservice c hc
  refine ⟨{ schema := s.composedSchema.1
            document := Supergraph.annotated s.composedSchema.1 s.graphs }, ?_, ?_⟩
  · rw [compose, hs, Except.map, Subgraphs.compose_of_eq_nil hnone]
  · rw [hschemaa, hschemab]
    exact Subgraphs.unionOf_of_joins hjoins hnonea hnoneb

/-- A service with a type that no other service knows and a repeatable directive of its own. -/
def catalogService : Service :=
  { name := "catalog"
    document :=
      ⟨[.directive
          { name := "cached", isRepeatable := true, locations := [.fieldDefinition] },
        .type
          { name := "Product"
            directives :=
              [{ name := FederationDirective.keyName, arguments := [⟨"fields", .string "id"⟩] }]
            body := .object
              { fields :=
                  [{ name := "id", type := .named "ID" },
                   { name := "price"
                     type := .named "Int"
                     directives := [{ name := "cached" }] }] } }]⟩ }

/-- The catalog is composed with services that know nothing of it. -/
theorem catalogService_compose_append :
    ∃ a b g, compose routedServices = .ok (.ok a) ∧ compose [catalogService] = .ok (.ok b) ∧
      a.schema.types.map (·.name) = ["Query", "User"] ∧
      b.schema.types.map (·.name) = ["Product"] ∧
      compose (routedServices ++ [catalogService]) = .ok (.ok g) ∧
      g.schema.UnionOf a.schema b.schema := by
  obtain ⟨a, ha, hatypes⟩ : ∃ a, compose routedServices = .ok (.ok a) ∧
      a.schema.types.map (·.name) = ["Query", "User"] :=
    exists_compose (fun s => s.types.map (·.name)) (by cbv)
  obtain ⟨b, hb, hbtypes⟩ : ∃ b, compose [catalogService] = .ok (.ok b) ∧
      b.schema.types.map (·.name) = ["Product"] :=
    exists_compose (fun s => s.types.map (·.name)) (by cbv)
  obtain ⟨g, hg, hunion⟩ := compose_append ha hb (List.disjoint_left.mpr (by decide))
    (List.disjoint_left.mpr (by decide)) (List.disjoint_left.mpr (by decide)) (by decide)
  exact ⟨a, b, g, ha, hb, hatypes, hbtypes, hg, hunion⟩

end Service

end Federation
