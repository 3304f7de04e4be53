import Federation.Proofs.Composition.Composed
import Federation.Proofs.Composition.Labels
/-!
# Composition — services in another order and at other locations

Stage by stage, what is made of services in another order whose nodes
stand at other locations is what was made of them: the merged types and
directive definitions up to descriptions and at these locations, the
records as they are, and the reports of what is wrong at these
locations. Only the reports on single services come in the order of the
services (`allProblems_perm`).
-/

namespace Federation

open Declared

/-- Which directives may be repeated depends on their names and on what their definitions say. -/
theorem Schema.isRepeatable_map (ds : List DirectiveDefinition)
    (e : DirectiveDefinition → DirectiveDefinition) (hname : ∀ d, (e d).name = d.name)
    (hrepeatable : ∀ d, (e d).isRepeatable = d.isRepeatable) :
    ({ directiveDefinitions := ds.map e } : Schema).isRepeatable =
      ({ directiveDefinitions := ds } : Schema).isRepeatable := by
  funext name
  have hfind : (ds.map e).find? (·.name == name) = (ds.find? (·.name == name)).map e := by
    rw [List.find?_map]
    simp only [Function.comp_def, hname]
  simp only [isRepeatable, directiveDefinition?, hfind]
  cases ds.find? (·.name == name) with
  | none => rfl
  | some d => exact hrepeatable d

namespace Subgraphs

section

variable {τ : Location → Location} {s s' : Subgraphs}
variable (h : (s.relocate τ).services.Perm s'.services)
include h

/-! ## What is merged -/

theorem repeatableNames_of_perm : s'.repeatableNames = s.repeatableNames := by
  obtain ⟨ρ, -, hcollect⟩ := exists_relabel_collect h
  have hdefinitions := hcollect _ (fun g => g.document.directiveDefinitions) _
    fun g => g.directiveDefinitions_relocate τ
  simp only [repeatableNames, directiveDefinitions, hdefinitions, List.map_map, List.filter_append,
    List.filter_map, List.map_append]
  rfl

theorem groups_of_perm : ∃ ρ : Nat → Nat, Function.Injective ρ ∧
    s'.groups = s.groups.map (TypeGroup.relabel ρ τ) ∧
    s'.directiveGroups =
      s.directiveGroups.map (List.map (relabel ρ (DirectiveDefinition.relocate τ))) := by
  obtain ⟨ρ, hρ, hcollect⟩ := exists_relabel_collect h
  refine ⟨ρ, hρ, ?_, ?_⟩
  · have hdeclarations :
        s'.declarations = s.declarations.map (relabel ρ (Declaration.relocate τ)) :=
      hcollect _ _ _ fun g => g.declarations_relocate τ
    have hnames : s'.typeNames = s.typeNames := by
      rw [typeNames, hdeclarations, List.map_map]
      rfl
    rw [groups_eq, hnames, groups_eq, List.map_map]
    refine List.map_congr_left fun n _ => ?_
    rw [Function.comp_apply, group_eq_filter, hdeclarations, group_eq_filter]
    exact filter_node_relabel s.declarations fun d : Declaration => d.node.name == n
  · have hdefinitions : s'.directiveDefinitions =
        s.directiveDefinitions.map (relabel ρ (DirectiveDefinition.relocate τ)) :=
      hcollect _ _ _ fun g => g.directiveDefinitions_relocate τ
    have hcomposed : (s'.directiveDefinitions.filter fun d =>
        (DirectiveDefinition.builtIn? d.node.name).isNone) =
          (s.directiveDefinitions.filter fun d =>
            (DirectiveDefinition.builtIn? d.node.name).isNone).map
              (relabel ρ (DirectiveDefinition.relocate τ)) := by
      rw [hdefinitions]
      exact filter_node_relabel s.directiveDefinitions fun d : DirectiveDefinition =>
        (DirectiveDefinition.builtIn? d.name).isNone
    rw [directiveGroups, hcomposed, directiveGroups, List.map_map, List.map_map]
    exact List.map_congr_left fun n _ =>
      filter_node_relabel _ fun d : DirectiveDefinition => d.name == n

/-- **What is wrong between services depends on neither order nor locations.** -/
theorem mergeProblems_of_perm :
    s'.mergeProblems = s.mergeProblems.map (Diagnostic.relocate τ) := by
  obtain ⟨ρ, hρ, hgroups, hdirectives⟩ := groups_of_perm h
  rw [mergeProblems, hgroups, hdirectives, repeatableNames_of_perm h, List.flatMap_map,
    List.flatMap_map, mergeProblems, List.map_append, List.map_flatMap, List.map_flatMap]
  congr 1
  · exact List.flatMap_congr fun g _ => DirectiveGroup.problems_relabel g
  · exact List.flatMap_congr fun g _ => TypeGroup.problems_relabel g hρ _

theorem ownership_of_perm : s'.ownership = s.ownership := by
  obtain ⟨ρ, hρ, hgroups, -⟩ := groups_of_perm h
  rw [ownership, typeGroups, hgroups, ownership, typeGroups, List.map_map, List.map_map,
    List.map_map]
  refine List.map_congr_left fun g _ => ?_
  simp only [Function.comp, TypeGroup.ofOneKind_relabel, TypeGroup.ownership_relabel _ hρ]

theorem mergedDirectiveDefinitions_of_perm (σ : Coordinate → Option String) :
    s'.mergedDirectiveDefinitions.map (DirectiveDefinition.describe σ) =
      s.mergedDirectiveDefinitions.map fun d => (d.relocate τ).describe σ := by
  obtain ⟨ρ, -, -, hdirectives⟩ := groups_of_perm h
  rw [mergedDirectiveDefinitions, hdirectives, mergedDirectiveDefinitions, List.map_filterMap,
    List.map_filterMap, List.filterMap_map]
  exact List.filterMap_congr fun g _ => DirectiveGroup.definition?_relabel g σ

theorem isRepeatable_of_perm : s'.isRepeatable = s.isRepeatable := by
  have hdefinitions := mergedDirectiveDefinitions_of_perm h fun _ => none
  calc s'.isRepeatable
      = ({ directiveDefinitions := s'.mergedDirectiveDefinitions.map
            (DirectiveDefinition.describe fun _ => none) } : Schema).isRepeatable :=
        (Schema.isRepeatable_map _ (DirectiveDefinition.describe fun _ => none) (fun _ => rfl)
          fun _ => rfl).symm
    _ = ({ directiveDefinitions := s.mergedDirectiveDefinitions.map
            fun d => (d.relocate τ).describe fun _ => none } : Schema).isRepeatable := by
        rw [hdefinitions]
    _ = s.isRepeatable :=
        Schema.isRepeatable_map _ (fun d => (d.relocate τ).describe fun _ => none) (fun _ => rfl)
          fun _ => rfl

/-- **Services have the same values in the supergraph.** -/
theorem graphs_of_perm : s'.graphs = s.graphs := by
  have hinOrder : s'.inOrder = s.inOrder.map (Subgraph.relocate τ) := by
    rw [← inOrder_eq_of_perm h, ← map_fst_byName, byName_relocate, List.map_map,
      ← map_fst_byName s, List.map_map]
    rfl
  rw [graphs, map_fst_byName, hinOrder, List.foldl_map, graphs, map_fst_byName]
  rfl

variable (hτ : τ Location.none = Location.none)
include hτ

theorem mergedTypes_of_perm (σ : Coordinate → Option String) :
    s'.mergedTypes.map (TypeDefinition.describe σ) =
      s.mergedTypes.map fun d => (d.relocate τ).describe σ := by
  obtain ⟨ρ, hρ, hgroups, -⟩ := groups_of_perm h
  rw [mergedTypes, typeGroups, hgroups, repeatableNames_of_perm h, mergedTypes, typeGroups]
  simp only [List.map_map]
  refine List.map_congr_left fun g _ => ?_
  simp only [Function.comp, TypeGroup.ofOneKind_relabel, TypeGroup.definition_relabel _ hρ hτ]

/-! ## The composed schema -/

/-- **The composed schema does not depend on the order of services**, up to descriptions, and is at
the locations of what the services declare. -/
theorem composedSchema_of_perm :
    s'.composedSchema.1.undescribed = (s.composedSchema.1.relocate τ).undescribed := by
  have hdefinitions := mergedDirectiveDefinitions_of_perm h fun _ => none
  -- applications are merged without a look at descriptions and locations
  have htypes : (s'.mergedTypes.map (TypeDefinition.mergeApplications s.isRepeatable)).map
      (TypeDefinition.describe fun _ => none) =
        ((s.mergedTypes.map (TypeDefinition.mergeApplications s.isRepeatable)).map
          (TypeDefinition.relocate τ)).map (TypeDefinition.describe fun _ => none) := by
    have hmerge := congrArg (List.map (TypeDefinition.mergeApplications s.isRepeatable))
      (mergedTypes_of_perm h hτ fun _ => none)
    simp only [List.map_map] at hmerge ⊢
    exact hmerge
  simp only [Schema.undescribed, Schema.describe, Schema.relocate, composedSchema_eq,
    isRepeatable_of_perm h, ownership_of_perm h, htypes, hdefinitions]
  simp only [List.map_map]
  rfl

theorem clashes_of_perm :
    s'.composedSchema.2 = s.composedSchema.2.map (Diagnostic.relocate τ) := by
  have htypes := congrArg
    (List.flatMap (TypeDefinition.applicationConflicts s.isRepeatable))
    (mergedTypes_of_perm h hτ fun _ => none)
  rw [List.flatMap_map, List.flatMap_map] at htypes
  rw [composedSchema_eq, composedSchema_eq, isRepeatable_of_perm h, List.map_flatMap]
  refine htypes.trans (List.flatMap_congr fun d _ => ?_)
  rw [TypeDefinition.applicationConflicts, TypeDefinition.applicationConflicts,
    Directive.conflictDiagnostics, Directive.conflictDiagnostics, List.map_map]
  rfl

theorem problems_composedSchema_of_perm : s'.composedSchema.1.problems =
    s.composedSchema.1.problems.map (Diagnostic.relocate τ) := by
  rw [Schema.problems_eq_of_undescribed (composedSchema_of_perm h hτ), Schema.problems_relocate]

end

/-! ## The order of services -/

section

variable {s s' : Subgraphs} (h : s.services.Perm s'.services)
include h

theorem relocate_id_perm : (s.relocate id).services.Perm s'.services := by
  rwa [services_relocate, Subgraph.relocate_id, List.map_id]

theorem graphs_eq_of_perm : s'.graphs = s.graphs :=
  graphs_of_perm (relocate_id_perm h)

theorem undescribed_composedSchema :
    s'.composedSchema.1.undescribed = s.composedSchema.1.undescribed := by
  have hschema := composedSchema_of_perm (relocate_id_perm h) rfl
  rwa [Schema.relocate_id] at hschema

/-- **Services in another order have the same problems**, those of single services in the order of
the services. -/
theorem allProblems_perm : s.allProblems.Perm s'.allProblems := by
  have hid := relocate_id_perm h
  have hmerge := mergeProblems_of_perm hid
  have hclashes := clashes_of_perm hid rfl
  have hschema := problems_composedSchema_of_perm hid rfl
  simp only [Diagnostic.relocate_id, List.map_id] at hmerge hclashes hschema
  have hproblems : s.problems.Perm s'.problems := h.flatMap_right _
  have hchecks : s.checkProblems.Perm s'.checkProblems := h.flatMap_right _
  rw [allProblems, allProblems]
  simp only [hmerge, hclashes, hschema]
  exact (((hproblems.append hchecks).append_right _).append_right _).append_right _

end

end Subgraphs

end Federation
