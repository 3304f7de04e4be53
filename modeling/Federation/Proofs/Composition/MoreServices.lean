import Federation.Proofs.Composition.DirectiveDefinitions
import Federation.Proofs.Composition.Labels
/-!
# Composition — among more services

What only some of the services declare is composed as if the others were
not there: their ranks come in the same order, and nothing else about
ranks is looked at. So the definition, the record and the problems of a
type are those that these services make of it, and so are the definition
and the problems of a directive (`group_of_within`,
`definitionsOfDirective_of_within`). Services of which nothing is
declared at all change nothing between services
(`composedSchema_of_silent`).
-/

namespace Federation

open Declared

namespace Subgraphs

variable {s s' : Subgraphs}

/-- Whether only the services of a part declare a type. -/
def DeclaresWithin (s s' : Subgraphs) (typeName : String) : Prop :=
  ∀ g ∈ s.services, g ∉ s'.services → typeName ∉ g.typeDefinitions.map (·.name)

/-- Whether only the services of a part define a directive. -/
def DefinesDirectiveWithin (s s' : Subgraphs) (name : String) : Prop :=
  ∀ g ∈ s.services, g ∉ s'.services → name ∉ g.document.directiveDefinitions.map (·.name)

/-! ## The declarations of one name -/

section

variable (h : s'.services.Sublist s.services)
include h

theorem exists_relabel_group : ∃ ρ : Nat → Nat, StrictMono ρ ∧
    (∀ n, DeclaresWithin s s' n → s.group n = (s'.group n).relabel ρ id) ∧
    ∀ n, DefinesDirectiveWithin s s' n → s.definitionsOfDirective n =
      (s'.definitionsOfDirective n).map (relabel ρ (DirectiveDefinition.relocate id)) := by
  obtain ⟨ρ, hρ, hcollect⟩ := exists_rerank_collect_of_sublist h
  have hnone : ∀ {α : Type} {f : α → String} {as : List α} {n : String}, n ∉ as.map f →
      as.filter (fun a => f a == n) = [] := by
    intro α f as n hn
    refine List.filter_eq_nil_iff.mpr fun a ha heq => hn ?_
    rw [← beq_iff_eq.mp heq]
    exact List.mem_map_of_mem ha
  refine ⟨ρ, hρ, fun n hn => ?_, fun n hn => ?_⟩
  · rw [TypeGroup.relabel, Declaration.relocate_id]
    refine hcollect _ _ fun g hg hother => ?_
    rw [definitionsOf, hnone (hn g hg hother), List.map_nil]
  · have hdefinitions : ∀ s : Subgraphs, s.definitionsOfDirective n = s.collect fun g =>
        (g.document.directiveDefinitions.filter (·.name == n)).filter fun d =>
          (DirectiveDefinition.builtIn? d.name).isNone := by
      intro s
      rw [definitionsOfDirective, List.filter_comm, directiveDefinitions,
        collect_filter s _ fun d : DirectiveDefinition => d.name == n,
        collect_filter s _ fun d : DirectiveDefinition =>
          (DirectiveDefinition.builtIn? d.name).isNone]
    rw [hdefinitions, hdefinitions, DirectiveDefinition.relocate_id]
    refine hcollect _ _ fun g hg hother => ?_
    rw [hnone (hn g hg hother), List.filter_nil]

/-- **A type that only some services declare** is what these services make of it. -/
theorem group_of_within {n : String} (hn : DeclaresWithin s s' n) (isRepeatable : String → Bool) :
    (s.group n).ofOneKind.definition isRepeatable =
        (s'.group n).ofOneKind.definition isRepeatable ∧
      (s.group n).ofOneKind.ownership = (s'.group n).ofOneKind.ownership ∧
      (s.group n).problems isRepeatable = (s'.group n).problems isRepeatable := by
  obtain ⟨ρ, hρ, hgroup, -⟩ := exists_relabel_group h
  rw [hgroup n hn, TypeGroup.ofOneKind_relabel, TypeGroup.ownership_relabel _ hρ.injective,
    TypeGroup.problems_relabel _ hρ.injective,
    TypeGroup.definition_relabel_of_strictMono _ hρ rfl, TypeDefinition.relocate_id,
    Diagnostic.relocate_id, List.map_id]
  exact ⟨rfl, rfl, rfl⟩

/-- **A directive that only some services define** is what these services make of it. -/
theorem definitionsOfDirective_of_within {n : String} (hn : DefinesDirectiveWithin s s' n) :
    (s.definitionsOfDirective n).definition? = (s'.definitionsOfDirective n).definition? ∧
      (s.definitionsOfDirective n).problems = (s'.definitionsOfDirective n).problems := by
  obtain ⟨ρ, hρ, -, hgroup⟩ := exists_relabel_group h
  rw [hgroup n hn, DirectiveGroup.definition?_relabel_of_strictMono _ hρ,
    DirectiveGroup.problems_relabel, DirectiveDefinition.relocate_id, Diagnostic.relocate_id,
    List.map_id, Option.map_id]
  exact ⟨rfl, rfl⟩

/-! ## Services that declare nothing -/

/-- **Services that declare nothing change nothing between services**, and nothing about the schema
that all make. -/
theorem composedSchema_of_silent (hsilent : ∀ g ∈ s.services, g ∉ s'.services →
      g.typeDefinitions = [] ∧ g.document.directiveDefinitions = []) :
    s.mergeProblems = s'.mergeProblems ∧ s.composedSchema = s'.composedSchema := by
  have hwithin : ∀ n, DeclaresWithin s s' n := by
    intro n g hg hother
    rw [(hsilent g hg hother).1]
    exact List.not_mem_nil
  have hdirectives : ∀ n, DefinesDirectiveWithin s s' n := by
    intro n g hg hother
    rw [(hsilent g hg hother).2]
    exact List.not_mem_nil
  obtain ⟨ρ, -, hcollect⟩ := exists_rerank_collect_of_sublist h
  have hdeclarations : s.declarations = s'.declarations.map (rerank ρ) :=
    hcollect _ _ fun g hg hother => by
      rw [Subgraph.declarations, (hsilent g hg hother).1, List.map_nil]
  have hdefinitions : s.directiveDefinitions = s'.directiveDefinitions.map (rerank ρ) :=
    hcollect _ _ fun g hg hother => (hsilent g hg hother).2
  have htypeNames : s.typeNames = s'.typeNames := by
    rw [typeNames, hdeclarations, List.map_map]
    rfl
  have hdirectiveNames : s.directiveNames = s'.directiveNames := by
    rw [directiveNames, hdefinitions, List.filter_map, List.map_map]
    rfl
  have hrepeatable : s.repeatableNames = s'.repeatableNames := by
    rw [repeatableNames, hdefinitions, List.map_map]
    rfl
  exact composedSchema_congr htypeNames hdirectiveNames hrepeatable
    (fun n => group_of_within h (hwithin n))
    fun n => definitionsOfDirective_of_within h (hdirectives n)

end

end Subgraphs

end Federation
