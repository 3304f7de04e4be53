import Federation.Proofs.Subgraph.Collection
import Federation.Supergraph.Graph
import Mathlib
/-!
# Supergraph — graphs stand for services

The candidates for a value are all different, and there is one more of
them than there are values taken, so a value that is given is never
taken before (`freeValue_not_mem`). Hence no two graphs share a value,
whatever the services are called, and every service has exactly one
graph (`exists_graph`).
-/

namespace Federation

namespace Graph

/-! ## Free values -/

theorem length_candidates (base : String) (n : Nat) : (candidates base n).length = n + 1 := by
  simp [candidates]

/-- No two candidates are equal: the numbered ones differ by their numbers, and all of them are
longer than the first. -/
theorem nodup_candidates (base : String) (n : Nat) : (candidates base n).Nodup := by
  rw [candidates, List.nodup_cons]
  constructor
  · intro hmem
    obtain ⟨k, -, hk⟩ := List.mem_map.mp hmem
    have hlength := congrArg String.length hk
    have hunderscore : "_".length = 1 := by decide
    simp only [String.length_append, toString] at hlength
    omega
  · refine List.Nodup.map ?_ List.nodup_range
    intro a b hab
    exact Nat.succ.inj (Nat.repr_injective ((String.append_right_inj _).mp hab))

/-- **A value that is given is never taken before.** -/
theorem freeValue_not_mem (taken : List String) (base : String) :
    freeValue taken base ∉ taken := by
  obtain ⟨free, hfree, hnew⟩ : ∃ c ∈ candidates base taken.length, c ∉ taken := by
    by_contra hall
    simp only [not_exists, not_and, not_not] at hall
    have hlength := (nodup_candidates base taken.length).length_le_of_subset hall
    rw [length_candidates] at hlength
    omega
  have hsome : ((candidates base taken.length).find? (!taken.contains ·)).isSome = true :=
    List.find?_isSome.mpr ⟨free, hfree, by simpa using hnew⟩
  obtain ⟨value, hvalue⟩ := Option.isSome_iff_exists.mp hsome
  rw [freeValue, hvalue]
  simpa using List.find?_some hvalue

/-! ## One graph after another -/

/-- A step gives the service a graph of its own. -/
theorem nodup_value_add {graphs : List Graph} (h : (graphs.map (·.value)).Nodup) (s : Subgraph) :
    ((add graphs s).map (·.value)).Nodup := by
  rw [add, List.map_append, List.nodup_append]
  refine ⟨h, List.nodup_singleton _, ?_⟩
  rintro a ha b hb rfl
  rw [List.map_singleton, List.mem_singleton] at hb
  rw [hb] at ha
  exact freeValue_not_mem _ _ ha

theorem nodup_value_foldl {graphs : List Graph} (h : (graphs.map (·.value)).Nodup)
    (services : List Subgraph) : ((services.foldl add graphs).map (·.value)).Nodup := by
  induction services generalizing graphs with
  | nil => exact h
  | cons s services ih => exact ih (nodup_value_add h s)

theorem map_service_foldl (graphs : List Graph) (services : List Subgraph) :
    (services.foldl add graphs).map (·.service) =
      graphs.map (·.service) ++ services.map (·.name) := by
  induction services generalizing graphs with
  | nil => simp
  | cons s services ih =>
    rw [List.foldl_cons, ih, add]
    simp

end Graph

namespace Subgraphs

variable (s : Subgraphs)

/-- **No two graphs share a value.** -/
theorem nodup_value_graphs : (s.graphs.map (·.value)).Nodup :=
  Graph.nodup_value_foldl (by simp) _

/-- Services have their graphs in the order of their names. -/
theorem map_service_graphs : s.graphs.map (·.service) = s.inOrder.map (·.name) := by
  rw [graphs, map_fst_byName, Graph.map_service_foldl]
  rfl

theorem nodup_service_graphs : (s.graphs.map (·.service)).Nodup := by
  rw [map_service_graphs]
  exact ((List.mergeSort_perm _ _).map _).nodup_iff.mpr s.nodup

variable {s}

/-- **Every service has a graph.** It is the one that its name finds. -/
theorem exists_graph {g : Subgraph} (hg : g ∈ s.services) :
    ∃ graph ∈ s.graphs, graph.service = g.name ∧
      s.graphs.find? (·.service == g.name) = some graph := by
  have hmem : g.name ∈ s.graphs.map (·.service) := by
    rw [map_service_graphs]
    exact List.mem_map_of_mem (mem_inOrder.mpr hg)
  obtain ⟨graph, hgraph, hservice⟩ := List.mem_map.mp hmem
  refine ⟨graph, hgraph, hservice, ?_⟩
  rw [← List.head?_filter, ← hservice, filter_eq_singleton s.nodup_service_graphs hgraph,
    List.head?_cons]

end Subgraphs

end Federation
