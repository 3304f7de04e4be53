import Federation.Proofs.Composition.Members
import Federation.Proofs.Subgraph.Collection
/-!
# Composition — one service by itself

With one service, what is collected is what that service declares, all
of one rank. Where its types are in the order of their names and no name
is declared twice, every type is declared once (`group_of_single`), and
every member of a type where no member is listed twice
(`byMember_of_nodup`).
-/

namespace Federation

namespace Declared

variable {α : Type} {name : α → String}

/-- What the only service declares. -/
def only (service : String) (node : α) : Declared α :=
  { rank := 0, service, node }

@[simp] theorem only_node (service : String) (node : α) : (only service node).node = node := rfl

/-- Where no name repeats, every member is declared once. -/
theorem byMember_of_nodup {ds : List (Declared α)} (h : (ds.map fun d => name d.node).Nodup) :
    byMember name ds = ds.map fun d => [d] := by
  rw [byMember_eq, distinct_eq_self h, List.map_map]
  exact List.map_congr_left fun d hd => filter_eq_singleton h hd

section

variable {β : Type} {node : β → α} {bs : List β} (service : String)

theorem byMember_only (h : (bs.map fun b => name (node b)).Nodup) :
    byMember name (bs.map fun b => only service (node b)) =
      bs.map fun b => [only service (node b)] := by
  rw [byMember_of_nodup (by rwa [List.map_map]), List.map_map]
  rfl

/-- Members that are composed to themselves are composed to what they were. -/
theorem composed_only {compose : List (Declared α) → Option β}
    (h : (bs.map fun b => name (node b)).Nodup)
    (hcompose : ∀ b ∈ bs, compose [only service (node b)] = some b) :
    ((byMember name (bs.map fun b => only service (node b))).filterMap fun ds =>
      compose (firstPerService ds)) = bs := by
  rw [byMember_only service h, List.filterMap_map]
  exact (List.filterMap_congr hcompose).trans List.filterMap_some

theorem problems_byMember_only {problems : List (Declared α) → List Diagnostic}
    (h : (bs.map fun b => name (node b)).Nodup)
    (hproblems : ∀ b ∈ bs, problems [only service (node b)] = []) :
    (byMember name (bs.map fun b => only service (node b))).flatMap problems = [] := by
  rw [byMember_only service h, List.flatMap_map]
  exact List.flatMap_eq_nil_iff.mpr hproblems

end

/-! What is asked of one declaration. -/

variable (d : Declared α)

@[simp] theorem firstPerService_singleton : firstPerService [d] = [d] := rfl

@[simp] theorem repeatedByService_singleton : repeatedByService [d] = [] := by
  simp [repeatedByService]

@[simp] theorem repetitionProblems_singleton (kind : MemberKind) (coordinate : Coordinate) :
    repetitionProblems kind coordinate [d] = [] := by
  simp [repetitionProblems]

@[simp] theorem typeProblems_singleton (element : TypedElement) (coordinate : Coordinate)
    (type : String × TypeRef) : typeProblems element coordinate [type] = [] := rfl

@[simp] theorem firstDescription_singleton (description : α → Option String) :
    firstDescription description [d] = description d.node := by
  cases h : description d.node <;> simp [firstDescription, h]

end Declared

namespace Subgraphs

variable {s : Subgraphs} {g : Subgraph}

theorem byName_of_single (h : s.services = [g]) : s.byName = [(g, 0)] := by
  rw [byName, h, List.zipIdx_singleton, List.mergeSort_singleton]

/-- What one service declares is collected in order. -/
theorem collect_of_single {α : Type} (h : s.services = [g]) (f : Subgraph → List α) :
    s.collect f = (f g).map (Declared.only g.name) := by
  rw [collect_eq, byName_of_single h, List.flatMap_singleton]
  rfl

/-- A service whose types are in the order of their names declares them in that order. -/
theorem typeNames_of_single (h : s.services = [g])
    (hsorted : (g.typeDefinitions.map (·.name)).Pairwise (· < ·)) :
    s.typeNames = g.typeDefinitions.map (·.name) := by
  have hnames : s.declarations.map (·.node.name) = g.typeDefinitions.map (·.name) := by
    rw [declarations, collect_of_single h, Subgraph.declarations, List.map_map, List.map_map]
    rfl
  rw [typeNames, hnames, distinct_eq_self (nodup_of_pairwise_lt hsorted)]
  refine List.mergeSort_of_pairwise (hsorted.imp fun hlt => ?_)
  exact Text.stringLe_iff.mpr (Std.le_of_lt hlt)

/-- A type that one service declares once is declared once. -/
theorem group_of_single (h : s.services = [g])
    (hnodup : (g.typeDefinitions.map (·.name)).Nodup) {t : TypeDefinition}
    (ht : t ∈ g.typeDefinitions) :
    s.group t.name = [Declared.only g.name (Declaration.ofDefinition t)] := by
  rw [group, collect_of_single h, definitionsOf, filter_eq_singleton hnodup ht]
  rfl

end Subgraphs

end Federation
