import Federation.Composition.TypeGroup
import Federation.Proofs.Sequence
import Federation.Proofs.Subgraph.Contributions
import Federation.Proofs.Subgraph.Store
/-!
# Subgraphs — what all services declare, in order

`Subgraphs.collect` reads the services in the order of their names. What
is selected from each service is selected from the collection
(`collect_filter`), and what its nodes hold is collected with them
(`collect_parts`), so that the declarations of a type, of its fields and
of its values are all collections. In a collection services come in
order, and rank and name tell the same services apart
(`collect_ordered`).
-/

namespace Federation

namespace Declared

variable {α β : Type}

@[simp] theorem map_node (f : α → β) (d : Declared α) : (d.map f).node = f d.node := rfl

@[simp] theorem map_service (f : α → β) (d : Declared α) : (d.map f).service = d.service := rfl

@[simp] theorem map_rank (f : α → β) (d : Declared α) : (d.map f).rank = d.rank := rfl

/-- Declarations in the order of their services, where rank and name tell the same services
apart. -/
def Ordered (ds : List (Declared α)) : Prop :=
  ds.Pairwise fun a b => a.service ≤ b.service ∧ (a.rank = b.rank ↔ a.service = b.service)

theorem Ordered.sublist {ds es : List (Declared α)} (h : Ordered es) (hs : ds.Sublist es) :
    Ordered ds :=
  List.Pairwise.sublist hs h

theorem Ordered.filter {ds : List (Declared α)} (h : Ordered ds) (p : Declared α → Bool) :
    Ordered (ds.filter p) :=
  h.sublist List.filter_sublist

/-- Declarations of different ranks are in the strict order of their services. -/
theorem Ordered.pairwise_lt {ds : List (Declared α)} (h : Ordered ds)
    (hr : (ds.map (·.rank)).Nodup) : (ds.map (·.service)).Pairwise (· < ·) := by
  rw [List.pairwise_map]
  refine (h.and (List.pairwise_map.mp hr)).imp ?_
  rintro a b ⟨⟨hle, hiff⟩, hne⟩
  exact Std.lt_of_le_of_ne hle fun heq => hne (hiff.mpr heq)

end Declared

namespace Subgraphs

variable {α β : Type} (s : Subgraphs)

/-! ## The services in order -/

/-- The services in the order of their names. -/
def inOrder : List Subgraph :=
  s.services.mergeSort fun a b => Text.stringLe a.name b.name

theorem map_fst_byName : s.byName.map (·.1) = s.inOrder := by
  rw [byName, List.map_mergeSort (s := fun a b : Subgraph => Text.stringLe a.name b.name)
    fun a _ b _ => rfl]
  simp [inOrder]

theorem mem_inOrder {s : Subgraphs} {g : Subgraph} : g ∈ s.inOrder ↔ g ∈ s.services :=
  List.mem_mergeSort

theorem inOrder_perm : s.inOrder.Perm s.services :=
  List.mergeSort_perm _ _

theorem byName_perm : s.byName.Perm s.services.zipIdx :=
  List.mergeSort_perm _ _

theorem nodup_rank_byName : (s.byName.map (·.2)).Nodup := by
  refine ((s.byName_perm.map (·.2)).nodup_iff).mpr (List.pairwise_map.mpr ?_)
  exact (pairwise_snd_zipIdx s.services).imp fun hlt => Nat.ne_of_lt hlt

theorem nodup_name_zipIdx : (s.services.zipIdx.map fun p => p.1.name).Nodup := by
  have hmap := List.map_map (l := s.services.zipIdx) (f := Prod.fst) (g := Subgraph.name)
  rw [List.zipIdx_map_fst] at hmap
  have hnodup := s.nodup
  rw [hmap] at hnodup
  exact hnodup

theorem pairwise_byName : s.byName.Pairwise fun a b => a.1.name < b.1.name ∧ a.2 ≠ b.2 :=
  (pairwise_mergeSort_lt (fun p : Subgraph × Nat => p.1.name) s.nodup_name_zipIdx).and
    (List.pairwise_map.mp s.nodup_rank_byName)

/-! ## Collections -/

theorem collect_eq (f : Subgraph → List α) :
    s.collect f = s.byName.flatMap fun p => (f p.1).map fun node => ⟨p.2, p.1.name, node⟩ := rfl

/-- The nodes of a collection, service by service. -/
theorem map_node_collect (f : Subgraph → List α) :
    (s.collect f).map (·.node) = s.inOrder.flatMap f := by
  rw [collect_eq, List.map_flatMap, ← map_fst_byName, List.flatMap_map]
  simp [Function.comp_def]

theorem mem_collect {s : Subgraphs} {f : Subgraph → List α} {d : Declared α}
    (h : d ∈ s.collect f) : ∃ g ∈ s.services, d.service = g.name ∧ d.node ∈ f g := by
  simp only [collect_eq, List.mem_flatMap, List.mem_map] at h
  obtain ⟨p, hp, node, hnode, rfl⟩ := h
  refine ⟨p.1, ?_, rfl, hnode⟩
  rw [← mem_inOrder, ← map_fst_byName]
  exact List.mem_map_of_mem hp

theorem exists_mem_collect {s : Subgraphs} {f : Subgraph → List α} {g : Subgraph} {a : α}
    (hg : g ∈ s.services) (ha : a ∈ f g) :
    ∃ d ∈ s.collect f, d.node = a ∧ d.service = g.name := by
  rw [← mem_inOrder, ← map_fst_byName] at hg
  obtain ⟨p, hp, rfl⟩ := List.mem_map.mp hg
  refine ⟨⟨p.2, p.1.name, a⟩, ?_, rfl, rfl⟩
  rw [collect_eq, List.mem_flatMap]
  exact ⟨p, hp, List.mem_map_of_mem ha⟩

/-! Services that take the places of others. -/

section

variable {s} {s' : Subgraphs} {ρ : Subgraph → Subgraph} (hname : ∀ g, (ρ g).name = g.name)
variable (hs : s'.services = s.services.map ρ)
include hname hs

/-- Services under the same names are in the same order. -/
theorem byName_map : s'.byName = s.byName.map fun p => (ρ p.1, p.2) := by
  have hplaces : s'.services.zipIdx = s.services.zipIdx.map fun p => (ρ p.1, p.2) := by
    rw [hs, List.zipIdx_map]
    rfl
  have hsort := List.map_mergeSort (f := fun p : Subgraph × Nat => (ρ p.1, p.2))
    (l := s.services.zipIdx) (r := fun a b => Text.stringLe a.1.name b.1.name)
    (s := fun a b => Text.stringLe a.1.name b.1.name)
    fun a _ b _ => by simp only [hname]
  rw [byName, hplaces]
  exact hsort.symm

/-- What is collected from services is collected in their places. -/
theorem collect_map (f : Subgraph → List α) : s'.collect f = s.collect fun g => f (ρ g) := by
  rw [collect_eq, byName_map hname hs, List.flatMap_map, collect_eq]
  simp only [hname]

end

/-- **Selecting commutes with collecting.** -/
theorem collect_filter (f : Subgraph → List α) (p : α → Bool) :
    ((s.collect f).filter fun d => p d.node) = s.collect fun g => (f g).filter p := by
  simp only [collect_eq, List.filter_flatMap, List.filter_map, Function.comp_def]

/-- **What the nodes hold is collected with them.** -/
theorem collect_parts (f : Subgraph → List α) (parts : α → List β) :
    ((s.collect f).flatMap fun d => (parts d.node).map fun b => d.map fun _ => b) =
      s.collect fun g => (f g).flatMap parts := by
  simp only [collect_eq, List.flatMap_assoc, List.flatMap_map, List.map_flatMap]
  rfl

/-- **A collection is in order.** -/
theorem collect_ordered (f : Subgraph → List α) : Declared.Ordered (s.collect f) := by
  rw [Declared.Ordered, collect_eq, List.pairwise_flatMap]
  constructor
  -- within a service, and from one service to a later one
  · intro p _
    rw [List.pairwise_map]
    refine List.pairwise_of_forall_mem_list fun a _ b _ => ?_
    exact ⟨String.le_refl _, by simp⟩
  · refine s.pairwise_byName.imp ?_
    rintro p q ⟨hlt, hne⟩ d hd e he
    obtain ⟨a, -, rfl⟩ := List.mem_map.mp hd
    obtain ⟨b, -, rfl⟩ := List.mem_map.mp he
    refine ⟨Std.le_of_lt hlt, fun h => absurd h hne, fun h => ?_⟩
    have hname : p.1.name = q.1.name := h
    rw [hname] at hlt
    exact absurd hlt (String.lt_irrefl _)

/-! ## Collections and the order in which services came -/

/-- What some services declare, where it is selected by service: the others are left out. -/
theorem filter_flatMap_declared (f : Subgraph → List α) (q : Nat → String → Bool)
    (ps : List (Subgraph × Nat)) :
    ((ps.flatMap fun p => (f p.1).map fun node => (⟨p.2, p.1.name, node⟩ : Declared α)).filter
      fun d => q d.rank d.service) =
      (ps.filter fun p => q p.2 p.1.name).flatMap fun p =>
        (f p.1).map fun node => ⟨p.2, p.1.name, node⟩ := by
  induction ps with
  | nil => rfl
  | cons p ps ih =>
    rw [List.flatMap_cons, List.filter_append, ih, List.filter_map]
    by_cases hq : q p.2 p.1.name = true
    · simp [hq, Function.comp_def]
    · simp [hq, Function.comp_def]

/-- Under each rank, both orders hold the same. -/
theorem filter_rank_collect (f : Subgraph → List α) (k : Nat) :
    ((s.collect f).filter (·.rank == k)) = (s.ranked f).filter (·.rank == k) := by
  have hselect := filter_flatMap_declared f (fun rank _ => rank == k)
  rw [collect_eq, ranked, hselect, hselect,
    filter_eq_of_perm Prod.snd s.byName_perm s.nodup_rank_byName]

/-- Under each name of a service, both orders hold the same. -/
theorem filter_service_collect (f : Subgraph → List α) (name : String) :
    ((s.collect f).filter (·.service == name)) = (s.ranked f).filter (·.service == name) := by
  have hselect := filter_flatMap_declared f (fun _ service => service == name)
  have hnodup : (s.byName.map fun p => p.1.name).Nodup :=
    ((s.byName_perm.map fun p => p.1.name).nodup_iff).mpr s.nodup_name_zipIdx
  rw [collect_eq, ranked, hselect, hselect,
    filter_eq_of_perm (fun p : Subgraph × Nat => p.1.name) s.byName_perm hnodup]

/-- **A collection in the order in which services came.** -/
theorem mergeSort_rank_collect (f : Subgraph → List α) :
    ((s.collect f).mergeSort fun a b => decide (a.rank ≤ b.rank)) = s.ranked f := by
  refine eq_of_pairwise_of_filter_eq Declared.rank (pairwise_mergeSort_le Declared.rank _)
    (s.pairwise_rank_ranked f) fun k => ?_
  rw [filter_mergeSort_eq, filter_rank_collect]

/-- **What services declare as they came, in the order of their names, is their collection.** -/
theorem mergeSort_service_ranked (f : Subgraph → List α) :
    ((s.ranked f).mergeSort fun a b => Text.stringLe a.service b.service) = s.collect f := by
  refine eq_of_pairwise_of_filter_eq Declared.service (pairwise_mergeSort_le Declared.service _)
    ((s.collect_ordered f).imp fun h => h.1) fun name => ?_
  rw [filter_service_collect]
  exact filter_mergeSort_eq Declared.service (s.ranked f) name

theorem collect_perm_ranked (f : Subgraph → List α) : (s.collect f).Perm (s.ranked f) := by
  rw [← mergeSort_service_ranked]
  exact List.mergeSort_perm _ _

/-- Selecting keeps the order in which services came. -/
theorem ranked_filter (f : Subgraph → List α) (p : α → Bool) :
    ((s.ranked f).filter fun d => p d.node) = s.ranked fun g => (f g).filter p := by
  simp only [ranked, List.filter_flatMap, List.filter_map, Function.comp_def]

/-! ## The first declarations of the services -/

/-- **The first declarations of the services** are the first that each declares. -/
theorem firstPerService_collect (f : Subgraph → List α) :
    Declared.firstPerService (s.collect f) =
      s.byName.filterMap fun p => (f p.1).head?.map fun node => ⟨p.2, p.1.name, node⟩ := by
  rw [collect_eq, Declared.firstPerService, firstsBy_flatMap s.nodup_rank_byName]
  · simp only [List.head?_map]
  · intro p _ d hd
    obtain ⟨node, -, rfl⟩ := List.mem_map.mp hd
    rfl

/-- What the services declare first, in the order of their names. -/
theorem map_node_firstPerService_collect (f : Subgraph → List α) :
    (Declared.firstPerService (s.collect f)).map (·.node) =
      s.inOrder.filterMap fun g => (f g).head? := by
  rw [firstPerService_collect, List.map_filterMap, ← map_fst_byName, List.filterMap_map]
  congr 1
  funext p
  simp [Function.comp_def]

/-! ## The declarations of a type -/

/-- The definitions and extensions of a type by one service. -/
def definitionsOf (typeName : String) (g : Subgraph) : List TypeDefinition :=
  g.typeDefinitions.filter (·.name == typeName)

/-- The declarations of a type by all services. -/
def group (typeName : String) : TypeGroup :=
  s.collect fun g => (definitionsOf typeName g).map Declaration.ofDefinition

theorem group_eq_filter (typeName : String) :
    s.group typeName = s.declarations.filter (·.node.node.name == typeName) := by
  have h := collect_filter s Subgraph.declarations (·.node.name == typeName)
  simp only [Subgraph.declarations, List.filter_map] at h
  exact h.symm

theorem mem_typeNames {s : Subgraphs} {typeName : String} :
    typeName ∈ s.typeNames ↔ ∃ g ∈ s.services, ∃ d ∈ g.typeDefinitions, d.name = typeName := by
  simp only [typeNames, List.mem_mergeSort, mem_distinct, declarations, List.mem_map]
  constructor
  · rintro ⟨d, hd, rfl⟩
    obtain ⟨g, hg, -, hnode⟩ := mem_collect hd
    obtain ⟨t, ht, htd⟩ := List.mem_map.mp hnode
    exact ⟨g, hg, t, ht, by rw [← htd]; rfl⟩
  · rintro ⟨g, hg, t, ht, rfl⟩
    obtain ⟨d, hd, hnode, -⟩ := exists_mem_collect (f := Subgraph.declarations) hg
      (List.mem_map_of_mem ht)
    exact ⟨d, hd, by rw [hnode]; rfl⟩

/-- **The names of types are in strict order.** -/
theorem pairwise_typeNames : s.typeNames.Pairwise (· < ·) :=
  pairwise_mergeSort_lt id (by simpa using nodup_distinct _)

theorem nodup_typeNames : s.typeNames.Nodup :=
  nodup_of_pairwise_lt s.pairwise_typeNames

/-- **Every look-up in the store succeeds**, and the groups are the declarations of each type. -/
theorem groups?_store : s.store.groups? = some (s.typeNames.map s.group) := by
  have hnames : ∀ typeName, typeName ∈ s.typeNames ↔
      typeName ∈ (s.ranked Subgraph.declarations).map (·.node.node.name) := by
    intro typeName
    rw [typeNames, List.mem_mergeSort, mem_distinct, declarations]
    exact ((s.collect_perm_ranked Subgraph.declarations).map (·.node.node.name)).mem_iff
  rw [Store.groups?_eq s.linked_store s.holds_store (s.pairwise_rank_ranked _)
    s.pairwise_typeNames hnames]
  congr 1
  refine List.map_congr_left fun typeName _ => ?_
  have hselect := ranked_filter s Subgraph.declarations (·.node.name == typeName)
  have hcollect := collect_filter s Subgraph.declarations (·.node.name == typeName)
  rw [hselect, mergeSort_service_ranked, ← hcollect, group_eq_filter, declarations]

theorem groups_eq : s.groups = s.typeNames.map s.group := by
  rw [groups, groups?_store, Option.getD_some]

variable {s} {typeName : String}

theorem name_of_mem_group {d : Declared Declaration} (h : d ∈ s.group typeName) :
    d.node.node.name = typeName := by
  obtain ⟨g, -, -, hnode⟩ := mem_collect h
  obtain ⟨t, ht, htd⟩ := List.mem_map.mp hnode
  rw [← htd]
  exact beq_iff_eq.mp (List.mem_filter.mp ht).2

theorem group_ne_nil (h : typeName ∈ s.typeNames) : s.group typeName ≠ [] := by
  obtain ⟨g, hg, t, ht, rfl⟩ := mem_typeNames.mp h
  obtain ⟨d, hd, -, -⟩ := exists_mem_collect
    (f := fun g => (definitionsOf t.name g).map Declaration.ofDefinition) hg
    (List.mem_map_of_mem (List.mem_filter.mpr ⟨ht, beq_self_eq_true _⟩))
  exact List.ne_nil_of_mem hd

theorem name_group (h : typeName ∈ s.typeNames) : (s.group typeName).name = typeName := by
  obtain ⟨d, ds, hg⟩ := List.exists_cons_of_ne_nil (group_ne_nil h)
  have hd : d ∈ s.group typeName := by rw [hg]; exact List.mem_cons_self
  rw [TypeGroup.name, hg]
  exact name_of_mem_group hd

/-! The members of a type are collections too. -/

theorem fieldDeclarations_group : (s.group typeName).fieldDeclarations =
    s.collect fun g =>
      (definitionsOf typeName g).flatMap fun d => d.fields.map FieldDeclaration.ofField := by
  have h := collect_parts s (fun g => (definitionsOf typeName g).map Declaration.ofDefinition)
    Declaration.fields
  simp only [List.flatMap_map] at h
  exact h

theorem enumValues_group : (s.group typeName).enumValues =
    s.collect fun g => (definitionsOf typeName g).flatMap (·.body.enumValues) := by
  have h := collect_parts s (fun g => (definitionsOf typeName g).map Declaration.ofDefinition)
    (·.node.body.enumValues)
  simp only [List.flatMap_map] at h
  exact h

theorem inputFields_group : (s.group typeName).inputFields =
    s.collect fun g => (definitionsOf typeName g).flatMap (·.body.inputFields) := by
  have h := collect_parts s (fun g => (definitionsOf typeName g).map Declaration.ofDefinition)
    (·.node.body.inputFields)
  simp only [List.flatMap_map] at h
  exact h

end Subgraphs

end Federation
