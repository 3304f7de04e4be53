import Federation.Proofs.Subgraph.Collection
import Federation.Proofs.Subgraph.Ingestion
import Federation.Proofs.Text.Bytes
/-!
# Subgraphs — grouping enumerates everything once

What services declare is composed type by type. Whatever services are
handed in, the groups in which the store gives their definitions back
enumerate them (`run_groups_enumerate`): every definition is in one
group, groups are in the order of type names, and inside a group the
definitions of one service, and its declarations of one member, stand
next to one another in the order of the document. The groups are
collections, and collections are in order (`collect_ordered`); from this
all that is said about the inside of a group follows.
-/

namespace Federation

namespace Subgraphs

/-- The definitions of the services that are taken, service by service as they came and in the order
of their documents. -/
def ingested (calls : List Submission) : List (Declared Declaration) :=
  (accepted calls).zipIdx.flatMap fun p =>
    p.1.subgraph.typeDefinitions.map fun d => ⟨p.2, p.1.name, Declaration.ofDefinition d⟩

/-- Among the declarations of any one member, those of a service stand next to one another. -/
def MemberContiguous {α : Type} (name : α → String) (ds : List (Declared α)) : Prop :=
  ∀ member, Contiguous Declared.service (ds.filter fun d => name d.node == member)

/-- Groups enumerate the definitions of the services that are taken. Every definition is in one group,
and there once for every time that it is declared. A group has the definitions of one type, by the
names of their services and then by their places in the documents. -/
structure Enumerates (calls : List Submission) (gs : List TypeGroup) : Prop where
  once : gs.flatten.Perm (ingested calls)
  exactlyOne : ∀ d ∈ ingested calls, ∃! g, g ∈ gs ∧ d ∈ g
  oneName : ∀ g ∈ gs, g ≠ [] ∧ ∀ d ∈ g, d.node.name = g.name
  increasing : gs.Pairwise fun g h => Text.bytes g.name.toList < Text.bytes h.name.toList
  byService : ∀ g ∈ gs, g.Pairwise fun a b =>
    Text.bytes a.service.toList ≤ Text.bytes b.service.toList
  byPosition : ∀ g ∈ gs, ∀ p ∈ (accepted calls).zipIdx, (g.filter (·.service == p.1.name)) =
    (p.1.subgraph.typeDefinitions.filter (·.name == g.name)).map fun d =>
      ⟨p.2, p.1.name, Declaration.ofDefinition d⟩
  contiguous : ∀ g ∈ gs, Contiguous Declared.service g
  members : ∀ g ∈ gs, MemberContiguous FieldDeclaration.name g.fieldDeclarations ∧
    MemberContiguous EnumValue.name g.enumValues ∧ MemberContiguous InputValue.name g.inputFields
  fields : ∀ g ∈ gs, ∀ d ∈ g, d.node.fields = d.node.node.fields.map FieldDeclaration.ofField

/-! ## What is ingested -/

theorem ingested_eq_ranked (calls : List Submission) :
    ingested calls = (run calls).ranked Subgraph.declarations := by
  rw [ranked, services_run, List.zipIdx_map, List.flatMap_map, ingested]
  refine List.flatMap_congr fun p _ => ?_
  rw [Subgraph.declarations, List.map_map]
  simp only [Prod.map, Submission.name_subgraph]
  rfl

variable {s : Subgraphs} {typeName : String}

theorem declaration_of_mem_ranked {d : Declared Declaration}
    (h : d ∈ s.ranked Subgraph.declarations) : d.node = Declaration.ofDefinition d.node.node := by
  simp only [ranked, List.mem_flatMap, List.mem_map, Subgraph.declarations] at h
  obtain ⟨p, -, -, ⟨t, -, rfl⟩, rfl⟩ := h
  rfl

/-- The fields at the places of a stored definition are those of its node, in order. -/
theorem fieldsAt?_store {number : Nat} {row : StoredDefinition}
    (h : s.store.definitions[number]? = some row) :
    s.store.fieldsAt? (List.range' row.fieldsFrom (row.fieldsTo - row.fieldsFrom)) =
      some (row.node.fields.map FieldDeclaration.ofField) := by
  obtain ⟨d, hd, hnode, hfields⟩ := s.holds_store.fieldsAt? h
  rw [hfields, declaration_of_mem_ranked hd, ← hnode]
  rfl

/-! ## The groups -/

/-- What holds of the declarations of every type holds of every group. -/
theorem forall_mem_groups {P : TypeGroup → Prop} :
    (∀ g ∈ s.groups, P g) ↔ ∀ typeName ∈ s.typeNames, P (s.group typeName) := by
  rw [groups_eq, List.forall_mem_map]

theorem flatten_groups_perm (s : Subgraphs) :
    s.groups.flatten.Perm (s.ranked Subgraph.declarations) := by
  have hgroups : s.groups.flatten = s.typeNames.flatMap fun typeName =>
      s.declarations.filter fun d => d.node.node.name == typeName := by
    rw [groups_eq, ← List.flatMap_def]
    exact List.flatMap_congr fun typeName _ => s.group_eq_filter typeName
  rw [hgroups]
  refine (flatMap_filter_perm (fun d : Declared Declaration => d.node.node.name) s.nodup_typeNames
    fun d hd => ?_).trans (s.collect_perm_ranked _)
  rw [typeNames, List.mem_mergeSort, mem_distinct]
  exact List.mem_map_of_mem hd

/-- A definition is in no group but that of its name. -/
theorem eq_group_of_mem : ∀ g ∈ s.groups, ∀ d ∈ g, g = s.group d.node.name :=
  forall_mem_groups.mpr fun typeName _ d hd => by
    rw [Declaration.name, name_of_mem_group hd]

theorem existsUnique_group {d : Declared Declaration}
    (h : d ∈ s.ranked Subgraph.declarations) : ∃! g, g ∈ s.groups ∧ d ∈ g := by
  obtain ⟨g, hg, hd⟩ := List.mem_flatten.mp (s.flatten_groups_perm.mem_iff.mpr h)
  refine ⟨g, ⟨hg, hd⟩, ?_⟩
  rintro g' ⟨hg', hd'⟩
  rw [eq_group_of_mem g' hg' d hd', eq_group_of_mem g hg d hd]

theorem pairwise_name_groups (s : Subgraphs) :
    s.groups.Pairwise fun g h : TypeGroup => g.name < h.name := by
  rw [groups_eq, List.pairwise_map]
  refine s.pairwise_typeNames.imp_of_mem fun hn hm hlt => ?_
  rwa [name_group hn, name_group hm]

/-- In a group, the definitions of a service are those of its document, in order. -/
theorem filter_service_group (typeName : String) {p : Subgraph × Nat}
    (hp : p ∈ s.services.zipIdx) : ((s.group typeName).filter (·.service == p.1.name)) =
      (definitionsOf typeName p.1).map fun d => ⟨p.2, p.1.name, Declaration.ofDefinition d⟩ := by
  have hone : (s.services.zipIdx.filter fun q => q.1.name == p.1.name) = [p] :=
    filter_eq_singleton s.nodup_name_zipIdx hp
  have hselect := filter_flatMap_declared
    (fun g => (definitionsOf typeName g).map Declaration.ofDefinition)
    (fun _ service => service == p.1.name) s.services.zipIdx
  rw [hone, List.flatMap_singleton, List.map_map] at hselect
  rw [group, filter_service_collect]
  exact hselect

/-- After a run, they are those of the document that was handed in by the call. -/
theorem filter_service_group_run {calls : List Submission} (typeName : String)
    {p : Submission × Nat} (hp : p ∈ (accepted calls).zipIdx) :
    (((run calls).group typeName).filter (·.service == p.1.name)) =
      (p.1.subgraph.typeDefinitions.filter (·.name == typeName)).map fun d =>
        ⟨p.2, p.1.name, Declaration.ofDefinition d⟩ := by
  have hservice : (p.1.subgraph, p.2) ∈ (run calls).services.zipIdx := by
    rw [services_run, List.zipIdx_map]
    exact List.mem_map_of_mem hp
  have hgroup := filter_service_group typeName hservice
  rwa [Submission.name_subgraph] at hgroup

/-! ## What stands together -/

theorem contiguous_of_ordered {α : Type} {ds : List (Declared α)} (h : Declared.Ordered ds) :
    Contiguous Declared.service ds :=
  contiguous_of_pairwise Declared.service (h.imp fun h => h.1)

/-- What is collected is collected service by service, so the declarations of a member are too. -/
theorem memberContiguous_collect {α : Type} (name : α → String) (f : Subgraph → List α) :
    MemberContiguous name (s.collect f) := fun _ =>
  contiguous_of_ordered ((s.collect_ordered f).filter _)

/-! ## The enumeration -/

theorem enumerates_groups (calls : List Submission) : Enumerates calls (run calls).groups where
  once := by
    rw [ingested_eq_ranked]
    exact flatten_groups_perm _
  exactlyOne d hd := by
    rw [ingested_eq_ranked] at hd
    exact existsUnique_group hd
  oneName := forall_mem_groups.mpr fun typeName hname => by
    rw [name_group hname]
    exact ⟨group_ne_nil hname, fun d hd => name_of_mem_group hd⟩
  increasing := (pairwise_name_groups _).imp fun h => Text.bytes_lt_iff.mpr h
  byService := forall_mem_groups.mpr fun _ _ =>
    (collect_ordered _ _).imp fun h => Text.bytes_le_iff.mpr h.1
  byPosition := forall_mem_groups.mpr fun typeName hname p hp => by
    rw [name_group hname]
    exact filter_service_group_run typeName hp
  contiguous := forall_mem_groups.mpr fun _ _ => contiguous_of_ordered (collect_ordered _ _)
  members := forall_mem_groups.mpr fun typeName _ => by
    rw [fieldDeclarations_group, enumValues_group, inputFields_group]
    exact ⟨memberContiguous_collect _ _, memberContiguous_collect _ _,
      memberContiguous_collect _ _⟩
  fields g hg d hd := by
    have hmem := (flatten_groups_perm _).mem_iff.mp (List.mem_flatten.mpr ⟨g, hg, hd⟩)
    rw [declaration_of_mem_ranked hmem]
    rfl

/-- **Grouping enumerates everything once.** However services are handed in, the references in the
store are right and the index leads to every definition once; so every look-up on the way succeeds.
The groups that are visited enumerate the definitions of all services that were taken, in the order
of the bytes of type names and then of service names, and the fields that are reached from a
definition are those of its node, in order and with what their own directives say. Services with
distinct names are all taken (`accepted_eq_self`). -/
theorem run_groups_enumerate (calls : List Submission) :
    (run calls).store.Linked ∧
    ((run calls).store.index.map (·.definition)).Perm
      (List.range (run calls).store.definitions.size) ∧
    (run calls).store.groups? = some (run calls).groups ∧
    Enumerates calls (run calls).groups ∧
    ∀ (number : Nat) (row : StoredDefinition),
      (run calls).store.definitions[number]? = some row →
      (run calls).store.fieldsAt? (List.range' row.fieldsFrom (row.fieldsTo - row.fieldsFrom)) =
        some (row.node.fields.map FieldDeclaration.ofField) := by
  have hlinked := linked_store (run calls)
  have hgroups : (run calls).store.groups? = some (run calls).groups := by
    rw [groups?_store, groups_eq]
  exact ⟨hlinked, Store.numbers_index hlinked (holds_store _), hgroups, enumerates_groups calls,
    fun number row hrow => fieldsAt?_store hrow⟩

end Subgraphs

end Federation
