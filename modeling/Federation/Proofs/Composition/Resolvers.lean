import Federation.Proofs.Composition.Content
/-!
# Composition — one resolver for each field

The guarantee is shared out between stages. A field that is not shared
is checked where services are merged; a field of a root type is checked
in the composed schema, and so is a field that every service marks as
resolved elsewhere. What each stage leaves to another is reported there,
so no field is left without a resolver, and only the fields of value
types have several (`compose_unique_resolver`).
-/

namespace Federation

open Declared

/-! ## The contributions to a field -/

/-- Where no two fields share a name, a field is the one that its name finds. -/
theorem TypeOwnership.field?_of_mem {t : TypeOwnership} (h : (t.fields.map (·.name)).Nodup)
    {f : FieldOwnership} (hf : f ∈ t.fields) : t.field? f.name = some f := by
  rw [field?, ← List.head?_filter, filter_eq_singleton h hf, List.head?_cons]

namespace Subgraphs

variable {s : Subgraphs} {typeName : String} {isRepeatable : String → Bool}

/-- The record of each field is the record of its declarations, of which each service has one and
which are in order. -/
theorem exists_of_mem_fieldOwnership (h : (s.group typeName).problems isRepeatable = [])
    {f : FieldOwnership} (hf : f ∈ (s.group typeName).ownership.fields) :
    ∃ ds, ds = named FieldDeclaration.name f.name (s.group typeName).fieldDeclarations ∧ ds ≠ [] ∧
      (ds.map (·.service)).Pairwise (· < ·) ∧
      f.contributions = ds.map FieldDeclaration.contribution ∧
      FieldDeclaration.problems isRepeatable (s.group typeName).name (s.group typeName).isShared
        ds = [] := by
  have hmem : f ∈ (s.group typeName).fieldGroups.map TypeGroup.fieldOwnership := by
    rw [TypeGroup.ownership] at hf
    split at hf
    case h_1 | h_2 => exact hf
    all_goals cases hf
  obtain ⟨ds, hds, rfl⟩ := List.mem_map.mp hmem
  obtain ⟨n, hn, rfl⟩ := List.mem_map.mp hds
  have hdeclared := mem_distinct.mp hn
  obtain ⟨d, hd, rfl⟩ := List.mem_map.mp hdeclared
  have hproblems := field_problems_eq_nil h hd
  have hrank := FieldDeclaration.nodup_rank_of_problems hproblems
  have hname : (TypeGroup.fieldOwnership (named FieldDeclaration.name d.node.name
      (s.group typeName).fieldDeclarations)).name = d.node.name := head_name_named hdeclared
  have hcontributions : (TypeGroup.fieldOwnership (named FieldDeclaration.name d.node.name
      (s.group typeName).fieldDeclarations)).contributions =
        (named FieldDeclaration.name d.node.name
          (s.group typeName).fieldDeclarations).map FieldDeclaration.contribution := by
    rw [TypeGroup.fieldOwnership, firstPerService_eq_self hrank]
  have hordered : Ordered (s.group typeName).fieldDeclarations := by
    rw [fieldDeclarations_group]
    exact collect_ordered s _
  refine ⟨named FieldDeclaration.name d.node.name (s.group typeName).fieldDeclarations,
    congrArg (named FieldDeclaration.name · _) hname.symm, named_ne_nil hdeclared, ?_,
    hcontributions, hproblems⟩
  exact Ordered.pairwise_lt (hordered.filter _) hrank

/-- The fields of the record are the composed fields. -/
theorem map_name_ownership {t : TypeDefinition}
    (ht : t.body = (s.group typeName).body isRepeatable)
    (hkind : t.kind = .object ∨ t.kind = .interface) :
    (s.group typeName).ownership.fields.map (·.name) = t.fields.map (·.name) := by
  have hgroup : (s.group typeName).kind = t.kind := by
    rw [TypeDefinition.kind, ht, TypeGroup.kind_body]
  have hrecord : (s.group typeName).ownership.fields =
      (s.group typeName).fieldGroups.map TypeGroup.fieldOwnership := by
    rw [TypeGroup.ownership, hgroup]
    rcases hkind with hk | hk <;> rw [hk]
  have hfields : t.fields = (s.group typeName).fields isRepeatable := by
    rw [TypeDefinition.fields, ht, TypeGroup.body, hgroup]
    rcases hkind with hk | hk <;> rw [hk] <;> rfl
  rw [hrecord, hfields, TypeGroup.map_name_fields, TypeGroup.fieldGroups, byMember_eq,
    List.map_map, List.map_map]
  exact map_eq_self fun n hn => head_name_named (mem_distinct.mp hn)

/-- **A field that is no root field is resolved once at most**, unless its type is a value type. -/
theorem resolvers_of_not_isRoot (h : (s.group typeName).problems isRepeatable = [])
    (hroot : (s.group typeName).isRoot = false) (hvalue : (s.group typeName).isValueType = false)
    {f : FieldOwnership} (hf : f ∈ (s.group typeName).ownership.fields) :
    (f.contributions.filter (!·.isExternal)).length ≤ 1 := by
  obtain ⟨ds, -, -, -, hcontributions, hproblems⟩ := exists_of_mem_fieldOwnership h hf
  have hshared : (s.group typeName).isShared = false := by
    rw [TypeGroup.isShared, hroot, hvalue, TypeGroup.hasConflictingBases_eq_false h]
    rfl
  rw [hshared] at hproblems
  rw [hcontributions, List.filter_map, List.length_map]
  exact FieldDeclaration.resolving_of_problems hproblems

/-- A root type has the conventional name of an operation. -/
theorem conventionalName_of_isRoot (h : (s.group typeName).isRoot = true) :
    ∃ operation : OperationType, operation.conventionalName = typeName := by
  obtain ⟨d, hd, hroot⟩ := List.any_eq_true.mp h
  obtain ⟨t, ht, rfl⟩ := exists_of_mem_group hd
  rw [ht] at hroot
  obtain ⟨operation, hoperation⟩ := Option.isSome_iff_exists.mp hroot
  have hfound := List.find?_some hoperation
  exact ⟨operation, beq_iff_eq.mp hfound⟩

theorem isRoot_of_name (h : typeName ∈ s.typeNames)
    (hname : typeName ∈ ["Query", "Mutation", "Subscription"]) :
    (s.group typeName).isRoot = true := by
  obtain ⟨d, ds, hgroup⟩ := List.exists_cons_of_ne_nil (group_ne_nil h)
  have hd : d ∈ s.group typeName := by
    rw [hgroup]
    exact List.mem_cons_self
  obtain ⟨t, ht, rfl⟩ := exists_of_mem_group hd
  refine List.any_eq_true.mpr ⟨d, hd, ?_⟩
  rw [ht]
  show (OperationType.ofConventionalName? t.name).isSome = true
  simp only [List.mem_cons, List.not_mem_nil, or_false] at hname
  rcases hname with hname | hname | hname <;> rw [hname] <;> rfl

/-! ## The checks of the composed schema -/

theorem composedSchema_roots : s.composedSchema.1.roots = [] := by
  rw [composedSchema_eq]

/-- **A root field is resolved once at most.** -/
theorem resolvers_of_isRoot (hnone : s.composedSchema.1.problems = [])
    (hn : typeName ∈ s.typeNames) (hroot : (s.group typeName).isRoot = true)
    {f : FieldOwnership} (hf : f ∈ (s.group typeName).ofOneKind.ownership.fields) :
    (f.contributions.filter (!·.isExternal)).length ≤ 1 := by
  simp only [Schema.problems, List.append_eq_nil_iff] at hnone
  obtain ⟨operation, hoperation⟩ := conventionalName_of_isRoot hroot
  -- no schema definition is composed, so the root of an operation has its conventional name
  have hname : (s.composedSchema.1.rootName? operation).getD operation.conventionalName =
      typeName := by
    rw [Schema.rootName?, composedSchema_roots]
    exact hoperation
  rw [← map_name_composedSchema] at hn
  obtain ⟨t, ht, htname⟩ := List.mem_map.mp hn
  obtain ⟨root, hfind⟩ : ∃ root, s.composedSchema.1.type? typeName = some root :=
    Option.isSome_iff_exists.mp (List.find?_isSome.mpr ⟨t, ht, by simpa using htname⟩)
  have hfound := List.find?_some hfind
  have hrootName : root.name = typeName := beq_iff_eq.mp hfound
  have hmem : root ∈ OperationType.all.filterMap s.composedSchema.1.rootType? := by
    refine List.mem_filterMap.mpr ⟨operation, by cases operation <;> decide, ?_⟩
    rw [Schema.rootType?, hname, hfind]
  have hproblems := List.flatMap_eq_nil_iff.mp
    (show Schema.rootFieldProblems _ = [] from hnone.1.2) root hmem
  rw [map_name_composedSchema] at hn
  rw [hrootName, ownership?_composedSchema s hn, List.map_eq_nil_iff] at hproblems
  have hone := List.filter_eq_nil_iff.mp hproblems f hf
  simpa [FieldOwnership.resolvers] using hone

/-- **Every field is resolved somewhere.** -/
theorem exists_resolver (hnone : s.composedSchema.1.problems = []) (hn : typeName ∈ s.typeNames)
    {f : FieldOwnership} (hf : f ∈ (s.group typeName).ofOneKind.ownership.fields)
    (hne : f.contributions ≠ []) : ∃ c ∈ f.contributions, c.isExternal = false := by
  simp only [Schema.problems, List.append_eq_nil_iff] at hnone
  have hmem : (s.group typeName).ofOneKind.ownership ∈ s.composedSchema.1.ownership :=
    List.mem_of_find?_eq_some (ownership?_composedSchema s hn)
  have hproblems := List.flatMap_eq_nil_iff.mp
    (show Schema.externalFieldProblems _ = [] from hnone.1.1.1.2) _ hmem
  have hsome := List.filter_eq_nil_iff.mp (List.map_eq_nil_iff.mp hproblems) f hf
  cases howner : f.owner? with
  | none => simp [howner, hne] at hsome
  | some c =>
    exact ⟨c, List.mem_of_find?_eq_some howner, by simpa using List.find?_some howner⟩

/-- **Every field is resolved exactly once**, unless its type is a value type and no root. The
upper bound is checked in two places, the lower one in a third. -/
theorem length_resolvers (h : (s.group typeName).problems isRepeatable = [])
    (hnone : s.composedSchema.1.problems = []) (hn : typeName ∈ s.typeNames)
    {f : FieldOwnership} (hf : f ∈ (s.group typeName).ownership.fields)
    (hne : f.contributions ≠ [])
    (hsingle : (s.group typeName).isValueType = false ∨
      typeName ∈ ["Query", "Mutation", "Subscription"]) :
    (f.contributions.filter (!·.isExternal)).length = 1 := by
  have hf' : f ∈ (s.group typeName).ofOneKind.ownership.fields := by
    rw [TypeGroup.ofOneKind_eq_self h]
    exact hf
  have hatMost : (f.contributions.filter (!·.isExternal)).length ≤ 1 := by
    by_cases hroot : (s.group typeName).isRoot = true
    · exact resolvers_of_isRoot hnone hn hroot hf'
    · rw [Bool.not_eq_true] at hroot
      obtain hvalue | hname := hsingle
      · exact resolvers_of_not_isRoot h hroot hvalue hf
      · rw [isRoot_of_name hn hname] at hroot
        cases hroot
  obtain ⟨resolver, hresolver, hinternal⟩ := exists_resolver hnone hn hf' hne
  have hpos : 0 < (f.contributions.filter (!·.isExternal)).length :=
    List.length_pos_of_mem (List.mem_filter.mpr ⟨hresolver, by simp [hinternal]⟩)
  omega

/-- The first contribution that resolves a field is the owner of the field. -/
theorem exists_fieldOwner? (h : (s.group typeName).problems isRepeatable = [])
    (hnone : s.composedSchema.1.problems = []) (hn : typeName ∈ s.typeNames)
    (hnodup : ((s.group typeName).ownership.fields.map (·.name)).Nodup)
    {f : FieldOwnership} (hf : f ∈ (s.group typeName).ownership.fields)
    (hne : f.contributions ≠ []) :
    ∃ c, f.contributions.find? (!·.isExternal) = some c ∧
      s.composedSchema.1.fieldOwner? typeName f.name = some c.service := by
  have hone := TypeGroup.ofOneKind_eq_self h
  have hownership := ownership?_composedSchema s hn
  rw [hone] at hownership
  have hf' : f ∈ (s.group typeName).ofOneKind.ownership.fields := by
    rw [hone]
    exact hf
  obtain ⟨resolver, hresolver, hinternal⟩ := exists_resolver hnone hn hf' hne
  have hsome : (f.contributions.find? (!·.isExternal)).isSome = true :=
    List.find?_isSome.mpr ⟨resolver, hresolver, by simp [hinternal]⟩
  obtain ⟨c, hc⟩ := Option.isSome_iff_exists.mp hsome
  refine ⟨c, hc, ?_⟩
  have hfield := TypeOwnership.field?_of_mem hnodup hf
  rw [Schema.fieldOwner?, hownership, Option.bind_eq_bind, Option.bind_some, hfield,
    Option.bind_eq_bind, Option.bind_some, FieldOwnership.owner?, hc]
  rfl

/-! ## What the record says about services -/

/-- The services with a base definition of a type, in order. -/
theorem pairwise_service_bases (h : (s.group typeName).problems isRepeatable = []) :
    ((s.group typeName).bases.map (·.service)).Pairwise (· < ·) := by
  rw [TypeGroup.bases_eq h]
  exact Ordered.pairwise_lt ((collect_ordered s _).filter _)
    (TypeGroup.nodup_rank_baseDeclarations h)

theorem mem_service_bases {n : String} (h : (s.group typeName).problems isRepeatable = []) :
    n ∈ (s.group typeName).bases.map (·.service) ↔
      ∃ g ∈ s.services, g.name = n ∧ ∃ d ∈ g.typeDefinitions,
        d.name = typeName ∧ (Declaration.ofDefinition d).isExtension = false := by
  rw [TypeGroup.bases_eq h, List.mem_map]
  constructor
  · rintro ⟨d, hd, rfl⟩
    obtain ⟨hd, hbase⟩ := List.mem_filter.mp hd
    obtain ⟨g, hg, hservice, hnode⟩ := mem_collect hd
    obtain ⟨t, ht, htd⟩ := List.mem_map.mp hnode
    obtain ⟨ht, hname⟩ := List.mem_filter.mp ht
    exact ⟨g, hg, hservice.symm, t, ht, beq_iff_eq.mp hname, by simpa [← htd] using hbase⟩
  · rintro ⟨g, hg, rfl, t, ht, rfl, hbase⟩
    obtain ⟨d, hd, hnode, hservice⟩ := exists_mem_collect
      (f := fun g => (definitionsOf t.name g).map Declaration.ofDefinition) hg
      (List.mem_map_of_mem (List.mem_filter.mpr ⟨ht, beq_self_eq_true _⟩))
    exact ⟨d, List.mem_filter.mpr ⟨hd, by simp [hnode, hbase]⟩, hservice⟩

/-- The declarations of a field are those of the services. -/
theorem exists_named_iff (typeName n : String) {g : Subgraph} (hg : g ∈ s.services)
    (external : Bool) :
    (∃ d ∈ named FieldDeclaration.name n (s.group typeName).fieldDeclarations,
      d.service = g.name ∧ d.node.isExternal = external) ↔
    ∃ t ∈ g.typeDefinitions, t.name = typeName ∧
      ∃ f ∈ t.fields, f.name = n ∧ f.isExternal = external := by
  rw [fieldDeclarations_group]
  constructor
  · rintro ⟨d, hd, hservice, hexternal⟩
    have hname := name_of_mem_named hd
    obtain ⟨g', hg', hservice', hnode⟩ := mem_collect (List.mem_filter.mp hd).1
    obtain rfl : g' = g :=
      List.inj_on_of_nodup_map s.nodup hg' hg (hservice'.symm.trans hservice)
    obtain ⟨t, ht, hf⟩ := List.mem_flatMap.mp hnode
    obtain ⟨f, hf, hfd⟩ := List.mem_map.mp hf
    obtain ⟨ht, htname⟩ := List.mem_filter.mp ht
    rw [← hfd] at hname hexternal
    exact ⟨t, ht, beq_iff_eq.mp htname, f, hf, hname, hexternal⟩
  · rintro ⟨t, ht, rfl, f, hf, rfl, hexternal⟩
    obtain ⟨d, hd, hnode, hservice⟩ := exists_mem_collect
      (f := fun g => (definitionsOf t.name g).flatMap fun d =>
        d.fields.map FieldDeclaration.ofField) hg
      (List.mem_flatMap.mpr ⟨t, List.mem_filter.mpr ⟨ht, beq_self_eq_true _⟩,
        List.mem_map_of_mem hf⟩)
    have hmem := mem_named_self FieldDeclaration.name hd
    rw [hnode] at hmem
    exact ⟨d, hmem, hservice, by rw [hnode]; exact hexternal⟩

end Subgraphs

theorem TypeGroup.owner?_eq_some_iff {g : TypeGroup} {owner : String} :
    g.owner? = some owner ↔ g.bases.map (·.service) = [owner] := by
  rw [TypeGroup.owner?]
  split
  · rename_i base hbases
    simp [hbases]
  · rename_i hmany
    constructor
    · intro h
      cases h
    · intro h
      obtain ⟨base, hbase, -⟩ := List.map_eq_singleton_iff.mp h
      exact absurd hbase (hmany base)

namespace Service

/-- Whether a service has a base definition of a type, which is neither an extension nor a root
type. -/
def definesBase (s : Service) (typeName : String) : Bool :=
  s.typeContributions.any fun d =>
    d.name == typeName && !d.extendsType && (OperationType.ofConventionalName? d.name).isNone

theorem definesBase_iff {s : Service} {typeName : String} :
    s.definesBase typeName = true ↔ ∃ d ∈ s.typeContributions,
      d.name = typeName ∧ (Declaration.ofDefinition d).isExtension = false := by
  simp [definesBase, Declaration.ofDefinition, and_assoc]

/-- The services with a base definition of a type are the bases of its group, in some order. -/
theorem bases_perm {services : List Service} {s : Subgraphs} {typeName : String}
    {isRepeatable : String → Bool} (hs : s.services = services.map toSubgraph)
    (hall : ∀ service ∈ services, service.toSubgraph.typeDefinitions = service.typeContributions)
    (h : (s.group typeName).problems isRepeatable = []) :
    ((s.group typeName).bases.map (·.service)).Perm
      ((services.filter (·.definesBase typeName)).map (·.name)) := by
  have hnames : (services.map (·.name)).Nodup := by
    have := s.nodup
    rwa [hs, List.map_map] at this
  have hbases : ((s.group typeName).bases.map (·.service)).Nodup :=
    nodup_of_pairwise_lt (Subgraphs.pairwise_service_bases h)
  rw [List.perm_ext_iff_of_nodup hbases (hnames.sublist (List.filter_sublist.map _))]
  intro n
  rw [Subgraphs.mem_service_bases h, hs, List.mem_map]
  constructor
  · rintro ⟨g, hg, rfl, d, hd, hname, hbase⟩
    obtain ⟨service, hservice, rfl⟩ := List.mem_map.mp hg
    rw [hall service hservice] at hd
    exact ⟨service, List.mem_filter.mpr ⟨hservice, definesBase_iff.mpr ⟨d, hd, hname, hbase⟩⟩, rfl⟩
  · rintro ⟨service, hservice, rfl⟩
    obtain ⟨hservice, hdefines⟩ := List.mem_filter.mp hservice
    obtain ⟨d, hd, hname, hbase⟩ := definesBase_iff.mp hdefines
    rw [← hall service hservice] at hd
    exact ⟨service.toSubgraph, List.mem_map_of_mem hservice, rfl, d, hd, hname, hbase⟩

/-- A type has an owner exactly when one service has a base definition of it. -/
theorem owner?_iff {services : List Service} {s : Subgraphs} {typeName owner : String}
    {isRepeatable : String → Bool} (hs : s.services = services.map toSubgraph)
    (hall : ∀ service ∈ services, service.toSubgraph.typeDefinitions = service.typeContributions)
    (h : (s.group typeName).problems isRepeatable = []) :
    (s.group typeName).owner? = some owner ↔
      (services.filter (·.definesBase typeName)).map (·.name) = [owner] := by
  have hperm := bases_perm hs hall h
  rw [TypeGroup.owner?_eq_some_iff]
  constructor
  · intro hbases
    rw [hbases] at hperm
    exact (List.singleton_perm.mp hperm).symm
  · intro hdefine
    rw [hdefine] at hperm
    exact List.perm_singleton.mp hperm

/-- **Every field has its resolver.** The record of a composed object or interface has its fields.
The contributions to a field are those of the services that declare it, in the order of their
names. Exactly one of them resolves the field, or one at least where the type is a value type, and
the first that does owns it. The type has an owner exactly when one service defines it. -/
theorem compose_unique_resolver {services : List Service} {g : Supergraph}
    (h : compose services = .ok (.ok g)) {t : TypeDefinition} (ht : t ∈ g.schema.types)
    (hkind : t.kind = .object ∨ t.kind = .interface) :
    ∃ record, g.schema.ownership? t.name = some record ∧
      record.fields.map (·.name) = t.fields.map (·.name) ∧
      (∀ f ∈ record.fields,
        f.contributions ≠ [] ∧
        (f.contributions.map (·.service)).Pairwise (· < ·) ∧
        (∀ service ∈ services, ∀ external,
          (∃ c ∈ f.contributions, c.service = service.name ∧ c.isExternal = external) ↔
            ∃ d ∈ service.typeContributions, d.name = t.name ∧
              ∃ f' ∈ d.fields, f'.name = f.name ∧ f'.isExternal = external) ∧
        (record.isValueType = false ∨ t.name ∈ ["Query", "Mutation", "Subscription"] →
          (f.contributions.filter (!·.isExternal)).length = 1) ∧
        ∃ c, f.contributions.find? (!·.isExternal) = some c ∧
          g.schema.fieldOwner? t.name f.name = some c.service) ∧
      ∀ owner, record.owner = some owner ↔
        (services.filter (·.definesBase t.name)).map (·.name) = [owner] := by
  obtain ⟨s, hs, hnone, hschema, hall⟩ := exists_of_compose h
  obtain ⟨-, hmerge, hcomposed⟩ := Subgraphs.problems_eq_nil hnone
  rw [hschema] at ht ⊢
  obtain ⟨hn, -, hbody⟩ := Subgraphs.mem_types_composedSchema s ht
  have hproblems := Subgraphs.group_problems_eq_nil hmerge hn
  have hownership := Subgraphs.ownership?_composedSchema s hn
  have hone := TypeGroup.ofOneKind_eq_self hproblems
  rw [hone] at hbody hownership
  have hnames := Subgraphs.map_name_ownership hbody hkind
  have hnodup : ((s.group t.name).ownership.fields.map (·.name)).Nodup := by
    rw [hnames, TypeDefinition.fields, hbody]
    exact TypeGroup.nodup_map_name_fields _ _
  refine ⟨_, hownership, hnames, fun f hf => ?_, fun owner => owner?_iff hs hall hproblems⟩
  obtain ⟨ds, hds, hne, hpairwise, hcontributions, -⟩ :=
    Subgraphs.exists_of_mem_fieldOwnership hproblems hf
  have hfne : f.contributions ≠ [] := by
    rw [hcontributions]
    exact List.map_eq_nil_iff.not.mpr hne
  refine ⟨hfne, ?_, ?_, Subgraphs.length_resolvers hproblems hcomposed hn hf hfne,
    Subgraphs.exists_fieldOwner? hproblems hcomposed hn hnodup hf hfne⟩
  · rw [hcontributions, List.map_map]
    exact hpairwise
  · intro service hservice external
    have hmem : service.toSubgraph ∈ s.services := by
      rw [hs]
      exact List.mem_map_of_mem hservice
    have hiff := Subgraphs.exists_named_iff t.name f.name hmem external
    rw [hall service hservice] at hiff
    rw [← hiff, ← hds, hcontributions]
    simp [FieldDeclaration.contribution]

/-- Of two services, the one that does not mark a field as resolved elsewhere owns it. -/
theorem twoServices_unique_resolver :
    ∃ g, compose twoServices = .ok (.ok g) ∧
      ∃ t ∈ g.schema.types, t.name = "User" ∧ t.kind = .object ∧
        ∃ record, g.schema.ownership? t.name = some record ∧
          record.fields.map (·.name) = t.fields.map (·.name) ∧
          ∀ f ∈ record.fields, ∃ c, f.contributions.find? (!·.isExternal) = some c ∧
            g.schema.fieldOwner? t.name f.name = some c.service := by
  obtain ⟨g, hg, htypes⟩ := exists_compose_twoServices
  have huser : ("User", TypeKind.object) ∈ g.schema.types.map fun t => (t.name, t.kind) := by
    rw [htypes]
    decide
  obtain ⟨t, ht, heq⟩ := List.mem_map.mp huser
  obtain ⟨hname, hkind⟩ := Prod.mk.inj heq
  obtain ⟨record, hrecord, hnames, hfields, -⟩ := compose_unique_resolver hg ht (.inl hkind)
  exact ⟨g, hg, t, ht, hname, hkind, record, hrecord, hnames,
    fun f hf => (hfields f hf).2.2.2.2⟩

end Service

end Federation
