import Federation.Proofs.Composition.Agreement
import Mathlib
/-!
# Composition — nothing is lost and nothing is invented

A composed type holds what the services contribute to it: all the
interfaces, members, values and fields, each once and in the order in
which they are first read, by the names of services and then by their
places in the documents. `HoldsContributions` states this for one type,
and `compose_holds_contributions` for every type that services are
composed to.
-/

namespace Federation

open Declared

/-! ## What is contributed to a type -/

namespace Service

/-- What services contribute to a type, by the names of the services and then by the places in
their documents. -/
def contributions (services : List Service) (typeName : String) : List TypeDefinition :=
  (services.mergeSort fun a b => Text.stringLe a.name b.name).flatMap fun s =>
    s.typeContributions.filter (·.name == typeName)

theorem mem_contributions {services : List Service} {typeName : String} {c : TypeDefinition} :
    c ∈ contributions services typeName ↔
      ∃ service ∈ services, c ∈ service.typeContributions ∧ c.name = typeName := by
  simp [contributions]

end Service

namespace Subgraphs

/-- What the services contribute to a type. -/
def contributions (s : Subgraphs) (typeName : String) : List TypeDefinition :=
  s.inOrder.flatMap (definitionsOf typeName)

variable (s : Subgraphs) (typeName : String)

theorem map_node_group :
    (s.group typeName).map (·.node) = (s.contributions typeName).map Declaration.ofDefinition := by
  rw [group, map_node_collect, contributions, List.map_flatMap]

theorem map_node_fieldDeclarations :
    (s.group typeName).fieldDeclarations.map (·.node) =
      (s.contributions typeName).flatMap fun c => c.fields.map FieldDeclaration.ofField := by
  rw [fieldDeclarations_group, map_node_collect, contributions, List.flatMap_assoc]

theorem map_node_enumValues :
    (s.group typeName).enumValues.map (·.node) =
      (s.contributions typeName).flatMap (·.body.enumValues) := by
  rw [enumValues_group, map_node_collect, contributions, List.flatMap_assoc]

theorem map_node_inputFields :
    (s.group typeName).inputFields.map (·.node) =
      (s.contributions typeName).flatMap (·.body.inputFields) := by
  rw [inputFields_group, map_node_collect, contributions, List.flatMap_assoc]

theorem map_name_fieldDeclarations :
    (s.group typeName).fieldDeclarations.map (·.node.name) =
      (s.contributions typeName).flatMap fun c => c.fields.map (·.name) := by
  have h := congrArg (List.map FieldDeclaration.name) (s.map_node_fieldDeclarations typeName)
  rw [List.map_map, List.map_flatMap] at h
  simp only [List.map_map] at h
  exact h

theorem map_name_enumValues :
    (s.group typeName).enumValues.map (·.node.name) =
      (s.contributions typeName).flatMap fun c => c.body.enumValues.map (·.name) := by
  have h := congrArg (List.map EnumValue.name) (s.map_node_enumValues typeName)
  rw [List.map_map, List.map_flatMap] at h
  exact h

theorem map_name_inputFields :
    (s.group typeName).inputFields.map (·.node.name) =
      (s.contributions typeName).flatMap fun c => c.body.inputFields.map (·.name) := by
  have h := congrArg (List.map InputValue.name) (s.map_node_inputFields typeName)
  rw [List.map_map, List.map_flatMap] at h
  exact h

theorem flatMap_group {β : Type} (parts : TypeDefinition → List β) :
    ((s.group typeName).flatMap fun d => parts d.node.node) =
      (s.contributions typeName).flatMap parts := by
  have h := congrArg (List.flatMap fun d : Declaration => parts d.node) (s.map_node_group typeName)
  rw [List.flatMap_map, List.flatMap_map] at h
  exact h

variable {s} {typeName}

theorem exists_mem_group {c : TypeDefinition} (hc : c ∈ s.contributions typeName) :
    ∃ d ∈ s.group typeName, d.node = Declaration.ofDefinition c := by
  have h := List.mem_map_of_mem (f := Declaration.ofDefinition) hc
  rw [← map_node_group] at h
  exact List.mem_map.mp h

theorem exists_mem_fieldDeclarations {c : TypeDefinition} (hc : c ∈ s.contributions typeName)
    {f : Field} (hf : f ∈ c.fields) :
    ∃ d ∈ (s.group typeName).fieldDeclarations, d.node = FieldDeclaration.ofField f := by
  have h : FieldDeclaration.ofField f ∈ (s.group typeName).fieldDeclarations.map (·.node) := by
    rw [map_node_fieldDeclarations, List.mem_flatMap]
    exact ⟨c, hc, List.mem_map_of_mem hf⟩
  exact List.mem_map.mp h

theorem exists_mem_contributions_field {d : Declared FieldDeclaration}
    (hd : d ∈ (s.group typeName).fieldDeclarations) :
    ∃ c ∈ s.contributions typeName, ∃ f ∈ c.fields, d.node = FieldDeclaration.ofField f := by
  have h := List.mem_map_of_mem (f := Declared.node) hd
  rw [map_node_fieldDeclarations, List.mem_flatMap] at h
  obtain ⟨c, hc, hf⟩ := h
  obtain ⟨f, hf, hfd⟩ := List.mem_map.mp hf
  exact ⟨c, hc, f, hf, hfd.symm⟩

end Subgraphs

/-- A type holds exactly what contributions to it hold. Their kinds and the types of their members
are those of the type; names are listed once, where they first occur; and where no declaration of a
field repeats an argument, every argument of every declaration is on the field once. -/
structure TypeDefinition.HoldsContributions (t : TypeDefinition) (cs : List TypeDefinition) :
    Prop where
  kind : ∀ c ∈ cs, c.kind = t.kind
  implements : t.implements = (cs.flatMap (·.implements)).eraseDups
  members : t.body.members = (cs.flatMap (·.body.members)).eraseDups
  enumValues : t.body.enumValues.map (·.name) =
    (cs.flatMap fun c => c.body.enumValues.map (·.name)).eraseDups
  fields : t.fields.map (·.name) = (cs.flatMap fun c => c.fields.map (·.name)).eraseDups
  inputFields : t.body.inputFields.map (·.name) =
    (cs.flatMap fun c => c.body.inputFields.map (·.name)).eraseDups
  fieldTypes : ∀ f ∈ t.fields, ∀ c ∈ cs, ∀ f' ∈ c.fields, f'.name = f.name → f'.type = f.type
  inputFieldTypes : ∀ v ∈ t.body.inputFields, ∀ c ∈ cs, ∀ v' ∈ c.body.inputFields,
    v'.name = v.name → v'.type = v.type
  arguments : ∀ f ∈ t.fields,
    (∀ c ∈ cs, ∀ f' ∈ c.fields, f'.name = f.name → (f'.arguments.map (·.name)).Nodup) →
    ∀ c ∈ cs, ∀ f' ∈ c.fields, f'.name = f.name → ∀ a' ∈ f'.arguments,
      ∃ a, (f.arguments.filter (·.name == a'.name)) = [a] ∧ a'.type = a.type
  argumentOrigins : ∀ f ∈ t.fields, ∀ a ∈ f.arguments,
    ∃ c ∈ cs, ∃ f' ∈ c.fields, f'.name = f.name ∧ a ∈ f'.arguments

/-! ## Names -/

namespace TypeGroup

variable {g : TypeGroup} (isRepeatable : String → Bool)

/-- Declarations of one kind hold nothing that types of this kind do not hold. -/
theorem parts_eq_nil_of_kind {β : Type} (parts : TypeBody → List β)
    (hkind : ∀ d ∈ g, d.node.kind = g.kind) (h : ∀ b : TypeBody, b.kind = g.kind → parts b = []) :
    ∀ d ∈ g, parts d.node.node.body = [] :=
  fun d hd => h _ (hkind d hd)

theorem implements_body (hkind : ∀ d ∈ g, d.node.kind = g.kind) :
    (g.body isRepeatable).implements = distinct (g.flatMap (·.node.node.implements)) := by
  rw [body]
  cases hk : g.kind with
  | object => rfl
  | interface => rfl
  | _ =>
    have hnone : (g.flatMap (·.node.node.implements)) = [] := by
      refine List.flatMap_eq_nil_iff.mpr
        (parts_eq_nil_of_kind TypeBody.implements hkind fun b hb => ?_)
      rw [hk] at hb
      cases b <;> simp_all [TypeBody.kind, TypeBody.implements]
    rw [hnone]
    rfl

theorem members_body (hkind : ∀ d ∈ g, d.node.kind = g.kind) :
    (g.body isRepeatable).members = distinct (g.flatMap (·.node.node.body.members)) := by
  rw [body]
  cases hk : g.kind with
  | union => rfl
  | _ =>
    have hnone : (g.flatMap (·.node.node.body.members)) = [] := by
      refine List.flatMap_eq_nil_iff.mpr
        (parts_eq_nil_of_kind TypeBody.members hkind fun b hb => ?_)
      rw [hk] at hb
      cases b <;> simp_all [TypeBody.kind, TypeBody.members]
    rw [hnone]
    rfl

theorem map_name_enumValues_body (hkind : ∀ d ∈ g, d.node.kind = g.kind) :
    (g.body isRepeatable).enumValues.map (·.name) = distinct (g.enumValues.map (·.node.name)) := by
  rw [body]
  cases hk : g.kind with
  | enum => exact (EnumValue.keepsName_compose isRepeatable).map_name_composed _
  | _ =>
    have hnone : g.enumValues = [] := by
      refine List.flatMap_eq_nil_iff.mpr fun d hd => List.map_eq_nil_iff.mpr ?_
      refine parts_eq_nil_of_kind TypeBody.enumValues hkind (fun b hb => ?_) d hd
      rw [hk] at hb
      cases b <;> simp_all [TypeBody.kind, TypeBody.enumValues]
    rw [hnone]
    rfl

theorem map_name_inputFields_body (hkind : ∀ d ∈ g, d.node.kind = g.kind) :
    (g.body isRepeatable).inputFields.map (·.name) =
      distinct (g.inputFields.map (·.node.name)) := by
  rw [body]
  cases hk : g.kind with
  | inputObject => exact (InputValue.keepsName_compose isRepeatable).map_name_composed _
  | _ =>
    have hnone : g.inputFields = [] := by
      refine List.flatMap_eq_nil_iff.mpr fun d hd => List.map_eq_nil_iff.mpr ?_
      refine parts_eq_nil_of_kind TypeBody.inputFields hkind (fun b hb => ?_) d hd
      rw [hk] at hb
      cases b <;> simp_all [TypeBody.kind, TypeBody.inputFields]
    rw [hnone]
    rfl

theorem map_name_fields_body (hkind : ∀ d ∈ g, d.node.kind = g.kind)
    (hfields : ∀ d ∈ g, d.node.node.fields = [] → d.node.fields = []) :
    (g.body isRepeatable).fields.map (·.name) =
      distinct (g.fieldDeclarations.map (·.node.name)) := by
  rw [body]
  cases hk : g.kind with
  | object => exact map_name_fields isRepeatable g
  | interface => exact map_name_fields isRepeatable g
  | _ =>
    have hnone : g.fieldDeclarations = [] := by
      refine List.flatMap_eq_nil_iff.mpr fun d hd => List.map_eq_nil_iff.mpr (hfields d hd ?_)
      refine parts_eq_nil_of_kind TypeBody.fields hkind (fun b hb => ?_) d hd
      rw [hk] at hb
      cases b <;> simp_all [TypeBody.kind, TypeBody.fields]
    rw [hnone]
    rfl

/-! A composed member is composed from its declarations, whatever the kind of the type. -/

theorem mem_implements_of_body {n : String} (h : n ∈ (g.body isRepeatable).implements) :
    n ∈ g.implements := by
  rw [body] at h
  split at h
  case h_2 | h_3 => exact h
  all_goals cases h

theorem mem_members_of_body {n : String} (h : n ∈ (g.body isRepeatable).members) :
    n ∈ g.flatMap (·.node.node.body.members) := by
  rw [body] at h
  split at h
  case h_4 => exact mem_distinct.mp h
  all_goals cases h

theorem mem_fields_of_body {f : Field} (h : f ∈ (g.body isRepeatable).fields) :
    f ∈ g.fields isRepeatable := by
  rw [body] at h
  split at h
  case h_2 | h_3 => exact h
  all_goals cases h

theorem mem_inputFields_of_body {v : InputValue} (h : v ∈ (g.body isRepeatable).inputFields) :
    v ∈ (byMember InputValue.name g.inputFields).filterMap fun ds =>
      InputValue.compose? isRepeatable (firstPerService ds) := by
  rw [body] at h
  split at h
  case h_6 => exact h
  all_goals cases h

theorem mem_enumValues_of_body {v : EnumValue} (h : v ∈ (g.body isRepeatable).enumValues) :
    v ∈ (byMember EnumValue.name g.enumValues).filterMap fun ds =>
      EnumValue.compose? isRepeatable (firstPerService ds) := by
  rw [body] at h
  split at h
  case h_5 => exact h
  all_goals cases h

end TypeGroup

/-! ## Members -/

namespace Subgraphs

variable {s : Subgraphs} {typeName : String} {isRepeatable : String → Bool}

/-- **A composed field comes from its declarations**: the type is that of any, and the arguments
are those of one with the new ones of all. -/
theorem exists_of_mem_fields (h : (s.group typeName).problems isRepeatable = []) {f : Field}
    (hf : f ∈ (s.group typeName).fields isRepeatable) :
    ∃ c ∈ named FieldDeclaration.name f.name (s.group typeName).fieldDeclarations,
      f.type = c.node.node.type ∧
      f.arguments = addMembers InputValue.name c.node.node.arguments
        ((named FieldDeclaration.name f.name (s.group typeName).fieldDeclarations).flatMap
          (·.node.node.arguments)) ∧
      FieldDeclaration.problems isRepeatable (s.group typeName).name (s.group typeName).isShared
        (named FieldDeclaration.name f.name (s.group typeName).fieldDeclarations) = [] := by
  obtain ⟨d, hd, hname, hcompose⟩ :=
    (FieldDeclaration.keepsName_compose isRepeatable).compose_named hf fun _ hd =>
      FieldDeclaration.nodup_rank_of_problems (field_problems_eq_nil h hd)
  have hproblems := field_problems_eq_nil h hd
  rw [hname] at hproblems
  obtain ⟨c, hc, f', hf', -, htype, harguments⟩ := FieldDeclaration.exists_compose isRepeatable
    (named_ne_nil (List.mem_map.mpr ⟨d, hd, hname⟩))
  obtain rfl := Option.some.inj (hcompose.symm.trans hf')
  exact ⟨c, hc, htype, harguments, hproblems⟩

/-- A contributed field is among the declarations of its name. -/
theorem exists_mem_named {c : TypeDefinition} (hc : c ∈ s.contributions typeName) {f : Field}
    (hf : f ∈ c.fields) :
    ∃ d ∈ named FieldDeclaration.name f.name (s.group typeName).fieldDeclarations,
      d.node.node = f := by
  obtain ⟨d, hd, hnode⟩ := exists_mem_fieldDeclarations hc hf
  have hmem := mem_named_self FieldDeclaration.name hd
  rw [hnode] at hmem
  exact ⟨d, hmem, by rw [hnode]; rfl⟩

theorem exists_contribution_of_named {n : String} {d : Declared FieldDeclaration}
    (hd : d ∈ named FieldDeclaration.name n (s.group typeName).fieldDeclarations) :
    ∃ c ∈ s.contributions typeName, d.node.node ∈ c.fields ∧ d.node.node.name = n := by
  obtain ⟨c, hc, f, hf, hnode⟩ := exists_mem_contributions_field (List.mem_filter.mp hd).1
  exact ⟨c, hc, by rw [hnode]; exact hf, name_of_mem_named hd⟩

/-- An argument of a composed field is one of a declaration of the field. -/
theorem exists_named_of_mem_arguments (h : (s.group typeName).problems isRepeatable = [])
    {f : Field} (hf : f ∈ (s.group typeName).fields isRepeatable) {a : InputValue}
    (ha : a ∈ f.arguments) :
    ∃ d ∈ named FieldDeclaration.name f.name (s.group typeName).fieldDeclarations,
      a ∈ d.node.node.arguments := by
  obtain ⟨canonical, hcanonical, -, harguments, -⟩ := exists_of_mem_fields h hf
  rw [harguments] at ha
  obtain hfrom | hfrom := mem_addMembers _ ha
  · exact ⟨canonical, hcanonical, hfrom⟩
  · exact List.mem_flatMap.mp hfrom

/-- **Every argument of every declaration is on the composed field once**, with its type, where no
declaration repeats an argument. -/
theorem argument_of_mem_fields (h : (s.group typeName).problems isRepeatable = []) {f : Field}
    (hf : f ∈ (s.group typeName).fields isRepeatable)
    (hnodup : ∀ c ∈ s.contributions typeName, ∀ f' ∈ c.fields, f'.name = f.name →
      (f'.arguments.map (·.name)).Nodup)
    {c : TypeDefinition} (hc : c ∈ s.contributions typeName) {f' : Field} (hf' : f' ∈ c.fields)
    (hname : f'.name = f.name) {a' : InputValue} (ha' : a' ∈ f'.arguments) :
    ∃ a, (f.arguments.filter (·.name == a'.name)) = [a] ∧ a'.type = a.type := by
  obtain ⟨canonical, hcanonical, -, harguments, hproblems⟩ := exists_of_mem_fields h hf
  have hnodup' : ∀ d ∈ named FieldDeclaration.name f.name (s.group typeName).fieldDeclarations,
      (d.node.node.arguments.map (·.name)).Nodup := by
    intro d hd
    obtain ⟨c, hc, hmem, hn⟩ := exists_contribution_of_named hd
    exact hnodup c hc _ hmem hn
  -- where names are different, an argument is the one that its name finds
  have hfind : ∀ d ∈ named FieldDeclaration.name f.name (s.group typeName).fieldDeclarations,
      ∀ a ∈ d.node.node.arguments, d.node.node.argument? a.name = some a := by
    intro d hd a ha
    rw [Field.argument?, ← List.head?_filter, filter_eq_singleton (hnodup' d hd) ha,
      List.head?_cons]
  obtain ⟨d, hd, hdf⟩ := exists_mem_named hc hf'
  rw [hname] at hd
  have hmem : a' ∈ d.node.node.arguments := by
    rw [hdf]
    exact ha'
  have hdeclared : a' ∈ (named FieldDeclaration.name f.name
      (s.group typeName).fieldDeclarations).flatMap (·.node.node.arguments) :=
    List.mem_flatMap.mpr ⟨d, hd, hmem⟩
  obtain ⟨a, ha, haname⟩ := exists_mem_addMembers InputValue.name
    canonical.node.node.arguments (.inr hdeclared)
  refine ⟨a, ?_, ?_⟩
  · rw [← haname, harguments]
    exact filter_eq_singleton (nodup_addMembers _ (hnodup' _ hcanonical)) ha
  · rw [← harguments] at ha
    obtain ⟨e, he, hae⟩ := exists_named_of_mem_arguments h hf ha
    refine FieldDeclaration.argument_type_eq_of_problems hproblems hd he ?_ (hfind e he a hae)
    rw [haname]
    exact hfind d hd a' hmem

/-- Every declaration of a composed field has its type. -/
theorem type_of_mem_fields (h : (s.group typeName).problems isRepeatable = []) {f : Field}
    (hf : f ∈ (s.group typeName).fields isRepeatable) {c : TypeDefinition}
    (hc : c ∈ s.contributions typeName) {f' : Field} (hf' : f' ∈ c.fields)
    (hname : f'.name = f.name) : f'.type = f.type := by
  obtain ⟨canonical, hcanonical, htype, -, hproblems⟩ := exists_of_mem_fields h hf
  obtain ⟨d, hd, rfl⟩ := exists_mem_named hc hf'
  rw [hname] at hd
  rw [htype]
  exact FieldDeclaration.type_eq_of_problems hproblems hd hcanonical

/-- Every declaration of a composed input field has its type. -/
theorem type_of_mem_inputFields (h : (s.group typeName).problems isRepeatable = [])
    {v : InputValue} (hv : v ∈ ((s.group typeName).body isRepeatable).inputFields)
    {c : TypeDefinition} (hc : c ∈ s.contributions typeName) {v' : InputValue}
    (hv' : v' ∈ c.body.inputFields) (hname : v'.name = v.name) : v'.type = v.type := by
  obtain ⟨-, -, -, hcompose⟩ := (InputValue.keepsName_compose isRepeatable).compose_named
    (TypeGroup.mem_inputFields_of_body isRepeatable hv) fun _ hd =>
      InputValue.nodup_rank_of_problems (inputField_problems_eq_nil h hd)
  have hmem : v' ∈ (s.group typeName).inputFields.map (·.node) := by
    rw [map_node_inputFields, List.mem_flatMap]
    exact ⟨c, hc, hv'⟩
  obtain ⟨d, hd, rfl⟩ := List.mem_map.mp hmem
  have hproblems := inputField_problems_eq_nil h hd
  have hdnamed := mem_named_self InputValue.name hd
  rw [hname] at hproblems hdnamed
  obtain ⟨first, hfirst, hv⟩ := Option.map_eq_some_iff.mp hcompose
  have htype : first.node.type = v.type := by
    rw [← hv]
  rw [← htype]
  exact InputValue.type_eq_of_problems hproblems hdnamed (List.mem_of_mem_head? hfirst)

/-- **A type that is composed without problems holds what is contributed to it.** -/
theorem holdsContributions {t : TypeDefinition} (h : (s.group typeName).problems isRepeatable = [])
    (ht : t.body = (s.group typeName).body isRepeatable) :
    t.HoldsContributions (s.contributions typeName) := by
  have hkind : ∀ d ∈ s.group typeName, d.node.kind = (s.group typeName).kind :=
    fun d hd => TypeGroup.kind_of_problems h hd
  refine { kind := ?_, implements := ?_, members := ?_, enumValues := ?_, fields := ?_,
           inputFields := ?_, fieldTypes := ?_, inputFieldTypes := ?_, arguments := ?_,
           argumentOrigins := ?_ }
  · intro c hc
    obtain ⟨d, hd, hnode⟩ := exists_mem_group hc
    have hdkind := hkind d hd
    rw [hnode] at hdkind
    have htkind : t.kind = (s.group typeName).kind := by
      rw [TypeDefinition.kind, ht, TypeGroup.kind_body]
    rw [htkind, ← hdkind]
    rfl
  · rw [TypeDefinition.implements, ht, TypeGroup.implements_body isRepeatable hkind,
      distinct_eq_eraseDups, flatMap_group s typeName TypeDefinition.implements]
  · rw [ht, TypeGroup.members_body isRepeatable hkind, distinct_eq_eraseDups,
      flatMap_group s typeName fun c => c.body.members]
  · rw [ht, TypeGroup.map_name_enumValues_body isRepeatable hkind, distinct_eq_eraseDups,
      map_name_enumValues]
  · have hfields : ∀ d ∈ s.group typeName, d.node.node.fields = [] → d.node.fields = [] := by
      intro d hd hnone
      obtain ⟨c, hc, -⟩ := exists_of_mem_group hd
      rw [hc] at hnone ⊢
      exact List.map_eq_nil_iff.mpr hnone
    rw [TypeDefinition.fields, ht, TypeGroup.map_name_fields_body isRepeatable hkind hfields,
      distinct_eq_eraseDups, map_name_fieldDeclarations]
  · rw [ht, TypeGroup.map_name_inputFields_body isRepeatable hkind, distinct_eq_eraseDups,
      map_name_inputFields]
  · intro f hf c hc f' hf' hname
    rw [TypeDefinition.fields, ht] at hf
    exact type_of_mem_fields h (TypeGroup.mem_fields_of_body isRepeatable hf) hc hf' hname
  · intro v hv c hc v' hv' hname
    rw [ht] at hv
    exact type_of_mem_inputFields h hv hc hv' hname
  · intro f hf hnodup c hc f' hf' hname a' ha'
    rw [TypeDefinition.fields, ht] at hf
    exact argument_of_mem_fields h (TypeGroup.mem_fields_of_body isRepeatable hf) hnodup hc hf'
      hname ha'
  · intro f hf a ha
    rw [TypeDefinition.fields, ht] at hf
    obtain ⟨e, he, hae⟩ :=
      exists_named_of_mem_arguments h (TypeGroup.mem_fields_of_body isRepeatable hf) ha
    obtain ⟨c, hc, hmem, hn⟩ := exists_contribution_of_named he
    exact ⟨c, hc, _, hmem, hn, hae⟩

/-! ## Services -/

theorem inOrder_of_services {services : List Service}
    (h : s.services = services.map Service.toSubgraph) :
    s.inOrder =
      (services.mergeSort fun a b => Text.stringLe a.name b.name).map Service.toSubgraph := by
  have hsort := List.map_mergeSort (f := Service.toSubgraph) (l := services)
    (r := fun a b => Text.stringLe a.name b.name)
    (s := fun a b => Text.stringLe a.name b.name) fun _ _ _ _ => rfl
  rw [inOrder, h, hsort]

theorem contributions_of_services {services : List Service}
    (h : s.services = services.map Service.toSubgraph)
    (hall : ∀ service ∈ services, service.toSubgraph.typeDefinitions = service.typeContributions) :
    s.contributions typeName = Service.contributions services typeName := by
  rw [contributions, inOrder_of_services h, List.flatMap_map, Service.contributions]
  refine List.flatMap_congr fun service hservice => ?_
  rw [definitionsOf, hall service (List.mem_mergeSort.mp hservice)]

/-- The names that are composed are those that services contribute. -/
theorem mem_typeNames_of_services {services : List Service}
    (h : s.services = services.map Service.toSubgraph)
    (hall : ∀ service ∈ services, service.toSubgraph.typeDefinitions = service.typeContributions) :
    typeName ∈ s.typeNames ↔
      ∃ service ∈ services, ∃ c ∈ service.typeContributions, c.name = typeName := by
  simp only [mem_typeNames, h, List.mem_map, exists_exists_and_eq_and]
  exact exists_congr fun service => and_congr_right fun hservice => by rw [hall service hservice]

end Subgraphs

namespace Service

/-- **Composition loses nothing and invents nothing.** The types have the names that services
define or extend, each once and in order, but for the types that only a router uses; and each type
holds what services contribute to it. -/
theorem compose_holds_contributions {services : List Service} {g : Supergraph}
    (h : compose services = .ok (.ok g)) :
    (g.schema.types.map (·.name)).Pairwise (· < ·) ∧
    (∀ n, n ∈ g.schema.types.map (·.name) ↔
      n ∉ ["_Service", "_Entity", "_Any", "_FieldSet"] ∧
        ∃ s ∈ services, ∃ d ∈ s.document.typeDefinitions,
          RootRename.name s.document.rootRenames d.name = n) ∧
    ∀ t ∈ g.schema.types, t.HoldsContributions (contributions services t.name) := by
  obtain ⟨s, hs, hnone, hschema, hall⟩ := exists_of_compose h
  obtain ⟨-, hmerge, -⟩ := Subgraphs.problems_eq_nil hnone
  rw [hschema, Subgraphs.map_name_composedSchema]
  refine ⟨s.pairwise_typeNames, fun n => ?_, fun t ht => ?_⟩
  · rw [Subgraphs.mem_typeNames, hs]
    constructor
    · rintro ⟨_, hmem, d, hd, rfl⟩
      obtain ⟨service, hservice, rfl⟩ := List.mem_map.mp hmem
      rw [hall service hservice] at hd
      obtain ⟨hmem, hrouter⟩ := List.mem_filter.mp hd
      obtain ⟨written, hwritten, rfl⟩ := List.mem_map.mp hmem
      exact ⟨by simpa [Subgraph.routerTypes] using hrouter, service, hservice, written, hwritten,
        rfl⟩
    · rintro ⟨hrouter, service, hservice, d, hd, rfl⟩
      refine ⟨_, List.mem_map_of_mem hservice,
        RootRename.definition service.document.rootRenames d, ?_, rfl⟩
      rw [hall service hservice]
      refine List.mem_filter.mpr ⟨List.mem_map_of_mem hd, ?_⟩
      simpa [Subgraph.routerTypes, RootRename.definition] using hrouter
  · obtain ⟨hn, -, hbody⟩ := Subgraphs.mem_types_composedSchema s ht
    have hproblems := Subgraphs.group_problems_eq_nil hmerge hn
    rw [TypeGroup.ofOneKind_eq_self hproblems] at hbody
    rw [← Subgraphs.contributions_of_services hs hall]
    exact Subgraphs.holdsContributions hproblems hbody

/-! ### Two services

An example for what holds of services that are composed: the service `b` defines the root type and
`User`, the service `a` extends `User`, and both define `Page`. -/

/-- Services without a problem are composed, to what their declarations make. -/
theorem exists_compose {services : List Service} {α : Type} (view : Schema → α) {a : α}
    (h : (Subgraphs.ofServices services).toOption.map (fun s =>
      (s.allProblems, view s.composedSchema.1)) = some ([], a)) :
    ∃ g, compose services = .ok (.ok g) ∧ view g.schema = a := by
  cases hs : Subgraphs.ofServices services with
  | error e =>
    rw [hs] at h
    cases h
  | ok s =>
    rw [hs] at h
    obtain ⟨hnone, hview⟩ := Prod.mk.inj (Option.some.inj h)
    refine ⟨{ schema := s.composedSchema.1
              document := Supergraph.annotated s.composedSchema.1 s.graphs }, ?_, hview⟩
    rw [compose, hs, Except.map, Subgraphs.compose_of_eq_nil hnone]

/-- A type that both services define. -/
def page : TypeDefinition :=
  { name := "Page", body := .object { fields := [{ name := "next", type := .named "Int" }] } }

/-- Two services, in the other order than that of their names. -/
def twoServices : List Service :=
  [{ name := "b"
     document :=
       ⟨[.type
           { name := "Query"
             body := .object { fields := [{ name := "me", type := .named "User" }] } },
         .type
           { name := "User"
             body := .object { fields := [{ name := "id", type := .named "ID" }] } },
         .type page]⟩ },
   { name := "a"
     document :=
       ⟨[.type page,
         .type
           { name := "User"
             isExtension := true
             body := .object
               { fields :=
                   [{ name := "reviews"
                      arguments := [{ name := "first", type := .named "Int" }]
                      type := .list (.named "String") },
                    { name := "id"
                      type := .named "ID"
                      directives := [{ name := FederationDirective.externalName }] }] } }]⟩ }]

theorem exists_compose_twoServices :
    ∃ g, compose twoServices = .ok (.ok g) ∧
      (g.schema.types.map fun t => (t.name, t.kind)) =
        [("Page", .object), ("Query", .object), ("User", .object)] :=
  exists_compose (fun s => s.types.map fun t => (t.name, t.kind)) (by cbv)

/-- A type that one of two services extends holds what both contribute. -/
theorem twoServices_holds_contributions :
    ∃ g, compose twoServices = .ok (.ok g) ∧
      ∃ t ∈ g.schema.types, t.name = "User" ∧
        t.HoldsContributions (contributions twoServices t.name) := by
  obtain ⟨g, hg, htypes⟩ := exists_compose_twoServices
  have huser : ("User", TypeKind.object) ∈ g.schema.types.map fun t => (t.name, t.kind) := by
    rw [htypes]
    decide
  obtain ⟨t, ht, heq⟩ := List.mem_map.mp huser
  exact ⟨g, hg, t, ht, (Prod.mk.inj heq).1, (compose_holds_contributions hg).2.2 t ht⟩

end Service

end Federation
