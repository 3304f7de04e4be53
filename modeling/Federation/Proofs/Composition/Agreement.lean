import Federation.Proofs.Composition.Composed
/-!
# Composition — what services agree about

What holds of the declarations of one type when composition finds
nothing wrong with them. They are all of one kind, and each service has
one base definition at most. Each service declares a member once, all
declarations of a member give it one type, and so with its arguments;
where a field is not shared, one declaration at most resolves it.
-/

namespace Federation

open Declared

/-! ## Members -/

namespace FieldDeclaration

variable {isRepeatable : String → Bool} {typeName : String} {isShared : Bool}
variable {all : List (Declared FieldDeclaration)}

/-- Each service declares the field once. -/
theorem nodup_rank_of_problems (h : problems isRepeatable typeName isShared all = []) :
    (all.map (·.rank)).Nodup := by
  simp only [problems, List.append_eq_nil_iff] at h
  exact nodup_rank_of_repetitionProblems h.1.1.1.1

/-- **All services give a field one type.** -/
theorem type_eq_of_problems (h : problems isRepeatable typeName isShared all = [])
    {d e : Declared FieldDeclaration} (hd : d ∈ all) (he : e ∈ all) :
    d.node.node.type = e.node.node.type := by
  have hrank := nodup_rank_of_problems h
  simp only [problems, List.append_eq_nil_iff, firstPerService_eq_self hrank] at h
  exact agree_of_typeProblems h.1.1.1.2 (d.service, d.node.node.type) (List.mem_map_of_mem hd)
    (e.service, e.node.node.type) (List.mem_map_of_mem he)

/-- **All services give an argument of a field one type.** Of arguments that share a name in one
declaration, the first counts. -/
theorem argument_type_eq_of_problems (h : problems isRepeatable typeName isShared all = [])
    {d e : Declared FieldDeclaration} (hd : d ∈ all) (he : e ∈ all) {a b : InputValue}
    (ha : d.node.node.argument? b.name = some a) (hb : e.node.node.argument? b.name = some b) :
    a.type = b.type := by
  have hrank := nodup_rank_of_problems h
  simp only [problems, List.append_eq_nil_iff, firstPerService_eq_self hrank] at h
  have hname : b.name ∈ distinct (all.flatMap fun d => d.node.node.arguments.map (·.name)) := by
    rw [mem_distinct, List.mem_flatMap]
    exact ⟨e, he, List.mem_map_of_mem (List.mem_of_find?_eq_some hb)⟩
  have hagree := agree_of_typeProblems
    ((List.flatMap_eq_nil_iff.mp (show argumentProblems _ all = [] from h.1.1.2)) _ hname)
  refine hagree (d.service, a.type) ?_ (e.service, b.type) ?_
  · exact List.mem_filterMap.mpr ⟨d, hd, by rw [ha]; rfl⟩
  · exact List.mem_filterMap.mpr ⟨e, he, by rw [hb]; rfl⟩

/-- **A field that is not shared is resolved once at most.** -/
theorem resolving_of_problems (h : problems isRepeatable typeName false all = []) :
    (resolving all).length ≤ 1 := by
  have hrank := nodup_rank_of_problems h
  have hagree : agree (typesOf (·.node.type) all) = true := by
    rw [agree_iff]
    intro a ha b hb
    obtain ⟨d, hd, rfl⟩ := List.mem_map.mp ha
    obtain ⟨e, he, rfl⟩ := List.mem_map.mp hb
    exact type_eq_of_problems h hd he
  simp only [problems, List.append_eq_nil_iff, firstPerService_eq_self hrank, Bool.false_eq_true,
    if_false] at h
  have hresolver := h.1.2
  -- several resolvers are only passed over where their types disagree, which is a problem before
  by_contra hmany
  rw [resolverProblems, hagree, Bool.true_and, if_pos (by simpa using hmany)] at hresolver
  cases hresolver

end FieldDeclaration

namespace InputValue

variable {isRepeatable : String → Bool} {typeName : String} {all : List (Declared InputValue)}

theorem nodup_rank_of_problems (h : problems isRepeatable typeName all = []) :
    (all.map (·.rank)).Nodup := by
  simp only [problems, List.append_eq_nil_iff] at h
  exact nodup_rank_of_repetitionProblems h.1.1

/-- **All services give an input field one type.** -/
theorem type_eq_of_problems (h : problems isRepeatable typeName all = [])
    {d e : Declared InputValue} (hd : d ∈ all) (he : e ∈ all) : d.node.type = e.node.type := by
  have hrank := nodup_rank_of_problems h
  simp only [problems, List.append_eq_nil_iff, firstPerService_eq_self hrank] at h
  exact agree_of_typeProblems h.1.2 (d.service, d.node.type) (List.mem_map_of_mem hd)
    (e.service, e.node.type) (List.mem_map_of_mem he)

end InputValue

namespace EnumValue

theorem nodup_rank_of_problems {isRepeatable : String → Bool} {typeName : String}
    {all : List (Declared EnumValue)} (h : problems isRepeatable typeName all = []) :
    (all.map (·.rank)).Nodup := by
  simp only [problems, List.append_eq_nil_iff] at h
  exact nodup_rank_of_repetitionProblems h.1

end EnumValue

/-! ## Types -/

namespace TypeGroup

variable {isRepeatable : String → Bool} {g : TypeGroup}

/-- **The declarations of a type are of one kind.** -/
theorem kind_of_problems (h : g.problems isRepeatable = []) {d : Declared Declaration}
    (hd : d ∈ g) : d.node.kind = g.kind := by
  have hkind := (List.append_eq_nil_iff.mp h).1
  have hall : g.all (·.node.kind == g.kind) = true := by
    by_contra hne
    simp [kindProblems, hne] at hkind
  exact beq_iff_eq.mp (List.all_eq_true.mp hall d hd)

theorem ofOneKind_eq_self (h : g.problems isRepeatable = []) : g.ofOneKind = g :=
  List.filter_eq_self.mpr fun _ hd => beq_iff_eq.mpr (kind_of_problems h hd)

theorem problemsOfOneKind_eq_nil (h : g.problems isRepeatable = []) :
    g.problemsOfOneKind isRepeatable = [] := by
  have hone := (List.append_eq_nil_iff.mp h).2
  rwa [ofOneKind_eq_self h] at hone

theorem memberProblems_eq_nil (h : g.problems isRepeatable = []) :
    g.memberProblems isRepeatable = [] := by
  have hone := problemsOfOneKind_eq_nil h
  simp only [problemsOfOneKind, List.append_eq_nil_iff] at hone
  exact hone.1.2

/-- **Each service has one base definition at most**, so the base declarations are the bases. -/
theorem nodup_rank_baseDeclarations (h : g.problems isRepeatable = []) :
    (g.baseDeclarations.map (·.rank)).Nodup := by
  have hone := problemsOfOneKind_eq_nil h
  simp only [problemsOfOneKind, List.append_eq_nil_iff] at hone
  exact nodup_rank_of_repeatedByService (List.map_eq_nil_iff.mp hone.1.1.1.1)

theorem bases_eq (h : g.problems isRepeatable = []) : g.bases = g.baseDeclarations :=
  firstPerService_eq_self (nodup_rank_baseDeclarations h)

/-- Several definitions of a type make it a value type. -/
theorem hasConflictingBases_eq_false (h : g.problems isRepeatable = []) :
    g.hasConflictingBases = false := by
  have hone := problemsOfOneKind_eq_nil h
  simp only [problemsOfOneKind, List.append_eq_nil_iff] at hone
  have hconflict := hone.1.1.1.2
  by_contra hne
  simp [conflictingBaseProblems, hne] at hconflict

end TypeGroup

namespace Subgraphs

variable {s : Subgraphs} {typeName : String} {isRepeatable : String → Bool}

theorem exists_of_mem_group {d : Declared Declaration} (h : d ∈ s.group typeName) :
    ∃ t, d.node = Declaration.ofDefinition t ∧ t.name = typeName := by
  obtain ⟨g, -, -, hnode⟩ := mem_collect h
  obtain ⟨t, ht, htd⟩ := List.mem_map.mp hnode
  exact ⟨t, htd.symm, beq_iff_eq.mp (List.mem_filter.mp ht).2⟩

/-- A part of a type that is composed without problems is part of a definition of its kind. -/
theorem exists_definition_of_mem_parts {β : Type} {f : Declaration → List β}
    (h : (s.group typeName).problems isRepeatable = []) {d : Declared β}
    (hd : d ∈ (s.group typeName).flatMap fun d => (f d.node).map fun b => d.map fun _ => b) :
    ∃ t : TypeDefinition, t.kind = (s.group typeName).kind ∧
      d.node ∈ f (Declaration.ofDefinition t) := by
  obtain ⟨e, he, hde⟩ := List.mem_flatMap.mp hd
  obtain ⟨b, hb, rfl⟩ := List.mem_map.mp hde
  obtain ⟨t, ht, -⟩ := exists_of_mem_group he
  have hkind := TypeGroup.kind_of_problems h he
  rw [ht] at hb hkind
  exact ⟨t, hkind, hb⟩

/-- Only objects and interfaces have fields, so where a field is declared it is checked. -/
theorem field_problems_eq_nil (h : (s.group typeName).problems isRepeatable = [])
    {d : Declared FieldDeclaration} (hd : d ∈ (s.group typeName).fieldDeclarations) :
    FieldDeclaration.problems isRepeatable (s.group typeName).name (s.group typeName).isShared
      (named FieldDeclaration.name d.node.name (s.group typeName).fieldDeclarations) = [] := by
  have hmember := TypeGroup.memberProblems_eq_nil h
  obtain ⟨t, hkind, hf⟩ := exists_definition_of_mem_parts h hd
  have hall : (s.group typeName).fieldGroups.flatMap (FieldDeclaration.problems isRepeatable
      (s.group typeName).name (s.group typeName).isShared) = [] := by
    rw [TypeGroup.memberProblems, ← hkind] at hmember
    cases hbody : t.body with
    | object b => simpa [TypeDefinition.kind, hbody, TypeBody.kind] using hmember
    | interface b => simpa [TypeDefinition.kind, hbody, TypeBody.kind] using hmember
    | _ =>
      simp [Declaration.ofDefinition, TypeDefinition.fields, hbody, TypeBody.fields] at hf
  exact List.flatMap_eq_nil_iff.mp hall _
    (named_mem_byMember FieldDeclaration.name (List.mem_map_of_mem hd))

/-- Only input objects have input fields, so where an input field is declared it is checked. -/
theorem inputField_problems_eq_nil (h : (s.group typeName).problems isRepeatable = [])
    {d : Declared InputValue} (hd : d ∈ (s.group typeName).inputFields) :
    InputValue.problems isRepeatable (s.group typeName).name
      (named InputValue.name d.node.name (s.group typeName).inputFields) = [] := by
  have hmember := TypeGroup.memberProblems_eq_nil h
  obtain ⟨t, hkind, hv⟩ := exists_definition_of_mem_parts (f := (·.node.body.inputFields)) h hd
  have hall : (byMember InputValue.name (s.group typeName).inputFields).flatMap
      (InputValue.problems isRepeatable (s.group typeName).name) = [] := by
    rw [TypeGroup.memberProblems, ← hkind] at hmember
    cases hbody : t.body with
    | inputObject fields => simpa [TypeDefinition.kind, hbody, TypeBody.kind] using hmember
    | _ => simp [Declaration.ofDefinition, hbody, TypeBody.inputFields] at hv
  exact List.flatMap_eq_nil_iff.mp hall _
    (named_mem_byMember InputValue.name (List.mem_map_of_mem hd))

/-- Only enumerations have values, so where a value is declared it is checked. -/
theorem enumValue_problems_eq_nil (h : (s.group typeName).problems isRepeatable = [])
    {d : Declared EnumValue} (hd : d ∈ (s.group typeName).enumValues) :
    EnumValue.problems isRepeatable (s.group typeName).name
      (named EnumValue.name d.node.name (s.group typeName).enumValues) = [] := by
  have hmember := TypeGroup.memberProblems_eq_nil h
  obtain ⟨t, hkind, hv⟩ := exists_definition_of_mem_parts (f := (·.node.body.enumValues)) h hd
  have hall : (byMember EnumValue.name (s.group typeName).enumValues).flatMap
      (EnumValue.problems isRepeatable (s.group typeName).name) = [] := by
    rw [TypeGroup.memberProblems, ← hkind] at hmember
    cases hbody : t.body with
    | enum values => simpa [TypeDefinition.kind, hbody, TypeBody.kind] using hmember
    | _ => simp [Declaration.ofDefinition, hbody, TypeBody.enumValues] at hv
  exact List.flatMap_eq_nil_iff.mp hall _
    (named_mem_byMember EnumValue.name (List.mem_map_of_mem hd))

end Subgraphs

end Federation
