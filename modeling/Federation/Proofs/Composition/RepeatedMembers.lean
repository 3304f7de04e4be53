import Federation.Proofs.Composition.Content
import Federation.Proofs.Composition.DroppedServices
/-!
# Composition — members that are declared more than once

A service that declares a member of a type more than once is reported
once, however its declarations are spread over definitions and
extensions (`countP_diagnostics`). The declarations of a member come
service by service, so the report is made where a service has more than
one of them (`countP_repeatedByService`), at the member and of the
service; no other check, at no other stage, reports a member of a type
as a duplicate of one service.
-/

namespace Federation

open Declared Diagnostic

namespace Diagnostic

/-- A report that a service repeats a member of a type: an error of the kind of duplicate
definitions, with the type, the member and the service. -/
def repeats (typeName name service : String) (d : Diagnostic) : Bool :=
  decide (d.kind = .duplicateTypeDefinition ∧ d.coordinate.typeName? = some typeName ∧
    d.coordinate.fieldName? = some name ∧ d.service = some service)

variable {typeName name service : String} {ds : List Diagnostic}

theorem countP_repeats_of_kinds (h : OfKinds (· ≠ .duplicateTypeDefinition) ds) :
    ds.countP (repeats typeName name service) = 0 := by
  refine List.countP_eq_zero.mpr fun d hd hrepeats => ?_
  exact h d hd (of_decide_eq_true hrepeats).1

theorem countP_repeats_of_type (h : ∀ d ∈ ds, d.coordinate.fieldName? = none) :
    ds.countP (repeats typeName name service) = 0 := by
  refine List.countP_eq_zero.mpr fun d hd hrepeats => ?_
  have hfield := (of_decide_eq_true hrepeats).2.2.1
  rw [h d hd] at hfield
  cases hfield

theorem countP_repeats_of_service (h : ∀ d ∈ ds, d.service = none) :
    ds.countP (repeats typeName name service) = 0 := by
  refine List.countP_eq_zero.mpr fun d hd hrepeats => ?_
  have hservice := (of_decide_eq_true hrepeats).2.2.2
  rw [h d hd] at hservice
  cases hservice

end Diagnostic

/-- Only the part under one key counts, where keys are distinct. -/
theorem countP_flatMap_of_nodup {α β : Type} [DecidableEq α] {p : β → Bool} {f : α → List β}
    {b : α} {as : List α} (hnodup : as.Nodup) (h : ∀ a ∈ as, a ≠ b → (f a).countP p = 0) :
    (as.flatMap f).countP p = if b ∈ as then (f b).countP p else 0 := by
  induction as with
  | nil => rfl
  | cons a as ih =>
    obtain ⟨hnew, hnodup⟩ := List.nodup_cons.mp hnodup
    have hrest := ih hnodup fun c hc => h c (List.mem_cons_of_mem a hc)
    rw [List.flatMap_cons, List.countP_append, hrest]
    by_cases ha : a = b
    · subst ha
      simp [hnew]
    · rw [h a List.mem_cons_self ha, Nat.zero_add]
      simp [Ne.symm ha]

/-! ## One member -/

namespace Declared

variable {α : Type} {ds : List (Declared α)}

/-- Rank and name tell the same services apart, in whatever order. -/
theorem Ordered.rank_eq_iff (h : Ordered ds) {d e : Declared α} (hd : d ∈ ds) (he : e ∈ ds) :
    d.rank = e.rank ↔ d.service = e.service := by
  have hsymm : Std.Symm fun a b : Declared α => a.rank = b.rank ↔ a.service = b.service :=
    ⟨fun a b hab => by rw [eq_comm, hab, eq_comm]⟩
  by_cases hde : d = e
  · rw [hde]
    exact iff_of_true rfl rfl
  · exact (h.imp fun hab => hab.2).forall hd he hde

/-- **A service that has several declarations is listed once**, and another one is not. -/
theorem countP_repeatedByService (h : Ordered ds) (service : String) :
    (repeatedByService ds).countP (·.service == service) =
      if 1 < ds.countP (·.service == service) then 1 else 0 := by
  by_cases hnone : ∃ d ∈ ds, d.service = service
  · obtain ⟨d, hd, rfl⟩ := hnone
    obtain ⟨first, hfirst, hrank⟩ := exists_mem_firstsBy (·.rank) hd
    have hmem : first ∈ ds := (firstPerService_sublist ds).subset hfirst
    have hservice : ∀ e ∈ ds, (e.service == d.service) = (e.rank == first.rank) := by
      intro e he
      rw [Bool.eq_iff_iff, beq_iff_eq, beq_iff_eq, hrank]
      exact (h.rank_eq_iff he hd).symm
    -- among the first declarations there is one of the service
    have hone : (firstPerService ds).filter (·.service == d.service) = [first] := by
      rw [List.filter_congr fun e he => hservice e ((firstPerService_sublist ds).subset he)]
      exact filter_eq_singleton (nodup_map_firstsBy (·.rank) ds) hfirst
    have hcount : (ds.filter (·.rank == first.rank)).length =
        ds.countP (·.service == d.service) := by
      rw [List.countP_eq_length_filter, List.filter_congr hservice]
    rw [repeatedByService, List.countP_eq_length_filter, List.filter_filter,
      List.filter_congr fun _ _ => Bool.and_comm _ _, ← List.filter_filter, hone,
      List.filter_singleton, hcount]
    by_cases hmany : 1 < ds.countP (·.service == d.service) <;> simp [hmany]
  · have hzero : ds.countP (·.service == service) = 0 :=
      List.countP_eq_zero.mpr fun d hd hservice => hnone ⟨d, hd, beq_iff_eq.mp hservice⟩
    have hsublist : (repeatedByService ds).Sublist ds :=
      List.filter_sublist.trans (firstPerService_sublist ds)
    have hle := hsublist.countP_le (p := (·.service == service))
    rw [hzero] at hle ⊢
    exact Nat.le_zero.mp hle

/-- What is reported of a member by a service. -/
theorem countP_repetitionProblems (h : Ordered ds) (kind : MemberKind) {t n : String}
    {typeName name service : String} :
    (repetitionProblems kind (.member t n) ds).countP (repeats typeName name service) =
      if (t = typeName ∧ n = name) ∧ 1 < ds.countP (·.service == service) then 1 else 0 := by
  rw [repetitionProblems, List.countP_map]
  by_cases hmember : t = typeName ∧ n = name
  · have hrepeats : ((repeats typeName name service) ∘ fun d : Declared α =>
        { cause := .repeatedMember kind, coordinate := .member t n, service := some d.service :
          Diagnostic }) = fun d => d.service == service := by
      funext d
      simp [repeats, Diagnostic.kind, Cause.kind, Coordinate.typeName?, Coordinate.fieldName?,
        hmember, beq_eq_decide]
    rw [hrepeats, countP_repeatedByService h]
    simp only [hmember, and_self, true_and]
  · rw [if_neg fun hboth => hmember hboth.1]
    refine List.countP_eq_zero.mpr fun d _ hrepeats => hmember ?_
    obtain ⟨-, ht, hn, -⟩ := of_decide_eq_true hrepeats
    exact ⟨Option.some.inj ht, Option.some.inj hn⟩

/-- **What is reported of all members is reported of the one.** -/
theorem countP_byMember {name : α → String} (h : Ordered ds)
    {problems : List (Declared α) → List Diagnostic} {kind : MemberKind}
    {t typeName n service : String}
    (hproblems : ∀ all, (problems all).countP (repeats typeName n service) =
      (repetitionProblems kind
        (.member t ((all.head?.map fun d => name d.node).getD "")) all).countP
          (repeats typeName n service)) :
    ((byMember name ds).flatMap problems).countP (repeats typeName n service) =
      if t = typeName ∧ 1 < (named name n ds).countP (·.service == service) then 1 else 0 := by
  have hone : ∀ m ∈ distinct (ds.map fun d => name d.node),
      (problems (named name m ds)).countP (repeats typeName n service) =
        if (t = typeName ∧ m = n) ∧ 1 < (named name m ds).countP (·.service == service)
          then 1 else 0 := by
    intro m hm
    rw [hproblems, head_name_named (mem_distinct.mp hm)]
    exact countP_repetitionProblems (h.filter _) kind
  rw [byMember_eq, List.flatMap_map,
    countP_flatMap_of_nodup (b := n) (nodup_distinct _) fun m hm hne => by
      rw [hone m hm, if_neg fun hboth => hne hboth.1.2]]
  by_cases hn : n ∈ distinct (ds.map fun d => name d.node)
  · rw [if_pos hn, hone n hn]
    simp only [and_true]
  · have hnone : named name n ds = [] := by
      refine List.filter_eq_nil_iff.mpr fun d hd hname => hn (mem_distinct.mpr ?_)
      exact List.mem_map.mpr ⟨d, hd, beq_iff_eq.mp hname⟩
    rw [if_neg hn, hnone]
    simp

end Declared

section

variable (isRepeatable : String → Bool) {t typeName n service : String}

theorem FieldDeclaration.countP_problems (isShared : Bool)
    (all : List (Declared FieldDeclaration)) :
    (problems isRepeatable t isShared all).countP (repeats typeName n service) =
      (repetitionProblems .field
        (.member t ((all.head?.map fun d => name d.node).getD "")) all).countP
          (repeats typeName n service) := by
  have hresolvers : ∀ coordinate (ds : List (Declared FieldDeclaration)),
      ∀ d ∈ (if isShared then [] else resolverProblems coordinate ds), d.service = none := by
    intro coordinate ds d hd
    rw [resolverProblems] at hd
    split at hd
    · cases hd
    · split at hd
      · rw [List.mem_singleton.mp hd]
      · cases hd
  simp only [problems, List.countP_append, countP_repeats_of_service (hresolvers _ _),
    countP_repeats_of_kinds (ofKinds_typeProblems _ (by decide) _ _),
    countP_repeats_of_kinds (ofKinds_argumentProblems (by decide) _ _),
    countP_repeats_of_kinds (ofKinds_directiveProblems _ _ (by decide) _ _), Nat.add_zero]

theorem InputValue.countP_problems (all : List (Declared InputValue)) :
    (problems isRepeatable t all).countP (repeats typeName n service) =
      (repetitionProblems .inputField
        (.member t ((all.head?.map fun d => name d.node).getD "")) all).countP
          (repeats typeName n service) := by
  simp only [problems, List.countP_append,
    countP_repeats_of_kinds (ofKinds_typeProblems _ (by decide) _ _),
    countP_repeats_of_kinds (ofKinds_directiveProblems _ _ (by decide) _ _), Nat.add_zero]

theorem EnumValue.countP_problems (all : List (Declared EnumValue)) :
    (problems isRepeatable t all).countP (repeats typeName n service) =
      (repetitionProblems .enumValue
        (.member t ((all.head?.map fun d => name d.node).getD "")) all).countP
          (repeats typeName n service) := by
  simp only [problems, List.countP_append,
    countP_repeats_of_kinds (ofKinds_directiveProblems _ _ (by decide) _ _), Nat.add_zero]

end

/-! ## One type -/

/-- The names of the fields, values and input fields of a type, as often as they are declared. -/
def TypeDefinition.memberNames (t : TypeDefinition) : List String :=
  t.fields.map (·.name) ++ t.body.enumValues.map (·.name) ++ t.body.inputFields.map (·.name)

namespace TypeDefinition

variable {t : TypeDefinition}

theorem memberNames_of_fields (h : t.kind = .object ∨ t.kind = .interface) :
    t.memberNames = t.fields.map (·.name) := by
  cases hbody : t.body <;>
    simp_all [memberNames, kind, fields, TypeBody.kind, TypeBody.fields, TypeBody.enumValues,
      TypeBody.inputFields]

theorem memberNames_of_enum (h : t.kind = .enum) :
    t.memberNames = t.body.enumValues.map (·.name) := by
  cases hbody : t.body <;>
    simp_all [memberNames, kind, fields, TypeBody.kind, TypeBody.fields, TypeBody.enumValues,
      TypeBody.inputFields]

theorem memberNames_of_inputObject (h : t.kind = .inputObject) :
    t.memberNames = t.body.inputFields.map (·.name) := by
  cases hbody : t.body <;>
    simp_all [memberNames, kind, fields, TypeBody.kind, TypeBody.fields, TypeBody.enumValues,
      TypeBody.inputFields]

theorem memberNames_of_other (h : t.kind = .scalar ∨ t.kind = .union) : t.memberNames = [] := by
  cases hbody : t.body <;>
    simp_all [memberNames, kind, fields, TypeBody.kind, TypeBody.fields, TypeBody.enumValues,
      TypeBody.inputFields]

end TypeDefinition

namespace TypeGroup

variable {isRepeatable : String → Bool} {g : TypeGroup} {typeName n service : String}

/-- Of what is wrong with a type, only its members count. -/
theorem countP_problems : (g.problems isRepeatable).countP (repeats typeName n service) =
    (g.ofOneKind.memberProblems isRepeatable).countP (repeats typeName n service) := by
  have hrepeated : ∀ d ∈ g.ofOneKind.repeatedBaseProblems, d.coordinate.fieldName? = none := by
    intro d hd
    obtain ⟨e, -, rfl⟩ := List.mem_map.mp hd
    rfl
  have hconflicting : ∀ d ∈ g.ofOneKind.conflictingBaseProblems,
      d.coordinate.fieldName? = none := by
    intro d hd
    rw [conflictingBaseProblems] at hd
    split at hd
    · rw [List.mem_singleton.mp hd]
      rfl
    · cases hd
  simp only [problems, problemsOfOneKind, List.countP_append,
    countP_repeats_of_kinds (ofKinds_kindProblems (by decide) _),
    countP_repeats_of_type hrepeated, countP_repeats_of_type hconflicting,
    countP_repeats_of_kinds (ofKinds_missingBaseProblems (by decide) _),
    countP_repeats_of_kinds (ofKinds_directiveProblems _ _ (by decide) _ _), Nat.zero_add,
    Nat.add_zero]

end TypeGroup

namespace Subgraphs

variable {s : Subgraphs}

/-- What is collected from a service is found under its name. -/
theorem map_node_filter_service {α : Type} {f : Subgraph → List α} {g : Subgraph}
    (hg : g ∈ s.services) :
    ((s.collect f).filter (·.service == g.name)).map (·.node) = f g := by
  rw [← mem_inOrder, ← map_fst_byName] at hg
  obtain ⟨p, hp, rfl⟩ := List.mem_map.mp hg
  have hnodup : (s.byName.map fun q => q.1.name).Nodup :=
    ((s.byName_perm.map _).nodup_iff).mpr s.nodup_name_zipIdx
  have hothers : ∀ q ∈ s.byName, (q.1.name == p.1.name) = false →
      ((f q.1).map fun node => (⟨q.2, q.1.name, node⟩ : Declared α)).filter
        (·.service == p.1.name) = [] := by
    intro q _ hne
    refine List.filter_eq_nil_iff.mpr fun d hd => ?_
    obtain ⟨node, -, rfl⟩ := List.mem_map.mp hd
    simpa using hne
  have hone : ((f p.1).map fun node => (⟨p.2, p.1.name, node⟩ : Declared α)).filter
      (·.service == p.1.name) = (f p.1).map fun node => ⟨p.2, p.1.name, node⟩ := by
    refine List.filter_eq_self.mpr fun d hd => ?_
    obtain ⟨node, -, rfl⟩ := List.mem_map.mp hd
    exact beq_self_eq_true _
  rw [collect_eq, List.filter_flatMap, ← flatMap_filter_of_eq_nil hothers,
    filter_eq_singleton hnodup hp, List.flatMap_singleton, hone, List.map_map]
  exact List.map_id _

/-- How often a service declares a member is how often it is collected under its name. -/
theorem countP_named_collect {α : Type} {f : Subgraph → List α} {g : Subgraph}
    (hg : g ∈ s.services) (name : α → String) (n : String) :
    (named name n (s.collect f)).countP (·.service == g.name) = ((f g).map name).count n := by
  have hnodes := map_node_filter_service (f := f) hg
  rw [named, List.countP_eq_length_filter, List.filter_filter,
    List.filter_congr fun _ _ => Bool.and_comm _ _, ← List.filter_filter,
    ← List.countP_eq_length_filter, List.count, List.countP_map, ← hnodes, List.countP_map]
  rfl

/-- The kind of the first contribution to a type, by the names of the services and then by the
places in their documents. -/
def firstKind? (s : Subgraphs) (typeName : String) : Option TypeKind :=
  (s.contributions typeName).head?.map (·.kind)

/-- How often a service declares a member of a type, in its definitions and extensions that are of
the kind of the first contribution to the type. -/
def timesDeclared (s : Subgraphs) (typeName n : String) (g : Subgraph) : Nat :=
  (((definitionsOf typeName g).filter fun t => s.firstKind? typeName = some t.kind).flatMap
    TypeDefinition.memberNames).count n

theorem firstKind?_eq {typeName : String} (h : typeName ∈ s.typeNames) :
    s.firstKind? typeName = some (s.group typeName).kind := by
  have hhead := congrArg List.head? (s.map_node_group typeName)
  rw [List.head?_map, List.head?_map] at hhead
  obtain ⟨d, ds, hg⟩ := List.exists_cons_of_ne_nil (group_ne_nil h)
  have hkind : (s.contributions typeName).head?.map (·.kind) =
      ((s.contributions typeName).head?.map Declaration.ofDefinition).map Declaration.kind := by
    rw [Option.map_map]
    rfl
  rw [firstKind?, hkind, ← hhead, TypeGroup.kind, hg]
  rfl

/-- The kind of the first contribution is the one that wins. -/
theorem firstKind?_eq_some {typeName : String} (h : typeName ∈ s.typeNames) (k : TypeKind) :
    decide (s.firstKind? typeName = some k) = (k == (s.group typeName).kind) := by
  rw [firstKind?_eq h, beq_eq_decide]
  exact decide_eq_decide.mpr ⟨fun hsome => (Option.some.inj hsome).symm, fun heq => by rw [heq]⟩

/-- The declarations of the kind that wins are a collection too. -/
theorem ofOneKind_group (typeName : String) : (s.group typeName).ofOneKind =
    s.collect fun g => ((definitionsOf typeName g).filter
      (·.kind == (s.group typeName).kind)).map Declaration.ofDefinition := by
  have hfilter := collect_filter s
    (fun g => (definitionsOf typeName g).map Declaration.ofDefinition)
    (·.kind == (s.group typeName).kind)
  simp only [List.filter_map] at hfilter
  exact hfilter

/-- What a service declares of a type, in its definitions of the kind that wins. -/
theorem timesDeclared_eq {typeName n : String} (h : typeName ∈ s.typeNames) (g : Subgraph) :
    s.timesDeclared typeName n g = (((definitionsOf typeName g).filter
      (·.kind == (s.group typeName).kind)).flatMap TypeDefinition.memberNames).count n := by
  simp only [timesDeclared, firstKind?_eq_some h]

/-- **How often a service declares a member is how often it is among the declarations of the
member.** -/
theorem countP_named_group {α : Type} (name : α → String) (parts : Declaration → List α)
    {typeName n : String} (h : typeName ∈ s.typeNames) {g : Subgraph} (hg : g ∈ s.services)
    (hnames : ∀ t : TypeDefinition, t.kind = (s.group typeName).kind →
      t.memberNames = (parts (Declaration.ofDefinition t)).map name) :
    Ordered ((s.group typeName).ofOneKind.flatMap
      fun d => (parts d.node).map fun a => d.map fun _ => a) ∧
    (named name n ((s.group typeName).ofOneKind.flatMap
      fun d => (parts d.node).map fun a => d.map fun _ => a)).countP (·.service == g.name) =
        s.timesDeclared typeName n g := by
  rw [ofOneKind_group, collect_parts]
  refine ⟨s.collect_ordered _, ?_⟩
  rw [countP_named_collect hg, timesDeclared_eq h, List.flatMap_map, List.map_flatMap]
  congr 1
  refine List.flatMap_congr fun t ht => ?_
  exact (hnames t (beq_iff_eq.mp (List.mem_filter.mp ht).2)).symm

/-- **What is reported of a type**: the member, if the service declares it more than once. -/
theorem countP_problems_group {t typeName n : String} (h : t ∈ s.typeNames) {g : Subgraph}
    (hg : g ∈ s.services) (isRepeatable : String → Bool) :
    ((s.group t).problems isRepeatable).countP (repeats typeName n g.name) =
      if t = typeName ∧ 1 < s.timesDeclared t n g then 1 else 0 := by
  have hkind : (s.group t).ofOneKind.kind = (s.group t).kind := by
    rw [TypeGroup.kind, TypeGroup.head_ofOneKind]
    rfl
  rw [TypeGroup.countP_problems, TypeGroup.memberProblems, name_ofOneKind_group h, hkind]
  have hfields : ((s.group t).kind = .object ∨ (s.group t).kind = .interface) →
      ((s.group t).ofOneKind.fieldGroups.flatMap (FieldDeclaration.problems isRepeatable t
        (s.group t).ofOneKind.isShared)).countP (repeats typeName n g.name) =
          if t = typeName ∧ 1 < s.timesDeclared t n g then 1 else 0 := by
    intro hk
    obtain ⟨hordered, hcount⟩ := countP_named_group (n := n) FieldDeclaration.name
      Declaration.fields h hg fun d hd => by
        rw [TypeDefinition.memberNames_of_fields (hd ▸ hk), Declaration.ofDefinition, List.map_map]
        rfl
    rw [← hcount]
    exact countP_byMember hordered (FieldDeclaration.countP_problems isRepeatable _)
  cases hk : (s.group t).kind with
  | object => exact hfields (.inl hk)
  | interface => exact hfields (.inr hk)
  | enum =>
    obtain ⟨hordered, hcount⟩ := countP_named_group (n := n) EnumValue.name
      (·.node.body.enumValues) h hg fun d hd => by
        rw [TypeDefinition.memberNames_of_enum (hd.trans hk)]
        rfl
    rw [← hcount]
    exact countP_byMember hordered (EnumValue.countP_problems isRepeatable)
  | inputObject =>
    obtain ⟨hordered, hcount⟩ := countP_named_group (n := n) InputValue.name
      (·.node.body.inputFields) h hg fun d hd => by
        rw [TypeDefinition.memberNames_of_inputObject (hd.trans hk)]
        rfl
    rw [← hcount]
    exact countP_byMember hordered (InputValue.countP_problems isRepeatable)
  | scalar | union =>
    have hnone : s.timesDeclared t n g = 0 := by
      rw [timesDeclared_eq h, hk, List.flatMap_eq_nil_iff.mpr, List.count_nil]
      intro d hd
      have hd := beq_iff_eq.mp (List.mem_filter.mp hd).2
      exact TypeDefinition.memberNames_of_other (by simp [hd])
    simp [hnone]

/-! ## All diagnostics -/

/-- Before services are merged nothing is reported as a member that a service repeats. -/
theorem countP_services (s : Subgraphs) (typeName n service : String) :
    (s.problems ++ s.checkProblems).countP (repeats typeName n service) = 0 := by
  have hchecks : OfKinds (· ≠ .duplicateTypeDefinition) s.checkProblems :=
    ofKinds_flatMap fun g _ => g.ofKinds_checkProblems (by decide)
  have hproblems : s.problems.countP (repeats typeName n service) = 0 := by
    rw [problems, List.countP_flatMap]
    refine List.sum_eq_zero fun x hx => ?_
    obtain ⟨g, -, rfl⟩ := List.mem_map.mp hx
    rw [Function.comp, Subgraph.problems]
    split
    · rfl
    · rename_i d _
      -- a type that shadows a root is reported as a type
      have hshadow : ∀ x ∈ (d.shadowingTypes.map fun t =>
          ({ cause := .shadowsRoot, coordinate := .type t.name,
             location := some t.location } : Diagnostic)).map (·.inService g.name),
          x.coordinate.fieldName? = none := by
        intro x hx
        obtain ⟨y, hy, rfl⟩ := List.mem_map.mp hx
        obtain ⟨t, -, rfl⟩ := List.mem_map.mp hy
        rfl
      rw [List.map_append, List.countP_append, countP_repeats_of_type hshadow,
        countP_repeats_of_kinds (OfKinds.inService
          (ofKinds_flatMap fun t _ => Declaration.ofKinds_problems (by decide) t) _), Nat.add_zero]
  rw [List.countP_append, hproblems, countP_repeats_of_kinds hchecks]

/-- In the composed schema nothing is reported of one service as a duplicate. -/
theorem countP_composedSchema (s : Subgraphs) (typeName n service : String) :
    (s.composedSchema.2 ++ s.composedSchema.1.problems).countP
      (repeats typeName n service) = 0 := by
  have hroots : ∀ d ∈ s.composedSchema.1.rootFieldProblems, d.service = none := by
    intro d hd
    obtain ⟨root, -, hd⟩ := List.mem_flatMap.mp hd
    split at hd
    · cases hd
    · obtain ⟨f, -, rfl⟩ := List.mem_map.mp hd
      rfl
  simp only [Schema.problems, List.countP_append, countP_repeats_of_service hroots,
    countP_repeats_of_kinds (s.ofKinds_clashes (by decide)),
    countP_repeats_of_kinds (Schema.ofKinds_keyProblems _ (by decide)),
    countP_repeats_of_kinds (Schema.ofKinds_externalFieldProblems _ (by decide)),
    countP_repeats_of_kinds (Schema.ofKinds_interfaceProblems _ (by decide) (by decide)),
    countP_repeats_of_kinds (Schema.ofKinds_referenceProblems _ (by decide))]

/-- **A service that repeats a member is reported once, and another one is not**, by the merge. -/
theorem countP_mergeProblems {g : Subgraph} (hg : g ∈ s.services) (typeName n : String) :
    s.mergeProblems.countP (repeats typeName n g.name) =
      if 1 < s.timesDeclared typeName n g then 1 else 0 := by
  have hdirectives : OfKinds (· ≠ .duplicateTypeDefinition)
      (s.directiveGroups.flatMap DirectiveGroup.problems) :=
    ofKinds_flatMap fun d _ => d.ofKinds_problems (by decide)
  rw [mergeProblems, List.countP_append, countP_repeats_of_kinds hdirectives, Nat.zero_add,
    groups_eq, List.flatMap_map, countP_flatMap_of_nodup (b := typeName) s.nodup_typeNames
      fun t ht hne => by rw [countP_problems_group ht hg, if_neg fun hboth => hne hboth.1]]
  by_cases h : typeName ∈ s.typeNames
  · rw [if_pos h, countP_problems_group h hg]
    simp only [true_and]
  · have hnone : definitionsOf typeName g = [] := by
      refine List.filter_eq_nil_iff.mpr fun t ht hname => h (mem_typeNames.mpr ?_)
      exact ⟨g, hg, t, ht, beq_iff_eq.mp hname⟩
    rw [if_neg h, timesDeclared, hnone]
    rfl

/-- **A service that repeats a member is reported once, and another one is not.** -/
theorem countP_diagnostics {g : Subgraph} (hg : g ∈ s.services) (typeName n : String) :
    s.diagnostics.countP (repeats typeName n g.name) =
      if 1 < s.timesDeclared typeName n g then 1 else 0 := by
  have hservices := s.countP_services typeName n g.name
  have hschema := s.countP_composedSchema typeName n g.name
  rw [List.countP_append] at hservices hschema
  rw [diagnostics_eq, (sorted_perm _).countP_eq, allProblems_eq, laterProblems]
  simp only [List.countP_append, countP_mergeProblems hg]
  omega

end Subgraphs

end Federation
