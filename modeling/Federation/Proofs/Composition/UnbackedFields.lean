import Federation.Proofs.Composition.RepeatedMembers
import Federation.Proofs.Composition.Resolvers
import Federation.Proofs.Schema.TypeSafety
/-!
# Composition — fields that no service resolves

A field is unbacked if services declare it and each of them marks its
first declaration as resolved elsewhere. The record of the field is read
off the first declarations of the services, so that an unbacked field is
reported once, and no other one is (`Subgraphs.countP_unresolvedAt`),
whatever else is wrong with the services.

The field still stands in the composed type. A key that leads through it
finds it there, and is not reported for it a second time
(`Schema.field?_eq_none_of_followPath`).
-/

namespace Federation

open Declared Diagnostic

namespace Diagnostic

/-- A report that no service resolves a field of a type. -/
def unresolvedAt (typeName name : String) (d : Diagnostic) : Bool :=
  decide (d.kind = .unresolvedExternalField ∧ d.coordinate.typeName? = some typeName ∧
    d.coordinate.fieldName? = some name)

/-- A report that a key selects a field which a type does not have. -/
def MissesKeyField (typeName name : String) (d : Diagnostic) : Prop :=
  ∃ key, d.cause = .unresolvedKey key typeName name

variable {typeName name : String} {ds : List Diagnostic}

theorem countP_unresolvedAt_of_kinds (h : OfKinds (· ≠ .unresolvedExternalField) ds) :
    ds.countP (unresolvedAt typeName name) = 0 :=
  List.countP_eq_zero.mpr fun d hd hunresolved => h d hd (of_decide_eq_true hunresolved).1

theorem not_missesKeyField_of_kinds (h : OfKinds (· ≠ .directiveArgument) ds) :
    ∀ d ∈ ds, ¬ d.MissesKeyField typeName name := by
  rintro d hd ⟨key, hcause⟩
  refine h d hd ?_
  rw [Diagnostic.kind, hcause]
  rfl

end Diagnostic

/-- Only the part under one key counts, if there is one, where keys are distinct. -/
theorem countP_flatMap_find? {α β κ : Type} [DecidableEq κ] {p : β → Bool} {f : α → List β}
    {key : α → κ} {k : κ} {as : List α} (hnodup : (as.map key).Nodup)
    (h : ∀ a ∈ as, key a ≠ k → (f a).countP p = 0) :
    (as.flatMap f).countP p = ((as.find? (key · == k)).map fun a => (f a).countP p).getD 0 := by
  induction as with
  | nil => rfl
  | cons a as ih =>
    obtain ⟨hnew, hnodup⟩ := List.nodup_cons.mp hnodup
    obtain ⟨ha, has⟩ := List.forall_mem_cons.mp h
    rw [List.flatMap_cons, List.countP_append, ih hnodup has]
    by_cases hk : key a = k
    · have hnone : as.find? (key · == k) = none := by
        refine List.find?_eq_none.mpr fun b hb hbk => hnew ?_
        rw [hk, ← beq_iff_eq.mp hbk]
        exact List.mem_map_of_mem hb
      rw [hnone, List.find?_cons_of_pos (by simpa using hk)]
      rfl
    · rw [ha hk, Nat.zero_add, List.find?_cons_of_neg (by simpa using hk)]

/-- Under one of distinct keys there is one element, if there is one. -/
theorem countP_find? {α κ : Type} [DecidableEq κ] {q : α → Bool} {key : α → κ} {k : κ}
    {as : List α} (hnodup : (as.map key).Nodup) :
    as.countP (fun a => key a == k && q a) =
      if (as.find? (key · == k)).any q then 1 else 0 := by
  have hcount := countP_flatMap_find? (p := fun a => key a == k && q a) (f := fun a => [a])
    (k := k) hnodup fun a _ hne => by simp [hne]
  rw [List.flatMap_singleton'] at hcount
  rw [hcount]
  cases hfind : as.find? (key · == k) with
  | none => rfl
  | some a =>
    have hk : key a = k := by simpa using List.find?_some hfind
    simp [List.countP_cons, hk]

/-! ## The composed schema -/

namespace FieldOwnership

/-- Whether services declare the field and none of them resolves it. -/
def isUnbacked (f : FieldOwnership) : Bool :=
  !f.contributions.isEmpty && f.owner?.isNone

end FieldOwnership

namespace Schema

variable {s : Schema} {typeName name : String}

/-- The record of a field. -/
def fieldOwnership? (s : Schema) (typeName name : String) : Option FieldOwnership :=
  (s.ownership? typeName).bind (·.field? name)

/-- **A field is reported once if its record is unbacked**, and not at all otherwise. -/
theorem countP_externalFieldProblems (htypes : (s.ownership.map (·.name)).Nodup)
    (hfields : ∀ t ∈ s.ownership, (t.fields.map (·.name)).Nodup) (typeName name : String) :
    s.externalFieldProblems.countP (unresolvedAt typeName name) =
      if (s.fieldOwnership? typeName name).any (·.isUnbacked) then 1 else 0 := by
  have hone (t : TypeOwnership) (ht : t ∈ s.ownership) :
      ((t.fields.filter fun f => !f.contributions.isEmpty && f.owner?.isNone).map fun f =>
        ({ cause := .unresolvedExternal (f.contributions.map (·.service))
           coordinate := .member t.name f.name } : Diagnostic)).countP
          (unresolvedAt typeName name) =
        if t.name = typeName then (if (t.field? name).any (·.isUnbacked) then 1 else 0) else 0 := by
    rw [List.countP_map, List.countP_filter]
    by_cases htype : t.name = typeName
    · rw [if_pos htype, TypeOwnership.field?, ← countP_find? (hfields t ht)]
      refine List.countP_congr fun f _ => ?_
      simp [unresolvedAt, Diagnostic.kind, Cause.kind, Coordinate.typeName?, Coordinate.fieldName?,
        FieldOwnership.isUnbacked, htype]
    · rw [if_neg htype]
      refine List.countP_eq_zero.mpr fun f _ hboth => htype ?_
      have hunresolved := (Bool.and_eq_true_iff.mp hboth).1
      exact Option.some.inj (of_decide_eq_true hunresolved).2.1
  rw [externalFieldProblems, countP_flatMap_find? (k := typeName) htypes
    fun t ht hne => by rw [hone t ht, if_neg hne], fieldOwnership?, ownership?]
  cases hfind : s.ownership.find? (·.name == typeName) with
  | none => rfl
  | some t =>
    have hname : t.name = typeName := by simpa using List.find?_some hfind
    rw [Option.map_some, Option.getD_some, hone t (List.mem_of_find?_eq_some hfind),
      if_pos hname, Option.bind_some]

/-- **A key stops at a field that its type does not have.** -/
theorem field?_eq_none_of_followPath {path : List String} {t f : String}
    (h : s.followPath typeName path = .error (t, f)) : (s.type? t).bind (·.field? f) = none := by
  induction path generalizing typeName with
  | nil => cases h
  | cons field path ih =>
    rw [followPath] at h
    split at h
    · rename_i hnone
      cases h
      exact hnone
    · exact ih h

theorem field?_eq_none_of_mem_keyProblems {d : Diagnostic} (hd : d ∈ s.keyProblems)
    (h : d.MissesKeyField typeName name) : (s.type? typeName).bind (·.field? name) = none := by
  obtain ⟨t, -, hd⟩ := List.mem_flatMap.mp hd
  obtain ⟨⟨service, key⟩, -, hd⟩ := List.mem_flatMap.mp hd
  obtain ⟨path, -, hd⟩ := List.mem_filterMap.mp hd
  split at hd
  · cases hd
  · rename_i hfollow
    cases hd
    obtain ⟨key', hcause⟩ := h
    cases hcause
    exact field?_eq_none_of_followPath hfollow

end Schema

/-! ## What services report by themselves -/

section

variable {typeName name : String}

theorem Declaration.not_missesKeyField {t : TypeDefinition} {d : Diagnostic}
    (hd : d ∈ problems t) : ¬ d.MissesKeyField typeName name := by
  have hmalformed (coordinate : Coordinate) (location : Location) (ds : List Directive)
      (hd : d ∈ Directive.malformed coordinate location ds) :
      ¬ d.MissesKeyField typeName name := by
    rintro ⟨key, hcause⟩
    obtain ⟨x, -, hd⟩ := List.mem_filterMap.mp hd
    split at hd
    · cases hd
    · cases hd
      cases hcause
  rcases List.mem_append.mp hd with hd | hd
  · exact hmalformed _ _ _ hd
  · obtain ⟨f, -, hd⟩ := List.mem_flatMap.mp hd
    exact hmalformed _ _ _ hd

theorem Site.not_missesKeyField {lookup : String → Option DirectiveDefinition} {x : Site}
    {d : Diagnostic} (hd : d ∈ x.problems lookup) : ¬ d.MissesKeyField typeName name := by
  rintro ⟨key, hcause⟩
  rw [Site.problems] at hd
  split at hd
  · cases hd
  · rcases List.mem_append.mp hd with hd | hd
    · split at hd
      · cases hd
      · cases List.mem_singleton.mp hd
        cases hcause
    · split at hd
      · cases hd
      · rcases List.mem_append.mp hd with hd | hd
        · obtain ⟨a, -, rfl⟩ := List.mem_map.mp hd
          cases hcause
        · obtain ⟨a, -, rfl⟩ := List.mem_map.mp hd
          cases hcause

/-- A service by itself is not reported for a key that selects what there is not. -/
theorem Subgraph.not_missesKeyField {g : Subgraph} {d : Diagnostic}
    (hd : d ∈ g.problems ++ g.checkProblems) : ¬ d.MissesKeyField typeName name := by
  rcases List.mem_append.mp hd with hd | hd
  · obtain ⟨e, he, rfl⟩ := List.mem_map.mp hd
    show ¬ e.MissesKeyField typeName name
    split at he
    · exact not_missesKeyField_of_kinds
        (ofKinds_singleton.mpr (by simp [Diagnostic.kind, Cause.kind])) e he
    · rcases List.mem_append.mp he with he | he
      · exact not_missesKeyField_of_kinds
          (ofKinds_map fun _ _ => by simp [Diagnostic.kind, Cause.kind]) e he
      · obtain ⟨t, -, he⟩ := List.mem_flatMap.mp he
        exact Declaration.not_missesKeyField he
  · obtain ⟨e, he, rfl⟩ := List.mem_map.mp hd
    show ¬ e.MissesKeyField typeName name
    have hmarks : OfKinds (· ≠ .directiveArgument) (reservedFieldProblems g.declarations ++
        baseFieldProblems g.declarations ++ extensionKeyProblems g.declarations) := by
      simp only [ofKinds_append]
      refine ⟨⟨?_, ?_⟩, ?_⟩
      · exact ofKinds_flatMap fun d _ => ofKinds_map fun _ _ => by
          simp [fieldDiagnostic, Diagnostic.kind, Cause.kind]
      · exact ofKinds_flatMap fun d _ => ofKinds_flatMap fun f _ => ofKinds_append.mpr
          ⟨ofKinds_ite (by simp [fieldDiagnostic, Diagnostic.kind, Cause.kind]) ofKinds_nil,
            ofKinds_ite (by simp [fieldDiagnostic, Diagnostic.kind, Cause.kind]) ofKinds_nil⟩
      · exact ofKinds_flatMap fun d _ => ofKinds_map fun _ _ => by
          simp [fieldDiagnostic, Diagnostic.kind, Cause.kind]
    rw [List.append_assoc, List.append_assoc, ← List.append_assoc (reservedFieldProblems _)] at he
    rcases List.mem_append.mp he with he | he
    · obtain ⟨x, -, he⟩ := List.mem_flatMap.mp he
      exact Site.not_missesKeyField he
    · exact not_missesKeyField_of_kinds hmarks e he

end

/-! ## The declarations of a field -/

namespace TypeGroup

/-- **The record of a field is unbacked** if the field has declarations and every service marks its
first one. -/
theorem isUnbacked_fieldOwnership (ds : List (Declared FieldDeclaration)) :
    (fieldOwnership ds).isUnbacked = true ↔
      (firstPerService ds).map (·.node) ≠ [] ∧
        ∀ f ∈ (firstPerService ds).map (·.node), f.isExternal = true := by
  simp [FieldOwnership.isUnbacked, FieldOwnership.owner?, fieldOwnership, List.find?_eq_none,
    FieldDeclaration.contribution]

variable {g : TypeGroup} (hkind : ∀ d ∈ g, d.node.kind = g.kind)
variable (hfields : ∀ d ∈ g, d.node.node.fields = [] → d.node.fields = [])
include hkind hfields

/-- The record of a type has the records of its declared fields, whatever its kind. -/
theorem fields_ownership_eq : g.ownership.fields = g.fieldGroups.map fieldOwnership := by
  rw [ownership]
  cases hk : g.kind with
  | object | interface => rfl
  | scalar | union | enum | inputObject =>
    have hnone : g.fieldDeclarations = [] := by
      refine List.flatMap_eq_nil_iff.mpr fun d hd => List.map_eq_nil_iff.mpr (hfields d hd ?_)
      refine parts_eq_nil_of_kind TypeBody.fields hkind (fun b hb => ?_) d hd
      rw [hk] at hb
      cases b <;> simp_all [TypeBody.kind, TypeBody.fields]
    rw [fieldGroups, hnone]
    rfl

theorem map_name_fields_ownership :
    g.ownership.fields.map (·.name) = distinct (g.fieldDeclarations.map (·.node.name)) := by
  rw [fields_ownership_eq hkind hfields, fieldGroups, byMember_eq, List.map_map, List.map_map]
  exact map_eq_self fun n hn => head_name_named (mem_distinct.mp hn)

/-- The record of a field is unbacked if that of its declarations is. -/
theorem any_isUnbacked_field? (n : String) :
    (g.ownership.field? n).any (·.isUnbacked) =
      (fieldOwnership (named FieldDeclaration.name n g.fieldDeclarations)).isUnbacked := by
  have hnames := map_name_fields_ownership hkind hfields
  by_cases hn : n ∈ g.fieldDeclarations.map (·.node.name)
  · have hmem : fieldOwnership (named FieldDeclaration.name n g.fieldDeclarations) ∈
        g.ownership.fields := by
      rw [fields_ownership_eq hkind hfields]
      exact List.mem_map_of_mem (named_mem_byMember FieldDeclaration.name hn)
    have hfind := TypeOwnership.field?_of_mem (by rw [hnames]; exact nodup_distinct _) hmem
    have hname : (fieldOwnership (named FieldDeclaration.name n g.fieldDeclarations)).name = n :=
      head_name_named hn
    rw [hname] at hfind
    rw [hfind]
    rfl
  · have hfind : g.ownership.field? n = none := by
      refine List.find?_eq_none.mpr fun f hf hname => hn ?_
      have hmem := List.mem_map_of_mem (f := FieldOwnership.name) hf
      rw [hnames, mem_distinct, beq_iff_eq.mp hname] at hmem
      exact hmem
    have hnone : named FieldDeclaration.name n g.fieldDeclarations = [] := by
      refine List.filter_eq_nil_iff.mpr fun d hd hname => hn ?_
      exact List.mem_map.mpr ⟨d, hd, beq_iff_eq.mp hname⟩
    rw [hfind, hnone]
    rfl

end TypeGroup

namespace Subgraphs

variable {s : Subgraphs} {typeName n : String}

/-- The fields of a type that a service declares, in its definitions and extensions that are of the
kind of the first contribution to the type. -/
def fieldsOf (s : Subgraphs) (typeName : String) (g : Subgraph) : List Field :=
  ((definitionsOf typeName g).filter fun t => s.firstKind? typeName = some t.kind).flatMap
    TypeDefinition.fields

/-- The first declaration of a field by a service. -/
def firstField? (s : Subgraphs) (typeName n : String) (g : Subgraph) : Option Field :=
  (s.fieldsOf typeName g).find? (·.name == n)

/-- **A field is unbacked**: a service declares it, and every service that does marks its first
declaration as resolved elsewhere. -/
structure Unbacked (s : Subgraphs) (typeName n : String) : Prop where
  declared : ∃ g ∈ s.services, (s.firstField? typeName n g).isSome = true
  external : ∀ g ∈ s.services, ∀ f, s.firstField? typeName n g = some f → f.isExternal = true

/-- Of the kind that wins the declarations of fields are a collection. -/
theorem fieldDeclarations_ofOneKind (h : typeName ∈ s.typeNames) :
    (s.group typeName).ofOneKind.fieldDeclarations =
      s.collect fun g => (s.fieldsOf typeName g).map FieldDeclaration.ofField := by
  rw [ofOneKind_group, TypeGroup.fieldDeclarations, collect_parts]
  congr 1
  funext g
  simp only [List.flatMap_map, fieldsOf, List.map_flatMap, firstKind?_eq_some h]
  rfl

/-- The first declarations of a field, in the order of the names of services. -/
theorem map_node_firstPerService_named (h : typeName ∈ s.typeNames) :
    (firstPerService (named FieldDeclaration.name n
        (s.group typeName).ofOneKind.fieldDeclarations)).map (·.node) =
      s.inOrder.filterMap fun g => (s.firstField? typeName n g).map FieldDeclaration.ofField := by
  have hnamed : named FieldDeclaration.name n (s.group typeName).ofOneKind.fieldDeclarations =
      s.collect fun g => ((s.fieldsOf typeName g).filter (·.name == n)).map
        FieldDeclaration.ofField := by
    rw [fieldDeclarations_ofOneKind h, named]
    have hfilter := collect_filter s
      (fun g => (s.fieldsOf typeName g).map FieldDeclaration.ofField) (·.name == n)
    simp only [List.filter_map] at hfilter
    exact hfilter
  rw [hnamed, map_node_firstPerService_collect]
  simp only [List.head?_map, List.head?_filter, firstField?]

/-- **The record of an unbacked field is unbacked**, and no other one is. -/
theorem isUnbacked_iff (h : typeName ∈ s.typeNames) :
    (TypeGroup.fieldOwnership (named FieldDeclaration.name n
      (s.group typeName).ofOneKind.fieldDeclarations)).isUnbacked = true ↔
    s.Unbacked typeName n := by
  rw [TypeGroup.isUnbacked_fieldOwnership, map_node_firstPerService_named h]
  have hdeclared : (s.inOrder.filterMap fun g =>
      (s.firstField? typeName n g).map FieldDeclaration.ofField) ≠ [] ↔
      ∃ g ∈ s.services, (s.firstField? typeName n g).isSome = true := by
    simp [mem_inOrder, Option.isSome_iff_ne_none]
  have hexternal : (∀ f ∈ s.inOrder.filterMap fun g =>
      (s.firstField? typeName n g).map FieldDeclaration.ofField, f.isExternal = true) ↔
      ∀ g ∈ s.services, ∀ f, s.firstField? typeName n g = some f → f.isExternal = true := by
    constructor
    · intro hall g hg f hf
      exact hall (FieldDeclaration.ofField f)
        (List.mem_filterMap.mpr ⟨g, mem_inOrder.mpr hg, by rw [hf]; rfl⟩)
    · intro hall d hd
      obtain ⟨g, hg, hd⟩ := List.mem_filterMap.mp hd
      obtain ⟨f, hf, rfl⟩ := Option.map_eq_some_iff.mp hd
      exact hall g (mem_inOrder.mp hg) f hf
  rw [hdeclared, hexternal]
  exact ⟨fun ⟨hsome, hall⟩ => ⟨hsome, hall⟩, fun h => ⟨h.declared, h.external⟩⟩

/-- What is declared of a type of one kind. -/
theorem kind_of_mem_ofOneKind {d : Declared Declaration} (hd : d ∈ (s.group typeName).ofOneKind) :
    d.node.kind = (s.group typeName).ofOneKind.kind ∧
      (d.node.node.fields = [] → d.node.fields = []) := by
  obtain ⟨hd, hkind⟩ := List.mem_filter.mp hd
  have hsame : (s.group typeName).ofOneKind.kind = (s.group typeName).kind := by
    rw [TypeGroup.kind, TypeGroup.head_ofOneKind]
    rfl
  obtain ⟨t, ht, -⟩ := exists_of_mem_group hd
  refine ⟨(beq_iff_eq.mp hkind).trans hsame.symm, fun hnone => ?_⟩
  rw [ht] at hnone ⊢
  exact List.map_eq_nil_iff.mpr hnone

/-- An unbacked field is one of a declared type. -/
theorem Unbacked.mem_typeNames (h : s.Unbacked typeName n) : typeName ∈ s.typeNames := by
  obtain ⟨g, hg, hsome⟩ := h.declared
  obtain ⟨f, hf⟩ := Option.isSome_iff_exists.mp hsome
  obtain ⟨t, ht, -⟩ := List.mem_flatMap.mp (List.mem_of_find?_eq_some hf)
  obtain ⟨ht, hname⟩ := List.mem_filter.mp (List.mem_filter.mp ht).1
  exact Subgraphs.mem_typeNames.mpr ⟨g, hg, t, ht, beq_iff_eq.mp hname⟩

/-- **An unbacked field stands in the composed type**, though no service resolves it. -/
theorem Unbacked.exists_field?_composedSchema (h : s.Unbacked typeName n) :
    ∃ f, (s.composedSchema.1.type? typeName).bind (·.field? n) = some f := by
  obtain ⟨g, hg, hsome⟩ := h.declared
  obtain ⟨f, hf⟩ := Option.isSome_iff_exists.mp hsome
  have htype := h.mem_typeNames
  rw [← map_name_composedSchema] at htype
  obtain ⟨t, ht, rfl⟩ := List.mem_map.mp htype
  obtain ⟨htype, -, hbody⟩ := mem_types_composedSchema s ht
  have hnames : t.fields.map (·.name) =
      distinct ((s.group t.name).ofOneKind.fieldDeclarations.map (·.node.name)) := by
    rw [TypeDefinition.fields, hbody]
    exact TypeGroup.map_name_fields_body _ (fun d hd => (kind_of_mem_ofOneKind hd).1)
      fun d hd => (kind_of_mem_ofOneKind hd).2
  have hdeclared : n ∈ t.fields.map (·.name) := by
    have hname : f.name = n := by simpa using List.find?_some hf
    obtain ⟨d, hd, hnode, -⟩ := exists_mem_collect
      (f := fun g => (s.fieldsOf t.name g).map FieldDeclaration.ofField) hg
      (List.mem_map_of_mem (List.mem_of_find?_eq_some hf))
    rw [hnames, mem_distinct, fieldDeclarations_ofOneKind htype, ← hname]
    refine List.mem_map.mpr ⟨d, hd, ?_⟩
    rw [hnode]
    rfl
  obtain ⟨f', hf', hname⟩ := List.mem_map.mp hdeclared
  have hsome : (t.field? n).isSome = true :=
    List.find?_isSome.mpr ⟨f', hf', beq_iff_eq.mpr hname⟩
  rw [Schema.type?_of_mem (by rw [map_name_composedSchema]; exact s.nodup_typeNames) ht]
  exact Option.isSome_iff_exists.mp hsome

/-! ## All diagnostics -/

/-- Of all that is reported only the check of external fields counts. -/
theorem countP_unresolvedAt_diagnostics (s : Subgraphs) (typeName n : String) :
    s.diagnostics.countP (unresolvedAt typeName n) =
      s.composedSchema.1.externalFieldProblems.countP (unresolvedAt typeName n) := by
  have hproblems : OfKinds (· ≠ .unresolvedExternalField) s.problems :=
    ofKinds_flatMap fun g _ => g.ofKinds_problems (by decide) (by decide) (by decide)
  have hchecks : OfKinds (· ≠ .unresolvedExternalField) s.checkProblems :=
    ofKinds_flatMap fun g _ => g.ofKinds_checkProblems (by decide)
  have hmerge : OfKinds (· ≠ .unresolvedExternalField) s.mergeProblems :=
    s.ofKinds_mergeProblems (by decide) (by decide) (by decide) (by decide) (by decide)
  rw [diagnostics_eq, (sorted_perm _).countP_eq, allProblems_eq, laterProblems]
  simp only [Schema.problems, List.countP_append, countP_unresolvedAt_of_kinds hproblems,
    countP_unresolvedAt_of_kinds hchecks, countP_unresolvedAt_of_kinds hmerge,
    countP_unresolvedAt_of_kinds (s.ofKinds_clashes (by decide)),
    countP_unresolvedAt_of_kinds (Schema.ofKinds_keyProblems _ (by decide)),
    countP_unresolvedAt_of_kinds (Schema.ofKinds_interfaceProblems _ (by decide) (by decide)),
    countP_unresolvedAt_of_kinds (Schema.ofKinds_rootFieldProblems _ (by decide)),
    countP_unresolvedAt_of_kinds (Schema.ofKinds_referenceProblems _ (by decide)), Nat.zero_add,
    Nat.add_zero]

/-- The records of the composed schema have distinct names, and so have the fields of each. -/
theorem nodup_ownership (s : Subgraphs) : (s.composedSchema.1.ownership.map (·.name)).Nodup ∧
    ∀ t ∈ s.composedSchema.1.ownership, (t.fields.map (·.name)).Nodup := by
  rw [composedSchema_eq]
  simp only [ownership_eq, List.map_map, List.forall_mem_map]
  have hnames : s.typeNames.map (TypeOwnership.name ∘ fun n => (s.group n).ofOneKind.ownership) =
      s.typeNames := map_eq_self fun n hn => name_ofOneKind_group hn
  refine ⟨?_, fun typeName _ => ?_⟩
  · rw [hnames]
    exact s.nodup_typeNames
  · rw [TypeGroup.map_name_fields_ownership (fun d hd => (kind_of_mem_ofOneKind hd).1)
      fun d hd => (kind_of_mem_ofOneKind hd).2]
    exact nodup_distinct _

/-- **An unbacked field is reported once, and another one is not**, whatever else is wrong. -/
theorem countP_unresolvedAt (s : Subgraphs) (typeName n : String)
    [Decidable (s.Unbacked typeName n)] :
    s.diagnostics.countP (unresolvedAt typeName n) = if s.Unbacked typeName n then 1 else 0 := by
  obtain ⟨htypes, hfields⟩ := s.nodup_ownership
  rw [countP_unresolvedAt_diagnostics, Schema.countP_externalFieldProblems htypes hfields,
    Schema.fieldOwnership?]
  by_cases h : typeName ∈ s.typeNames
  · rw [ownership?_composedSchema s h, Option.bind_some,
      TypeGroup.any_isUnbacked_field? (fun d hd => (kind_of_mem_ofOneKind hd).1)
        fun d hd => (kind_of_mem_ofOneKind hd).2]
    simp only [isUnbacked_iff h]
  · have hbacked : ¬ s.Unbacked typeName n := fun hunbacked => h hunbacked.mem_typeNames
    rw [s.ownership?_composedSchema_eq_none h, if_neg hbacked]
    rfl

/-- Only the check of keys reports that a key selects what there is not. -/
theorem mem_keyProblems_of_missesKeyField {d : Diagnostic} (hd : d ∈ s.diagnostics)
    (h : d.MissesKeyField typeName n) : d ∈ s.composedSchema.1.keyProblems := by
  rw [diagnostics_eq, (sorted_perm _).mem_iff, allProblems_eq, laterProblems] at hd
  simp only [Schema.problems, List.mem_append] at hd
  have hservice (hd : d ∈ s.problems ∨ d ∈ s.checkProblems) : False := by
    rcases hd with hd | hd
    · obtain ⟨g, -, hd⟩ := List.mem_flatMap.mp hd
      exact Subgraph.not_missesKeyField (List.mem_append_left _ hd) h
    · obtain ⟨g, -, hd⟩ := List.mem_flatMap.mp hd
      exact Subgraph.not_missesKeyField (List.mem_append_right _ hd) h
  obtain hd | ((hd | hd) | hd) | (((hd | hd) | hd) | hd) | hd := hd
  · exact (hservice (.inl hd)).elim
  · exact (hservice (.inr hd)).elim
  · exact (not_missesKeyField_of_kinds (s.ofKinds_mergeProblems (by decide) (by decide) (by decide)
      (by decide) (by decide)) d hd h).elim
  · exact (not_missesKeyField_of_kinds (s.ofKinds_clashes (by decide)) d hd h).elim
  · exact hd
  · exact (not_missesKeyField_of_kinds (Schema.ofKinds_externalFieldProblems _ (by decide))
      d hd h).elim
  · exact (not_missesKeyField_of_kinds
      (Schema.ofKinds_interfaceProblems _ (by decide) (by decide)) d hd h).elim
  · exact (not_missesKeyField_of_kinds (Schema.ofKinds_rootFieldProblems _ (by decide)) d hd h).elim
  · exact (not_missesKeyField_of_kinds (Schema.ofKinds_referenceProblems _ (by decide)) d hd h).elim

/-- **Unbacked fields are reported exactly.** Whether or not services can be composed, a field that
services declare and none resolves is reported once as unresolved, and no other field is. A key
finds it in the composed type and goes on from there, so that no key is reported for it. -/
theorem unbacked_fields_reported_once (s : Subgraphs) (typeName n : String) :
    (s.Unbacked typeName n →
      s.diagnostics.countP (unresolvedAt typeName n) = 1 ∧
      (∃ f, (s.composedSchema.1.type? typeName).bind (·.field? n) = some f ∧
        ∀ path, s.composedSchema.1.followPath typeName (n :: path) =
          s.composedSchema.1.followPath f.type.name path) ∧
      ∀ d ∈ s.diagnostics, ¬ d.MissesKeyField typeName n) ∧
    (¬ s.Unbacked typeName n → s.diagnostics.countP (unresolvedAt typeName n) = 0) := by
  classical
  refine ⟨fun h => ⟨?_, ?_, fun d hd hmisses => ?_⟩, fun h => ?_⟩
  · rw [countP_unresolvedAt, if_pos h]
  · obtain ⟨f, hfield⟩ := h.exists_field?_composedSchema
    refine ⟨f, hfield, fun path => ?_⟩
    rw [Schema.followPath, hfield]
  · obtain ⟨f, hfield⟩ := h.exists_field?_composedSchema
    rw [Schema.field?_eq_none_of_mem_keyProblems (mem_keyProblems_of_missesKeyField hd hmisses)
      hmisses] at hfield
    cases hfield
  · rw [countP_unresolvedAt, if_neg h]

def nameField : Field := { name := "name", type := .named "String" }

def mailField : Field :=
  { name := "mail", type := .named "String", directives := [{ name := "external" }] }

/-- A service that defines a type. -/
def usersService : Service where
  name := "users"
  document := ⟨[.type { name := "User", body := .object { fields := [nameField] } }]⟩

/-- A service that extends the type under a key that it does not resolve. -/
def mailsService : Service where
  name := "mails"
  document :=
    ⟨[.type
        { name := "User"
          isExtension := true
          directives := [{ name := "key", arguments := [⟨"fields", .string "mail"⟩] }]
          body := .object { fields := [mailField] } }]⟩

/-- The two services together. -/
def userServices : Subgraphs where
  services := [usersService.toSubgraph, mailsService.toSubgraph]
  nodup := by simp [usersService, mailsService]

/-- The key field is reported once, as a field that no service resolves and not for the key that
selects it. The field of the first service is not reported. -/
theorem userServices_unbacked :
    userServices.diagnostics.countP (unresolvedAt "User" "mail") = 1 ∧
      (∀ d ∈ userServices.diagnostics, ¬ d.MissesKeyField "User" "mail") ∧
      userServices.diagnostics.countP (unresolvedAt "User" "name") = 0 := by
  have hmail : userServices.Unbacked "User" "mail" := by
    have husers : userServices.firstField? "User" "mail" usersService.toSubgraph = none := by cbv
    have hmails : userServices.firstField? "User" "mail" mailsService.toSubgraph =
        some mailField := by cbv
    refine ⟨⟨mailsService.toSubgraph, by simp [userServices], by rw [hmails]; rfl⟩, ?_⟩
    intro g hg f hf
    rcases List.mem_pair.mp hg with rfl | rfl
    · rw [husers] at hf
      cases hf
    · rw [hmails] at hf
      cases hf
      decide
  have hname : ¬ userServices.Unbacked "User" "name" := by
    intro h
    have hexternal := h.external usersService.toSubgraph (by simp [userServices]) nameField (by cbv)
    exact absurd hexternal (by decide)
  obtain ⟨hcount, -, hkeys⟩ := (unbacked_fields_reported_once userServices "User" "mail").1 hmail
  exact ⟨hcount, hkeys, (unbacked_fields_reported_once userServices "User" "name").2 hname⟩

end Subgraphs

end Federation
