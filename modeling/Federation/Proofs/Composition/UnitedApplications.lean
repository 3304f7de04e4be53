import Federation.Proofs.Composition.Content
import Federation.Proofs.Composition.MergedDocument
import Federation.Proofs.Directives.Joining
/-!
# Composition — the applications of several declarations as one

An element that services declare together carries what they apply to it:
their applications in order, without those that mean something inside a
service only, each where it first occurs (`Directive.united`). Merging
may keep an application out, in the merged document and once more in the
schema, but then it reports a conflict; so services that are composed
have all their applications united (`compose_unites_applications`), and
a directive that nobody lets be repeated stands on an element once.
-/

namespace Federation

open Declared

namespace Directive

/-- The applications of several declarations as one list: each that means something outside its
service, where it first occurs. -/
def united (ds : List Directive) : List Directive :=
  firstsBy canonical
    (ds.filter fun d => d.name ∉ ["key", "external", "extends", "requires", "provides"])

/-- Of applications that are apart there is one at most of a directive that may be applied once. -/
theorem countP_le_one_of_pairwise {isRepeatable : String → Bool} {ds : List Directive}
    (h : ds.Pairwise (Apart isRepeatable)) {name : String} (honce : isRepeatable name = false) :
    ds.countP (·.name == name) ≤ 1 := by
  induction ds with
  | nil => exact Nat.zero_le 1
  | cons d ds ih =>
    obtain ⟨hd, hds⟩ := List.pairwise_cons.mp h
    rw [List.countP_cons]
    split
    · rename_i hname
      -- the first one of the directive keeps all others out
      have hnone : ds.countP (·.name == name) = 0 := by
        refine List.countP_eq_zero.mpr fun e he hename => ?_
        rw [beq_iff_eq] at hname hename
        refine (hd e he).2 (hename ▸ honce) (hname.trans hename.symm)
      omega
    · exact ih hds

end Directive

namespace TypeDefinition

/-- The applications on each element of a type: on the type itself, on its fields, values and input
fields. -/
def applicationLists (t : TypeDefinition) : List (List Directive) :=
  t.directives :: (t.fields.map (·.directives) ++ t.body.enumValues.map (·.directives) ++
    t.body.inputFields.map (·.directives))

/-- No element of a type carries more than one application of a directive. -/
def AppliesOnce (t : TypeDefinition) (name : String) : Prop :=
  ∀ ds ∈ t.applicationLists, ds.countP (·.name == name) ≤ 1

/-- On a type and on each of its members stand the applications of all contributions to it,
united. -/
structure UnitesApplications (t : TypeDefinition) (cs : List TypeDefinition) : Prop where
  directives : t.directives = Directive.united (cs.flatMap (·.directives))
  fields : ∀ f ∈ t.fields, f.directives =
    Directive.united (((cs.flatMap (·.fields)).filter (·.name == f.name)).flatMap (·.directives))
  enumValues : ∀ v ∈ t.body.enumValues, v.directives = Directive.united
    (((cs.flatMap (·.body.enumValues)).filter (·.name == v.name)).flatMap (·.directives))
  inputFields : ∀ v ∈ t.body.inputFields, v.directives = Directive.united
    (((cs.flatMap (·.body.inputFields)).filter (·.name == v.name)).flatMap (·.directives))

theorem Settled.appliesOnce {isRepeatable : String → Bool} {t : TypeDefinition}
    (h : t.Settled isRepeatable) {name : String} (honce : isRepeatable name = false) :
    t.AppliesOnce name := by
  intro ds hds
  refine Directive.countP_le_one_of_pairwise ?_ honce
  simp only [applicationLists, List.mem_cons, List.mem_append, List.mem_map] at hds
  rcases hds with rfl | (⟨f, hf, rfl⟩ | ⟨v, hv, rfl⟩) | ⟨v, hv, rfl⟩
  · exact h.directives.apart
  · exact (h.fields f hf).apart
  · exact (h.enumValues v hv).apart
  · exact (h.inputFields v hv).apart

end TypeDefinition

/-! ## One element -/

namespace Declared

variable {α : Type} {isRepeatable : String → Bool} {directives : α → List Directive}

/-- **Applications that are merged without a conflict are united.** -/
theorem mergedDirectives_eq_united {coordinate : Coordinate} {ds : List (Declared α)}
    (h : directiveProblems isRepeatable directives coordinate ds = []) :
    mergedDirectives isRepeatable directives ds =
      Directive.united (ds.flatMap fun d => directives d.node) := by
  have hconflicts : Directive.conflicts isRepeatable (firstsBy Directive.canonical [])
      (applications directives ds) = [] := List.map_eq_nil_iff.mp h
  have hcomposed : applications directives ds =
      (ds.flatMap fun d => directives d.node).filter fun d =>
        d.name ∉ ["key", "external", "extends", "requires", "provides"] := by
    refine List.filter_congr fun d _ => ?_
    rw [FederationDirective.isServiceOnly, List.contains_eq_mem, ← decide_not]
    rfl
  rw [mergedDirectives, Directive.united, ← hcomposed]
  exact Directive.merge_firstsBy hconflicts

/-- **The applications on a member are united**, where each service declares it once. -/
theorem mergedDirectives_named {coordinate : Coordinate} {name : α → String} {n : String}
    {ds : List (Declared α)} (hnodup : ((named name n ds).map (·.rank)).Nodup)
    (h : directiveProblems isRepeatable directives coordinate
      (firstPerService (named name n ds)) = []) :
    mergedDirectives isRepeatable directives (named name n ds) =
      Directive.united (((ds.map (·.node)).filter (name · == n)).flatMap directives) := by
  rw [firstPerService_eq_self hnodup] at h
  rw [mergedDirectives_eq_united h, List.filter_map, List.flatMap_map]
  rfl

end Declared

/-! ## One type -/

namespace Subgraphs

variable {s : Subgraphs} {typeName : String} {isRepeatable : String → Bool}

theorem directives_of_mem_fields (h : (s.group typeName).problems isRepeatable = []) {f : Field}
    (hf : f ∈ ((s.group typeName).body isRepeatable).fields) :
    f.directives = Directive.united ((((s.contributions typeName).flatMap (·.fields)).filter
      (·.name == f.name)).flatMap (·.directives)) := by
  obtain ⟨d, hd, hname, hcompose⟩ :=
    (FieldDeclaration.keepsName_compose isRepeatable).compose_named
      (TypeGroup.mem_fields_of_body isRepeatable hf) fun _ hd =>
        FieldDeclaration.nodup_rank_of_problems (field_problems_eq_nil h hd)
  have hproblems := field_problems_eq_nil h hd
  rw [hname] at hproblems
  rw [FieldDeclaration.directives_of_compose hcompose,
    mergedDirectives_named (FieldDeclaration.nodup_rank_of_problems hproblems)
      (List.append_eq_nil_iff.mp hproblems).2,
    map_node_fieldDeclarations, ← List.map_flatMap, List.filter_map, List.flatMap_map]
  rfl

theorem directives_of_mem_enumValues (h : (s.group typeName).problems isRepeatable = [])
    {v : EnumValue} (hv : v ∈ ((s.group typeName).body isRepeatable).enumValues) :
    v.directives = Directive.united ((((s.contributions typeName).flatMap
      (·.body.enumValues)).filter (·.name == v.name)).flatMap (·.directives)) := by
  obtain ⟨d, hd, hname, hcompose⟩ :=
    (EnumValue.keepsName_compose isRepeatable).compose_named
      (TypeGroup.mem_enumValues_of_body isRepeatable hv) fun _ hd =>
        EnumValue.nodup_rank_of_problems (enumValue_problems_eq_nil h hd)
  have hproblems := enumValue_problems_eq_nil h hd
  rw [hname] at hproblems
  rw [EnumValue.directives_of_compose hcompose,
    mergedDirectives_named (EnumValue.nodup_rank_of_problems hproblems)
      (List.append_eq_nil_iff.mp hproblems).2, map_node_enumValues]

theorem directives_of_mem_inputFields (h : (s.group typeName).problems isRepeatable = [])
    {v : InputValue} (hv : v ∈ ((s.group typeName).body isRepeatable).inputFields) :
    v.directives = Directive.united ((((s.contributions typeName).flatMap
      (·.body.inputFields)).filter (·.name == v.name)).flatMap (·.directives)) := by
  obtain ⟨d, hd, hname, hcompose⟩ :=
    (InputValue.keepsName_compose isRepeatable).compose_named
      (TypeGroup.mem_inputFields_of_body isRepeatable hv) fun _ hd =>
        InputValue.nodup_rank_of_problems (inputField_problems_eq_nil h hd)
  have hproblems := inputField_problems_eq_nil h hd
  rw [hname] at hproblems
  rw [InputValue.directives_of_compose hcompose,
    mergedDirectives_named (InputValue.nodup_rank_of_problems hproblems)
      (List.append_eq_nil_iff.mp hproblems).2, map_node_inputFields]

/-- **A type that is composed without problems unites what its contributions apply.** -/
theorem unitesApplications_definition (h : (s.group typeName).problems isRepeatable = []) :
    ((s.group typeName).definition isRepeatable).UnitesApplications
      (s.contributions typeName) where
  directives := by
    have happlied := (List.append_eq_nil_iff.mp (TypeGroup.problemsOfOneKind_eq_nil h)).2
    exact (mergedDirectives_eq_united happlied).trans
      (congrArg Directive.united (s.flatMap_group typeName (·.directives)))
  fields _ hf := directives_of_mem_fields h hf
  enumValues _ hv := directives_of_mem_enumValues h hv
  inputFields _ hv := directives_of_mem_inputFields h hv

/-! ## The composed types -/

/-- Services without problems have the types that they were merged to: none of their applications is
kept out when the merged document is applied. -/
theorem types_eq_mergedTypes (h : s.allProblems = []) :
    s.composedSchema.1.types = s.mergedTypes := by
  have hmerge := (problems_eq_nil h).2.1
  have hclashes : s.composedSchema.2 = [] := by
    simp only [allProblems, List.append_eq_nil_iff] at h
    exact h.1.2
  rw [composedSchema_eq] at hclashes ⊢
  exact map_eq_self fun t ht => (applicationConflicts_eq_nil_iff hmerge ht).2
    (List.flatMap_eq_nil_iff.mp hclashes t ht)

theorem unitesApplications_of_mem_types (h : s.allProblems = []) {t : TypeDefinition}
    (ht : t ∈ s.composedSchema.1.types) :
    t.UnitesApplications (s.contributions t.name) ∧ t.Settled s.repeatableNames.contains := by
  rw [types_eq_mergedTypes h, mergedTypes_eq] at ht
  obtain ⟨n, hn, rfl⟩ := List.mem_map.mp ht
  have hgroup := group_problems_eq_nil (problems_eq_nil h).2.1 hn
  refine ⟨?_, TypeGroup.settled_definition _ _⟩
  rw [show (TypeGroup.definition _ (s.group n).ofOneKind).name = n from name_ofOneKind_group hn,
    TypeGroup.ofOneKind_eq_self hgroup]
  exact unitesApplications_definition hgroup

end Subgraphs

namespace Service

/-- A directive that no definition lets be repeated, not a built-in one and not one of a
service. -/
def AppliedOnce (services : List Service) (name : String) : Prop :=
  (∀ d ∈ DirectiveDefinition.builtIn, d.name = name → d.isRepeatable = false) ∧
    ∀ service ∈ services, ∀ d ∈ service.document.directiveDefinitions,
      d.name = name → d.isRepeatable = false

theorem AppliedOnce.repeatableNames {services : List Service} {name : String}
    (h : AppliedOnce services name) {s : Subgraphs}
    (hs : s.services = services.map toSubgraph) : s.repeatableNames.contains name = false := by
  rw [Bool.eq_false_iff, Ne, Subgraphs.contains_repeatableNames_iff,
    DirectiveDefinition.any_isRepeatable_builtIn?, Subgraphs.exists_repeatable_iff, hs]
  rintro (⟨d, hd, hrepeatable, rfl⟩ | ⟨g, hg, d, hd, rfl, hrepeatable⟩)
  · rw [h.1 d hd rfl] at hrepeatable
    cases hrepeatable
  · obtain ⟨service, hservice, rfl⟩ := List.mem_map.mp hg
    rw [directiveDefinitions_toSubgraph] at hd
    obtain ⟨e, he, rfl⟩ := List.mem_map.mp hd
    have honce := h.2 service hservice e he rfl
    rw [show (RootRename.directive _ e).isRepeatable = e.isRepeatable from rfl, honce]
      at hrepeatable
    cases hrepeatable

/-- **Every composed element carries the applications of all its declarations, united**: they stand
in the order of the services' names and then of the documents, without those that mean something
inside a service only, each where it first occurs. A directive that no definition lets be repeated
stands on an element once at most. -/
theorem compose_unites_applications {services : List Service} {g : Supergraph}
    (h : compose services = .ok (.ok g)) :
    ∀ t ∈ g.schema.types,
      t.UnitesApplications (contributions services t.name) ∧
        ∀ name, AppliedOnce services name → t.AppliesOnce name := by
  obtain ⟨s, hs, hnone, hschema, hcontributed⟩ := exists_of_compose h
  rw [hschema]
  intro t ht
  obtain ⟨hunites, hsettled⟩ := Subgraphs.unitesApplications_of_mem_types hnone ht
  rw [Subgraphs.contributions_of_services hs hcontributed] at hunites
  exact ⟨hunites, fun name honce => hsettled.appliesOnce (honce.repeatableNames hs)⟩

/-! ### Notes on users

Two services let notes be repeated, and both note something on users: what the service `a` notes is
noted by the service `b` too. -/

/-- A note on an element. -/
def note (text : String) : Directive :=
  { name := "note", arguments := [⟨"text", .string text⟩] }

/-- A service that notes texts on users, and whose users have a deprecated name. -/
def notingService (name : String) (texts : List String) (others : List Definition) : Service :=
  { name
    document :=
      ⟨.directive
          { name := "note"
            arguments := [{ name := "text", type := .named "String" }]
            isRepeatable := true
            locations := [.object] } ::
        .type
          { name := "User"
            directives := ⟨"key", [⟨"fields", .string "name"⟩]⟩ :: texts.map note
            body := .object
              { fields :=
                  [{ name := "name", type := .named "String"
                     directives := [⟨"deprecated", []⟩] }] } } :: others⟩ }

/-- Two services that note texts on users, in the other order than that of their names. -/
def notingServices : List Service :=
  [notingService "b" ["y", "x"] [],
    notingService "a" ["x"]
      [.type
        { name := "Query"
          body := .object { fields := [{ name := "me", type := .named "User" }] } }]]

/-- Every text is noted once, that of the service `a` first, and the name is deprecated once. -/
theorem notingServices_unite_applications :
    ∃ g, compose notingServices = .ok (.ok g) ∧
      (g.schema.types.map fun t => (t.name, t.directives, t.fields.map (·.directives))) =
        [("Query", [], [[]]), ("User", [note "x", note "y"], [[⟨"deprecated", []⟩]])] ∧
      ∀ t ∈ g.schema.types,
        t.UnitesApplications (contributions notingServices t.name) ∧
          t.AppliesOnce "deprecated" := by
  obtain ⟨g, hg, htypes⟩ : ∃ g, compose notingServices = .ok (.ok g) ∧
      (g.schema.types.map fun t => (t.name, t.directives, t.fields.map (·.directives))) =
        [("Query", [], [[]]), ("User", [note "x", note "y"], [[⟨"deprecated", []⟩]])] :=
    exists_compose
      (fun s => s.types.map fun t => (t.name, t.directives, t.fields.map (·.directives))) (by cbv)
  have honce : AppliedOnce notingServices "deprecated" := ⟨by decide, by decide⟩
  refine ⟨g, hg, htypes, fun t ht => ?_⟩
  obtain ⟨hunites, happlies⟩ := compose_unites_applications hg t ht
  exact ⟨hunites, happlies "deprecated" honce⟩

end Service

end Federation
