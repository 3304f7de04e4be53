import Federation.Proofs.Composition.Blocks
import Federation.Proofs.Composition.SourcePositions
/-!
# Composition — split extensions

Services of which one spreads an extension over two blocks are composed
to the same supergraph, or rejected by the same diagnostics, wherever the
nodes stand, but for two kinds of reports (`compose_splitsAt`). A type
that shadows a root is reported for each of its blocks. And the fields of
a block are looked for in the keys of that block only, so a key field
that is not marked as resolved elsewhere is missed when another block
holds its key: services that have to be rejected can be composed by
splitting an extension (`splitKey_escapes`).
-/

namespace Federation

open Diagnostic (unlocated)

/-! ## Services with the same names -/

namespace Subgraphs

/-- Whether services are taken depends on their names only. -/
theorem foldlM_ingest_of_names {services services' : List Service} {s s' : Subgraphs}
    (hs : s.services.map (·.name) = s'.services.map (·.name))
    (h : services.map (·.name) = services'.map (·.name)) :
    (∃ x, services.foldlM ingest s = .error x ∧ services'.foldlM ingest s' = .error x) ∨
      ∃ t t', services.foldlM ingest s = .ok t ∧ services'.foldlM ingest s' = .ok t' := by
  induction services generalizing services' s s' with
  | nil =>
    rw [List.map_nil, eq_comm, List.map_eq_nil_iff] at h
    rw [h]
    exact .inr ⟨s, s', rfl, rfl⟩
  | cons service services ih =>
    cases services' with
    | nil => cases h
    | cons service' services' =>
      obtain ⟨hname, hnames⟩ : service.name = service'.name ∧
          services.map (·.name) = services'.map (·.name) := List.cons.inj h
      rw [List.foldlM_cons, List.foldlM_cons]
      by_cases hmem : service.name ∈ s.services.map (·.name)
      · have hmem' : service'.name ∈ s'.services.map (·.name) := by
          rwa [← hs, ← hname]
        refine .inl ⟨.duplicateName service.name, ?_, ?_⟩
        · rw [ingest, add, dif_pos hmem]
          rfl
        · rw [hname, ingest, add, dif_pos hmem']
          rfl
      · have hmem' : service'.name ∉ s'.services.map (·.name) := by
          rwa [← hs, ← hname]
        rw [ingest, add, dif_neg hmem, ingest, add, dif_neg hmem']
        refine ih ?_ hnames
        rw [List.map_append, List.map_append, hs, List.map_singleton, List.map_singleton, hname]

end Subgraphs

namespace Service

/-- The service with every node nowhere. -/
def nowhere (s : Service) : Service :=
  s.relocate fun _ => Location.none

/-- What becomes of services, and of the same services when an extension stands in two blocks, some
reports hidden and others repeated. Names that are used twice are refused in any case. Otherwise
both are composed to the same, wherever the nodes stand, or both are rejected, by the same reports
but for the hidden and the repeated ones, or the hidden reports were all that there were, and the
services in blocks are composed. -/
inductive BlockOutcomes (hidden repeated : List Diagnostic) :
    Except IngestError (Except (List Diagnostic) Supergraph) →
      Except IngestError (Except (List Diagnostic) Supergraph) → Prop
  | refused (e : IngestError) : BlockOutcomes hidden repeated (.error e) (.error e)
  | composed {g g' : Supergraph} (schema : g.schema.unlocated = g'.schema.unlocated)
      (ownership : g.schema.ownership = g'.schema.ownership) (text : g.text = g'.text) :
      BlockOutcomes hidden repeated (.ok (.ok g)) (.ok (.ok g'))
  | rejected {ds ds' : List Diagnostic}
      (diagnostics : (ds'.map unlocated ++ hidden).Perm (ds.map unlocated ++ repeated)) :
      BlockOutcomes hidden repeated (.ok (.error ds)) (.ok (.error ds'))
  | escaped {ds : List Diagnostic} {g' : Supergraph} (hidden_ne_nil : hidden ≠ [])
      (diagnostics : (ds.map unlocated).Perm hidden) :
      BlockOutcomes hidden repeated (.ok (.error ds)) (.ok (.ok g'))

variable {s s' : Service} {e a b : TypeDefinition} {before after : List Service}

theorem rootRenames_nowhere : s.nowhere.document.rootRenames = s.document.rootRenames :=
  s.document.rootRenames_relocate _

theorem hiddenKeyReports_nowhere : s.nowhere.hiddenKeyReports = s.hiddenKeyReports := by
  have hcomposes : s.nowhere.composesType = s.composesType := by
    funext n
    rw [composesType, rootRenames_nowhere, composesType]
  funext a b
  rw [hiddenKeyReports, hcomposes, rootRenames_nowhere, hiddenKeyReports]
  rfl

theorem shadowReports_nowhere : s.nowhere.shadowReports = s.shadowReports := by
  have hname : s.nowhere.name = s.name := rfl
  funext t
  simp only [shadowReports, rootRenames_nowhere, hname]

/-- A definition that shadows a root is a problem, whether or not it stands in blocks. -/
theorem SplitsAt.shadowReports_of_problems (h : s.SplitsAt s' e a b)
    (hnone : s.toSubgraph.problems = [] ∨ s'.toSubgraph.problems = []) :
    s.shadowReports e = [] := by
  rcases hnone with hnone | hnone
  · obtain ⟨_, _, hd, -⟩ := h.document.exists_typeDefinitions_eq
    rw [problems_eq, List.append_eq_nil_iff, hd] at hnone
    exact List.flatMap_eq_nil_iff.mp hnone.1 e (by simp)
  · have hperm := h.problems_perm
    rw [hnone, List.nil_perm, List.append_eq_nil_iff] at hperm
    exact hperm.2

/-- What is wrong with a service is wrong with the services. -/
theorem problems_of_allProblems {t : Subgraphs}
    (ht : t.services = (before ++ s :: after).map toSubgraph) (hnone : t.allProblems = []) :
    s.toSubgraph.problems = [] := by
  simp only [Subgraphs.allProblems, List.append_eq_nil_iff] at hnone
  obtain ⟨⟨⟨⟨hproblems, -⟩, -⟩, -⟩, -⟩ := hnone
  refine List.flatMap_eq_nil_iff.mp hproblems s.toSubgraph ?_
  rw [ht]
  exact List.mem_map_of_mem (by simp)

/-- Services that are composed nowhere to the same, both without a problem, are composed to the
same. -/
theorem blockOutcomes_of_eq_nil {hidden repeated : List Diagnostic} {t t' : Subgraphs}
    {services services' : List Service} (hs : t.services = services.map toSubgraph)
    (hs' : t'.services = services'.map toSubgraph)
    (hnone : t.allProblems = []) (hnone' : t'.allProblems = [])
    (heq : (t.relocate fun _ => Location.none).compose =
      (t'.relocate fun _ => Location.none).compose) :
    BlockOutcomes hidden repeated (.ok t.compose) (.ok t'.compose) := by
  rw [Subgraphs.compose_relocate t rfl hs, Subgraphs.compose_relocate t' rfl hs'] at heq
  have halike : OutcomesAlike (.ok t.compose) (.ok t'.compose) :=
    .of_relocate (congrArg Except.ok heq)
  rw [Subgraphs.compose_of_eq_nil hnone, Subgraphs.compose_of_eq_nil hnone'] at halike ⊢
  cases halike with
  | composed hschema hownership htext => exact .composed hschema hownership htext

/-- **What becomes of services that are taken.** -/
theorem blockOutcomes_of_splits {t t' : Subgraphs}
    (ht : t.services = (before ++ s :: after).map toSubgraph)
    (ht' : t'.services = (before ++ s' :: after).map toSubgraph)
    (h : s.nowhere.SplitsAt s'.nowhere e a b) :
    BlockOutcomes (s.hiddenKeyReports a b) (s.shadowReports e) (.ok t.compose)
      (.ok t'.compose) := by
  have hnowhere : ∀ (x : Service) (u : Subgraphs),
      u.services = (before ++ x :: after).map toSubgraph →
        (u.relocate fun _ => Location.none).services =
          (before.map nowhere ++ x.nowhere :: after.map nowhere).map toSubgraph := by
    intro x u hu
    rw [Subgraphs.services_relocate, hu]
    simp only [List.map_append, List.map_cons, List.map_map]
    rfl
  -- the blocks are those of the service nowhere, so what is wrong is compared there
  have hu := hnowhere s t ht
  have hu' := hnowhere s' t' ht'
  have hproblems : (t'.allProblems.map unlocated ++ s.hiddenKeyReports a b).Perm
      (t.allProblems.map unlocated ++ s.shadowReports e) := by
    have hperm := Subgraphs.allProblems_of_splits hu hu' h
    rwa [Subgraphs.allProblems_relocate t rfl, Subgraphs.allProblems_relocate t' rfl,
      hiddenKeyReports_nowhere, shadowReports_nowhere] at hperm
  have hshadow : t.allProblems = [] ∨ t'.allProblems = [] → s.shadowReports e = [] := by
    intro hnone
    rw [← shadowReports_nowhere]
    refine h.shadowReports_of_problems (hnone.imp (fun hnone => ?_) fun hnone => ?_)
    · exact problems_of_allProblems hu (by rw [Subgraphs.allProblems_relocate t rfl, hnone]; rfl)
    · exact problems_of_allProblems hu' (by rw [Subgraphs.allProblems_relocate t' rfl, hnone]; rfl)
  -- what is repeated has been reported already, so it does not turn success into failure
  by_cases hnone : t.allProblems = []
  · rw [hshadow (.inl hnone), hnone, List.map_nil, List.append_nil, List.perm_nil,
      List.append_eq_nil_iff, List.map_eq_nil_iff] at hproblems
    refine blockOutcomes_of_eq_nil ht ht' hnone hproblems.1 ?_
    have hu_none : (t.relocate fun _ => Location.none).allProblems = [] := by
      rw [Subgraphs.allProblems_relocate t rfl, hnone, List.map_nil]
    have hu_none' : (t'.relocate fun _ => Location.none).allProblems = [] := by
      rw [Subgraphs.allProblems_relocate t' rfl, hproblems.1, List.map_nil]
    rw [Subgraphs.compose_of_eq_nil hu_none, Subgraphs.compose_of_eq_nil hu_none',
      (Subgraphs.composedSchema_of_splits hu hu' h).2, Subgraphs.graphs_of_splits hu hu' h]
  · rw [Subgraphs.compose_of_ne_nil hnone]
    have hsorted := (Diagnostic.sorted_perm t.allProblems).map unlocated
    by_cases hnone' : t'.allProblems = []
    · -- the reports that are hidden were all that there were
      rw [hshadow (.inr hnone'), hnone', List.map_nil, List.nil_append,
        List.append_nil] at hproblems
      rw [Subgraphs.compose_of_eq_nil hnone']
      refine .escaped ?_ (hsorted.trans hproblems.symm)
      intro hhidden
      rw [hhidden, List.nil_perm, List.map_eq_nil_iff] at hproblems
      exact hnone hproblems
    · have hsorted' := (Diagnostic.sorted_perm t'.allProblems).map unlocated
      rw [Subgraphs.compose_of_ne_nil hnone']
      refine .rejected ?_
      exact (hsorted'.append_right _).trans (hproblems.trans (hsorted.symm.append_right _))

/-- **An extension may stand in two blocks.** -/
theorem compose_splitsAt (h : s.nowhere.SplitsAt s'.nowhere e a b) (before after : List Service) :
    BlockOutcomes (s.hiddenKeyReports a b) (s.shadowReports e)
      (compose (before ++ s :: after)) (compose (before ++ s' :: after)) := by
  have hnames : (before ++ s :: after).map (·.name) = (before ++ s' :: after).map (·.name) := by
    have hname : s'.name = s.name := h.name
    simp [hname]
  rcases Subgraphs.foldlM_ingest_of_names rfl hnames with ⟨x, hx, hx'⟩ | ⟨t, t', ht, ht'⟩
  · rw [compose, Subgraphs.ofServices, hx, compose, Subgraphs.ofServices, hx']
    exact .refused x
  · have hs := Subgraphs.services_of_ofServices ht
    have hs' := Subgraphs.services_of_ofServices ht'
    rw [compose, Subgraphs.ofServices, ht, compose, Subgraphs.ofServices, ht']
    exact blockOutcomes_of_splits hs hs' h

/-- A service with a type and a field that returns it. -/
def ownerService : Service :=
  { name := "a"
    document :=
      ⟨[.type
          { name := "T"
            body := .object { fields := [{ name := "x", type := .named "Int" }] } },
        .type
          { name := "Query"
            body := .object { fields := [{ name := "t", type := .named "T" }] } }]⟩ }

/-- A field that an extension brings along. -/
def ownField (name : String) : Field :=
  { name, type := .named "Int" }

/-- The field of the extended type, marked as resolved elsewhere. -/
def ownersField : Field :=
  { name := "x"
    type := .named "Int"
    directives := [{ name := FederationDirective.externalName }] }

/-- A block of an extension of that type, with a key or without one. -/
def extensionBlock (key : Option String) (fields : List Field) : TypeDefinition :=
  { name := "T"
    directives := key.toList.map fun key =>
      { name := FederationDirective.keyName, arguments := [⟨"fields", .string key⟩] }
    isExtension := true
    body := .object { fields } }

/-- A service that extends that type in one block. -/
def wholeService (key : String) (fields fields' : List Field) : Service :=
  { name := "b", document := ⟨[.type (extensionBlock (some key) (fields ++ fields'))]⟩ }

/-- The service with some of the fields in a block of their own, without the key. -/
def blockService (key : String) (fields fields' : List Field) : Service :=
  { name := "b"
    document :=
      ⟨[.type (extensionBlock (some key) fields), .type (extensionBlock none fields')]⟩ }

theorem wholeService_splitsAt (key : String) (fields fields' : List Field) :
    (wholeService key fields fields').nowhere.SplitsAt (blockService key fields fields').nowhere
      ((extensionBlock (some key) (fields ++ fields')).relocate fun _ => Location.none)
      ((extensionBlock (some key) fields).relocate fun _ => Location.none)
      ((extensionBlock none fields').relocate fun _ => Location.none) where
  name := rfl
  url := rfl
  document := ⟨[], [], rfl, rfl⟩
  parts :=
    { isExtension := ⟨rfl, rfl, rfl⟩
      name := ⟨rfl, rfl⟩
      kind := ⟨rfl, rfl⟩
      location := ⟨rfl, rfl⟩
      description := rfl
      directives := rfl
      implements := rfl
      members := rfl
      fields := List.map_append
      enumValues := rfl
      inputFields := rfl }

/-- The key names the owner's field, so the other field may stand in a block of its own. -/
theorem wholeService_blockOutcomes :
    ∃ g g',
      compose [ownerService, wholeService "x" [ownersField] [ownField "y"]] = .ok (.ok g) ∧
      compose [ownerService, blockService "x" [ownersField] [ownField "y"]] = .ok (.ok g') ∧
      (g.schema.types.map fun t => (t.name, t.fields.map (·.name))) =
        [("Query", ["t"]), ("T", ["x", "y"])] ∧
      BlockOutcomes [] [] (.ok (.ok g)) (.ok (.ok g')) := by
  obtain ⟨g, hg, htypes⟩ : ∃ g,
      compose [ownerService, wholeService "x" [ownersField] [ownField "y"]] = .ok (.ok g) ∧
      (g.schema.types.map fun t => (t.name, t.fields.map (·.name))) =
        [("Query", ["t"]), ("T", ["x", "y"])] :=
    exists_compose (fun s => s.types.map fun t => (t.name, t.fields.map (·.name))) (by cbv)
  have hhidden : (wholeService "x" [ownersField] [ownField "y"]).hiddenKeyReports
      ((extensionBlock (some "x") [ownersField]).relocate fun _ => Location.none)
      ((extensionBlock none [ownField "y"]).relocate fun _ => Location.none) = [] := by
    cbv
  have hrepeated : (wholeService "x" [ownersField] [ownField "y"]).shadowReports
      ((extensionBlock (some "x") ([ownersField] ++ [ownField "y"])).relocate fun _ =>
        Location.none) = [] := by
    cbv
  have houtcomes : BlockOutcomes [] []
      (compose [ownerService, wholeService "x" [ownersField] [ownField "y"]])
      (compose [ownerService, blockService "x" [ownersField] [ownField "y"]]) := by
    have h := compose_splitsAt (wholeService_splitsAt "x" [ownersField] [ownField "y"])
      [ownerService] []
    rwa [hhidden, hrepeated] at h
  rw [hg] at houtcomes
  -- the services in one block are composed, so that leaves one outcome for those in two
  generalize compose [ownerService, blockService "x" [ownersField] [ownField "y"]] = r
    at houtcomes ⊢
  cases houtcomes with
  | composed hschema hownership htext =>
    exact ⟨g, _, hg, rfl, htypes, .composed hschema hownership htext⟩

/-- The key is not looked for in the block of its field, so services that have to be rejected are
composed. -/
theorem splitKey_escapes :
    (wholeService "id" [] [ownField "id"]).nowhere.SplitsAt
        (blockService "id" [] [ownField "id"]).nowhere
        (extensionBlock (some "id") [ownField "id"]) (extensionBlock (some "id") [])
        (extensionBlock none [ownField "id"]) ∧
      compose [ownerService, wholeService "id" [] [ownField "id"]] =
        .ok (.error
          [{ cause := .keyFieldNotExternal
             coordinate := .member "T" "id"
             service := some "b"
             location := some Location.none }]) ∧
      ∃ g, compose [ownerService, blockService "id" [] [ownField "id"]] = .ok (.ok g) := by
  refine ⟨wholeService_splitsAt "id" [] [ownField "id"], by cbv, ?_⟩
  obtain ⟨g, hg, -⟩ : ∃ g,
      compose [ownerService, blockService "id" [] [ownField "id"]] = .ok (.ok g) ∧
      g.schema.types.map (·.name) = ["Query", "T"] :=
    exists_compose (fun s => s.types.map (·.name)) (by cbv)
  exact ⟨g, hg⟩

end Service

end Federation
