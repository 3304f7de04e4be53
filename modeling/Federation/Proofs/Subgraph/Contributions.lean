import Federation.Proofs.Document.Visits
import Federation.Subgraph.Basic
/-!
# Subgraphs — what a service contributes

A service contributes its type definitions and extensions under the
conventional names of root types, all but those that only a router uses.
`Service.typeContributions` says this as a renaming of the definitions
as they were written. Where no type shadows a root type, it is what the
visit that renames root types leaves (`typeDefinitions_ofService`), so
that the visit drops nothing.
-/

namespace Federation

/-! ## The renaming, node by node -/

namespace RootRename

variable (rs : List RootRename)

/-- An argument or input field under the conventional names. -/
def inputValue (v : InputValue) : InputValue :=
  { v with type := type rs v.type }

/-- A field under the conventional names. -/
def field (f : Field) : Field :=
  { f with type := type rs f.type, arguments := f.arguments.map (inputValue rs) }

/-- What a definition holds under the conventional names. -/
def members : TypeBody → TypeBody
  | .scalar => .scalar
  | .object b =>
    .object { implements := b.implements.map (name rs), fields := b.fields.map (field rs) }
  | .interface b =>
    .interface { implements := b.implements.map (name rs), fields := b.fields.map (field rs) }
  | .union members => .union (members.map (name rs))
  | .enum values => .enum values
  | .inputObject fields => .inputObject (fields.map (inputValue rs))

/-- A type definition under the conventional names. -/
def definition (d : TypeDefinition) : TypeDefinition :=
  { d with name := name rs d.name, body := members rs d.body }

/-- A directive definition under the conventional names. -/
def directive (d : DirectiveDefinition) : DirectiveDefinition :=
  { d with arguments := d.arguments.map (inputValue rs) }

/-- A definition under the conventional names, if it does not shadow a root type. -/
def renamed? : Definition → Option Definition
  | .schema d => some (.schema d)
  | .type d => if shadows rs d.name then none else some (.type (definition rs d))
  | .directive d => some (.directive (directive rs d))

/-! Without renames nothing changes. -/

@[simp] theorem name_nil : name [] = id := rfl

@[simp] theorem inputValue_nil : inputValue [] = id := rfl

@[simp] theorem field_nil : field [] = id := by
  funext f
  simp [field, type]

@[simp] theorem members_nil (b : TypeBody) : members [] b = b := by
  cases b <;> simp [members]

@[simp] theorem definition_nil : definition [] = id := by
  funext d
  simp [definition]

@[simp] theorem directive_nil : directive [] = id := by
  funext d
  simp [directive]

end RootRename

/-! ## The visit that renames -/

namespace Transform

variable (rs : List RootRename)

theorem visitDirectives_transform (ds : List Directive) :
    ((RootRename.transform rs).visitDirectives ds).run = ds := by
  have h := visitList_eq_map (RootRename.transform rs).directive pure (g := id)
    (fun d => ⟨d, rfl, rfl⟩) ds
  rw [List.map_id] at h
  exact h

theorem visitInputValues_transform (vs : List InputValue) :
    ((RootRename.transform rs).visitInputValues vs).run = vs.map (RootRename.inputValue rs) := by
  refine visitList_eq_map _ _ (fun v => ⟨RootRename.inputValue rs v, rfl, ?_⟩) vs
  simp only [Id.run_bind, Id.run_pure, visitDirectives_transform]

theorem visitFields_transform (fs : List Field) :
    ((RootRename.transform rs).visitFields fs).run = fs.map (RootRename.field rs) := by
  refine visitList_eq_map _ _ (fun f => ⟨{ f with type := RootRename.type rs f.type }, rfl, ?_⟩) fs
  simp only [Id.run_bind, Id.run_pure, visitDirectives_transform, visitInputValues_transform]
  rfl

theorem visitEnumValues_transform (vs : List EnumValue) :
    ((RootRename.transform rs).visitEnumValues vs).run = vs := by
  have h := visitList_eq_map (RootRename.transform rs).enumValue
    (fun v => do
      return { v with directives := ← (RootRename.transform rs).visitDirectives v.directives })
    (g := id) (fun v => ⟨v, rfl, by simp [visitDirectives_transform]⟩) vs
  rw [List.map_id] at h
  exact h

theorem visitBody_transform (b : TypeBody) :
    ((RootRename.transform rs).visitBody (RootRename.body rs b)).run = RootRename.members rs b := by
  cases b <;> simp [RootRename.body, visitBody, RootRename.members, visitFields_transform,
    visitEnumValues_transform, visitInputValues_transform]

theorem visitType_transform (d : TypeDefinition) :
    ((RootRename.transform rs).visitType
        { d with name := RootRename.name rs d.name, body := RootRename.body rs d.body }).run =
      RootRename.definition rs d := by
  simp only [visitType, Id.run_bind, Id.run_pure, visitBody_transform, visitDirectives_transform]
  rfl

/-- A type definition that shadows a root is dropped, and any other is renamed. -/
theorem visitDefinition_type (d : TypeDefinition) :
    ((RootRename.transform rs).visitDefinition (.type d)).run =
      if RootRename.shadows rs d.name then none else some (.type (RootRename.definition rs d)) := by
  by_cases h : RootRename.shadows rs d.name
  · have hook : (RootRename.transform rs).typeDefinition d = Action.delete := if_pos h
    rw [visitDefinition, hook, if_pos h]
    rfl
  · have hook : (RootRename.transform rs).typeDefinition d = Action.replace
        { d with name := RootRename.name rs d.name, body := RootRename.body rs d.body } := if_neg h
    rw [visitDefinition, hook, if_neg h, ← visitType_transform]
    rfl

theorem visitDefinition_directive (d : DirectiveDefinition) :
    ((RootRename.transform rs).visitDefinition (.directive d)).run =
      some (.directive (RootRename.directive rs d)) := by
  rw [RootRename.directive, ← visitInputValues_transform]
  rfl

theorem visitDefinition_schema (d : SchemaDefinition) :
    ((RootRename.transform rs).visitDefinition (.schema d)).run = some (.schema d) := by
  have h := visitDirectives_transform rs d.directives
  show some (Definition.schema
    { d with directives := ((RootRename.transform rs).visitDirectives d.directives).run }) = _
  rw [h]

/-- **A definition is visited** to what it is under the conventional names. -/
theorem visitDefinition_transform (x : Definition) :
    ((RootRename.transform rs).visitDefinition x).run = RootRename.renamed? rs x := by
  cases x with
  | schema d => exact visitDefinition_schema rs d
  | type d => exact visitDefinition_type rs d
  | directive d => exact visitDefinition_directive rs d

end Transform

namespace Document

variable (d : Document)

/-- **The document under the conventional names** has its definitions renamed, in order. -/
theorem definitions_withConventionalRoots :
    d.withConventionalRoots.definitions =
      d.definitions.filterMap (RootRename.renamed? d.rootRenames) := by
  rw [withConventionalRoots]
  split
  · rename_i hnone
    have hsame : RootRename.renamed? [] = some := by
      funext x
      cases x <;> simp [RootRename.renamed?, RootRename.shadows]
    rw [hnone, hsame, List.filterMap_some]
  · simp only [visit, Id.run_bind, Id.run_pure, Transform.visitDefinitions_eq_filterMap,
      Transform.visitDefinition_transform]

/-- **The types under the conventional names** are the definitions that shadow no root, renamed. -/
theorem typeDefinitions_withConventionalRoots :
    d.withConventionalRoots.typeDefinitions =
      (d.typeDefinitions.filter fun t => !RootRename.shadows d.rootRenames t.name).map
        (RootRename.definition d.rootRenames) := by
  rw [typeDefinitions, definitions_withConventionalRoots, typeDefinitions,
    List.filterMap_filterMap, List.filter_filterMap, List.map_filterMap]
  congr 1
  funext x
  cases x with
  | schema x => rfl
  | directive x => rfl
  | type x =>
    by_cases h : RootRename.shadows d.rootRenames x.name <;>
      simp [RootRename.renamed?, Option.filter_some, h]

/-- The directive definitions stay, with the types of their arguments renamed. -/
theorem directiveDefinitions_withConventionalRoots :
    d.withConventionalRoots.directiveDefinitions =
      d.directiveDefinitions.map (RootRename.directive d.rootRenames) := by
  rw [directiveDefinitions, definitions_withConventionalRoots, directiveDefinitions,
    List.filterMap_filterMap, List.map_filterMap]
  congr 1
  funext x
  cases x with
  | schema x => rfl
  | directive x => rfl
  | type x => by_cases h : RootRename.shadows d.rootRenames x.name <;> simp [RootRename.renamed?, h]

/-- The schema definitions stay as they are. -/
theorem schemaDefinitions_withConventionalRoots :
    d.withConventionalRoots.schemaDefinitions = d.schemaDefinitions := by
  rw [schemaDefinitions, definitions_withConventionalRoots, schemaDefinitions,
    List.filterMap_filterMap]
  congr 1
  funext x
  cases x with
  | schema x => rfl
  | directive x => rfl
  | type x => by_cases h : RootRename.shadows d.rootRenames x.name <;> simp [RootRename.renamed?, h]

end Document

/-! ## What a service contributes -/

namespace Service

/-- The type definitions and extensions that a service contributes, in order: those it was written
with under the conventional names of root types, except the types that only a router uses. -/
def typeContributions (s : Service) : List TypeDefinition :=
  (s.document.typeDefinitions.map (RootRename.definition s.document.rootRenames)).filter
    fun d => !Subgraph.routerTypes.contains d.name

/-- The directive definitions of a service, in order and under the conventional names. -/
def directiveContributions (s : Service) : List DirectiveDefinition :=
  s.document.directiveDefinitions.map (RootRename.directive s.document.rootRenames)

/-- The service among the services to compose. -/
def toSubgraph (s : Service) : Subgraph :=
  { name := s.name, url := s.url, content := .ok s.document }

@[simp] theorem toSubgraph_name (s : Service) : s.toSubgraph.name = s.name := rfl

theorem directiveDefinitions_toSubgraph (s : Service) :
    s.toSubgraph.document.directiveDefinitions = s.directiveContributions :=
  s.document.directiveDefinitions_withConventionalRoots

/-- **A service without problems contributes all it was written with.** A type that would be
dropped for shadowing a root type is a problem. -/
theorem typeDefinitions_toSubgraph {s : Service} (h : s.toSubgraph.problems = []) :
    s.toSubgraph.typeDefinitions = s.typeContributions := by
  have hshadow : s.document.shadowingTypes = [] := by
    simp only [Subgraph.problems, toSubgraph, List.map_eq_nil_iff, List.append_eq_nil_iff] at h
    exact h.1
  -- no type shadows a root, so the visit drops none
  have hall : (s.document.typeDefinitions.filter
      fun t => !RootRename.shadows s.document.rootRenames t.name) = s.document.typeDefinitions := by
    rw [List.filter_eq_self]
    intro t ht
    simpa using (List.filter_eq_nil_iff.mp hshadow) t ht
  have hvisit : s.toSubgraph.document.typeDefinitions =
      s.document.typeDefinitions.map (RootRename.definition s.document.rootRenames) :=
    s.document.typeDefinitions_withConventionalRoots.trans (by rw [hall])
  rw [Subgraph.typeDefinitions, hvisit, typeContributions]

end Service

/-! ## Taking services in order -/

namespace Subgraphs

theorem eq_of_services {s t : Subgraphs} (h : s.services = t.services) : s = t := by
  cases s
  cases t
  cases h
  rfl

/-- Services with new names are all taken. -/
theorem exists_foldlM_ingest {services : List Service} {s : Subgraphs}
    (h : (s.services.map (·.name) ++ services.map (·.name)).Nodup) :
    ∃ t, services.foldlM ingest s = .ok t := by
  induction services generalizing s with
  | nil => exact ⟨s, rfl⟩
  | cons service services ih =>
    have hnew : service.name ∉ s.services.map (·.name) := by
      intro hmem
      exact (List.nodup_append.mp h).2.2 _ hmem _ List.mem_cons_self rfl
    have hstep :
        ∃ s', s.ingest service = .ok s' ∧ s'.services = s.services ++ [service.toSubgraph] :=
      ⟨_, dif_neg hnew, rfl⟩
    obtain ⟨s', hs', hservices⟩ := hstep
    have hnodup : (s'.services.map (·.name) ++ services.map (·.name)).Nodup := by
      simpa [hservices] using h
    obtain ⟨t, ht⟩ := ih hnodup
    refine ⟨t, ?_⟩
    rw [List.foldlM_cons, hs']
    exact ht

/-- What is taken is the services in order. -/
theorem services_of_foldlM_ingest {services : List Service} {s t : Subgraphs}
    (h : services.foldlM ingest s = .ok t) :
    t.services = s.services ++ services.map Service.toSubgraph := by
  induction services generalizing s with
  | nil =>
    cases h
    simp
  | cons service services ih =>
    rw [List.foldlM_cons] at h
    unfold ingest add at h
    split at h
    · cases h
    · rw [ih h]
      simp [Service.toSubgraph]

/-- Services with distinct names are all taken. -/
theorem exists_ofServices {services : List Service} (h : (services.map (·.name)).Nodup) :
    ∃ t, ofServices services = .ok t :=
  exists_foldlM_ingest h

theorem services_of_ofServices {services : List Service} {t : Subgraphs}
    (h : ofServices services = .ok t) : t.services = services.map Service.toSubgraph :=
  services_of_foldlM_ingest h

end Subgraphs

end Federation
