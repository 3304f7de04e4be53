import Federation.Proofs.Splitting
import Federation.Proofs.Subgraph.Contributions
import Federation.Subgraph.Checks
/-!
# Subgraphs — extensions in two blocks

A service may spread an extension over two blocks that hold its
directives, interfaces and members between them
(`TypeDefinition.Splits`). Then its declarations are split in the same
way, and nothing else about the service changes
(`Service.SplitsAt.splits_typeDefinitions`). What is wrong with the
service by itself stays the same, but for two reports: on a type that
shadows a root, which is made for each block, and on key fields that are
not marked as resolved elsewhere, which is not made where another block
holds the key (`Service.SplitsAt.problems_perm`,
`Service.SplitsAt.checkProblems_perm`).
-/

namespace Federation

/-! ## Extensions and their blocks -/

namespace TypeDefinition

/-- Two extensions of a type hold the directives, interfaces and members of another one between
them, in order. -/
structure Splits (e a b : TypeDefinition) : Prop where
  isExtension : e.isExtension = true ∧ a.isExtension = true ∧ b.isExtension = true
  name : a.name = e.name ∧ b.name = e.name
  kind : a.kind = e.kind ∧ b.kind = e.kind
  location : a.location = e.location ∧ b.location = e.location
  description : (a.description <|> b.description) = e.description
  directives : e.directives = a.directives ++ b.directives
  implements : e.implements = a.implements ++ b.implements
  members : e.body.members = a.body.members ++ b.body.members
  fields : e.fields = a.fields ++ b.fields
  enumValues : e.body.enumValues = a.body.enumValues ++ b.body.enumValues
  inputFields : e.body.inputFields = a.body.inputFields ++ b.body.inputFields

end TypeDefinition

namespace RootRename

variable (rs : List RootRename) (b : TypeBody)

theorem kind_members : (members rs b).kind = b.kind := by
  cases b <;> rfl

theorem implements_members : (members rs b).implements = b.implements.map (name rs) := by
  cases b <;> rfl

theorem members_members : (members rs b).members = b.members.map (name rs) := by
  cases b <;> rfl

theorem fields_members : (members rs b).fields = b.fields.map (field rs) := by
  cases b <;> rfl

theorem enumValues_members : (members rs b).enumValues = b.enumValues := by
  cases b <;> rfl

theorem inputFields_members : (members rs b).inputFields = b.inputFields.map (inputValue rs) := by
  cases b <;> rfl

/-- Under the conventional names the blocks are blocks of the same. -/
theorem splits_definition {e a b : TypeDefinition} (h : e.Splits a b) :
    (definition rs e).Splits (definition rs a) (definition rs b) where
  isExtension := h.isExtension
  name := ⟨congrArg (name rs) h.name.1, congrArg (name rs) h.name.2⟩
  kind := by
    simp only [TypeDefinition.kind, definition, kind_members]
    exact h.kind
  location := h.location
  description := h.description
  directives := h.directives
  implements := by
    simp only [TypeDefinition.implements, definition, implements_members, ← List.map_append]
    exact congrArg _ h.implements
  members := by
    simp only [definition, members_members, ← List.map_append]
    exact congrArg _ h.members
  fields := by
    simp only [TypeDefinition.fields, definition, fields_members, ← List.map_append]
    exact congrArg _ h.fields
  enumValues := by
    simp only [definition, enumValues_members]
    exact h.enumValues
  inputFields := by
    simp only [definition, inputFields_members, ← List.map_append]
    exact congrArg _ h.inputFields

end RootRename

namespace Declaration

/-- Two declarations hold what another one holds between them. -/
structure Splits (x y z : Declaration) : Prop where
  node : x.node.Splits y.node z.node
  isExtension : x.isExtension = true ∧ y.isExtension = true ∧ z.isExtension = true
  root : y.root = x.root ∧ z.root = x.root
  keys : x.keys = y.keys ++ z.keys
  fields : x.fields = y.fields ++ z.fields

theorem splits_ofDefinition {e a b : TypeDefinition} (h : e.Splits a b) :
    (ofDefinition e).Splits (ofDefinition a) (ofDefinition b) where
  node := h
  isExtension := by
    obtain ⟨he, ha, hb⟩ := h.isExtension
    simp [ofDefinition, TypeDefinition.extendsType, he, ha, hb]
  root := by
    simp only [ofDefinition, h.name.1, h.name.2, and_self]
  keys := by
    simp only [ofDefinition, Directive.meanings, h.directives, List.filterMap_append]
  fields := by
    simp only [ofDefinition, h.fields, List.map_append]

end Declaration

/-! ## A service with an extension in two blocks -/

namespace Document

/-- One of the definitions of a document is replaced by two blocks, and nothing else. -/
def SplitsAt (d d' : Document) (e a b : TypeDefinition) : Prop :=
  ∃ before after, d.definitions = before ++ .type e :: after ∧
    d'.definitions = before ++ .type a :: .type b :: after

variable {d d' : Document} {e a b : TypeDefinition}

namespace SplitsAt

variable (h : d.SplitsAt d' e a b)
include h

theorem schemaDefinitions_eq : d'.schemaDefinitions = d.schemaDefinitions := by
  obtain ⟨before, after, hd, hd'⟩ := h
  simp [schemaDefinitions, hd, hd']

theorem directiveDefinitions_eq : d'.directiveDefinitions = d.directiveDefinitions := by
  obtain ⟨before, after, hd, hd'⟩ := h
  simp [directiveDefinitions, hd, hd']

theorem rootRenames_eq : d'.rootRenames = d.rootRenames := by
  rw [rootRenames, h.schemaDefinitions_eq, rootRenames]

theorem exists_typeDefinitions_eq : ∃ before after,
    d.typeDefinitions = before ++ [e] ++ after ∧
      d'.typeDefinitions = before ++ ([a] ++ [b]) ++ after := by
  obtain ⟨before, after, hd, hd'⟩ := h
  exact ⟨(⟨before⟩ : Document).typeDefinitions, (⟨after⟩ : Document).typeDefinitions,
    by simp [typeDefinitions, hd], by simp [typeDefinitions, hd']⟩

end SplitsAt

end Document

namespace Site

/-- The sites of a type, member by member. -/
theorem ofType_eq (d : TypeDefinition) :
    ofType d = listAt (placeOfKind d.kind) (.type d.name) d.location d.directives ++
      (d.fields.flatMap (ofField d.name) ++ d.body.enumValues.flatMap (ofEnumValue d.name) ++
        d.body.inputFields.flatMap (ofInputField d.name)) := by
  rw [ofType, TypeDefinition.fields]
  cases d.body <;> simp [TypeBody.fields, TypeBody.enumValues, TypeBody.inputFields]

/-- The sites of an extension are those of its blocks. -/
theorem ofType_perm {e a b : TypeDefinition} (h : e.Splits a b) :
    (ofType a ++ ofType b).Perm (ofType e) := by
  have hlist : listAt (placeOfKind e.kind) (.type e.name) e.location e.directives =
      listAt (placeOfKind a.kind) (.type a.name) a.location a.directives ++
        listAt (placeOfKind b.kind) (.type b.name) b.location b.directives := by
    simp only [listAt, h.kind, h.name, h.location, h.directives, List.map_append]
  simp only [ofType_eq, hlist, h.fields, h.enumValues, h.inputFields, h.name,
    List.flatMap_append]
  exact perm_append_halves (.refl _) (perm_append_halves (perm_append_halves (.refl _) (.refl _))
    (.refl _))

end Site

namespace Declaration

/-- Malformed arguments in an extension are those in its blocks. -/
theorem problems_perm {e a b : TypeDefinition} (h : e.Splits a b) :
    (problems a ++ problems b).Perm (problems e) := by
  simp only [problems, Directive.malformed, h.name, h.location, h.directives, h.fields,
    List.filterMap_append, List.flatMap_append]
  exact perm_append_halves (.refl _) (.refl _)

end Declaration

namespace Subgraph

theorem extensionKeyProblems_append (ds es : List Declaration) :
    extensionKeyProblems (ds ++ es) = extensionKeyProblems ds ++ extensionKeyProblems es := by
  simp only [extensionKeyProblems, List.filter_append, List.flatMap_append]

/-- The reports that a block is spared because another block holds the key: on its fields that are
not marked as resolved elsewhere and are key fields by the other block only. -/
def hiddenKeyProblems (d other : Declaration) : List Diagnostic :=
  let keyFields := d.keys.flatMap FieldSet.fieldNames
  let otherKeyFields := other.keys.flatMap FieldSet.fieldNames
  if d.root.isNone then
    (d.fields.filter fun f => !keyFields.contains f.name &&
      (!f.isExternal && otherKeyFields.contains f.name)).map fun f =>
        fieldDiagnostic d f .keyFieldNotExternal
  else []

theorem extensionKeyProblems_singleton {d : Declaration} (h : d.isExtension = true) :
    extensionKeyProblems [d] =
      if d.root.isNone then
        (d.fields.filter fun f =>
          !f.isExternal && (d.keys.flatMap FieldSet.fieldNames).contains f.name).map fun f =>
            fieldDiagnostic d f .keyFieldNotExternal
      else [] := by
  rw [extensionKeyProblems, List.filter_cons, h, Bool.true_and]
  split <;> simp

/-- **Key fields are looked for block by block.** The reports on an extension are those on its
blocks, and those that one block is spared because of the other. -/
theorem extensionKeyProblems_perm {x y z : Declaration} (h : x.Splits y z) :
    (extensionKeyProblems [y] ++ extensionKeyProblems [z] ++
      (hiddenKeyProblems y z ++ hiddenKeyProblems z y)).Perm (extensionKeyProblems [x]) := by
  obtain ⟨hx, hy, hz⟩ := h.isExtension
  rw [extensionKeyProblems_singleton hx, extensionKeyProblems_singleton hy,
    extensionKeyProblems_singleton hz, hiddenKeyProblems, hiddenKeyProblems, h.root.1, h.root.2]
  split
  · -- a field of a block is a key field by the keys of its block, or else by the others
    have hblock : ∀ (d : Declaration) (own other : List String), d.name = x.name →
        ((d.fields.filter fun f => !f.isExternal && own.contains f.name).map (fun f =>
            fieldDiagnostic d f .keyFieldNotExternal) ++
          (d.fields.filter fun f => !own.contains f.name &&
            (!f.isExternal && other.contains f.name)).map fun f =>
              fieldDiagnostic d f .keyFieldNotExternal).Perm
            ((d.fields.filter fun f =>
              !f.isExternal && (own.contains f.name || other.contains f.name)).map fun f =>
                fieldDiagnostic x f .keyFieldNotExternal) := by
      intro d own other hd
      have hperm := List.filter_append_perm (fun f => own.contains f.name)
        (d.fields.filter fun f => !f.isExternal && (own.contains f.name || other.contains f.name))
      rw [List.filter_filter, List.filter_filter] at hperm
      simp only [fieldDiagnostic, hd, ← List.map_append]
      refine List.Perm.map _ (.trans (.of_eq ?_) hperm)
      congr 1 <;> refine List.filter_congr fun f _ => ?_ <;>
        cases own.contains f.name <;> cases f.isExternal <;> simp
    have hy := hblock y (y.keys.flatMap FieldSet.fieldNames) (z.keys.flatMap FieldSet.fieldNames)
      h.node.name.1
    have hz := hblock z (z.keys.flatMap FieldSet.fieldNames) (y.keys.flatMap FieldSet.fieldNames)
      h.node.name.2
    simp only [Bool.or_comm ((z.keys.flatMap _).contains _)] at hz
    simp only [h.fields, h.keys, List.flatMap_append, List.contains_append, List.filter_append,
      List.map_append]
    exact perm_append_halves hy hz
  · exact .refl _

variable {ds es : List Declaration}

theorem reservedFieldProblems_of_splits (h : Splits Declaration.Splits ds es) :
    reservedFieldProblems es = reservedFieldProblems ds := by
  have hroots : Splits Declaration.Splits (ds.filter (·.root == some .query))
      (es.filter (·.root == some .query)) :=
    h.filter fun x y z hx => by simp only [hx.root, and_self]
  refine hroots.flatMap_eq fun x y z hx => ?_
  have hname : y.name = x.name ∧ z.name = x.name := hx.node.name
  simp only [fieldDiagnostic, hx.fields, hname, List.filter_append, List.map_append]

theorem baseFieldProblems_of_splits (h : Splits Declaration.Splits ds es) :
    baseFieldProblems es = baseFieldProblems ds := by
  have hbases : es.filter (!·.isExtension) = ds.filter (!·.isExtension) :=
    h.filter_eq fun x y z hx => by simp [hx.isExtension]
  rw [baseFieldProblems, hbases, baseFieldProblems]

end Subgraph

namespace Service

/-- One of the definitions of a service is replaced by two blocks, and nothing else. -/
structure SplitsAt (s s' : Service) (e a b : TypeDefinition) : Prop where
  name : s'.name = s.name
  url : s'.url = s.url
  document : s.document.SplitsAt s'.document e a b
  parts : e.Splits a b

/-- Whether the definitions of a name take part in composition: the name shadows no root type and
is not one that only a router uses. -/
def composesType (s : Service) (name : String) : Bool :=
  !RootRename.shadows s.document.rootRenames name &&
    !Subgraph.routerTypes.contains (RootRename.name s.document.rootRenames name)

/-- The definitions of a service that take part in composition, as they were written. -/
theorem typeDefinitions_eq (s : Service) :
    s.toSubgraph.typeDefinitions =
      (s.document.typeDefinitions.filter fun t => s.composesType t.name).map
        (RootRename.definition s.document.rootRenames) := by
  have hvisit := s.document.typeDefinitions_withConventionalRoots
  rw [Subgraph.typeDefinitions, Subgraph.document, toSubgraph, hvisit, List.filter_map,
    List.filter_filter]
  refine congrArg _ (List.filter_congr fun t _ => ?_)
  rw [composesType, Bool.and_comm]
  rfl

/-- What definitions of a service declare. -/
def declares (s : Service) (ts : List TypeDefinition) : List Declaration :=
  ((ts.filter fun t => s.composesType t.name).map
    (RootRename.definition s.document.rootRenames)).map Declaration.ofDefinition

theorem declarations_eq (s : Service) :
    s.toSubgraph.declarations = s.declares s.document.typeDefinitions := by
  rw [Subgraph.declarations, typeDefinitions_eq, declares]

theorem declares_append (s : Service) (ts us : List TypeDefinition) :
    s.declares (ts ++ us) = s.declares ts ++ s.declares us := by
  simp only [declares, List.filter_append, List.map_append]

theorem declares_singleton (s : Service) (t : TypeDefinition) :
    s.declares [t] = if s.composesType t.name then
      [Declaration.ofDefinition (RootRename.definition s.document.rootRenames t)] else [] := by
  rw [declares, List.filter_cons]
  split <;> rfl

/-- The reports that a service is spared when an extension stands in two blocks: each block is
looked through for the key fields that it declares itself. -/
def hiddenKeyReports (s : Service) (a b : TypeDefinition) : List Diagnostic :=
  if s.composesType a.name then
    let y := Declaration.ofDefinition (RootRename.definition s.document.rootRenames a)
    let z := Declaration.ofDefinition (RootRename.definition s.document.rootRenames b)
    (Subgraph.hiddenKeyProblems y z ++ Subgraph.hiddenKeyProblems z y).map (·.inService s.name)
  else []

/-- The report on a definition that shadows a root type. -/
def shadowReports (s : Service) (t : TypeDefinition) : List Diagnostic :=
  if RootRename.shadows s.document.rootRenames t.name then
    [{ cause := .shadowsRoot, coordinate := .type t.name, service := some s.name,
       location := some t.location }]
  else []

/-- The reports on a service as it is handed in, definition by definition. -/
theorem problems_eq (s : Service) :
    s.toSubgraph.problems = s.document.typeDefinitions.flatMap s.shadowReports ++
      (s.toSubgraph.typeDefinitions.flatMap Declaration.problems).map (·.inService s.name) := by
  have hcontent : s.toSubgraph.content = .ok s.document := rfl
  simp only [Subgraph.problems, hcontent, toSubgraph_name, List.map_append, List.map_map,
    Document.shadowingTypes]
  congr 1
  generalize s.document.typeDefinitions = ts
  induction ts with
  | nil => rfl
  | cons t ts ih =>
    rw [List.flatMap_cons, ← ih, shadowReports, List.filter_cons]
    split <;> rfl

namespace SplitsAt

variable {s s' : Service} {e a b : TypeDefinition} (h : s.SplitsAt s' e a b)
include h

theorem composesType_eq : s'.composesType = s.composesType := by
  funext n
  rw [composesType, h.document.rootRenames_eq, composesType]

theorem directiveDefinitions_eq : s'.toSubgraph.document.directiveDefinitions =
    s.toSubgraph.document.directiveDefinitions := by
  rw [directiveDefinitions_toSubgraph, directiveDefinitions_toSubgraph, directiveContributions,
    h.document.directiveDefinitions_eq, h.document.rootRenames_eq, directiveContributions]

theorem splits_typeDefinitions : Splits TypeDefinition.Splits s.toSubgraph.typeDefinitions
    s'.toSubgraph.typeDefinitions := by
  obtain ⟨before, after, hd, hd'⟩ := h.document.exists_typeDefinitions_eq
  have hsplits : Splits TypeDefinition.Splits s.document.typeDefinitions
      s'.document.typeDefinitions := by
    rw [hd, hd']
    exact ((Splits.refl before).append (.split h.parts .nil)).append (.refl after)
  rw [typeDefinitions_eq, typeDefinitions_eq, h.composesType_eq, h.document.rootRenames_eq]
  refine (hsplits.filter fun x y z hx => ?_).map fun x y z hx => RootRename.splits_definition _ hx
  simp only [hx.name, and_self]

theorem splits_declarations : Splits Declaration.Splits s.toSubgraph.declarations
    s'.toSubgraph.declarations :=
  h.splits_typeDefinitions.map fun _ _ _ hx => Declaration.splits_ofDefinition hx

theorem declares_eq : s'.declares = s.declares := by
  funext ts
  rw [declares, h.composesType_eq, h.document.rootRenames_eq, declares]

/-- **The reports on the service as it is handed in** are the same, and that on a shadowed root is
made once more. -/
theorem problems_perm :
    s'.toSubgraph.problems.Perm (s.toSubgraph.problems ++ s.shadowReports e) := by
  obtain ⟨before, after, hd, hd'⟩ := h.document.exists_typeDefinitions_eq
  have hmalformed := (h.splits_typeDefinitions.flatMap_perm (f := Declaration.problems)
    fun _ _ _ hx => Declaration.problems_perm hx).map (·.inService s.name)
  have hshadow : s'.shadowReports = s.shadowReports := by
    funext t
    rw [shadowReports, h.document.rootRenames_eq, h.name, shadowReports]
  have hparts : s.shadowReports a = s.shadowReports e ∧ s.shadowReports b = s.shadowReports e := by
    simp only [shadowReports, h.parts.name, h.parts.location, and_self]
  rw [problems_eq, problems_eq, hshadow, h.name, hd, hd']
  simp only [List.flatMap_append, List.flatMap_singleton, hparts]
  rw [List.perm_iff_count] at hmalformed ⊢
  intro d
  have hd := hmalformed d
  simp only [List.count_append] at hd ⊢
  omega

theorem siteProblems_perm : s'.toSubgraph.siteProblems.Perm s.toSubgraph.siteProblems := by
  have hlookup : s'.toSubgraph.lookupDirective = s.toSubgraph.lookupDirective := by
    funext n
    rw [Subgraph.lookupDirective, h.directiveDefinitions_eq, Subgraph.lookupDirective]
  have hschema : s'.toSubgraph.schemaSites = s.toSubgraph.schemaSites := by
    have hdocument : ∀ s : Service, s.toSubgraph.document.schemaDefinitions =
        s.document.schemaDefinitions := fun s =>
      s.document.schemaDefinitions_withConventionalRoots
    rw [Subgraph.schemaSites, hdocument, h.document.schemaDefinitions_eq, ← hdocument,
      Subgraph.schemaSites]
  have htypes := h.splits_typeDefinitions.flatMap_perm fun _ _ _ hx => Site.ofType_perm hx
  rw [Subgraph.siteProblems, Subgraph.siteProblems, hlookup, hschema]
  exact (htypes.append_left _).flatMap_right _

theorem extensionKeyProblems_perm :
    ((Subgraph.extensionKeyProblems s'.toSubgraph.declarations).map (·.inService s.name) ++
      s.hiddenKeyReports a b).Perm
        ((Subgraph.extensionKeyProblems s.toSubgraph.declarations).map (·.inService s.name)) := by
  obtain ⟨before, after, hd, hd'⟩ := h.document.exists_typeDefinitions_eq
  have hblocks : ((Subgraph.extensionKeyProblems (s.declares [a]) ++
      Subgraph.extensionKeyProblems (s.declares [b])).map (·.inService s.name) ++
        s.hiddenKeyReports a b).Perm
          ((Subgraph.extensionKeyProblems (s.declares [e])).map (·.inService s.name)) := by
    simp only [declares_singleton, hiddenKeyReports, h.parts.name]
    split
    · have hsplits := Declaration.splits_ofDefinition
        (RootRename.splits_definition s.document.rootRenames h.parts)
      have hperm := (Subgraph.extensionKeyProblems_perm hsplits).map (·.inService s.name)
      rwa [List.map_append] at hperm
    · exact .refl _
  rw [declarations_eq, declarations_eq, h.declares_eq, hd, hd']
  simp only [declares_append, Subgraph.extensionKeyProblems_append, List.map_append] at hblocks ⊢
  rw [List.perm_iff_count] at hblocks ⊢
  intro d
  have hd := hblocks d
  simp only [List.count_append] at hd ⊢
  omega

/-- **The reports on the service by itself** are the same, but for those on key fields that one
block is spared because of the other. -/
theorem checkProblems_perm :
    (s'.toSubgraph.checkProblems ++ s.hiddenKeyReports a b).Perm s.toSubgraph.checkProblems := by
  have hsites := h.siteProblems_perm.map (·.inService s.name)
  have hkeys := h.extensionKeyProblems_perm
  simp only [Subgraph.checkProblems, toSubgraph_name, h.name,
    Subgraph.reservedFieldProblems_of_splits h.splits_declarations,
    Subgraph.baseFieldProblems_of_splits h.splits_declarations, List.map_append]
  rw [List.append_assoc]
  exact ((hsites.append_right _).append_right _).append hkeys

end SplitsAt

end Service

end Federation
