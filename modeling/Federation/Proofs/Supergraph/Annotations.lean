import Federation.Proofs.Composition.Resolvers
import Federation.Proofs.Directives.Interpretation
import Federation.Proofs.FieldSet.RoundTrip
import Federation.Proofs.Supergraph.Graphs
/-!
# Supergraph — the annotations read back

A router learns who resolves what from the annotations alone. To read
one, its graph is looked up among the values of the enumeration of
graphs, and the texts of field sets are read as field sets.
`TypeDefinition.Annotated` states what a type is annotated with in these
terms, and `compose_annotated` that the types of a supergraph say about
themselves what composition found out about them.
-/

namespace Federation

/-! ## Reading annotations -/

/-- The service that a value of the enumeration of graphs stands for. -/
def EnumValue.service? (v : EnumValue) : Option String :=
  ((v.directives.find? (·.name == "join__graph")).bind (·.argument? "name")).bind fun
    | .string name => some name
    | _ => none

/-- The types of the schema in the document of a supergraph: all but the first three, which belong
to the annotations. -/
def Document.schemaTypes (d : Document) : List TypeDefinition :=
  d.typeDefinitions.drop 3

/-- The services that a graph stands for, by the enumeration of the graphs. The first definition
of that name counts. -/
def Document.graphServices (d : Document) : Value → List String
  | .enum name =>
    let values := ((d.typeDefinitions.find? (·.name == Supergraph.graphType)).map
      (·.body.enumValues)).getD []
    (values.filter (·.name == name)).filterMap EnumValue.service?
  | _ => []

namespace Directive

/-- The services that the graph of an annotation stands for. -/
def graphServices (d : Document) (x : Directive) : List String :=
  ((x.argument? "graph").map d.graphServices).getD []

/-- The field set that an argument holds, if the argument is there. A text that is no field set
holds none. -/
def fieldSet? (x : Directive) (name : String) : Option (Option FieldSet) :=
  (x.argument? name).map fun
    | .string text => (FieldSet.parse text).toOption
    | _ => none

end Directive

/-- A field with one annotation after its own applications. By the annotation the field is resolved
by the first service that resolves it, which asks for and offers the fields that are recorded. -/
def Field.Annotated (d : Document) (record : TypeOwnership) (f f' : Field) : Prop :=
  ∃ x, f' = { f with directives := f.directives ++ [x] } ∧ x.name = "join__field" ∧
    ∃ r, record.field? f.name = some r ∧
      ∃ c, r.contributions.find? (!·.isExternal) = some c ∧ x.graphServices d = [c.service] ∧
        x.fieldSet? "requires" = c.requires.map some ∧
        x.fieldSet? "provides" = c.provides.map some

/-- A type with annotations after its own applications, and with annotated fields. By the
annotations the type has the owner that is recorded, if it also has keys, and the recorded keys in
order. -/
structure TypeDefinition.Annotated (d : Document) (record : TypeOwnership)
    (t t' : TypeDefinition) : Prop where
  shell : t'.shell = t.shell
  implements : t'.implements = t.implements
  directives : ∃ owners keys, t'.directives = t.directives ++ owners ++ keys ∧
    List.Forall₂ (fun owner x => x.name = "join__owner" ∧ x.graphServices d = [owner])
      (if record.keys.isEmpty then [] else record.owner.toList) owners ∧
    List.Forall₂
      (fun key x => x.name = "join__type" ∧ x.graphServices d = [key.1] ∧
        x.fieldSet? "key" = some (some key.2))
      record.keys keys
  fields : List.Forall₂ (Field.Annotated d record) t.fields t'.fields

/-- An object or interface is annotated with what is recorded of it, and any other type is as it
was composed. -/
def Supergraph.Annotates (g : Supergraph) (t t' : TypeDefinition) : Prop :=
  if t.kind = .object ∨ t.kind = .interface then
    ∃ record, g.schema.ownership? t.name = some record ∧ t.Annotated g.document record t'
  else t' = t

/-! ## What the record holds -/

/-- A field set that an application gives was read from a text. -/
theorem FederationDirective.parse_of_interpret {x : Directive} {m : FederationDirective}
    {fields : FieldSet} (h : interpret x = .ok m)
    (hm : m = .key fields ∨ m = .requires fields ∨ m = .provides fields) :
    ∃ text, FieldSet.parse text = .ok fields := by
  have hmeaning := Directive.interpret_eq_ok_iff.mp h
  refine Directive.parse_of_fieldSetArgument (x := x) ?_
  rcases hm with rfl | rfl | rfl <;> exact hmeaning.2

/-- A recorded field set reads back from its written form. -/
theorem Directive.parse_text_of_mem_meanings {ds : List Directive} {m : FederationDirective}
    {fields : FieldSet} (h : m ∈ meanings ds)
    (hm : m = .key fields ∨ m = .requires fields ∨ m = .provides fields) :
    FieldSet.parse fields.text = .ok fields := by
  obtain ⟨x, -, hx⟩ := List.mem_filterMap.mp h
  cases hinterpret : FederationDirective.interpret x with
  | error e =>
    rw [hinterpret] at hx
    cases hx
  | ok m' =>
    rw [hinterpret] at hx
    obtain rfl : m' = m := Option.some.inj hx
    obtain ⟨text, htext⟩ := FederationDirective.parse_of_interpret hinterpret hm
    exact FieldSet.parse_text htext

namespace Subgraphs

variable {s : Subgraphs} {typeName : String}

/-- The keys of a type come from services, and read back from their written form. -/
theorem of_mem_keys {key : String × FieldSet} (h : key ∈ (s.group typeName).keys) :
    (∃ g ∈ s.services, g.name = key.1) ∧ FieldSet.parse key.2.text = .ok key.2 := by
  obtain ⟨d, hd, hkey⟩ := List.mem_flatMap.mp (mem_distinct.mp h)
  obtain ⟨fields, hfields, rfl⟩ := List.mem_map.mp hkey
  obtain ⟨g, hg, hservice, hnode⟩ := mem_collect hd
  obtain ⟨t, -, ht⟩ := List.mem_map.mp hnode
  rw [← ht] at hfields
  obtain ⟨m, hm, hsome⟩ := List.mem_filterMap.mp hfields
  refine ⟨⟨g, hg, hservice.symm⟩, Directive.parse_text_of_mem_meanings hm (.inl ?_)⟩
  split at hsome <;> cases hsome
  rfl

/-- The owner of a type is a service. -/
theorem of_owner? {owner : String} (h : (s.group typeName).owner? = some owner) :
    ∃ g ∈ s.services, g.name = owner := by
  rw [TypeGroup.owner?_eq_some_iff, List.map_eq_singleton_iff] at h
  obtain ⟨d, hd, rfl⟩ := h
  have hmem : d ∈ s.group typeName := by
    have hbase : d ∈ (s.group typeName).bases := by
      rw [hd]
      exact List.mem_singleton_self d
    exact (List.mem_filter.mp ((Declared.firstPerService_sublist _).subset hbase)).1
  obtain ⟨g, hg, hservice, -⟩ := mem_collect hmem
  exact ⟨g, hg, hservice.symm⟩

/-- A contribution to a field comes from a service, and what it asks for and offers reads back from
its written form. -/
theorem of_mem_contributions {d : Declared FieldDeclaration}
    (h : d ∈ (s.group typeName).fieldDeclarations) :
    (∃ g ∈ s.services, g.name = (FieldDeclaration.contribution d).service) ∧
      (∀ fields ∈ (FieldDeclaration.contribution d).requires,
        FieldSet.parse fields.text = .ok fields) ∧
      ∀ fields ∈ (FieldDeclaration.contribution d).provides,
        FieldSet.parse fields.text = .ok fields := by
  rw [fieldDeclarations_group] at h
  obtain ⟨g, hg, hservice, hnode⟩ := mem_collect h
  obtain ⟨t, -, ht⟩ := List.mem_flatMap.mp hnode
  obtain ⟨f, -, hf⟩ := List.mem_map.mp ht
  refine ⟨⟨g, hg, hservice.symm⟩, fun fields hfields => ?_, fun fields hfields => ?_⟩
  · have hfields : (FieldDeclaration.ofField f).requires = some fields := by
      rw [hf]
      exact hfields
    obtain ⟨m, hm, hsome⟩ := List.mem_filterMap.mp (List.mem_of_getLast? hfields)
    refine Directive.parse_text_of_mem_meanings hm (.inr (.inl ?_))
    split at hsome <;> cases hsome
    rfl
  · have hfields : (FieldDeclaration.ofField f).provides = some fields := by
      rw [hf]
      exact hfields
    obtain ⟨m, hm, hsome⟩ := List.mem_filterMap.mp (List.mem_of_getLast? hfields)
    refine Directive.parse_text_of_mem_meanings hm (.inr (.inr ?_))
    split at hsome <;> cases hsome
    rfl

end Subgraphs

/-! ## What the annotations say -/

namespace Supergraph

theorem typeDefinitions_annotated (s : Schema) (graphs : List Graph) :
    (annotated s graphs).typeDefinitions =
      [purposeDefinition, fieldSetDefinition, graphDefinition graphs] ++
        s.types.map (annotate s graphs) := by
  simp [annotated, Document.typeDefinitions, directiveDefinitions, List.filterMap_append,
    List.filterMap_map]

theorem schemaTypes_annotated (s : Schema) (graphs : List Graph) :
    (annotated s graphs).schemaTypes = s.types.map (annotate s graphs) := by
  rw [Document.schemaTypes, typeDefinitions_annotated]
  rfl

/-- The enumeration of the graphs is the first definition of its name. -/
theorem find?_graphType (s : Schema) (graphs : List Graph) :
    (annotated s graphs).typeDefinitions.find? (·.name == graphType) =
      some (graphDefinition graphs) := by
  have hpurpose : (purposeDefinition.name == graphType) = false := by decide
  have hfieldSet : (fieldSetDefinition.name == graphType) = false := by decide
  have hgraph : ((graphDefinition graphs).name == graphType) = true := beq_self_eq_true graphType
  simp [typeDefinitions_annotated, hpurpose, hfieldSet, hgraph]

/-- **A graph stands for exactly one service.** -/
theorem graphServices_graphValue (s : Schema) {t : Subgraphs} {g : Subgraph}
    (hg : g ∈ t.services) :
    (annotated s t.graphs).graphServices (graphValue t.graphs g.name) = [g.name] := by
  obtain ⟨graph, hgraph, hservice, hfind⟩ := Subgraphs.exists_graph hg
  rw [graphValue, hfind, Document.graphServices, find?_graphType]
  simp only [Option.map_some, Option.getD_some, graphDefinition, TypeBody.enumValues,
    List.filter_map, List.filterMap_map]
  -- values are distinct, so the value of the graph is the value of no other
  have hone := filter_eq_singleton t.nodup_value_graphs hgraph
  refine (congrArg (List.filterMap _) hone).trans ?_
  exact congrArg (fun n => [n]) hservice

/-- The arguments of the annotation of a field. -/
theorem argument?_annotationOfField (graphs : List Graph) (c : FieldContribution) :
    (annotationOfField graphs c).argument? "graph" = some (graphValue graphs c.service) ∧
      (annotationOfField graphs c).argument? "requires" =
        c.requires.map (fun fields => .string fields.text) ∧
      (annotationOfField graphs c).argument? "provides" =
        c.provides.map fun fields => .string fields.text := by
  obtain ⟨service, isExternal, requires, provides⟩ := c
  cases requires <;> cases provides <;> exact ⟨rfl, rfl, rfl⟩

/-- A field set that reads back from its written form is what an argument holds. -/
theorem fieldSet?_of_argument? {x : Directive} {name : String} {fields : Option FieldSet}
    (h : x.argument? name = fields.map fun fields => .string fields.text)
    (hparse : ∀ fs ∈ fields, FieldSet.parse fs.text = .ok fs) :
    x.fieldSet? name = fields.map some := by
  rw [Directive.fieldSet?, h]
  cases fields with
  | none => rfl
  | some fs =>
    simp only [Option.map_some, hparse fs rfl]
    rfl

end Supergraph

open Supergraph

namespace Subgraphs

variable {s : Subgraphs} {typeName : String} {isRepeatable : String → Bool}

/-- **A field says who resolves it**, and with which fields of others. -/
theorem annotated_annotateField (schema : Schema)
    (h : (s.group typeName).problems isRepeatable = [])
    (hnone : s.composedSchema.1.problems = []) (hn : typeName ∈ s.typeNames)
    (hnodup : ((s.group typeName).ownership.fields.map (·.name)).Nodup) {f : Field}
    (hf : f.name ∈ (s.group typeName).ownership.fields.map (·.name)) :
    f.Annotated (annotated schema s.graphs) (s.group typeName).ownership
      (annotateField s.graphs (s.group typeName).ownership f) := by
  obtain ⟨r, hr, hname⟩ := List.mem_map.mp hf
  obtain ⟨ds, hds, hne, -, hcontributions, -⟩ := exists_of_mem_fieldOwnership h hr
  have hrne : r.contributions ≠ [] := by
    rw [hcontributions]
    exact List.map_eq_nil_iff.not.mpr hne
  obtain ⟨c, hc, -⟩ := exists_fieldOwner? h hnone hn hnodup hr hrne
  have hfield : (s.group typeName).ownership.field? f.name = some r := by
    rw [← hname]
    exact TypeOwnership.field?_of_mem hnodup hr
  have hannotate : annotateField s.graphs (s.group typeName).ownership f =
      { f with directives := f.directives ++ [annotationOfField s.graphs c] } := by
    rw [annotateField, hfield, Option.bind_some, resolver?, FieldOwnership.owner?, hc]
    rfl
  -- the contribution is that of a declaration, so it comes from a service and holds what was read
  have hmem := List.mem_of_find?_eq_some hc
  rw [hcontributions] at hmem
  obtain ⟨d, hd, rfl⟩ := List.mem_map.mp hmem
  rw [hds] at hd
  obtain ⟨⟨g, hg, hservice⟩, hrequires, hprovides⟩ :=
    of_mem_contributions (List.mem_filter.mp hd).1
  obtain ⟨hgraph, hrequires', hprovides'⟩ :=
    argument?_annotationOfField s.graphs (FieldDeclaration.contribution d)
  refine ⟨_, hannotate, rfl, r, hfield, _, hc, ?_, fieldSet?_of_argument? hrequires' hrequires,
    fieldSet?_of_argument? hprovides' hprovides⟩
  rw [Directive.graphServices, hgraph, ← hservice]
  exact graphServices_graphValue schema hg

/-- **A type says who owns it and what its keys are.** -/
theorem annotated_typeAnnotations (schema : Schema) (typeName : String) :
    ∃ owners keys,
      typeAnnotations s.graphs (s.group typeName).ownership = owners ++ keys ∧
      List.Forall₂
        (fun owner x => x.name = "join__owner" ∧
          x.graphServices (annotated schema s.graphs) = [owner])
        (if (s.group typeName).ownership.keys.isEmpty then []
          else (s.group typeName).ownership.owner.toList) owners ∧
      List.Forall₂
        (fun key x => x.name = "join__type" ∧
          x.graphServices (annotated schema s.graphs) = [key.1] ∧
          x.fieldSet? "key" = some (some key.2))
        (s.group typeName).ownership.keys keys := by
  refine ⟨_, _, rfl, ?_, ?_⟩
  · cases howner : (s.group typeName).ownership.owner with
    | none => simp
    | some owner =>
      obtain ⟨g, hg, rfl⟩ := of_owner? howner
      by_cases hkeys : (s.group typeName).ownership.keys.isEmpty
      · simp [hkeys]
      · simp only [hkeys, Option.toList_some]
        exact .cons ⟨rfl, graphServices_graphValue schema hg⟩ .nil
  · rw [List.forall₂_map_right_iff, List.forall₂_same]
    rintro ⟨service, key⟩ hkey
    obtain ⟨⟨g, hg, rfl⟩, hparse⟩ := of_mem_keys hkey
    refine ⟨rfl, graphServices_graphValue schema hg, ?_⟩
    have hread : ∀ fields ∈ some key, FieldSet.parse fields.text = .ok fields := by
      rintro fields ⟨⟩
      exact hparse
    exact fieldSet?_of_argument? rfl hread

end Subgraphs

/-- A type that is neither an object nor an interface stays as it is. -/
theorem Supergraph.annotate_of_kind (s : Schema) (graphs : List Graph) {t : TypeDefinition}
    (h : ¬(t.kind = .object ∨ t.kind = .interface)) : annotate s graphs t = t := by
  rw [annotate]
  cases s.ownership? t.name with
  | none => rfl
  | some record =>
    cases hbody : t.body <;> simp_all [TypeDefinition.kind, TypeBody.kind]

/-- An object or interface gets the annotations of its record, and so do its fields. -/
theorem Supergraph.annotate_of_record {s : Schema} (graphs : List Graph) {t : TypeDefinition}
    {record : TypeOwnership} (hrecord : s.ownership? t.name = some record)
    (h : t.kind = .object ∨ t.kind = .interface) :
    (annotate s graphs t).shell = t.shell ∧ (annotate s graphs t).implements = t.implements ∧
      (annotate s graphs t).directives = t.directives ++ typeAnnotations graphs record ∧
      (annotate s graphs t).fields = t.fields.map (annotateField graphs record) := by
  rw [annotate, hrecord]
  cases hbody : t.body with
  | object b | interface b =>
    simp [TypeDefinition.shell, TypeDefinition.kind, TypeDefinition.implements,
      TypeDefinition.fields, TypeBody.kind, TypeBody.implements, TypeBody.fields, hbody]
  | _ => simp [TypeDefinition.kind, TypeBody.kind, hbody] at h

namespace Service

/-- **The annotations of a supergraph say what composition found out.** Objects and interfaces say
which service owns them, what their keys are, and which service resolves each field by which fields
of others; all other types are as they were composed. -/
theorem compose_annotated {services : List Service} {g : Supergraph}
    (h : compose services = .ok (.ok g)) :
    List.Forall₂ g.Annotates g.schema.types g.document.schemaTypes := by
  obtain ⟨s, -, hcompose⟩ := exists_subgraphs_of_compose h
  obtain ⟨hnone, hschema⟩ := Subgraphs.compose_eq_ok hcompose
  obtain ⟨-, hmerge, hcomposed⟩ := Subgraphs.problems_eq_nil hnone
  rw [Subgraphs.document_of_compose hcompose, schemaTypes_annotated, List.forall₂_map_right_iff,
    List.forall₂_same]
  intro t ht
  rw [Annotates]
  split
  case isFalse hkind => exact annotate_of_kind _ _ hkind
  rename_i hkind
  rw [Subgraphs.document_of_compose hcompose]
  rw [hschema] at ht ⊢
  obtain ⟨hn, -, hbody⟩ := Subgraphs.mem_types_composedSchema s ht
  have hproblems := Subgraphs.group_problems_eq_nil hmerge hn
  have hownership := Subgraphs.ownership?_composedSchema s hn
  have hone := TypeGroup.ofOneKind_eq_self hproblems
  rw [hone] at hbody hownership
  have hnames := Subgraphs.map_name_ownership hbody hkind
  have hnodup : ((s.group t.name).ownership.fields.map (·.name)).Nodup := by
    rw [hnames, TypeDefinition.fields, hbody]
    exact TypeGroup.nodup_map_name_fields _ _
  obtain ⟨hshell, himplements, hdirectives, hfields⟩ :=
    annotate_of_record s.graphs hownership hkind
  obtain ⟨owners, keys, happend, howners, hkeys⟩ :=
    Subgraphs.annotated_typeAnnotations (s := s) s.composedSchema.1 t.name
  refine ⟨_, hownership, hshell, himplements, ⟨owners, keys, ?_, howners, hkeys⟩, ?_⟩
  · rw [hdirectives, happend, List.append_assoc]
  · rw [hfields, List.forall₂_map_right_iff, List.forall₂_same]
    intro f hf
    refine Subgraphs.annotated_annotateField _ hproblems hcomposed hn hnodup ?_
    rw [hnames]
    exact List.mem_map_of_mem hf

/-- Two services whose graphs would share a value. One defines `User` by a key, the other extends it
and asks for a field of the first. -/
def routedServices : List Service :=
  let application := fun (name fields : String) =>
    ({ name, arguments := [⟨"fields", .string fields⟩] } : Directive)
  [{ name := "users-1"
     document :=
       ⟨[.type
           { name := "Query"
             body := .object { fields := [{ name := "me", type := .named "User" }] } },
         .type
           { name := "User"
             directives := [application FederationDirective.keyName "id"]
             body := .object
               { fields :=
                   [{ name := "id", type := .named "ID" },
                    { name := "name", type := .named "String" }] } }]⟩ },
   { name := "users.1"
     document :=
       ⟨[.type
           { name := "User"
             isExtension := true
             directives := [application FederationDirective.keyName "id"]
             body := .object
               { fields :=
                   [{ name := "id"
                      type := .named "ID"
                      directives := [{ name := FederationDirective.externalName }] },
                    { name := "name"
                      type := .named "String"
                      directives := [{ name := FederationDirective.externalName }] },
                    { name := "greeting"
                      type := .named "String"
                      directives :=
                        [application FederationDirective.requiresName "name"] }] } }]⟩ }]

/-- The services are composed, the one that defines `User` owns it, and the annotations of both
types say what was found out. -/
theorem routedServices_annotated :
    ∃ g, compose routedServices = .ok (.ok g) ∧
      g.schema.types.map (fun t => (t.name, t.kind)) = [("Query", .object), ("User", .object)] ∧
      (g.schema.ownership? "User").map (fun record => (record.owner, record.keys.map (·.1))) =
        some (some "users-1", ["users-1", "users.1"]) ∧
      List.Forall₂ g.Annotates g.schema.types g.document.schemaTypes := by
  obtain ⟨g, hg, hview⟩ : ∃ g, compose routedServices = .ok (.ok g) ∧
      (g.schema.types.map (fun t => (t.name, t.kind)),
        (g.schema.ownership? "User").map fun record => (record.owner, record.keys.map (·.1))) =
        ([("Query", .object), ("User", .object)],
          some (some "users-1", ["users-1", "users.1"])) :=
    exists_compose (fun s => (s.types.map fun t => (t.name, t.kind),
      (s.ownership? "User").map fun record => (record.owner, record.keys.map (·.1)))) (by cbv)
  obtain ⟨htypes, hrecord⟩ := Prod.mk.inj hview
  exact ⟨g, hg, htypes, hrecord, compose_annotated hg⟩

end Service

end Federation
