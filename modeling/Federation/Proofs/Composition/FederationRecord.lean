import Federation.Proofs.Composition.Applications
import Federation.Proofs.Composition.Descriptions
import Federation.Proofs.Schema.Keys
import Federation.Proofs.Schema.TypeSafety
import Federation.Proofs.Supergraph.Annotations
/-!
# Composition — what is recorded of the directives of services

The record of a type holds the field set of every `@key` on its
declarations, with the service it comes from. Of a field it holds one
contribution for each service that declares it, which says whether the
service marks it `@external`, and the field sets of the last `@requires`
and of the last `@provides` on it: earlier ones are overwritten. Nothing
else is in a record (`compose_recorded`).
-/

namespace Federation

open Declared FederationDirective

/-! ## Paths -/

/-- A field set that is read leads somewhere. -/
theorem FieldSet.exists_mem_paths {text : String} {s : FieldSet} (h : parse text = .ok s) :
    ∃ field path, field :: path ∈ s.paths := by
  obtain ⟨hne, -⟩ := legible_of_parse h
  obtain ⟨first, others, hselections⟩ := List.exists_cons_of_ne_nil hne
  obtain ⟨path, hpath⟩ := first.exists_mem_paths
  refine ⟨first.field, path, mem_paths.mpr ⟨first, ?_, hpath⟩⟩
  rw [hselections]
  exact List.mem_cons_self

/-! ## Records -/

/-- The record of a type holds what the directives on a definition of a service say. -/
structure Service.RecordedIn (service : Service) (c : TypeDefinition) (record : TypeOwnership) :
    Prop where
  keys : ∀ x ∈ c.directives, x.name = keyName →
    ∃ key, x.fieldSetArgument = .ok key ∧ (service.name, key) ∈ record.keys
  wellFormed : ∀ f ∈ c.fields, ∀ x ∈ f.directives, x.name = requiresName ∨ x.name = providesName →
    ∃ fields, x.fieldSetArgument = .ok fields
  fields : ∀ f ∈ c.fields, ∃ r, record.field? f.name = some r ∧
    (r.contributions.filter fun contribution => contribution.service == service.name) =
      [{ service := service.name
         isExternal := f.directives.any (·.name == externalName)
         requires := (Directive.fieldSets requiresName f.directives).getLast?
         provides := (Directive.fieldSets providesName f.directives).getLast? }]

/-- The record of a type holds nothing that the directives on no definition of a service say. -/
structure TypeOwnership.ComesFrom (record : TypeOwnership) (services : List Service) : Prop where
  keys : ∀ key ∈ record.keys, ∃ service ∈ services, service.name = key.1 ∧
    ∃ c ∈ service.typeContributions, c.name = record.name ∧
      (c.kind = .object ∨ c.kind = .interface) ∧
      ∃ x ∈ c.directives, x.name = keyName ∧ x.fieldSetArgument = .ok key.2
  fields : ∀ r ∈ record.fields, ∀ contribution ∈ r.contributions,
    ∃ service ∈ services, service.name = contribution.service ∧
      ∃ c ∈ service.typeContributions, c.name = record.name ∧ ∃ f ∈ c.fields, f.name = r.name ∧
        (contribution.isExternal = true → ∃ x ∈ f.directives, x.name = externalName) ∧
        (∀ fields, contribution.requires = some fields →
          ∃ x ∈ f.directives, x.name = requiresName ∧ x.fieldSetArgument = .ok fields) ∧
        ∀ fields, contribution.provides = some fields →
          ∃ x ∈ f.directives, x.name = providesName ∧ x.fieldSetArgument = .ok fields

namespace Subgraphs

variable {s : Subgraphs} {typeName : String} {isRepeatable : String → Bool}

/-- A declaration of a service is in its group under the name of the service. -/
theorem exists_mem_group_of_service {g : Subgraph} (hg : g ∈ s.services) {c : TypeDefinition}
    (hc : c ∈ g.typeDefinitions) :
    ∃ d ∈ s.group c.name, d.service = g.name ∧ d.node = Declaration.ofDefinition c := by
  obtain ⟨d, hd, hnode, hservice⟩ := exists_mem_collect
    (f := fun g => (definitionsOf c.name g).map Declaration.ofDefinition) hg
    (List.mem_map_of_mem (List.mem_filter.mpr ⟨hc, beq_self_eq_true _⟩))
  exact ⟨d, hd, hservice, hnode⟩

/-- Every declared field has a record. -/
theorem exists_fieldOwnership {d : Declared FieldDeclaration}
    (hkind : (s.group typeName).kind = .object ∨ (s.group typeName).kind = .interface)
    (hd : d ∈ (s.group typeName).fieldDeclarations) :
    ∃ r ∈ (s.group typeName).ownership.fields, r.name = d.node.name := by
  have hname := List.mem_map_of_mem (f := fun d : Declared FieldDeclaration => d.node.name) hd
  have hrecord : (s.group typeName).ownership.fields =
      (s.group typeName).fieldGroups.map TypeGroup.fieldOwnership := by
    rw [TypeGroup.ownership]
    rcases hkind with hk | hk <;> rw [hk]
  refine ⟨TypeGroup.fieldOwnership (named FieldDeclaration.name d.node.name
    (s.group typeName).fieldDeclarations), ?_, head_name_named hname⟩
  rw [hrecord]
  exact List.mem_map_of_mem (named_mem_byMember FieldDeclaration.name hname)

/-- The name of a declared field finds its record. -/
theorem field?_ownership
    (hkind : (s.group typeName).kind = .object ∨ (s.group typeName).kind = .interface)
    {r : FieldOwnership} (hr : r ∈ (s.group typeName).ownership.fields) :
    (s.group typeName).ownership.field? r.name = some r := by
  refine TypeOwnership.field?_of_mem ?_ hr
  have hdefinition : ((s.group typeName).definition fun _ => true).kind =
      (s.group typeName).kind := TypeGroup.kind_body _ _
  rw [map_name_ownership (t := (s.group typeName).definition fun _ => true) rfl
    (by rw [hdefinition]; exact hkind)]
  exact TypeGroup.nodup_map_name_fields _ _

/-- **What a service says about a field is its only contribution to the field.** -/
theorem contributions_of_service (h : (s.group typeName).problems isRepeatable = [])
    {r : FieldOwnership} (hr : r ∈ (s.group typeName).ownership.fields)
    {d : Declared FieldDeclaration} (hd : d ∈ (s.group typeName).fieldDeclarations)
    (hname : r.name = d.node.name) :
    (r.contributions.filter fun contribution => contribution.service == d.service) =
      [FieldDeclaration.contribution d] := by
  obtain ⟨ds, hds, -, hordered, hcontributions, -⟩ := exists_of_mem_fieldOwnership h hr
  have hmem : d ∈ ds := by
    rw [hds, hname]
    exact mem_named_self FieldDeclaration.name hd
  have hservices : r.contributions.map (·.service) = ds.map (·.service) := by
    rw [hcontributions, List.map_map]
    rfl
  have hnodup : (r.contributions.map (·.service)).Nodup := by
    rw [hservices]
    exact nodup_of_pairwise_lt hordered
  have hcontribution : FieldDeclaration.contribution d ∈ r.contributions := by
    rw [hcontributions]
    exact List.mem_map_of_mem hmem
  exact filter_eq_singleton hnodup hcontribution

section

variable (h : s.allProblems = [])
include h

/-- The group of a declared type has no problems, and all its declarations are of one kind. -/
theorem group_of_mem_typeDefinitions {g : Subgraph} (hg : g ∈ s.services) {c : TypeDefinition}
    (hc : c ∈ g.typeDefinitions) :
    c.name ∈ s.typeNames ∧ (s.group c.name).problems s.repeatableNames.contains = [] ∧
      (s.group c.name).kind = c.kind := by
  have hn : c.name ∈ s.typeNames := mem_typeNames.mpr ⟨g, hg, c, hc, rfl⟩
  have hproblems := group_problems_eq_nil (problems_eq_nil h).2.1 hn
  obtain ⟨d, hd, -, hnode⟩ := exists_mem_group_of_service hg hc
  have hkind := TypeGroup.kind_of_problems hproblems hd
  rw [hnode] at hkind
  exact ⟨hn, hproblems, hkind.symm⟩

/-- A type that has a key is an object or an interface: the key selects a field of it. -/
theorem kind_of_mem_keys {n : String} (hn : n ∈ s.typeNames) {key : String × FieldSet}
    (hkey : key ∈ (s.group n).ofOneKind.keys) {text : String}
    (hparse : FieldSet.parse text = .ok key.2) :
    (s.group n).ofOneKind.kind = .object ∨ (s.group n).ofOneKind.kind = .interface := by
  obtain ⟨-, -, hschema⟩ := problems_eq_nil h
  simp only [Schema.problems, List.append_eq_nil_iff] at hschema
  have hkeys := hschema.1.1.1.1
  obtain ⟨field, path, hpath⟩ := FieldSet.exists_mem_paths hparse
  have hname : (s.group n).ofOneKind.ownership.name = n := name_ofOneKind_group hn
  have hrecord : (s.group n).ofOneKind.ownership ∈ s.composedSchema.1.ownership :=
    List.mem_of_find?_eq_some (s.ownership?_composedSchema hn)
  -- the check of keys follows the path, and would have reported a field that is not there
  have hfollow := Schema.keyProblems_eq_nil_iff.mp hkeys _ hrecord key hkey _ hpath
  rw [hname] at hfollow
  obtain ⟨f, hfield, -⟩ := Schema.followPath_cons_eq_ok.mp hfollow
  obtain ⟨t, htype, hfield⟩ := Option.bind_eq_some_iff.mp hfield
  obtain ⟨htmem, htname⟩ := Schema.mem_of_type? htype
  obtain ⟨-, -, hbody⟩ := s.mem_types_composedSchema htmem
  rw [htname] at hbody
  have hkind := TypeBody.kind_of_mem_fields (List.mem_of_find?_eq_some hfield)
  rwa [hbody, TypeGroup.kind_body] at hkind

/-- A field of a definition has one contribution of the service, which says what the directives on
the field say. -/
theorem exists_contribution {service : Service} (hservice : service.toSubgraph ∈ s.services)
    {c : TypeDefinition} (hc : c ∈ service.toSubgraph.typeDefinitions) {f : Field}
    (hf : f ∈ c.fields) : ∃ r, (s.group c.name).ownership.field? f.name = some r ∧
      (r.contributions.filter fun contribution => contribution.service == service.name) =
        [{ service := service.name
           isExternal := f.directives.any (·.name == externalName)
           requires := (Directive.fieldSets requiresName f.directives).getLast?
           provides := (Directive.fieldSets providesName f.directives).getLast? }] := by
  obtain ⟨-, hproblems, hkind⟩ := group_of_mem_typeDefinitions h hservice hc
  have hfields : (s.group c.name).kind = .object ∨ (s.group c.name).kind = .interface := by
    rw [hkind]
    exact TypeBody.kind_of_mem_fields hf
  obtain ⟨d, hd, hnode, hdservice⟩ := exists_mem_collect
    (f := fun g => (definitionsOf c.name g).flatMap fun d =>
      d.fields.map FieldDeclaration.ofField) hservice
    (List.mem_flatMap.mpr ⟨c, List.mem_filter.mpr ⟨hc, beq_self_eq_true _⟩,
      List.mem_map_of_mem hf⟩)
  rw [← fieldDeclarations_group] at hd
  obtain ⟨r, hr, hrname⟩ := exists_fieldOwnership hfields hd
  have hfind := field?_ownership hfields hr
  have hname : r.name = f.name := by
    rw [hrname, hnode]
    rfl
  have hcontributions := contributions_of_service hproblems hr hd hrname
  rw [hname] at hfind
  rw [Service.toSubgraph_name] at hdservice
  refine ⟨r, hfind, ?_⟩
  rw [hdservice] at hcontributions
  rw [hcontributions, FieldDeclaration.contribution, hdservice, hnode,
    FieldDeclaration.requires_ofField, FieldDeclaration.provides_ofField]
  rfl

/-- **The record of a type holds what the directives of each service say.** -/
theorem recordedIn {service : Service} (hservice : service.toSubgraph ∈ s.services)
    {c : TypeDefinition} (hc : c ∈ service.toSubgraph.typeDefinitions) :
    service.RecordedIn c (s.group c.name).ownership := by
  have hwritten := interpreted_of_mem_typeDefinitions h hservice hc
  rw [Declaration.problems, List.append_eq_nil_iff, List.flatMap_eq_nil_iff,
    Directive.malformed_eq_nil_iff] at hwritten
  refine ⟨fun x hx hname => ?_, fun f hf x hx hname => ?_,
    fun f hf => exists_contribution h hservice hc hf⟩
  · obtain ⟨m, hm⟩ := hwritten.1 x hx
    obtain ⟨key, hkey⟩ := Directive.exists_fieldSetArgument hm
      (by rw [hname]; exact List.mem_cons_self)
    obtain ⟨d, hd, hdservice, hnode⟩ := exists_mem_group_of_service hservice hc
    refine ⟨key, hkey, mem_distinct.mpr (List.mem_flatMap.mpr ⟨d, hd, ?_⟩)⟩
    rw [hdservice, hnode, Declaration.keys_ofDefinition]
    exact List.mem_map_of_mem (Directive.mem_fieldSets.mpr ⟨x, hx, hname, hkey⟩)
  · obtain ⟨m, hm⟩ := Directive.malformed_eq_nil_iff.mp (hwritten.2 f hf) x hx
    refine Directive.exists_fieldSetArgument hm ?_
    rcases hname with hname | hname <;> rw [hname] <;> decide

/-- A key that is recorded comes from an application on an object or interface. -/
theorem exists_of_mem_keys {n : String} (hn : n ∈ s.typeNames) {key : String × FieldSet}
    (hkey : key ∈ (s.group n).ofOneKind.ownership.keys) :
    ∃ g ∈ s.services, key.1 = g.name ∧ ∃ c ∈ g.typeDefinitions, c.name = n ∧
      (c.kind = .object ∨ c.kind = .interface) ∧
      ∃ x ∈ c.directives, x.name = keyName ∧ x.fieldSetArgument = .ok key.2 := by
  have hproblems := group_problems_eq_nil (problems_eq_nil h).2.1 hn
  have hone := TypeGroup.ofOneKind_eq_self hproblems
  obtain ⟨d, hd, hmem⟩ := List.mem_flatMap.mp (mem_distinct.mp hkey)
  obtain ⟨fields, hfields, rfl⟩ := List.mem_map.mp hmem
  rw [hone] at hd
  have hdkind := TypeGroup.kind_of_problems hproblems hd
  obtain ⟨g, hg, hdservice, hnode⟩ := mem_collect hd
  obtain ⟨c, hc, hcnode⟩ := List.mem_map.mp hnode
  obtain ⟨hc, hcname⟩ := List.mem_filter.mp hc
  rw [← hcnode, Declaration.keys_ofDefinition] at hfields
  obtain ⟨x, hx, hxname, hargument⟩ := Directive.mem_fieldSets.mp hfields
  obtain ⟨text, hparse⟩ := Directive.parse_of_fieldSetArgument hargument
  have hkind := kind_of_mem_keys h hn hkey hparse
  rw [hone, ← hdkind, ← hcnode] at hkind
  exact ⟨g, hg, hdservice, c, hc, beq_iff_eq.mp hcname, hkind, x, hx, hxname, hargument⟩

/-- A contribution that is recorded comes from a declaration of the field. -/
theorem exists_of_mem_contributions {n : String} (hn : n ∈ s.typeNames) {r : FieldOwnership}
    (hr : r ∈ (s.group n).ofOneKind.ownership.fields) {contribution : FieldContribution}
    (hcontribution : contribution ∈ r.contributions) :
    ∃ g ∈ s.services, contribution.service = g.name ∧ ∃ c ∈ g.typeDefinitions, c.name = n ∧
      ∃ f ∈ c.fields, f.name = r.name ∧
        contribution.isExternal = f.directives.any (·.name == externalName) ∧
        contribution.requires = (Directive.fieldSets requiresName f.directives).getLast? ∧
        contribution.provides = (Directive.fieldSets providesName f.directives).getLast? := by
  have hproblems := group_problems_eq_nil (problems_eq_nil h).2.1 hn
  rw [TypeGroup.ofOneKind_eq_self hproblems] at hr
  obtain ⟨ds, hds, -, -, hcontributions, -⟩ := exists_of_mem_fieldOwnership hproblems hr
  rw [hcontributions] at hcontribution
  obtain ⟨d, hd, rfl⟩ := List.mem_map.mp hcontribution
  rw [hds] at hd
  have hdname := name_of_mem_named hd
  have hmem := (List.mem_filter.mp hd).1
  rw [fieldDeclarations_group] at hmem
  obtain ⟨g, hg, hdservice, hnode⟩ := mem_collect hmem
  obtain ⟨c, hc, hf⟩ := List.mem_flatMap.mp hnode
  obtain ⟨f, hf, hfnode⟩ := List.mem_map.mp hf
  obtain ⟨hc, hcname⟩ := List.mem_filter.mp hc
  rw [← hfnode] at hdname
  refine ⟨g, hg, hdservice, c, hc, beq_iff_eq.mp hcname, f, hf, hdname, ?_⟩
  simp only [FieldDeclaration.contribution, ← hfnode, FieldDeclaration.requires_ofField,
    FieldDeclaration.provides_ofField]
  exact ⟨rfl, trivial, trivial⟩

/-- **The record of a type holds nothing else.** -/
theorem comesFrom {services : List Service} (hs : s.services = services.map Service.toSubgraph)
    (hwritten : ∀ service ∈ services,
      service.toSubgraph.typeDefinitions = service.typeContributions)
    {record : TypeOwnership} (hrecord : record ∈ s.composedSchema.1.ownership) :
    record.ComesFrom services := by
  rw [composedSchema_eq] at hrecord
  simp only [ownership_eq, List.mem_map] at hrecord
  obtain ⟨n, hn, rfl⟩ := hrecord
  have hname : (s.group n).ofOneKind.ownership.name = n := name_ofOneKind_group hn
  refine ⟨fun key hkey => ?_, fun r hr contribution hcontribution => ?_⟩
  · obtain ⟨g, hg, hservice, c, hc, hcname, hkey⟩ := exists_of_mem_keys h hn hkey
    rw [hs] at hg
    obtain ⟨service, hmem, rfl⟩ := List.mem_map.mp hg
    rw [hwritten service hmem] at hc
    exact ⟨service, hmem, hservice.symm, c, hc, hcname.trans hname.symm, hkey⟩
  · obtain ⟨g, hg, hservice, c, hc, hcname, f, hf, hfname, hexternal, hrequires, hprovides⟩ :=
      exists_of_mem_contributions h hn hr hcontribution
    rw [hs] at hg
    obtain ⟨service, hmem, rfl⟩ := List.mem_map.mp hg
    rw [hwritten service hmem] at hc
    refine ⟨service, hmem, hservice.symm, c, hc, hcname.trans hname.symm, f, hf, hfname, ?_⟩
    rw [hexternal, hrequires, hprovides]
    refine ⟨fun hmark => ?_, fun fields hfields => ?_, fun fields hfields => ?_⟩
    · obtain ⟨x, hx, hxname⟩ := List.any_eq_true.mp hmark
      exact ⟨x, hx, beq_iff_eq.mp hxname⟩
    · exact Directive.mem_fieldSets.mp (List.mem_of_getLast? hfields)
    · exact Directive.mem_fieldSets.mp (List.mem_of_getLast? hfields)

end

end Subgraphs

namespace Service

/-- **What is recorded of the directives of services.** The record of a type holds the field set of
every `@key` on a definition of a service, and one contribution of the service to every field that
the definition declares: marked as resolved elsewhere exactly if the field is, and with the field
sets of the last `@requires` and the last `@provides` on it. The record holds nothing else. -/
theorem compose_recorded {services : List Service} {g : Supergraph}
    (h : compose services = .ok (.ok g)) :
    (∀ service ∈ services, ∀ c ∈ service.typeContributions,
      ∃ record, g.schema.ownership? c.name = some record ∧ service.RecordedIn c record) ∧
    ∀ record ∈ g.schema.ownership, record.ComesFrom services := by
  obtain ⟨s, hs, hnone, hschema, hwritten⟩ := exists_of_compose h
  rw [hschema]
  refine ⟨fun service hservice c hc => ?_, fun record => Subgraphs.comesFrom hnone hs hwritten⟩
  have hmem : service.toSubgraph ∈ s.services := by
    rw [hs]
    exact List.mem_map_of_mem hservice
  rw [← hwritten service hservice] at hc
  obtain ⟨hn, hproblems, -⟩ := Subgraphs.group_of_mem_typeDefinitions hnone hmem hc
  have hrecord := s.ownership?_composedSchema hn
  rw [TypeGroup.ofOneKind_eq_self hproblems] at hrecord
  exact ⟨_, hrecord, Subgraphs.recordedIn hnone hmem hc⟩

/-- The key of each of two services is recorded. -/
theorem routedServices_recorded :
    ∃ g, compose routedServices = .ok (.ok g) ∧
      g.schema.types.map (·.name) = ["Query", "User"] ∧
      (∀ service ∈ routedServices, ∀ c ∈ service.typeContributions,
        ∃ record, g.schema.ownership? c.name = some record ∧ service.RecordedIn c record) ∧
      ∀ record ∈ g.schema.ownership, record.ComesFrom routedServices := by
  obtain ⟨g, hg, htypes⟩ : ∃ g, compose routedServices = .ok (.ok g) ∧
      g.schema.types.map (·.name) = ["Query", "User"] :=
    exists_compose (fun s => s.types.map (·.name)) (by cbv)
  exact ⟨g, hg, htypes, compose_recorded hg⟩

/-- A service that says of a field twice what it requires of others. -/
def requiredTwice : Service :=
  let requires := fun (fields : String) =>
    ({ name := FederationDirective.requiresName, arguments := [⟨"fields", .string fields⟩] } :
      Directive)
  { name := "a"
    document :=
      ⟨[.type
          { name := "Query"
            isExtension := true
            body := .object
              { fields :=
                  [{ name := "a"
                     type := .named "Int"
                     directives := [requires "b", requires "c"] }] } }]⟩ }

/-- The first of the two field sets is lost. -/
theorem requiredTwice_overwritten :
    ((requiredTwice.typeContributions.flatMap (·.fields)).flatMap fun f =>
      Directive.fieldSets FederationDirective.requiresName f.directives) =
        [⟨[.select "b" []]⟩, ⟨[.select "c" []]⟩] ∧
    ∃ g, compose [requiredTwice] = .ok (.ok g) ∧
      g.schema.ownership.flatMap (fun record => record.fields.flatMap fun r =>
        r.contributions.map fun contribution => (contribution.service, contribution.requires)) =
        [("a", some ⟨[.select "c" []]⟩)] :=
  ⟨by cbv, exists_compose (fun s => s.ownership.flatMap fun record =>
    record.fields.flatMap fun r =>
      r.contributions.map fun contribution => (contribution.service, contribution.requires))
    (by cbv)⟩

end Service

end Federation
