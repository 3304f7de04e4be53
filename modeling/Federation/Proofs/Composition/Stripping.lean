import Federation.Proofs.Composition.Applications
/-!
# Composition — stripping the directives of services

Directives that mean something inside a service only are stripped from
everything whose applications are merged: from types, fields, values of
enumerations and input fields. Arguments are copied whole. So one that
is left stands on an argument: of a field, where a service has to
redefine the directive to apply it, or of a directive definition, where
nothing is checked (`compose_stripped`).
-/

namespace Federation

namespace Schema

/-- The applications at all sites of a schema: on types and their members, on the arguments of
fields, and on the arguments of directive definitions. -/
def applications (s : Schema) : List Directive :=
  (s.types.flatMap Site.ofType).map (·.directive) ++
    s.directiveDefinitions.flatMap fun d => d.arguments.flatMap (·.directives)

end Schema

/-- No built-in definition allows the directives of services on arguments. -/
theorem DirectiveDefinition.exists_builtIn?_of_isServiceOnly {name : String}
    (h : FederationDirective.isServiceOnly name = true) :
    ∃ d, builtIn? name = some d ∧ .argumentDefinition ∉ d.locations := by
  have hall : ∀ name ∈ FederationDirective.serviceOnlyNames,
      (builtIn? name).any (fun d => decide (.argumentDefinition ∉ d.locations)) = true := by
    decide
  obtain ⟨d, hd, hlocations⟩ :=
    (Option.any_eq_true _ _).mp (hall name (List.contains_iff_mem.mp h))
  exact ⟨d, hd, of_decide_eq_true hlocations⟩

namespace Site

/-- On a settled type only arguments can carry the directives of services. -/
theorem place_of_settled {isRepeatable : String → Bool} {t : TypeDefinition}
    (h : t.Settled isRepeatable) {x : Site} (hx : x ∈ ofType t)
    (hname : FederationDirective.isServiceOnly x.directive.name = true) :
    x.place = .argumentDefinition := by
  have hnone : ∀ {ds : List Directive}, Directive.Settled isRepeatable ds →
      x.directive ∉ ds := by
    intro ds hds hmem
    rw [hds.composed _ hmem] at hname
    cases hname
  rcases mem_ofType.mp hx with hx | ⟨f, hf, hx⟩ | ⟨v, hv, hx⟩ | ⟨v, hv, hx⟩
  · obtain ⟨d, hd, rfl⟩ := mem_listAt.mp hx
    exact absurd hd (hnone h.directives)
  · rcases List.mem_append.mp hx with hx | hx
    · obtain ⟨d, hd, rfl⟩ := mem_listAt.mp hx
      exact absurd hd (hnone (h.fields f hf))
    · obtain ⟨a, -, hx⟩ := List.mem_flatMap.mp hx
      obtain ⟨d, -, rfl⟩ := mem_listAt.mp hx
      rfl
  · obtain ⟨d, hd, rfl⟩ := mem_listAt.mp hx
    exact absurd hd (hnone (h.enumValues v hv))
  · obtain ⟨d, hd, rfl⟩ := mem_listAt.mp hx
    exact absurd hd (hnone (h.inputFields v hv))

/-- Merging the applications on a type makes up no site. -/
theorem mem_ofType_of_mergeApplications {isRepeatable : String → Bool} {t : TypeDefinition}
    {x : Site} (h : x ∈ ofType (t.mergeApplications isRepeatable)) : x ∈ ofType t := by
  refine mem_ofType.mpr ((mem_ofType.mp h).imp_left fun hx => ?_)
  obtain ⟨d, hd, rfl⟩ := mem_listAt.mp hx
  obtain hnil | hd := Directive.mem_of_mem_merge hd
  · cases hnil
  · exact mem_listAt.mpr ⟨d, hd, rfl⟩

end Site

namespace Service

/-- Whether a service defines a directive so that it may be applied on arguments. -/
def AllowsOnArguments (service : Service) (name : String) : Prop :=
  ∃ d ∈ service.directiveContributions, d.name = name ∧ .argumentDefinition ∈ d.locations

/-- A service applies its own directives on arguments only where it defines them so. -/
theorem allowsOnArguments_of_problems {service : Service} {x : Site}
    (h : x.problems service.toSubgraph.lookupDirective = [])
    (hplace : x.place = .argumentDefinition)
    (hname : FederationDirective.isServiceOnly x.directive.name = true) :
    service.AllowsOnArguments x.directive.name := by
  have hallowed := Site.problems_eq_nil_iff.mp h
  by_cases hdefined : ∃ d ∈ service.toSubgraph.document.directiveDefinitions,
      d.name = x.directive.name
  · obtain ⟨d, hd, hdname, hlookup⟩ :=
      service.toSubgraph.lookupDirective_of_defined hdefined
    obtain ⟨hlocation, -⟩ := hallowed d hlookup
    rw [hplace, List.contains_iff_mem] at hlocation
    rw [directiveDefinitions_toSubgraph] at hd
    exact ⟨d, hd, hdname, hlocation⟩
  · -- the built-in definition would have been consulted, and does not allow the place
    obtain ⟨d, hd, hnot⟩ := DirectiveDefinition.exists_builtIn?_of_isServiceOnly hname
    have hlookup := service.toSubgraph.lookupDirective_of_undefined hdefined
    obtain ⟨hlocation, -⟩ := hallowed d (hlookup.trans hd)
    rw [hplace, List.contains_iff_mem] at hlocation
    exact absurd hlocation hnot

section

variable {services : List Service} {g : Supergraph} (h : compose services = .ok (.ok g))
include h

/-- What is left on a composed type stands on an argument, as it does in a service that allows
it there. -/
theorem exists_argument_of_isServiceOnly {t : TypeDefinition} (ht : t ∈ g.schema.types) {x : Site}
    (hx : x ∈ Site.ofType t)
    (hname : FederationDirective.isServiceOnly x.directive.name = true) :
    x.place = .argumentDefinition ∧
      ∃ service ∈ services, service.AllowsOnArguments x.directive.name ∧
        ∃ c ∈ service.typeContributions, c.name = t.name ∧
          ∃ y ∈ Site.ofType c, y.directive = x.directive ∧ y.place = x.place := by
  obtain ⟨s, hs, hnone, hschema, hwritten⟩ := exists_of_compose h
  rw [hschema] at ht
  obtain ⟨cs, happlied, hcs⟩ := Subgraphs.exists_appliedIn hnone ht
  have hplace : x.place = .argumentDefinition := by
    rw [Subgraphs.composedSchema_eq] at ht
    obtain ⟨m, hm, rfl⟩ := List.mem_map.mp ht
    obtain ⟨group, -, rfl⟩ := List.mem_map.mp hm
    exact Site.place_of_settled (TypeGroup.settled_definition _ group)
      (Site.mem_ofType_of_mergeApplications hx) hname
  refine ⟨hplace, ?_⟩
  -- the application stands at the same kind of place in a service, which was checked there
  obtain ⟨c, hc, y, hy, hdirective, hyplace⟩ := Site.exists_site happlied
    (fun c hc => by obtain ⟨-, -, -, -, hkind⟩ := hcs c hc; exact hkind) hx
  obtain ⟨g', hg', hmem, hcname, -⟩ := hcs c hc
  have hchecked : y.problems g'.lookupDirective = [] := by
    refine List.flatMap_eq_nil_iff.mp (Subgraphs.checks_of_mem hnone hg').1 y ?_
    exact List.mem_append_right _ (List.mem_flatMap.mpr ⟨c, hmem, hy⟩)
  rw [hs] at hg'
  obtain ⟨service, hservice, rfl⟩ := List.mem_map.mp hg'
  rw [hwritten service hservice] at hmem
  have hallows := allowsOnArguments_of_problems hchecked (hyplace.trans hplace)
    (by rw [hdirective]; exact hname)
  rw [hdirective] at hallows
  exact ⟨service, hservice, hallows, c, hmem, hcname, y, hy, hdirective, hyplace⟩

/-- The arguments of a composed directive definition are those of a service, as they are. -/
theorem exists_of_mem_directiveDefinitions {d : DirectiveDefinition}
    (hd : d ∈ g.schema.directiveDefinitions) :
    ∃ service ∈ services, ∃ d' ∈ service.directiveContributions,
      d'.name = d.name ∧ d'.arguments = d.arguments := by
  obtain ⟨s, hs, -, hschema, -⟩ := exists_of_compose h
  rw [hschema, Subgraphs.composedSchema_eq] at hd
  obtain ⟨-, g', hg', d', hd', hcopy⟩ := Subgraphs.exists_of_mem_mergedDirectiveDefinitions hd
  rw [hs] at hg'
  obtain ⟨service, hservice, rfl⟩ := List.mem_map.mp hg'
  rw [directiveDefinitions_toSubgraph] at hd'
  rw [hcopy]
  exact ⟨service, hservice, d', hd', rfl, rfl⟩

/-- **The directives of services are stripped from everything but arguments.** An application that
is left on a composed type stands on an argument of a field, and is one on an argument in a service
that redefines the directive to allow it. The arguments of composed directive definitions are those
of services, as they are. So nothing is left where no service redefines the directives for arguments
and none applies them on the arguments of its directive definitions. -/
theorem compose_stripped :
    (∀ t ∈ g.schema.types, ∀ x ∈ Site.ofType t,
      FederationDirective.isServiceOnly x.directive.name = true →
        x.place = .argumentDefinition ∧
          ∃ service ∈ services, service.AllowsOnArguments x.directive.name ∧
            ∃ c ∈ service.typeContributions, c.name = t.name ∧
              ∃ y ∈ Site.ofType c, y.directive = x.directive ∧ y.place = x.place) ∧
    (∀ d ∈ g.schema.directiveDefinitions, ∃ service ∈ services,
      ∃ d' ∈ service.directiveContributions, d'.name = d.name ∧ d'.arguments = d.arguments) ∧
    ((∀ service ∈ services,
        (∀ name, FederationDirective.isServiceOnly name = true →
          ¬service.AllowsOnArguments name) ∧
        ∀ d ∈ service.directiveContributions, ∀ a ∈ d.arguments, ∀ x ∈ a.directives,
          FederationDirective.isServiceOnly x.name = false) →
      ∀ x ∈ g.schema.applications, FederationDirective.isServiceOnly x.name = false) := by
  refine ⟨fun t ht x => exists_argument_of_isServiceOnly h ht,
    fun d => exists_of_mem_directiveDefinitions h, fun hnever x hx => ?_⟩
  rw [Bool.eq_false_iff]
  intro hname
  rcases List.mem_append.mp hx with hx | hx
  · obtain ⟨y, hy, rfl⟩ := List.mem_map.mp hx
    obtain ⟨t, ht, hy⟩ := List.mem_flatMap.mp hy
    obtain ⟨-, service, hservice, hallows, -⟩ := exists_argument_of_isServiceOnly h ht hy hname
    exact (hnever service hservice).1 _ hname hallows
  · obtain ⟨d, hd, hx⟩ := List.mem_flatMap.mp hx
    obtain ⟨a, ha, hx⟩ := List.mem_flatMap.mp hx
    obtain ⟨service, hservice, d', hd', -, harguments⟩ :=
      exists_of_mem_directiveDefinitions h hd
    rw [← harguments] at ha
    rw [(hnever service hservice).2 d' hd' a ha x hx] at hname
    cases hname

end

/-- A service with directive definitions and a root field. -/
def rootFieldService (name : String) (definitions : List DirectiveDefinition) (field : Field) :
    Service :=
  { name
    document :=
      ⟨definitions.map .directive ++
        [.type { name := "Query", body := .object { fields := [field] } }]⟩ }

/-- An application that marks what it stands on as resolved elsewhere. -/
def externalMark : Directive :=
  { name := FederationDirective.externalName }

/-- A field that one service resolves and another one marks. -/
def markedField : List Service :=
  [rootFieldService "a" [] { name := "n", type := .named "Int", directives := [externalMark] },
   rootFieldService "b" [] { name := "n", type := .named "Int" }]

/-- The mark is stripped. -/
theorem markedField_stripped :
    ∃ g, compose markedField = .ok (.ok g) ∧
      (g.schema.types.flatMap (·.fields)).map (·.name) = ["n"] ∧
      ∀ x ∈ g.schema.applications, FederationDirective.isServiceOnly x.name = false := by
  obtain ⟨g, hg, hfields⟩ : ∃ g, compose markedField = .ok (.ok g) ∧
      (g.schema.types.flatMap (·.fields)).map (·.name) = ["n"] :=
    exists_compose (fun s => (s.types.flatMap (·.fields)).map (·.name)) (by cbv)
  obtain ⟨-, -, hstripped⟩ := compose_stripped hg
  refine ⟨g, hg, hfields, hstripped ?_⟩
  have hnone : ∀ service ∈ markedField, service.directiveContributions = [] := by decide
  intro service hservice
  refine ⟨fun name _ hallows => ?_, ?_⟩
  · obtain ⟨d, hd, -⟩ := hallows
    rw [hnone service hservice] at hd
    cases hd
  · rw [hnone service hservice]
    exact List.forall_mem_nil _

/-- A service that applies the mark on the argument of a directive definition. -/
def markedDefinition : Service :=
  rootFieldService "a"
    [{ name := "cost"
       arguments := [{ name := "w", type := .named "Int", directives := [externalMark] }]
       locations := [.fieldDefinition] }]
    { name := "u", type := .named "Int" }

/-- A service that allows the mark on arguments, and applies it there. -/
def markedArgument : Service :=
  rootFieldService "a"
    [{ name := FederationDirective.externalName
       locations := [.fieldDefinition, .argumentDefinition] }]
    { name := "u"
      arguments := [{ name := "a", type := .named "Int", directives := [externalMark] }]
      type := .named "Int" }

/-- On arguments of either kind the mark is left. -/
theorem markedArguments_not_stripped :
    (∃ g, compose [markedDefinition] = .ok (.ok g) ∧ g.schema.applications = [externalMark]) ∧
      ∃ g, compose [markedArgument] = .ok (.ok g) ∧ g.schema.applications = [externalMark] :=
  ⟨exists_compose Schema.applications (by cbv), exists_compose Schema.applications (by cbv)⟩

end Service

end Federation
