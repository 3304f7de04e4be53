import Federation.Proofs.Composition.Placement
/-!
# Composition — one definition for all services

A composed directive definition is that of the first service, and the
definitions of the others are compared with it. Services that are
composed have definitions that agree with the composed one
(`DirectiveDefinition.Agrees`), so it accepts what they accept
(`Agrees.accepts`): what a service applies, and was checked by the
service's own definition, is also right by the composed one
(`compose_directive_definitions`). The types that only a router uses are
not composed, and what they apply is not checked.
-/

namespace Federation

namespace DirectiveDefinition

/-- What definitions of a directive have to agree about in an argument. Defaults may differ in the
sign of a zero. -/
def signature (v : InputValue) : String × TypeRef × Option Value :=
  (v.name, v.type, v.default.map Value.canonical)

/-- Two definitions of a directive agree: about its repetition, its locations and, in whatever order,
its arguments. -/
structure Agrees (a b : DirectiveDefinition) : Prop where
  isRepeatable : a.isRepeatable = b.isRepeatable
  locations : ∀ place, place ∈ a.locations ↔ place ∈ b.locations
  arguments : (a.arguments.map signature).Perm (b.arguments.map signature)

/-- A definition accepts an application at a place: the place is one of its locations, the arguments
are known, and all that are required are there. -/
structure Accepts (d : DirectiveDefinition) (x : Directive) (place : DirectiveLocation) : Prop where
  location : place ∈ d.locations
  known : ∀ a ∈ x.arguments, ∃ v ∈ d.arguments, v.name = a.name
  required : ∀ v ∈ d.arguments, v.type.isNonNull = true → v.default = none →
    ∃ a ∈ x.arguments, a.name = v.name

variable {a b d : DirectiveDefinition}

/-- **What is compared with the first definition is all that definitions agree about.** -/
theorem agrees_of_sameSignature (h : a.sameSignature b = true) : a.Agrees b := by
  have hsymm : b.sameSignature a = true := sameSignature_comm.trans h
  have hplaces : ∀ {c e : DirectiveDefinition}, c.sameSignature e = true →
      ∀ place ∈ c.locations, place ∈ e.locations := fun hsame place hplace =>
    List.contains_iff_mem.mp (contains_location_of_sameSignature hsame
      (List.contains_iff_mem.mpr hplace))
  rw [sameSignature, Bool.and_eq_true, Bool.and_eq_true] at h
  refine ⟨beq_iff_eq.mp h.1.1, fun place => ⟨hplaces ?_ place, hplaces hsymm place⟩, ?_⟩
  · rwa [sameSignature_comm]
  · -- both lists of arguments are put in the order of their names, and then they are equal
    have hsorted : a.argumentSignature = b.argumentSignature := of_decide_eq_true h.1.2
    have hperm : ∀ c : DirectiveDefinition,
        c.argumentSignature.Perm (c.arguments.map signature) := fun c =>
      (List.mergeSort_perm _ _).map signature
    exact ((hperm a).symm.trans (by rw [hsorted])).trans (hperm b)

namespace Agrees

theorem symm (h : a.Agrees b) : b.Agrees a :=
  ⟨h.isRepeatable.symm, fun place => (h.locations place).symm, h.arguments.symm⟩

/-- An argument of one definition has its counterpart in the other. -/
theorem exists_argument (h : a.Agrees b) {v : InputValue} (hv : v ∈ a.arguments) :
    ∃ w ∈ b.arguments, signature w = signature v :=
  List.mem_map.mp (h.arguments.subset (List.mem_map_of_mem hv))

/-- **Definitions that agree accept the same applications.** -/
theorem accepts (h : a.Agrees b) {x : Directive} {place : DirectiveLocation}
    (hx : b.Accepts x place) : a.Accepts x place where
  location := (h.locations place).mpr hx.location
  known y hy := by
    obtain ⟨w, hw, hname⟩ := hx.known y hy
    obtain ⟨v, hv, heq⟩ := h.symm.exists_argument hw
    exact ⟨v, hv, (Prod.mk.inj heq).1.trans hname⟩
  required v hv hnonNull hdefault := by
    obtain ⟨w, hw, heq⟩ := h.exists_argument hv
    obtain ⟨hname, hrest⟩ := Prod.mk.inj heq
    obtain ⟨htype, hdefaults⟩ := Prod.mk.inj hrest
    rw [hdefault, Option.map_none, Option.map_eq_none_iff] at hdefaults
    obtain ⟨y, hy, hyname⟩ := hx.required w hw (htype ▸ hnonNull) hdefaults
    exact ⟨y, hy, hyname.trans hname⟩

end Agrees

theorem builtIn?_eq_none_iff {name : String} :
    builtIn? name = none ↔ name ∉ builtIn.map (·.name) := by
  simp [builtIn?]

/-- The arguments of a directive that is not built in are checked where it is applied. -/
theorem isInterpreted_of_not_builtIn {name : String} (h : builtIn? name = none) :
    Site.isInterpreted name = false := by
  have hbuiltIn : ∀ n ∈ FederationDirective.tagName :: FederationDirective.serviceOnlyNames,
      builtIn? n ≠ none := by decide
  by_contra hinterpreted
  refine hbuiltIn name ?_ h
  simpa [Site.isInterpreted, FederationDirective.isServiceOnly, Decidable.or_iff_not_imp_right] using
    hinterpreted

/-- A definition accepts what is found right by it. -/
theorem accepts_of_problems {lookup : String → Option DirectiveDefinition} {y : Site}
    (hnone : builtIn? y.directive.name = none) (hlookup : lookup y.directive.name = some d)
    (h : y.problems lookup = []) : d.Accepts y.directive y.place := by
  obtain ⟨hlocation, harguments⟩ := Site.problems_eq_nil_iff.mp h d hlookup
  rw [isInterpreted_of_not_builtIn hnone] at harguments
  obtain ⟨hknown, hrequired⟩ := harguments.resolve_left Bool.false_ne_true
  refine ⟨List.contains_iff_mem.mp hlocation, fun a ha => ?_, fun v hv hnonNull hdefault => ?_⟩
  · simpa using hknown a ha
  · have hv' : v ∈ d.requiredArguments :=
      List.mem_filter.mpr ⟨hv, by rw [hnonNull, hdefault]; rfl⟩
    have hgiven := hrequired v hv'
    rw [Directive.argument?, Option.isSome_map, List.find?_isSome] at hgiven
    simpa using hgiven

end DirectiveDefinition

namespace Subgraphs

variable {s : Subgraphs} {d : DirectiveDefinition}

/-- A composed definition is composed from the definitions of its name. -/
theorem definition?_of_mem (hd : d ∈ s.mergedDirectiveDefinitions) :
    (s.definitionsOfDirective d.name).definition? = some d := by
  rw [← find?_mergedDirectiveDefinitions, ← List.head?_filter,
    filter_eq_singleton s.nodup_mergedDirectiveDefinitions hd, List.head?_cons]

/-- **A composed definition agrees with those of all services.** -/
theorem agrees_of_mem (hgroups : s.directiveGroups.flatMap DirectiveGroup.problems = [])
    (hd : d ∈ s.mergedDirectiveDefinitions) {g : Subgraph} (hg : g ∈ s.services)
    {d' : DirectiveDefinition} (hd' : d' ∈ g.document.directiveDefinitions)
    (hname : d'.name = d.name) : d.Agrees d' := by
  have hnone := (exists_of_mem_mergedDirectiveDefinitions hd).1
  obtain ⟨e, he, rfl⟩ := exists_mem_definitionsOfDirective hg hd' (by rw [hname]; exact hnone)
  rw [hname] at he
  have hmem : s.definitionsOfDirective d.name ∈ s.directiveGroups :=
    List.mem_map_of_mem (mem_directiveNames (List.ne_nil_of_mem he))
  have hproblems := List.flatMap_eq_nil_iff.mp hgroups _ hmem
  have hdefinition := definition?_of_mem hd
  obtain ⟨first, others, hgroup⟩ := List.exists_cons_of_ne_nil (List.ne_nil_of_mem he)
  rw [hgroup] at he hproblems hdefinition
  -- the composed definition is the first one but for its description, which does not count
  have hsame := DirectiveGroup.sameSignature_of_problems hproblems e he
  rw [← Option.some.inj hdefinition]
  exact DirectiveDefinition.agrees_of_sameSignature hsame

theorem mem_map_name_mergedDirectiveDefinitions {name : String} :
    name ∈ s.mergedDirectiveDefinitions.map (·.name) ↔
      DirectiveDefinition.builtIn? name = none ∧
        ∃ g ∈ s.services, ∃ d ∈ g.document.directiveDefinitions, d.name = name := by
  constructor
  · rintro hname
    obtain ⟨d, hd, rfl⟩ := List.mem_map.mp hname
    obtain ⟨hnone, g, hg, d', hd', hcopy⟩ := exists_of_mem_mergedDirectiveDefinitions hd
    exact ⟨hnone, g, hg, d', hd', by rw [hcopy]⟩
  · rintro ⟨hnone, g, hg, d, hd, rfl⟩
    obtain ⟨e, he, rfl⟩ := exists_mem_definitionsOfDirective hg hd hnone
    obtain ⟨first, others, hgroup⟩ := List.exists_cons_of_ne_nil (List.ne_nil_of_mem he)
    have hfind := find?_mergedDirectiveDefinitions s e.node.name
    rw [hgroup] at hfind
    have hfound := List.find?_some hfind
    exact List.mem_map.mpr ⟨_, List.mem_of_find?_eq_some hfind, beq_iff_eq.mp hfound⟩

end Subgraphs

namespace Service

/-- **A composed definition accepts what the services that define the directive apply.** -/
theorem Applies.accepts {services : List Service} {s : Subgraphs}
    (hs : s.services = services.map toSubgraph) (hnone : s.allProblems = [])
    {d : DirectiveDefinition} (hd : d ∈ s.mergedDirectiveDefinitions) {service : Service}
    (hservice : service ∈ services)
    (hdefined : ∃ d' ∈ service.toSubgraph.document.directiveDefinitions, d'.name = d.name)
    {x : Directive} {place : DirectiveLocation} (hx : x.name = d.name)
    (happlies : service.Applies x place) : d.Accepts x place := by
  have hg := Subgraphs.toSubgraph_mem_services hs hservice
  obtain ⟨y, hy, rfl, rfl⟩ := happlies.exists_site
    (Subgraphs.typeDefinitions_eq_of_problems hs hnone service hservice)
  -- the service was checked by a definition of its own, and the composed one agrees with that
  have hchecked := List.flatMap_eq_nil_iff.mp (Subgraphs.checks_of_mem hnone hg).1 y hy
  obtain ⟨found, hfound, hname, hlookup⟩ := service.toSubgraph.lookupDirective_of_defined hdefined
  have hagrees := Subgraphs.agrees_of_mem
    (Subgraphs.directiveProblems_eq_nil (Subgraphs.problems_eq_nil hnone).2.1) hd hg hfound hname
  have hbuiltIn := (Subgraphs.exists_of_mem_mergedDirectiveDefinitions hd).1
  rw [← hx] at hbuiltIn hlookup
  exact hagrees.accepts (DirectiveDefinition.accepts_of_problems hbuiltIn hlookup hchecked)

/-- **Composed directive definitions are those of the services, and keep their applications right.**
They have, in strict order, the names that are not built in and that a service defines; each agrees
with every service's definition of its name under the conventional names of root types; and it
accepts all that the service applies of it, on its schema and on all types but those that only a
router uses. -/
theorem compose_directive_definitions {services : List Service} {g : Supergraph}
    (h : compose services = .ok (.ok g)) :
    (g.schema.directiveDefinitions.map (·.name)).Pairwise (· < ·) ∧
    (∀ name, name ∈ g.schema.directiveDefinitions.map (·.name) ↔
      name ∉ DirectiveDefinition.builtIn.map (·.name) ∧
        ∃ service ∈ services, ∃ d ∈ service.document.directiveDefinitions, d.name = name) ∧
    ∀ d ∈ g.schema.directiveDefinitions, ∀ service ∈ services,
      ∀ d' ∈ service.document.directiveDefinitions, d'.name = d.name →
        d.Agrees (RootRename.directive service.document.rootRenames d') ∧
        ∀ x place, x.name = d.name → service.Applies x place → d.Accepts x place := by
  obtain ⟨s, hs, hnone, hschema, -⟩ := exists_of_compose h
  have hdefinitions : g.schema.directiveDefinitions = s.mergedDirectiveDefinitions := by
    rw [hschema, Subgraphs.composedSchema_eq]
  have hrenamed : ∀ service : Service, ∀ d' ∈ service.document.directiveDefinitions,
      RootRename.directive service.document.rootRenames d' ∈
        service.toSubgraph.document.directiveDefinitions := by
    intro service d' hd'
    rw [directiveDefinitions_toSubgraph]
    exact List.mem_map_of_mem hd'
  rw [hdefinitions]
  refine ⟨s.pairwise_name_mergedDirectiveDefinitions, fun name => ?_,
    fun d hd service hservice d' hd' hname => ⟨?_, fun x place hx happlies => ?_⟩⟩
  · rw [Subgraphs.mem_map_name_mergedDirectiveDefinitions,
      DirectiveDefinition.builtIn?_eq_none_iff, hs]
    simp only [List.mem_map, exists_exists_and_eq_and, directiveDefinitions_toSubgraph,
      directiveContributions]
    rfl
  · exact Subgraphs.agrees_of_mem
      (Subgraphs.directiveProblems_eq_nil (Subgraphs.problems_eq_nil hnone).2.1) hd
      (Subgraphs.toSubgraph_mem_services hs hservice) (hrenamed service d' hd') hname
  · exact happlies.accepts hs hnone hd hservice ⟨_, hrenamed service d' hd', hname⟩ hx

/-! ### The cost of a root type

Two services define the same directive, whose argument is of the query root. The service `a` has its
own name for the root, and applies the directive without its argument on a type for routers. -/

/-- The definition of a directive with a required argument. -/
def costOf (typeName : String) (locations : List DirectiveLocation) : DirectiveDefinition :=
  { name := "cost"
    arguments := [{ name := "of", type := .nonNull (.named typeName) }]
    locations }

/-- An application with the required argument. -/
def costOfB : Directive :=
  { name := "cost", arguments := [⟨"of", .string "b"⟩] }

/-- The service that has its own name for the root. -/
def costingA : Service :=
  { name := "a"
    document :=
      ⟨[.schema { rootOperations := [⟨.query, "Root"⟩] },
        .directive (costOf "Root" [.object, .fieldDefinition]),
        .type
          { name := "_Service"
            directives := [⟨"cost", []⟩]
            body := .object { fields := [{ name := "sdl", type := .named "String" }] } },
        .type
          { name := "Root"
            body := .object { fields := [{ name := "a", type := .named "Int" }] } }]⟩ }

/-- The service that lists the same locations the other way round. -/
def costingB : Service :=
  { name := "b"
    document :=
      ⟨[.directive (costOf "Query" [.fieldDefinition, .object]),
        .type
          { name := "Query"
            isExtension := true
            body := .object
              { fields :=
                  [{ name := "b", type := .named "Int", directives := [costOfB] }] } }]⟩ }

theorem exists_compose_costing :
    ∃ g, compose [costingA, costingB] = .ok (.ok g) ∧
      g.schema.directiveDefinitions = [costOf "Query" [.object, .fieldDefinition]] :=
  exists_compose (·.directiveDefinitions) (by cbv)

/-- The definition is composed from both, and accepts what the service `b` applies. -/
theorem costing_directive_definitions :
    ∃ g, compose [costingA, costingB] = .ok (.ok g) ∧
      g.schema.directiveDefinitions.map (·.name) = ["cost"] ∧
      ∀ d ∈ g.schema.directiveDefinitions,
        d.Agrees (costOf "Query" [.fieldDefinition, .object]) ∧
          d.Accepts costOfB .fieldDefinition := by
  obtain ⟨g, hg, hdefinitions⟩ := exists_compose_costing
  refine ⟨g, hg, by rw [hdefinitions]; rfl, fun d hd => ?_⟩
  have hname : d.name = "cost" := by
    rw [hdefinitions, List.mem_singleton] at hd
    rw [hd]
    rfl
  obtain ⟨hagrees, haccepts⟩ := (compose_directive_definitions hg).2.2 d hd costingB (by simp)
    (costOf "Query" [.fieldDefinition, .object]) (by decide) hname.symm
  refine ⟨hagrees, haccepts costOfB .fieldDefinition hname.symm ?_⟩
  exact .type (List.mem_singleton_self _) (by decide)
    (.field (List.mem_singleton_self _) (List.mem_singleton_self _))

/-- The definition is not as the service `a` has written it, and does not accept all that the
service applies. -/
theorem costing_not_as_written :
    ∃ g, compose [costingA, costingB] = .ok (.ok g) ∧
      ∃ d ∈ g.schema.directiveDefinitions, ∃ d' ∈ costingA.document.directiveDefinitions,
        d'.name = d.name ∧ ¬d.Agrees d' ∧
        ∃ t ∈ costingA.document.typeDefinitions, ∃ x place,
          t.Carries x place ∧ x.name = d.name ∧ ¬d.Accepts x place := by
  obtain ⟨g, hg, hdefinitions⟩ := exists_compose_costing
  have hmem : costOf "Query" [.object, .fieldDefinition] ∈ g.schema.directiveDefinitions := by
    rw [hdefinitions]
    exact List.mem_singleton_self _
  refine ⟨g, hg, _, hmem, _, List.mem_singleton_self _, rfl, ?_, _, List.mem_cons_self,
    ⟨"cost", []⟩, .object, .object rfl (List.mem_singleton_self _), rfl, ?_⟩
  · intro hagrees
    have hperm := hagrees.arguments
    revert hperm
    decide
  · intro haccepts
    obtain ⟨a, ha, -⟩ := haccepts.required _ (List.mem_singleton_self _) rfl rfl
    cases ha

end Service

end Federation
