import Federation.Proofs.Composition.Stripping
/-!
# Composition — directives stand where they may

Every application on the schema and on types is checked against the
definition of its directive: the one in the document, or else the
built-in one (`Document.definitionOf?`). A document that is built has no
application at a place that the definition does not allow, and neither
has the document of a service that is composed, which is checked under
the conventional names of its root types. The applications on the
arguments of directive definitions are not collected, so these are where
one can be misplaced (`applications_placed`).
-/

namespace Federation

namespace Document

/-- The definition of a directive in a document: its own, or else the built-in one. -/
def definitionOf? (d : Document) (name : String) : Option DirectiveDefinition :=
  d.directiveDefinitions.find? (·.name == name) <|> DirectiveDefinition.builtIn? name

/-- The definition of a directive, if there is one, allows an application at a place. -/
def Allows (d : Document) (x : Directive) (place : DirectiveLocation) : Prop :=
  ∀ definition, d.definitionOf? x.name = some definition → place ∈ definition.locations

/-- Applications on the schema and on types stand where they may, but for the types that are left
out. -/
structure Placed (d : Document) (leftOut : List String) : Prop where
  schema : ∀ definition ∈ d.schemaDefinitions, ∀ x ∈ definition.directives, d.Allows x .schema
  types : ∀ t ∈ d.typeDefinitions, t.name ∉ leftOut → ∀ x place, t.Carries x place →
    d.Allows x place

/-- Applications on the arguments of directive definitions stand where they may. -/
def ArgumentsPlaced (d : Document) : Prop :=
  ∀ definition ∈ d.directiveDefinitions, ∀ a ∈ definition.arguments, ∀ x ∈ a.directives,
    d.Allows x .argumentDefinition

/-- All applications stand where they may, but for the types that are left out. -/
structure WellPlaced (d : Document) (leftOut : List String) : Prop extends d.Placed leftOut where
  arguments : d.ArgumentsPlaced

variable {d : Document} {leftOut : List String}

theorem Placed.wellPlaced_iff (h : d.Placed leftOut) :
    d.WellPlaced leftOut ↔ d.ArgumentsPlaced :=
  ⟨fun hall => hall.arguments, fun harguments => { h with arguments := harguments }⟩

end Document

/-- A site without problems stands where the definition of its directive allows it. -/
theorem Site.place_mem_of_problems {y : Site} {lookup : String → Option DirectiveDefinition}
    (h : y.problems lookup = []) {definition : DirectiveDefinition}
    (hdefinition : lookup y.directive.name = some definition) : y.place ∈ definition.locations :=
  List.contains_iff_mem.mp (problems_eq_nil_iff.mp h definition hdefinition).1

/-! ## Documents that are built -/

namespace Schema

/-- A document without problems applies directives on the schema and on types where it may. -/
theorem placed_of_documentProblems {d : Document} (h : empty.documentProblems d = []) :
    d.Placed [] := by
  have hsites := (List.append_eq_nil_iff.mp h).1
  have hlookup : empty.lookupDirective d = d.definitionOf? := by
    funext name
    rw [lookupDirective, Document.definitionOf?]
    cases d.directiveDefinitions.find? (·.name == name) <;> rfl
  rw [hlookup] at hsites
  have hplaced : ∀ y ∈ d.schemaDefinitions.flatMap Site.ofSchema ++
      d.typeDefinitions.flatMap Site.ofType, d.Allows y.directive y.place := fun y hy _ =>
    Site.place_mem_of_problems (List.flatMap_eq_nil_iff.mp hsites y hy)
  constructor
  · intro definition hdefinition x hx
    exact hplaced _ (List.mem_append_left _ (List.mem_flatMap.mpr
      ⟨definition, hdefinition, Site.mem_listAt.mpr ⟨x, hx, rfl⟩⟩))
  · intro t ht _ x place hcarries
    obtain ⟨y, hy, rfl, rfl⟩ := TypeDefinition.carries_iff.mp hcarries
    exact hplaced y (List.mem_append_right _ (List.mem_flatMap.mpr ⟨t, ht, hy⟩))

end Schema

/-! ## Services that are composed -/

namespace RootRename

variable (rs : List RootRename)

theorem fields_definition (t : TypeDefinition) :
    (definition rs t).fields = t.fields.map (field rs) := by
  rw [TypeDefinition.fields, TypeDefinition.fields, definition]
  cases t.body <;> rfl

theorem enumValues_definition (t : TypeDefinition) :
    (definition rs t).body.enumValues = t.body.enumValues := by
  rw [definition]
  cases t.body <;> rfl

theorem inputFields_definition (t : TypeDefinition) :
    (definition rs t).body.inputFields = t.body.inputFields.map (inputValue rs) := by
  rw [definition]
  cases t.body <;> rfl

/-- **A type carries what it carried** under the conventional names. -/
theorem carries_definition {t : TypeDefinition} {x : Directive} {place : DirectiveLocation}
    (h : t.Carries x place) : (definition rs t).Carries x place := by
  have hbody : (definition rs t).body = members rs t.body := rfl
  cases h with
  | scalar ht hx => exact .scalar (by rw [hbody, ht]; rfl) hx
  | object ht hx => exact .object (by rw [hbody, ht]; rfl) hx
  | interface ht hx => exact .interface (by rw [hbody, ht]; rfl) hx
  | union ht hx => exact .union (by rw [hbody, ht]; rfl) hx
  | enum ht hx => exact .enum (by rw [hbody, ht]; rfl) hx
  | inputObject ht hx => exact .inputObject (by rw [hbody, ht]; rfl) hx
  | field hf hx =>
    refine .field (f := field rs _) ?_ hx
    rw [fields_definition]
    exact List.mem_map_of_mem hf
  | argument hf ha hx =>
    refine .argument (f := field rs _) (a := inputValue rs _) ?_ (List.mem_map_of_mem ha) hx
    rw [fields_definition]
    exact List.mem_map_of_mem hf
  | enumValue hv hx =>
    rw [← enumValues_definition rs] at hv
    exact .enumValue hv hx
  | inputField hv hx =>
    refine .inputField (v := inputValue rs _) ?_ hx
    rw [inputFields_definition]
    exact List.mem_map_of_mem hv

/-- No type is given the name of one that only a router uses. -/
theorem name_not_mem_routerTypes {n : String} (h : n ∉ Subgraph.routerTypes) :
    name rs n ∉ Subgraph.routerTypes := by
  rw [name]
  cases rs.find? (·.custom == n) with
  | none => exact h
  | some r =>
    show r.operation.conventionalName ∉ _
    cases r.operation <;> decide

end RootRename

namespace Service

/-- A service looks a directive up under the conventional names, and finds the same locations. -/
theorem exists_lookupDirective_toSubgraph (service : Service) {name : String}
    {definition : DirectiveDefinition} (h : service.document.definitionOf? name = some definition) :
    ∃ found, service.toSubgraph.lookupDirective name = some found ∧
      found.locations = definition.locations := by
  rw [Document.definitionOf?] at h
  rw [Subgraph.lookupDirective, directiveDefinitions_toSubgraph, directiveContributions,
    List.find?_map]
  have hname : ((fun d : DirectiveDefinition => d.name == name) ∘
      RootRename.directive service.document.rootRenames) = fun d => d.name == name := rfl
  rw [hname]
  cases hfind : service.document.directiveDefinitions.find? (·.name == name) with
  | none =>
    rw [hfind] at h
    exact ⟨definition, h, rfl⟩
  | some own =>
    rw [hfind] at h
    obtain rfl : own = definition := Option.some.inj h
    exact ⟨_, rfl, rfl⟩

/-- A service applies a directive at a place: on its schema, or on a type that a router does not
keep for itself. -/
inductive Applies (service : Service) : Directive → DirectiveLocation → Prop
  | schema {definition : SchemaDefinition} {x : Directive}
      (hdefinition : definition ∈ service.document.schemaDefinitions)
      (hx : x ∈ definition.directives) : service.Applies x .schema
  | type {t : TypeDefinition} {x : Directive} {place : DirectiveLocation}
      (ht : t ∈ service.document.typeDefinitions)
      (hname : RootRename.name service.document.rootRenames t.name ∉ Subgraph.routerTypes)
      (hcarries : t.Carries x place) : service.Applies x place

/-- **What a service applies is checked**, where nothing that it was written with is dropped. -/
theorem Applies.exists_site {service : Service} {x : Directive} {place : DirectiveLocation}
    (h : service.Applies x place)
    (hwritten : service.toSubgraph.typeDefinitions = service.typeContributions) :
    ∃ y ∈ service.toSubgraph.schemaSites ++
        service.toSubgraph.typeDefinitions.flatMap Site.ofType,
      y.directive = x ∧ y.place = place := by
  cases h with
  | @schema definition x hdefinition hx =>
    have hdefinitions : service.toSubgraph.document.schemaDefinitions =
        service.document.schemaDefinitions :=
      service.document.schemaDefinitions_withConventionalRoots
    rw [← hdefinitions] at hdefinition
    exact ⟨_, List.mem_append_left _ (List.mem_flatMap.mpr
      ⟨definition, hdefinition, Site.mem_listAt.mpr ⟨x, hx, rfl⟩⟩), rfl, rfl⟩
  | @type t x place ht hname hcarries =>
    obtain ⟨y, hy, rfl, rfl⟩ := TypeDefinition.carries_iff.mp
      (RootRename.carries_definition service.document.rootRenames hcarries)
    refine ⟨y, List.mem_append_right _ (List.mem_flatMap.mpr ⟨_, ?_, hy⟩), rfl, rfl⟩
    rw [hwritten]
    refine List.mem_filter.mpr ⟨List.mem_map_of_mem ht, ?_⟩
    simpa [RootRename.definition] using hname

/-- **The services that are composed apply directives where they may**, on the schema and on all
types but those that only a router uses. -/
theorem placed_of_compose {services : List Service} {g : Supergraph}
    (h : compose services = .ok (.ok g)) {service : Service} (hservice : service ∈ services) :
    service.document.Placed Subgraph.routerTypes := by
  obtain ⟨s, hs, hnone, -, hwritten⟩ := exists_of_compose h
  have hsites :=
    (Subgraphs.checks_of_mem hnone (Subgraphs.toSubgraph_mem_services hs hservice)).1
  have hplaced : ∀ x place, service.Applies x place → service.document.Allows x place := by
    intro x place happlies definition hdefinition
    obtain ⟨y, hy, rfl, rfl⟩ := happlies.exists_site (hwritten service hservice)
    obtain ⟨found, hfound, hlocations⟩ := service.exists_lookupDirective_toSubgraph hdefinition
    rw [← hlocations]
    exact Site.place_mem_of_problems (List.flatMap_eq_nil_iff.mp hsites y hy) hfound
  constructor
  · exact fun definition hdefinition x hx => hplaced x .schema (.schema hdefinition hx)
  · intro t ht hrouter x place hcarries
    have hname := RootRename.name_not_mem_routerTypes service.document.rootRenames hrouter
    exact hplaced x place (.type ht hname hcarries)

/-- **Directives stand where they may**, in every document that is built and in the document of
every service that is composed, there without the types that only a router uses. This holds of
applications on the schema and on types at any depth; the document as a whole is well placed exactly
when the applications on the arguments of its directive definitions are, which no check looks at. -/
theorem applications_placed (services : List Service) (d : Document) :
    (∀ s, Schema.build d = .ok s → d.Placed [] ∧ (d.WellPlaced [] ↔ d.ArgumentsPlaced)) ∧
    ∀ g, compose services = .ok (.ok g) →
      ∀ service ∈ services, service.document.Placed Subgraph.routerTypes ∧
        (service.document.WellPlaced Subgraph.routerTypes ↔ service.document.ArgumentsPlaced) := by
  constructor
  · intro s h
    have hplaced := Schema.placed_of_documentProblems (Schema.build_eq_ok_iff.mp h).1
    exact ⟨hplaced, hplaced.wellPlaced_iff⟩
  · intro g h service hservice
    have hplaced := placed_of_compose h hservice
    exact ⟨hplaced, hplaced.wellPlaced_iff⟩

/-- A service that allows the mark on arguments applies it there, and is built and composed. -/
theorem markedArgument_placed :
    (∃ s, Schema.build markedArgument.document = .ok s ∧ markedArgument.document.WellPlaced []) ∧
      ∃ g, compose [markedArgument] = .ok (.ok g) ∧
        markedArgument.document.WellPlaced Subgraph.routerTypes := by
  obtain ⟨hbuilt, hcomposed⟩ := applications_placed [markedArgument] markedArgument.document
  have harguments : markedArgument.document.ArgumentsPlaced := by
    have hnone : ∀ definition ∈ markedArgument.document.directiveDefinitions,
        definition.arguments = [] := by decide
    intro definition hdefinition a ha
    rw [hnone definition hdefinition] at ha
    cases ha
  constructor
  · obtain ⟨s, hs⟩ : ∃ s, Schema.build markedArgument.document = .ok s := ⟨_, by cbv⟩
    exact ⟨s, hs, (hbuilt s hs).2.mpr harguments⟩
  · obtain ⟨g, hg, -⟩ : ∃ g, compose [markedArgument] = .ok (.ok g) ∧
        g.schema.types.length = 1 := exists_compose (·.types.length) (by cbv)
    exact ⟨g, hg, (hcomposed g hg _ (List.mem_singleton_self _)).2.mpr harguments⟩

/-- A service that applies the mark on the argument of a directive definition, where the mark is not
allowed, is built and composed too. -/
theorem markedDefinition_not_placed :
    (∃ s, Schema.build markedDefinition.document = .ok s) ∧
      (∃ g, compose [markedDefinition] = .ok (.ok g)) ∧
      ¬markedDefinition.document.WellPlaced [] ∧
      ¬markedDefinition.document.WellPlaced Subgraph.routerTypes := by
  have hmisplaced : ¬markedDefinition.document.ArgumentsPlaced := by
    intro harguments
    have hdefinition : markedDefinition.document.definitionOf? externalMark.name =
        DirectiveDefinition.builtIn? FederationDirective.externalName := by decide
    have hallowed := harguments _ (List.mem_singleton_self _) _ (List.mem_singleton_self _)
      externalMark (List.mem_singleton_self _)
    rw [Document.Allows, hdefinition] at hallowed
    have hmark : FederationDirective.isServiceOnly FederationDirective.externalName = true := by
      decide
    obtain ⟨builtIn, hbuiltIn, hnot⟩ := DirectiveDefinition.exists_builtIn?_of_isServiceOnly hmark
    exact hnot (hallowed builtIn hbuiltIn)
  refine ⟨⟨_, by cbv⟩, ?_, fun h => hmisplaced h.arguments, fun h => hmisplaced h.arguments⟩
  obtain ⟨g, hg, -⟩ : ∃ g, compose [markedDefinition] = .ok (.ok g) ∧
      g.schema.types.length = 1 := exists_compose (·.types.length) (by cbv)
  exact ⟨g, hg⟩

end Service

end Federation
