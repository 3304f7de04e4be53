import Federation.Proofs.Composition.DirectiveDefinitions
import Federation.Proofs.Composition.Origins
import Federation.Proofs.Composition.Settled
/-!
# Composition — applications that stay allowed

A service is checked against its own directive definitions, and the
composed schema against those that were merged. The two give the same
answer about an application of a service that knows the directives it
applies: it defines those that any service defines, and none that is
built in. Where every service does, every application on a composed type
is allowed by the composed definition of its directive
(`problems_of_knowsDirectives`).
-/

namespace Federation

open Declared

/-! ## Applications that are left -/

theorem Declared.settled_mergedDirectives {α : Type} (isRepeatable : String → Bool)
    (directives : α → List Directive) (ds : List (Declared α)) :
    Directive.Settled isRepeatable (mergedDirectives isRepeatable directives ds) :=
  ⟨Directive.pairwise_merge List.Pairwise.nil, fun _ hx => (mem_mergedDirectives hx).1⟩

/-- **What declarations are composed to is settled.** -/
theorem TypeGroup.settled_definition (isRepeatable : String → Bool) (g : TypeGroup) :
    (g.definition isRepeatable).Settled isRepeatable where
  base := rfl
  distinct := distinctMembers_body isRepeatable g
  directives := settled_mergedDirectives isRepeatable _ g
  fields f hf := by
    obtain ⟨-, hcompose⟩ := (FieldDeclaration.keepsName_compose isRepeatable).compose_of_mem
      (mem_fields_of_body isRepeatable hf)
    rw [FieldDeclaration.directives_of_compose hcompose]
    exact settled_mergedDirectives isRepeatable _ _
  enumValues v hv := by
    obtain ⟨-, hcompose⟩ := (EnumValue.keepsName_compose isRepeatable).compose_of_mem
      (mem_enumValues_of_body isRepeatable hv)
    rw [EnumValue.directives_of_compose hcompose]
    exact settled_mergedDirectives isRepeatable _ _
  inputFields v hv := by
    obtain ⟨-, hcompose⟩ := (InputValue.keepsName_compose isRepeatable).compose_of_mem
      (mem_inputFields_of_body isRepeatable hv)
    rw [InputValue.directives_of_compose hcompose]
    exact settled_mergedDirectives isRepeatable _ _

/-! ## Definitions that agree -/

namespace DirectiveDefinition

variable {a b : DirectiveDefinition}

theorem mem_argumentSignature {x : String × TypeRef × Option Value} :
    x ∈ a.argumentSignature ↔
      ∃ v ∈ a.arguments, (v.name, v.type, v.default.map Value.canonical) = x := by
  simp [argumentSignature]

/-- What agrees in one direction agrees in the other. -/
theorem sameSignature_comm : a.sameSignature b = b.sameSignature a := by
  rw [sameSignature, sameSignature, sameLocations, sameLocations, Bool.beq_comm,
    Bool.and_comm (a.locations.all _), decide_eq_decide.mpr eq_comm]

theorem sameSignature_self : a.sameSignature a = true := by
  simp [sameSignature, sameLocations]

/-- Every argument of one definition has its counterpart in another that agrees. -/
theorem exists_argument_of_sameSignature (h : a.sameSignature b = true) {v : InputValue}
    (hv : v ∈ a.arguments) :
    ∃ w ∈ b.arguments, w.name = v.name ∧ w.type = v.type ∧ w.default.isNone = v.default.isNone := by
  rw [sameSignature, Bool.and_eq_true, Bool.and_eq_true] at h
  have harguments : a.argumentSignature = b.argumentSignature := of_decide_eq_true h.1.2
  have hmem := mem_argumentSignature.mpr ⟨v, hv, rfl⟩
  rw [harguments] at hmem
  obtain ⟨w, hw, heq⟩ := mem_argumentSignature.mp hmem
  obtain ⟨hname, hrest⟩ := Prod.mk.inj heq
  obtain ⟨htype, hdefault⟩ := Prod.mk.inj hrest
  refine ⟨w, hw, hname, htype, ?_⟩
  rw [← Option.isNone_map (f := Value.canonical), hdefault, Option.isNone_map]

theorem contains_location_of_sameSignature (h : a.sameSignature b = true)
    {place : DirectiveLocation} (hplace : a.locations.contains place = true) :
    b.locations.contains place = true := by
  rw [sameSignature, Bool.and_eq_true, sameLocations] at h
  have hlocations := (Bool.and_eq_true_iff.mp h.2).1
  exact List.all_eq_true.mp hlocations place (List.contains_iff_mem.mp hplace)

end DirectiveDefinition

/-! ## What the check of an application reads -/

theorem Directive.malformed_eq_nil_iff {coordinate : Coordinate} {location : Location}
    {ds : List Directive} :
    malformed coordinate location ds = [] ↔
      ∀ x ∈ ds, ∃ m, FederationDirective.interpret x = .ok m := by
  rw [malformed, List.filterMap_eq_nil_iff]
  refine forall₂_congr fun x _ => ?_
  cases FederationDirective.interpret x <;> simp

namespace Site

/-- **Sites of one directive at the same kind of place are allowed alike**, by definitions that
agree. -/
theorem problems_eq_nil_of {x y : Site} {lookup lookup' : String → Option DirectiveDefinition}
    (hdirective : y.directive = x.directive) (hplace : y.place = x.place)
    (hlookup : ∀ d ∈ lookup x.directive.name,
      ∃ d' ∈ lookup' x.directive.name, d'.sameSignature d = true)
    (h : y.problems lookup' = []) : x.problems lookup = [] := by
  rw [problems_eq_nil_iff, hdirective, hplace] at h
  rw [problems_eq_nil_iff]
  intro d hd
  obtain ⟨d', hd', hsame⟩ := hlookup d hd
  obtain ⟨hlocation, harguments⟩ := h d' hd'
  refine ⟨DirectiveDefinition.contains_location_of_sameSignature hsame hlocation, ?_⟩
  refine harguments.imp_right fun ⟨hknown, hrequired⟩ => ⟨fun a ha => ?_, fun a ha => ?_⟩
  · obtain ⟨v, hv, hname⟩ := List.any_eq_true.mp (hknown a ha)
    obtain ⟨w, hw, hwname, -⟩ := DirectiveDefinition.exists_argument_of_sameSignature hsame hv
    exact List.any_eq_true.mpr ⟨w, hw, by rw [hwname]; exact hname⟩
  · -- the counterpart of a required argument is required too
    obtain ⟨ha, hrequires⟩ := List.mem_filter.mp ha
    rw [DirectiveDefinition.sameSignature_comm] at hsame
    obtain ⟨w, hw, hname, htype, hdefault⟩ :=
      DirectiveDefinition.exists_argument_of_sameSignature hsame ha
    rw [← hname]
    exact hrequired w (List.mem_filter.mpr ⟨hw, by rwa [htype, hdefault]⟩)

end Site

/-! ## Services that know the directives they apply -/

/-- A service defines the directives that it applies exactly where the composed schema does: those
that any of the services defines, and none that is built in. -/
def Subgraph.KnowsDirectives (services : List Subgraph) (g : Subgraph) : Prop :=
  ∀ t ∈ g.typeDefinitions, ∀ x ∈ Site.ofType t,
    (∃ d ∈ g.document.directiveDefinitions, d.name = x.directive.name) ↔
      DirectiveDefinition.builtIn? x.directive.name = none ∧
        ∃ g' ∈ services, ∃ d ∈ g'.document.directiveDefinitions, d.name = x.directive.name

namespace Subgraph

variable (g : Subgraph) {name : String}

/-- A service looks a directive up among its own definitions first. -/
theorem lookupDirective_of_defined
    (h : ∃ d ∈ g.document.directiveDefinitions, d.name = name) :
    ∃ d ∈ g.document.directiveDefinitions, d.name = name ∧ g.lookupDirective name = some d := by
  obtain ⟨e, he, hename⟩ := h
  have hsome : (g.document.directiveDefinitions.find? (·.name == name)).isSome = true :=
    List.find?_isSome.mpr ⟨e, he, by rw [hename, beq_self_eq_true]⟩
  obtain ⟨d, hd⟩ := Option.isSome_iff_exists.mp hsome
  have hname := List.find?_some hd
  refine ⟨d, List.mem_of_find?_eq_some hd, beq_iff_eq.mp hname, ?_⟩
  rw [lookupDirective, hd]
  rfl

/-- What it does not define, it looks up among the built-in definitions. -/
theorem lookupDirective_of_undefined
    (h : ¬∃ d ∈ g.document.directiveDefinitions, d.name = name) :
    g.lookupDirective name = DirectiveDefinition.builtIn? name := by
  have hnone : g.document.directiveDefinitions.find? (·.name == name) = none := by
    rw [List.find?_eq_none]
    exact fun d hd hname => h ⟨d, hd, beq_iff_eq.mp hname⟩
  rw [lookupDirective, hnone]
  rfl

end Subgraph

namespace Subgraphs

variable {s : Subgraphs}

/-- What a service defines is composed, unless it is built in. -/
theorem exists_mem_definitionsOfDirective {g : Subgraph} (hg : g ∈ s.services)
    {d : DirectiveDefinition} (hd : d ∈ g.document.directiveDefinitions)
    (hbuiltIn : DirectiveDefinition.builtIn? d.name = none) :
    ∃ e ∈ s.definitionsOfDirective d.name, e.node = d := by
  obtain ⟨e, he, hnode, -⟩ :=
    exists_mem_collect (f := fun g => g.document.directiveDefinitions) hg hd
  exact ⟨e, (mem_definitionsOfDirective hbuiltIn).mpr ⟨he, by rw [hnode]⟩, hnode⟩

/-- What is composed is what a service defines, and is not built in. -/
theorem exists_of_mem_definitionsOfDirective {name : String} {e : Declared DirectiveDefinition}
    (he : e ∈ s.definitionsOfDirective name) :
    DirectiveDefinition.builtIn? name = none ∧ e.node.name = name ∧
      ∃ g ∈ s.services, e.node ∈ g.document.directiveDefinitions := by
  have hnone := builtIn?_of_mem he
  obtain ⟨hmem, hname⟩ := (mem_definitionsOfDirective hnone).mp he
  obtain ⟨g, hg, -, hnode⟩ := mem_collect hmem
  exact ⟨hnone, hname, g, hg, hnode⟩

/-- A composed directive definition is that of a service, but for its description, and is not built
in. -/
theorem exists_of_mem_mergedDirectiveDefinitions {d : DirectiveDefinition}
    (hd : d ∈ s.mergedDirectiveDefinitions) :
    DirectiveDefinition.builtIn? d.name = none ∧ ∃ g ∈ s.services,
      ∃ d' ∈ g.document.directiveDefinitions,
        d = { d' with description := d.description } := by
  rw [mergedDirectiveDefinitions_eq, List.mem_filterMap] at hd
  obtain ⟨n, -, hdefinition⟩ := hd
  obtain ⟨first, hfirst, rfl⟩ := Option.map_eq_some_iff.mp hdefinition
  obtain ⟨hnone, hname, g, hg, hmem⟩ :=
    exists_of_mem_definitionsOfDirective (List.mem_of_mem_head? hfirst)
  rw [← hname] at hnone
  exact ⟨hnone, g, hg, first.node, hmem, rfl⟩

/-- **What a service defines agrees with a composed definition**, unless it is built in. -/
theorem exists_mem_mergedDirectiveDefinitions
    (hgroups : s.directiveGroups.flatMap DirectiveGroup.problems = []) {g : Subgraph}
    (hg : g ∈ s.services) {d : DirectiveDefinition} (hd : d ∈ g.document.directiveDefinitions)
    (hnone : DirectiveDefinition.builtIn? d.name = none) :
    ∃ d' ∈ s.mergedDirectiveDefinitions, d.sameSignature d' = true := by
  obtain ⟨e, he, rfl⟩ := exists_mem_definitionsOfDirective hg hd hnone
  have hne := List.ne_nil_of_mem he
  have hmem : s.definitionsOfDirective e.node.name ∈ s.directiveGroups :=
    List.mem_map_of_mem (mem_directiveNames hne)
  have hproblems := List.flatMap_eq_nil_iff.mp hgroups _ hmem
  have hfind := find?_mergedDirectiveDefinitions s e.node.name
  obtain ⟨first, others, hgroup⟩ := List.exists_cons_of_ne_nil hne
  rw [hgroup] at he hproblems hfind
  refine ⟨_, List.mem_of_find?_eq_some hfind, ?_⟩
  rw [DirectiveDefinition.sameSignature_comm]
  exact DirectiveGroup.sameSignature_of_problems hproblems e he

theorem definitionOf?_composedSchema (s : Subgraphs) (name : String) :
    s.composedSchema.1.definitionOf? name =
      ((s.definitionsOfDirective name).definition? <|> DirectiveDefinition.builtIn? name) := by
  rw [Schema.definitionOf?, Schema.directiveDefinition?, composedSchema_eq]
  rw [find?_mergedDirectiveDefinitions]

/-- **A service that knows a directive finds a definition that agrees with the composed one.** -/
theorem exists_lookupDirective (hgroups : s.directiveGroups.flatMap DirectiveGroup.problems = [])
    {g : Subgraph} (hg : g ∈ s.services) {name : String}
    (hknows : (∃ d ∈ g.document.directiveDefinitions, d.name = name) ↔
      DirectiveDefinition.builtIn? name = none ∧
        ∃ g' ∈ s.services, ∃ d ∈ g'.document.directiveDefinitions, d.name = name) :
    ∀ d ∈ s.composedSchema.1.definitionOf? name,
      ∃ d' ∈ g.lookupDirective name, d'.sameSignature d = true := by
  intro d hd
  rw [definitionOf?_composedSchema] at hd
  cases hgroup : s.definitionsOfDirective name with
  | nil =>
    -- no service defines it, so both look it up among the built-in definitions
    rw [hgroup] at hd
    have hbuiltIn : DirectiveDefinition.builtIn? name = some d := hd
    have hundefined : ¬∃ d ∈ g.document.directiveDefinitions, d.name = name := by
      intro hdefined
      have hnone := (hknows.mp hdefined).1
      rw [hbuiltIn] at hnone
      cases hnone
    refine ⟨d, ?_, DirectiveDefinition.sameSignature_self⟩
    rw [g.lookupDirective_of_undefined hundefined, hbuiltIn]
    rfl
  | cons first others =>
    have hfirst : first ∈ s.definitionsOfDirective name := by
      rw [hgroup]
      exact List.mem_cons_self
    obtain ⟨hnone, hname, g', hg', hnode⟩ := exists_of_mem_definitionsOfDirective hfirst
    -- the service finds one of its own definitions, which is one of those that were composed
    obtain ⟨d', hd', hd'name, hlookup⟩ :=
      g.lookupDirective_of_defined (hknows.mpr ⟨hnone, g', hg', first.node, hnode, hname⟩)
    obtain ⟨e', he', rfl⟩ := exists_mem_definitionsOfDirective hg hd' (by rw [hd'name]; exact hnone)
    have hmem : s.definitionsOfDirective name ∈ s.directiveGroups :=
      List.mem_map_of_mem (mem_directiveNames (by rw [hgroup]; exact List.cons_ne_nil _ _))
    have hproblems := List.flatMap_eq_nil_iff.mp hgroups _ hmem
    rw [hd'name, hgroup] at he'
    rw [hgroup] at hd hproblems
    have hsame := DirectiveGroup.sameSignature_of_problems hproblems e' he'
    rw [DirectiveDefinition.sameSignature_comm] at hsame
    -- descriptions do not count
    obtain rfl : { first.node with
        description := firstDescription (·.description) (first :: others) } = d :=
      Option.some.inj hd
    exact ⟨e'.node, hlookup, hsame⟩

/-! ## The composed schema -/

variable (h : s.allProblems = [])
include h

/-- Every service stands the checks of its applications and of its fields. -/
theorem checks_of_mem {g : Subgraph} (hg : g ∈ s.services) :
    g.siteProblems = [] ∧ Subgraph.reservedFieldProblems g.declarations = [] := by
  simp only [allProblems, List.append_eq_nil_iff] at h
  have hchecks := List.flatMap_eq_nil_iff.mp h.1.1.1.2 g hg
  rw [Subgraph.checkProblems] at hchecks
  simp only [List.map_eq_nil_iff, List.append_eq_nil_iff] at hchecks
  exact hchecks.1.1

/-- **What is applied on a composed type is applied on definitions of its name and kind** in the
services. -/
theorem exists_appliedIn {t : TypeDefinition} (ht : t ∈ s.composedSchema.1.types) :
    ∃ cs, t.AppliedIn cs ∧
      ∀ c ∈ cs, ∃ g ∈ s.services, c ∈ g.typeDefinitions ∧ c.name = t.name ∧ c.kind = t.kind := by
  obtain ⟨-, hmerge, -⟩ := problems_eq_nil h
  rw [composedSchema_eq] at ht
  obtain ⟨m, hm, rfl⟩ := List.mem_map.mp ht
  rw [mergedTypes_eq] at hm
  obtain ⟨n, hn, rfl⟩ := List.mem_map.mp hm
  have hproblems := group_problems_eq_nil hmerge hn
  have hone := TypeGroup.ofOneKind_eq_self hproblems
  have hname : (s.group n).name = n := name_group hn
  rw [hone]
  refine ⟨s.contributions n, appliedIn_contributions hproblems rfl ?_, fun c hc => ?_⟩
  · -- merging a second time adds nothing
    intro x hx
    obtain hnil | hx := Directive.mem_of_mem_merge hx
    · cases hnil
    · exact hx
  · obtain ⟨d, hd, hnode⟩ := exists_mem_group hc
    obtain ⟨g, hg, hc, hcname⟩ := mem_contributions.mp hc
    refine ⟨g, hg, hc, hcname.trans hname.symm, ?_⟩
    have hkind := TypeGroup.kind_of_problems hproblems hd
    rw [hnode] at hkind
    exact hkind.trans (TypeGroup.kind_body _ _).symm

/-- What services carry is well formed. -/
theorem interpreted_of_mem_typeDefinitions {g : Subgraph} (hg : g ∈ s.services)
    {c : TypeDefinition} (hc : c ∈ g.typeDefinitions) : Declaration.problems c = [] := by
  have hproblems := List.flatMap_eq_nil_iff.mp (problems_eq_nil h).1 g hg
  rw [Subgraph.problems, List.map_eq_nil_iff] at hproblems
  split at hproblems
  · cases hproblems
  · exact List.flatMap_eq_nil_iff.mp (List.append_eq_nil_iff.mp hproblems).2 c hc

/-- What composed types carry is well formed, since it was in the services. -/
theorem interpreted_of_mem_types {t : TypeDefinition} (ht : t ∈ s.composedSchema.1.types) :
    Declaration.problems t = [] := by
  obtain ⟨cs, happlied, hcs⟩ := exists_appliedIn h ht
  have hwritten : ∀ c ∈ cs, Declaration.problems c = [] := by
    intro c hc
    obtain ⟨g, hg, hmem, -, -⟩ := hcs c hc
    exact interpreted_of_mem_typeDefinitions h hg hmem
  rw [Declaration.problems, List.append_eq_nil_iff, Directive.malformed_eq_nil_iff,
    List.flatMap_eq_nil_iff]
  constructor
  · intro x hx
    obtain ⟨c, hc, hxc⟩ := happlied.directives x hx
    have hmalformed := (List.append_eq_nil_iff.mp (hwritten c hc)).1
    exact Directive.malformed_eq_nil_iff.mp hmalformed x hxc
  · intro f hf
    refine Directive.malformed_eq_nil_iff.mpr fun x hx => ?_
    obtain ⟨c, hc, f', hf', -, hxf⟩ := happlied.fields f hf x hx
    have hmalformed := (List.append_eq_nil_iff.mp (hwritten c hc)).2
    exact Directive.malformed_eq_nil_iff.mp (List.flatMap_eq_nil_iff.mp hmalformed f' hf') x hxf

/-- **Applications of services that know their directives stay allowed.** -/
theorem problems_of_knowsDirectives (hknows : ∀ g ∈ s.services, g.KnowsDirectives s.services)
    {t : TypeDefinition} (ht : t ∈ s.composedSchema.1.types) {x : Site} (hx : x ∈ Site.ofType t) :
    x.problems s.composedSchema.1.definitionOf? = [] := by
  obtain ⟨-, hmerge, -⟩ := problems_eq_nil h
  obtain ⟨cs, happlied, hcs⟩ := exists_appliedIn h ht
  -- the application stands at the same kind of place in a service, which was checked there
  obtain ⟨c, hc, y, hy, hdirective, hplace⟩ := Site.exists_site happlied
    (fun c hc => by obtain ⟨-, -, -, -, hkind⟩ := hcs c hc; exact hkind) hx
  obtain ⟨g, hg, hmem, -, -⟩ := hcs c hc
  have hy' : y.problems g.lookupDirective = [] := by
    refine List.flatMap_eq_nil_iff.mp (checks_of_mem h hg).1 y (List.mem_append_right _ ?_)
    exact List.mem_flatMap.mpr ⟨c, hmem, hy⟩
  have hname := hknows g hg c hmem y hy
  rw [hdirective] at hname
  exact Site.problems_eq_nil_of hdirective hplace
    (exists_lookupDirective (directiveProblems_eq_nil hmerge) hg hname) hy'

end Subgraphs

end Federation
