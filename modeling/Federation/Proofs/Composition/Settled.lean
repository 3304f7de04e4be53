import Federation.Proofs.Composition.Composed
import Federation.Proofs.Composition.Single
import Federation.Proofs.Directives.Merge
/-!
# Composition — settled schemas

A schema is settled when there is nothing left for composition to do to
it: types and directive definitions are in the order of their names,
extensions are merged, nothing is marked that has a meaning inside a
service only, and applications are merged and allowed. A settled type
that one service declares is composed to itself (`definition_only`), and
nothing is wrong with it (`problems_only`).
-/

namespace Federation

open Declared

/-! ## Settled definitions -/

/-- Applications that are merged, of directives that are composed. -/
structure Directive.Settled (isRepeatable : String → Bool) (ds : List Directive) : Prop where
  apart : ds.Pairwise (Directive.Apart isRepeatable)
  composed : ∀ d ∈ ds, FederationDirective.isServiceOnly d.name = false

/-- A base definition with distinct members and settled applications. -/
structure TypeDefinition.Settled (isRepeatable : String → Bool) (t : TypeDefinition) : Prop where
  base : t.isExtension = false
  distinct : t.body.DistinctMembers
  directives : Directive.Settled isRepeatable t.directives
  fields : ∀ f ∈ t.fields, Directive.Settled isRepeatable f.directives
  enumValues : ∀ v ∈ t.body.enumValues, Directive.Settled isRepeatable v.directives
  inputFields : ∀ v ∈ t.body.inputFields, Directive.Settled isRepeatable v.directives

/-- The directive definition for a name: that of the schema, or the built-in one. -/
def Schema.definitionOf? (s : Schema) (name : String) : Option DirectiveDefinition :=
  s.directiveDefinition? name <|> DirectiveDefinition.builtIn? name

/-- A schema that composition leaves as it is. -/
structure Schema.Settled (s : Schema) : Prop where
  roots : s.roots = []
  directives : s.directives = []
  typeNames : (s.types.map (·.name)).Pairwise (· < ·)
  directiveNames : (s.directiveDefinitions.map (·.name)).Pairwise (· < ·)
  notBuiltIn : ∀ d ∈ s.directiveDefinitions, DirectiveDefinition.builtIn? d.name = none
  types : ∀ t ∈ s.types, t.Settled s.isRepeatable
  routerTypes : ∀ t ∈ s.types, t.name ∉ Subgraph.routerTypes
  interpreted : ∀ t ∈ s.types, Declaration.problems t = []
  sites : ∀ t ∈ s.types, ∀ x ∈ Site.ofType t, x.problems s.definitionOf? = []
  reserved : ∀ t ∈ s.types, t.name = OperationType.query.conventionalName →
    ∀ f ∈ t.fields, f.name ∉ Subgraph.reservedQueryFields
  interfaces : s.interfaceProblems = []
  references : s.referenceProblems = []

/-! ## One declaration of a settled element -/

namespace Directive.Settled

variable {isRepeatable : String → Bool}

theorem merge_eq {ds : List Directive} (h : Directive.Settled isRepeatable ds) :
    Directive.merge isRepeatable [] ds = ds ∧ Directive.conflicts isRepeatable [] ds = [] := by
  have hapart : ([] ++ ds).Pairwise (Directive.Apart isRepeatable) := h.apart
  exact Directive.merge_of_pairwise hapart

section

variable {α : Type} (directives : α → List Directive) (d : Declared α)

theorem applications_singleton (h : Directive.Settled isRepeatable (directives d.node)) :
    applications directives [d] = directives d.node := by
  rw [applications, List.flatMap_singleton, List.filter_eq_self]
  intro x hx
  rw [h.composed x hx]
  rfl

theorem mergedDirectives_singleton (h : Directive.Settled isRepeatable (directives d.node)) :
    mergedDirectives isRepeatable directives [d] = directives d.node := by
  rw [mergedDirectives, applications_singleton directives d h, h.merge_eq.1]

theorem directiveProblems_singleton (h : Directive.Settled isRepeatable (directives d.node))
    (coordinate : Coordinate) :
    directiveProblems isRepeatable directives coordinate [d] = [] := by
  rw [directiveProblems, applications_singleton directives d h, Directive.conflictDiagnostics,
    h.merge_eq.2]
  rfl

end

/-- Nothing is marked as resolved elsewhere, or as an extension. -/
theorem any_name_eq_false {ds : List Directive} (h : Directive.Settled isRepeatable ds)
    {name : String} (hname : name ∈ FederationDirective.serviceOnlyNames) :
    ds.any (·.name == name) = false := by
  rw [List.any_eq_false]
  intro x hx heq
  have hcomposed := h.composed x hx
  rw [beq_iff_eq.mp heq, FederationDirective.isServiceOnly, List.contains_eq_mem] at hcomposed
  simp [hname] at hcomposed

/-- No application says anything about keys, or about fields of other services. -/
theorem meanings {ds : List Directive} (h : Directive.Settled isRepeatable ds)
    {m : FederationDirective} (hm : m ∈ Directive.meanings ds) :
    (∃ name, m = .tag name) ∨ ∃ x, m = .other x := by
  obtain ⟨x, hx, hsome⟩ := List.mem_filterMap.mp hm
  have hcomposed := h.composed x hx
  simp only [FederationDirective.isServiceOnly, FederationDirective.serviceOnlyNames,
    List.contains_eq_mem, decide_eq_false_iff_not, List.mem_cons, List.not_mem_nil, or_false,
    not_or] at hcomposed
  obtain ⟨hkey, hexternal, hextends, hrequires, hprovides⟩ := hcomposed
  rw [FederationDirective.interpret, if_neg hkey, if_neg hexternal, if_neg hextends,
    if_neg hrequires, if_neg hprovides] at hsome
  split at hsome
  · cases hargument : x.stringArgument "name" with
    | error e =>
      rw [hargument] at hsome
      cases hsome
    | ok name =>
      rw [hargument] at hsome
      exact .inl ⟨name, (Option.some.inj hsome).symm⟩
  · exact .inr ⟨x, (Option.some.inj hsome).symm⟩

end Directive.Settled

/-! ### Members -/

theorem FieldDeclaration.addArguments_self (as : List InputValue) :
    FieldDeclaration.addArguments as as = as := by
  have hall : ∀ bs : List InputValue, bs ⊆ as → FieldDeclaration.addArguments as bs = as := by
    intro bs hbs
    induction bs with
    | nil => rfl
    | cons b bs ih =>
      have hthere : as.any (·.name == b.name) = true :=
        List.any_eq_true.mpr ⟨b, hbs List.mem_cons_self, beq_self_eq_true _⟩
      rw [FieldDeclaration.addArguments, List.foldl_cons, if_pos hthere]
      exact ih fun x hx => hbs (List.mem_cons_of_mem b hx)
  exact hall as fun _ h => h

section

variable {isRepeatable : String → Bool} (service : String)

theorem FieldDeclaration.compose?_only {f : Field}
    (h : Directive.Settled isRepeatable f.directives) :
    FieldDeclaration.compose? isRepeatable [only service (ofField f)] = some f := by
  have hcanonical : canonical? [only service (ofField f)] = some (only service (ofField f)) := by
    cases hexternal : f.isExternal <;> simp [canonical?, ofField, hexternal]
  have hdirectives := Directive.Settled.mergedDirectives_singleton
    (·.node.directives) (only service (ofField f)) h
  rw [compose?, hcanonical, Option.map_some, hdirectives, firstDescription_singleton,
    List.flatMap_singleton, addArguments_self]
  rfl

theorem FieldDeclaration.problems_only {f : Field} (h : Directive.Settled isRepeatable f.directives)
    (typeName : String) (isShared : Bool) :
    FieldDeclaration.problems isRepeatable typeName isShared [only service (ofField f)] = [] := by
  have harguments : ∀ coordinate,
      argumentProblems coordinate [only service (ofField f)] = [] := by
    intro coordinate
    refine List.flatMap_eq_nil_iff.mpr fun name _ => ?_
    rw [List.filterMap_cons, List.filterMap_nil]
    cases (only service (ofField f)).node.node.argument? name <;> rfl
  have hresolvers : ∀ coordinate,
      resolverProblems coordinate [only service (ofField f)] = [] := by
    intro coordinate
    have hlength : (resolving [only service (ofField f)]).length ≤ 1 := List.length_filter_le _ _
    rw [resolverProblems, if_neg]
    simp only [Bool.and_eq_true, decide_eq_true_eq, not_and]
    omega
  have hdirectives := Directive.Settled.directiveProblems_singleton
    (·.node.directives) (only service (ofField f)) h
  simp [problems, harguments, hresolvers, hdirectives, typesOf]

theorem InputValue.compose?_only {v : InputValue}
    (h : Directive.Settled isRepeatable v.directives) :
    InputValue.compose? isRepeatable [only service v] = some v := by
  have hdirectives :=
    Directive.Settled.mergedDirectives_singleton InputValue.directives (only service v) h
  rw [compose?, List.head?_cons, Option.map_some, hdirectives, firstDescription_singleton]
  simp

theorem InputValue.problems_only {v : InputValue} (h : Directive.Settled isRepeatable v.directives)
    (typeName : String) : InputValue.problems isRepeatable typeName [only service v] = [] := by
  have hdirectives :=
    Directive.Settled.directiveProblems_singleton InputValue.directives (only service v) h
  simp [problems, hdirectives, typesOf]

theorem EnumValue.compose?_only {v : EnumValue} (h : Directive.Settled isRepeatable v.directives) :
    EnumValue.compose? isRepeatable [only service v] = some v := by
  have hdirectives :=
    Directive.Settled.mergedDirectives_singleton EnumValue.directives (only service v) h
  rw [compose?, List.head?_cons, Option.map_some, hdirectives, firstDescription_singleton]
  simp

theorem EnumValue.problems_only {v : EnumValue} (h : Directive.Settled isRepeatable v.directives)
    (typeName : String) : EnumValue.problems isRepeatable typeName [only service v] = [] := by
  have hdirectives :=
    Directive.Settled.directiveProblems_singleton EnumValue.directives (only service v) h
  simp [problems, hdirectives]

end

/-! ### Types -/

/-- A settled type is no extension, not even by an application. -/
theorem TypeDefinition.Settled.extendsType_eq_false {isRepeatable : String → Bool}
    {t : TypeDefinition} (h : t.Settled isRepeatable) : t.extendsType = false := by
  rw [extendsType, h.base, h.directives.any_name_eq_false (by decide)]
  rfl

namespace TypeGroup

variable {isRepeatable : String → Bool} (service : String) {t : TypeDefinition}

@[simp] theorem ofOneKind_only :
    ofOneKind [only service (Declaration.ofDefinition t)] =
      [only service (Declaration.ofDefinition t)] := by
  rw [ofOneKind_cons, List.filter_nil]

theorem fieldDeclarations_only :
    fieldDeclarations [only service (Declaration.ofDefinition t)] =
      t.fields.map fun f => only service (FieldDeclaration.ofField f) := by
  rw [fieldDeclarations, List.flatMap_singleton]
  exact List.map_map

theorem enumValues_only :
    enumValues [only service (Declaration.ofDefinition t)] =
      t.body.enumValues.map (only service) := by
  rw [enumValues, List.flatMap_singleton]
  rfl

theorem inputFields_only :
    inputFields [only service (Declaration.ofDefinition t)] =
      t.body.inputFields.map (only service) := by
  rw [inputFields, List.flatMap_singleton]
  rfl

/-- **A settled type is composed to itself.** -/
theorem body_only (h : t.Settled isRepeatable) :
    body isRepeatable [only service (Declaration.ofDefinition t)] = t.body := by
  have himplements : implements [only service (Declaration.ofDefinition t)] = t.implements := by
    rw [implements, List.flatMap_singleton]
    exact distinct_eq_self h.distinct.implements
  have hfields : fields isRepeatable [only service (Declaration.ofDefinition t)] = t.fields := by
    rw [fields, fieldGroups, fieldDeclarations_only]
    exact composed_only service h.distinct.fields fun f hf =>
      FieldDeclaration.compose?_only service (h.fields f hf)
  have hmembers : distinct ([only service (Declaration.ofDefinition t)].flatMap
      (·.node.node.body.members)) = t.body.members := by
    rw [List.flatMap_singleton]
    exact distinct_eq_self h.distinct.members
  have hvalues : ((byMember EnumValue.name (t.body.enumValues.map (only service))).filterMap
      fun ds => EnumValue.compose? isRepeatable (firstPerService ds)) = t.body.enumValues :=
    composed_only service h.distinct.enumValues fun v hv =>
      EnumValue.compose?_only service (h.enumValues v hv)
  have hinputs : ((byMember InputValue.name (t.body.inputFields.map (only service))).filterMap
      fun ds => InputValue.compose? isRepeatable (firstPerService ds)) = t.body.inputFields :=
    composed_only service h.distinct.inputFields fun v hv =>
      InputValue.compose?_only service (h.inputFields v hv)
  -- the kind selects what is composed, and every selection was shown to be the type's own
  have hkind : kind [only service (Declaration.ofDefinition t)] = t.body.kind := rfl
  rw [body, hkind, himplements, hfields, hmembers, enumValues_only, hvalues, inputFields_only,
    hinputs, TypeDefinition.implements, TypeDefinition.fields]
  cases t.body <;> rfl

theorem definition_only (h : t.Settled isRepeatable) :
    definition isRepeatable [only service (Declaration.ofDefinition t)] = t := by
  have hdirectives := Directive.Settled.mergedDirectives_singleton
    (·.node.directives) (only service (Declaration.ofDefinition t)) h.directives
  have hdescription := firstDescription_singleton
    (only service (Declaration.ofDefinition t)) (·.node.description)
  rw [definition, body_only service h, hdirectives, hdescription]
  obtain ⟨name, description, directives, isExtension, body, location⟩ := t
  obtain rfl : isExtension = false := h.base
  rfl

/-- A settled type is a base definition, unless it is a root type. -/
theorem baseDeclarations_only (h : t.Settled isRepeatable) :
    baseDeclarations [only service (Declaration.ofDefinition t)] =
      if (OperationType.ofConventionalName? t.name).isSome then []
      else [only service (Declaration.ofDefinition t)] := by
  cases hroot : OperationType.ofConventionalName? t.name <;>
    simp [baseDeclarations, Declaration.ofDefinition, h.extendsType_eq_false, hroot]

theorem memberProblems_only (h : t.Settled isRepeatable) :
    memberProblems isRepeatable [only service (Declaration.ofDefinition t)] = [] := by
  have hfields : (fieldGroups [only service (Declaration.ofDefinition t)]).flatMap
      (FieldDeclaration.problems isRepeatable (name [only service (Declaration.ofDefinition t)])
        (isShared [only service (Declaration.ofDefinition t)])) = [] := by
    rw [fieldGroups, fieldDeclarations_only]
    exact problems_byMember_only service h.distinct.fields fun f hf =>
      FieldDeclaration.problems_only service (h.fields f hf) _ _
  have hvalues : (byMember EnumValue.name (t.body.enumValues.map (only service))).flatMap
      (EnumValue.problems isRepeatable (name [only service (Declaration.ofDefinition t)])) = [] :=
    problems_byMember_only service h.distinct.enumValues fun v hv =>
      EnumValue.problems_only service (h.enumValues v hv) _
  have hinputs : (byMember InputValue.name (t.body.inputFields.map (only service))).flatMap
      (InputValue.problems isRepeatable (name [only service (Declaration.ofDefinition t)])) = [] :=
    problems_byMember_only service h.distinct.inputFields fun v hv =>
      InputValue.problems_only service (h.inputFields v hv) _
  rw [memberProblems, hfields, enumValues_only, hvalues, inputFields_only, hinputs]
  cases kind [only service (Declaration.ofDefinition t)] <;> rfl

/-- **There is nothing wrong with a settled type.** -/
theorem problems_only (h : t.Settled isRepeatable) :
    problems isRepeatable [only service (Declaration.ofDefinition t)] = [] := by
  have hdirectives := Directive.Settled.directiveProblems_singleton
    (·.node.directives) (only service (Declaration.ofDefinition t)) h.directives
  have hbases := baseDeclarations_only service h
  have hkinds : kindProblems [only service (Declaration.ofDefinition t)] = [] := by
    simp [kindProblems, kind]
  have hrepeated : repeatedBaseProblems [only service (Declaration.ofDefinition t)] = [] := by
    rw [repeatedBaseProblems, hbases]
    split <;> rfl
  have hconflicting :
      conflictingBaseProblems [only service (Declaration.ofDefinition t)] = [] := by
    rw [conflictingBaseProblems, hasConflictingBases, bases, hbases]
    split <;> rfl
  -- a root type counts as an extension, but needs no base definition
  have hmissing : missingBaseProblems [only service (Declaration.ofDefinition t)] = [] := by
    rw [missingBaseProblems, bases, hbases]
    cases hroot : OperationType.ofConventionalName? t.name <;>
      simp [isRoot, Declaration.ofDefinition, hroot]
  rw [problems, ofOneKind_only, problemsOfOneKind, hkinds, hrepeated, hconflicting, hmissing,
    memberProblems_only service h, hdirectives]
  rfl

/-- A settled type leaves a record without keys, and with one contribution to each field, which
resolves it. -/
theorem ownership_only (h : t.Settled isRepeatable) :
    (ownership [only service (Declaration.ofDefinition t)]).keys = [] ∧
      ∀ f ∈ (ownership [only service (Declaration.ofDefinition t)]).fields,
        ∃ c, f.contributions = [c] ∧ c.isExternal = false := by
  constructor
  · have hnone : (Declaration.ofDefinition t).keys = [] := by
      refine List.filterMap_eq_nil_iff.mpr fun m hm => ?_
      obtain ⟨name, rfl⟩ | ⟨x, rfl⟩ := h.directives.meanings hm <;> rfl
    rw [ownership, keys, List.flatMap_singleton, only_node, hnone]
    rfl
  · intro f hf
    have hmem : f ∈ (fieldGroups [only service (Declaration.ofDefinition t)]).map
        fieldOwnership := by
      rw [ownership] at hf
      split at hf
      case h_1 | h_2 => exact hf
      all_goals cases hf
    have hnodup : (t.fields.map fun f => (FieldDeclaration.ofField f).name).Nodup :=
      h.distinct.fields
    rw [fieldGroups, fieldDeclarations_only, byMember_only service hnodup, List.map_map] at hmem
    obtain ⟨f', hf', rfl⟩ := List.mem_map.mp hmem
    exact ⟨_, rfl, (h.fields f' hf').any_name_eq_false (by decide)⟩

end TypeGroup

end Federation
