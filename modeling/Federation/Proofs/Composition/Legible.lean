import Federation.Proofs.Composition.DirectiveDefinitions
import Federation.Proofs.Composition.Origins
import Federation.Proofs.Document.Legible
/-!
# Composition — legible services make a legible schema

Composition writes nothing of its own: names, texts and values are those
of declarations, or the conventional names of root types. So where the
definitions of services are legible, the types and directive definitions
that they are composed to are legible too
(`legible_types_composedSchema`,
`legible_directiveDefinitions_composedSchema`).
-/

namespace Federation

open Declared

/-! ## Under the conventional names -/

theorem OperationType.isName_conventionalName (o : OperationType) :
    isName o.conventionalName = true := by
  cases o <;> decide

namespace TypeRef

theorem isNonNull_mapName (f : String → String) (t : TypeRef) :
    (t.mapName f).isNonNull = t.isNonNull := by
  cases t <;> rfl

theorem Legible.mapName {f : String → String} (hf : ∀ n, isName n = true → isName (f n) = true)
    {t : TypeRef} (h : t.Legible) : (t.mapName f).Legible := by
  induction t with
  | named name => exact hf name h
  | list item ih => exact ih h
  | nonNull nullable ih => exact ⟨ih h.1, (isNonNull_mapName f nullable).trans h.2⟩

end TypeRef

namespace RootRename

variable (rs : List RootRename)

theorem isName_name {n : String} (h : isName n = true) : isName (name rs n) = true := by
  rw [name]
  cases rs.find? (·.custom == n) with
  | none => exact h
  | some r => exact r.operation.isName_conventionalName

theorem legible_type {t : TypeRef} (h : t.Legible) : (type rs t).Legible := by
  induction rs generalizing t with
  | nil => exact h
  | cons r rs ih =>
    refine ih (h.mapName fun n hn => ?_)
    split
    · exact r.operation.isName_conventionalName
    · exact hn

theorem legible_inputValue {v : InputValue} (h : v.Legible) : (inputValue rs v).Legible :=
  { h with type := legible_type rs h.type }

theorem legible_map_inputValue {vs : List InputValue} (h : ∀ v ∈ vs, v.Legible) :
    ∀ v ∈ vs.map (inputValue rs), v.Legible := by
  rw [List.forall_mem_map]
  exact fun v hv => legible_inputValue rs (h v hv)

theorem legible_field {f : Field} (h : f.Legible) : (field rs f).Legible :=
  { h with
    type := legible_type rs h.type
    arguments := legible_map_inputValue rs h.arguments }

theorem isName_map_name {names : List String} (h : ∀ n ∈ names, isName n = true) :
    ∀ n ∈ names.map (name rs), isName n = true := by
  rw [List.forall_mem_map]
  exact fun n hn => isName_name rs (h n hn)

theorem legible_members {b : TypeBody} (h : b.Legible) : (members rs b).Legible := by
  have hfields : ∀ f ∈ b.fields.map (field rs), f.Legible := by
    rw [List.forall_mem_map]
    exact fun f hf => legible_field rs (h.fields f hf)
  have himplements := isName_map_name rs h.implements
  cases b with
  | object b | interface b => exact { h with implements := himplements, fields := hfields }
  | union members => exact { h with members := isName_map_name rs h.members }
  | inputObject fields => exact { h with inputFields := legible_map_inputValue rs h.inputFields }
  | scalar | enum values => exact h

theorem legible_definition {d : TypeDefinition} (h : d.Legible) : (definition rs d).Legible :=
  { h with name := isName_name rs h.name, body := legible_members rs h.body }

theorem legible_directive {d : DirectiveDefinition} (h : d.Legible) : (directive rs d).Legible :=
  { h with arguments := legible_map_inputValue rs h.arguments }

end RootRename

namespace Service

variable {s : Service}

/-- A service with a legible document contributes legible types. -/
theorem legible_typeContributions (h : s.document.Legible) :
    ∀ t ∈ s.typeContributions, t.Legible := by
  intro t ht
  obtain ⟨d, hd, rfl⟩ := List.mem_map.mp (List.mem_filter.mp ht).1
  exact RootRename.legible_definition _ (h.typeDefinitions hd)

/-- A service with a legible document contributes legible directive definitions. -/
theorem legible_directiveContributions (h : s.document.Legible) :
    ∀ d ∈ s.directiveContributions, d.Legible := by
  rw [directiveContributions, List.forall_mem_map]
  exact fun d hd => RootRename.legible_directive _ (h.directiveDefinitions hd)

end Service

/-! ## Members -/

namespace Declared

variable {α : Type} {ds : List (Declared α)}

/-- The first description is the description of a declaration. -/
theorem exists_of_firstDescription {description : α → Option String} {text : String}
    (h : firstDescription description ds = some text) :
    ∃ d ∈ ds, description d.node = some text := by
  obtain ⟨d, hd, htext⟩ := Option.bind_eq_some_iff.mp h
  have hmem := List.mem_mergeSort.mp (List.mem_of_mem_head? hd)
  exact ⟨d, (List.mem_filter.mp hmem).1, htext⟩

theorem legible_firstDescription {description : α → Option String}
    (h : ∀ d ∈ ds, LegibleDescription (description d.node)) :
    LegibleDescription (firstDescription description ds) := by
  intro text htext
  obtain ⟨d, hd, htext⟩ := exists_of_firstDescription htext
  exact h d hd text htext

theorem legible_mergedDirectives (isRepeatable : String → Bool) {directives : α → List Directive}
    (h : ∀ d ∈ ds, ∀ x ∈ directives d.node, x.Legible) :
    ∀ x ∈ mergedDirectives isRepeatable directives ds, x.Legible := by
  intro x hx
  obtain ⟨-, d, hd, hxd⟩ := mem_mergedDirectives hx
  exact h d hd x hxd

/-- What holds of all declarations, and then of what declarations are composed to, holds of composed
members. -/
theorem KeepsName.of_mem_composed {β : Type} {name : α → String} {name' : β → String}
    {compose : List (Declared α) → Option β} (hname : KeepsName name name' compose)
    {P : α → Prop} {Q : β → Prop}
    (hcompose : ∀ {ds b}, (∀ d ∈ ds, P d.node) → compose ds = some b → Q b)
    (h : ∀ d ∈ ds, P d.node) {b : β}
    (hb : b ∈ (byMember name ds).filterMap fun ds => compose (firstPerService ds)) : Q b := by
  refine hcompose (fun d hd => ?_) (hname.compose_of_mem hb).2
  exact h d (List.mem_filter.mp ((firstPerService_sublist _).subset hd)).1

end Declared

section

variable {isRepeatable : String → Bool}

theorem FieldDeclaration.legible_compose {ds : List (Declared FieldDeclaration)} {f : Field}
    (h : ∀ d ∈ ds, d.node.node.Legible) (hf : compose? isRepeatable ds = some f) : f.Legible := by
  have hne : ds ≠ [] := by
    rintro rfl
    cases hf
  -- the name, the type and some arguments are those of the canonical declaration
  obtain ⟨c, hc, f', hf', hname, htype, harguments⟩ := exists_compose isRepeatable hne
  obtain rfl := Option.some.inj (hf.symm.trans hf')
  refine
    { name := hname ▸ (h c hc).name
      type := htype ▸ (h c hc).type
      description := ?_
      directives := ?_
      arguments := ?_ }
  · rw [description_of_compose hf]
    exact legible_firstDescription fun d hd => (h d hd).description
  · rw [harguments]
    intro a ha
    obtain ha | ha := mem_addMembers InputValue.name ha
    · exact (h c hc).arguments a ha
    · obtain ⟨d, hd, ha⟩ := List.mem_flatMap.mp ha
      exact (h d hd).arguments a ha
  · rw [directives_of_compose hf]
    exact legible_mergedDirectives _ fun d hd => (h d hd).directives

theorem InputValue.legible_compose {ds : List (Declared InputValue)} {v : InputValue}
    (h : ∀ d ∈ ds, d.node.Legible) (hv : compose? isRepeatable ds = some v) : v.Legible := by
  obtain ⟨first, hfirst, rfl⟩ := Option.map_eq_some_iff.mp hv
  refine { h first (List.mem_of_mem_head? hfirst) with
    description := legible_firstDescription fun d hd => (h d hd).description
    default := fun x hx => ?_
    directives := legible_mergedDirectives _ fun d hd => (h d hd).directives }
  obtain ⟨d, hd, hx⟩ := List.exists_of_findSome?_eq_some hx
  exact (h d hd).default x hx

theorem EnumValue.legible_compose {ds : List (Declared EnumValue)} {v : EnumValue}
    (h : ∀ d ∈ ds, d.node.Legible) (hv : compose? isRepeatable ds = some v) : v.Legible := by
  obtain ⟨first, hfirst, rfl⟩ := Option.map_eq_some_iff.mp hv
  exact { h first (List.mem_of_mem_head? hfirst) with
    description := legible_firstDescription fun d hd => (h d hd).description
    directives := legible_mergedDirectives _ fun d hd => (h d hd).directives }

end

/-! ## Types -/

namespace TypeGroup

variable {g : TypeGroup} {isRepeatable : String → Bool}

/-- Declarations of legible definitions. -/
def Legible (g : TypeGroup) : Prop :=
  ∀ d ∈ g, ∃ c : TypeDefinition, c.Legible ∧ d.node = Declaration.ofDefinition c

theorem Legible.node (h : g.Legible) {d : Declared Declaration} (hd : d ∈ g) :
    d.node.node.Legible := by
  obtain ⟨c, hc, hnode⟩ := h d hd
  rw [hnode]
  exact hc

theorem Legible.fieldDeclarations (h : g.Legible) :
    ∀ d ∈ g.fieldDeclarations, d.node.node.Legible := by
  intro e he
  obtain ⟨d, hd, he⟩ := List.mem_flatMap.mp he
  obtain ⟨f, hf, rfl⟩ := List.mem_map.mp he
  obtain ⟨c, hc, hnode⟩ := h d hd
  rw [hnode] at hf
  obtain ⟨f', hf', rfl⟩ := List.mem_map.mp hf
  exact hc.body.fields f' hf'

theorem Legible.enumValues (h : g.Legible) : ∀ d ∈ g.enumValues, d.node.Legible := by
  intro e he
  obtain ⟨d, hd, he⟩ := List.mem_flatMap.mp he
  obtain ⟨v, hv, rfl⟩ := List.mem_map.mp he
  exact (h.node hd).body.enumValues v hv

theorem Legible.inputFields (h : g.Legible) : ∀ d ∈ g.inputFields, d.node.Legible := by
  intro e he
  obtain ⟨d, hd, he⟩ := List.mem_flatMap.mp he
  obtain ⟨v, hv, rfl⟩ := List.mem_map.mp he
  exact (h.node hd).body.inputFields v hv

/-- **Legible definitions are composed to a legible body.** -/
theorem Legible.body (h : g.Legible) : (g.body isRepeatable).Legible where
  implements n hn := by
    obtain ⟨d, hd, hn⟩ := List.mem_flatMap.mp (mem_distinct.mp (mem_implements_of_body isRepeatable hn))
    exact (h.node hd).body.implements n hn
  members n hn := by
    obtain ⟨d, hd, hn⟩ := List.mem_flatMap.mp (mem_members_of_body isRepeatable hn)
    exact (h.node hd).body.members n hn
  fields f hf :=
    (FieldDeclaration.keepsName_compose isRepeatable).of_mem_composed (P := (·.node.Legible))
      FieldDeclaration.legible_compose h.fieldDeclarations (mem_fields_of_body isRepeatable hf)
  enumValues v hv :=
    (EnumValue.keepsName_compose isRepeatable).of_mem_composed (P := EnumValue.Legible)
      EnumValue.legible_compose h.enumValues (mem_enumValues_of_body isRepeatable hv)
  inputFields v hv :=
    (InputValue.keepsName_compose isRepeatable).of_mem_composed (P := InputValue.Legible)
      InputValue.legible_compose h.inputFields (mem_inputFields_of_body isRepeatable hv)

theorem Legible.definition (h : g.Legible) (hname : isName g.name = true) :
    (g.definition isRepeatable).Legible where
  name := hname
  description := by
    show LegibleDescription (firstDescription (·.node.description) g)
    exact legible_firstDescription fun d hd => (h.node hd).description
  directives := legible_mergedDirectives _ fun d hd => (h.node hd).directives
  body := h.body

end TypeGroup

theorem TypeDefinition.Legible.mergeApplications {t : TypeDefinition} (h : t.Legible)
    (isRepeatable : String → Bool) : (t.mergeApplications isRepeatable).Legible :=
  { h with
    directives := fun x hx =>
      (Directive.mem_of_mem_merge hx).elim nofun (h.directives x) }

namespace Subgraphs

variable {s : Subgraphs}

/-- **The types of legible services are composed to legible types.** -/
theorem legible_types_composedSchema (h : ∀ g ∈ s.services, ∀ t ∈ g.typeDefinitions, t.Legible) :
    ∀ t ∈ s.composedSchema.1.types, t.Legible := by
  rw [composedSchema_eq]
  simp only [List.forall_mem_map, mergedTypes_eq]
  intro n hn
  refine TypeDefinition.Legible.mergeApplications ?_ _
  refine TypeGroup.Legible.definition (fun d hd => ?_) ?_
  · obtain ⟨g, hg, -, hnode⟩ := mem_collect (List.mem_filter.mp hd).1
    obtain ⟨c, hc, hnode⟩ := List.mem_map.mp hnode
    exact ⟨c, h g hg c (List.mem_filter.mp hc).1, hnode.symm⟩
  · rw [name_ofOneKind_group hn]
    obtain ⟨g, hg, t, ht, rfl⟩ := mem_typeNames.mp hn
    exact (h g hg t ht).name

/-- **The directive definitions of legible services are composed to legible ones.** -/
theorem legible_directiveDefinitions_composedSchema
    (h : ∀ g ∈ s.services, ∀ d ∈ g.document.directiveDefinitions, d.Legible) :
    ∀ d ∈ s.composedSchema.1.directiveDefinitions, d.Legible := by
  rw [composedSchema_eq]
  intro d hd
  obtain ⟨ds, hds, hd⟩ := List.mem_filterMap.mp hd
  obtain ⟨n, -, rfl⟩ := List.mem_map.mp hds
  have hnode : ∀ e ∈ s.definitionsOfDirective n, e.node.Legible := by
    intro e he
    obtain ⟨g, hg, -, hnode⟩ := mem_collect (List.mem_filter.mp (List.mem_filter.mp he).1).1
    exact h g hg e.node hnode
  obtain ⟨first, hfirst, rfl⟩ := Option.map_eq_some_iff.mp hd
  exact { hnode first (List.mem_of_mem_head? hfirst) with
    description := legible_firstDescription fun e he => (hnode e he).description }

end Subgraphs

end Federation
