import Federation.Proofs.Composition.Content
import Federation.Proofs.Directives.Merge
import Federation.Proofs.Directives.Sites
/-!
# Composition — where applications come from

Every application on a composed type or on one of its members stands on
a contribution to the type, or on the member of that name in one. No
application is made up, and none moves to a place of another kind.
-/

namespace Federation

open Declared

/-- What is applied on a type is applied on definitions, or on their members of the same names. -/
structure TypeDefinition.AppliedIn (t : TypeDefinition) (cs : List TypeDefinition) : Prop where
  directives : ∀ x ∈ t.directives, ∃ c ∈ cs, x ∈ c.directives
  fields : ∀ f ∈ t.fields, ∀ x ∈ f.directives,
    ∃ c ∈ cs, ∃ f' ∈ c.fields, f'.name = f.name ∧ x ∈ f'.directives
  arguments : ∀ f ∈ t.fields, ∀ a ∈ f.arguments,
    ∃ c ∈ cs, ∃ f' ∈ c.fields, f'.name = f.name ∧ a ∈ f'.arguments
  enumValues : ∀ v ∈ t.body.enumValues, ∀ x ∈ v.directives,
    ∃ c ∈ cs, ∃ v' ∈ c.body.enumValues, v'.name = v.name ∧ x ∈ v'.directives
  inputFields : ∀ v ∈ t.body.inputFields, ∀ x ∈ v.directives,
    ∃ c ∈ cs, ∃ v' ∈ c.body.inputFields, v'.name = v.name ∧ x ∈ v'.directives

/-- A merged application is one of a declaration, of a directive that is composed. -/
theorem Declared.mem_mergedDirectives {α : Type} {isRepeatable : String → Bool}
    {directives : α → List Directive} {ds : List (Declared α)} {x : Directive}
    (h : x ∈ mergedDirectives isRepeatable directives ds) :
    FederationDirective.isServiceOnly x.name = false ∧ ∃ d ∈ ds, x ∈ directives d.node := by
  obtain hnone | hmem := Directive.mem_of_mem_merge h
  · cases hnone
  · obtain ⟨hmem, hcomposed⟩ := List.mem_filter.mp hmem
    exact ⟨by simpa using hcomposed, List.mem_flatMap.mp hmem⟩

namespace Subgraphs

variable {s : Subgraphs} {typeName : String} {isRepeatable : String → Bool}

theorem mem_contributions {c : TypeDefinition} :
    c ∈ s.contributions typeName ↔
      ∃ g ∈ s.services, c ∈ g.typeDefinitions ∧ c.name = typeName := by
  simp [contributions, definitionsOf, mem_inOrder]

/-- The name and the applications of a composed member are those of declarations. -/
theorem exists_declaration {α β : Type} {name : α → String} {name' : β → String}
    {compose : List (Declared α) → Option β} (hname : KeepsName name name' compose)
    {directives : α → List Directive} {directives' : β → List Directive}
    (hdirectives : ∀ {ds b}, compose ds = some b →
      directives' b = mergedDirectives isRepeatable directives ds)
    {ds : List (Declared α)} {b : β}
    (hb : b ∈ (byMember name ds).filterMap fun ds => compose (firstPerService ds))
    {x : Directive} (hx : x ∈ directives' b) :
    ∃ d ∈ named name (name' b) ds, x ∈ directives d.node := by
  obtain ⟨-, hcompose⟩ := hname.compose_of_mem hb
  rw [hdirectives hcompose] at hx
  obtain ⟨-, d, hd, hxd⟩ := mem_mergedDirectives hx
  exact ⟨d, (firstPerService_sublist _).subset hd, hxd⟩

/-- **What is applied on a composed type is applied on contributions to it.** -/
theorem appliedIn_contributions (h : (s.group typeName).problems isRepeatable = [])
    {t : TypeDefinition} (hbody : t.body = (s.group typeName).body isRepeatable)
    (hdirectives : t.directives ⊆
      mergedDirectives isRepeatable (·.node.directives) (s.group typeName)) :
    t.AppliedIn (s.contributions typeName) where
  directives x hx := by
    obtain ⟨-, d, hd, hxd⟩ := mem_mergedDirectives (hdirectives hx)
    have hnode := List.mem_map_of_mem (f := Declared.node) hd
    rw [map_node_group] at hnode
    obtain ⟨c, hc, hcd⟩ := List.mem_map.mp hnode
    rw [← hcd] at hxd
    exact ⟨c, hc, hxd⟩
  fields f hf x hx := by
    rw [TypeDefinition.fields, hbody] at hf
    obtain ⟨d, hd, hxd⟩ := exists_declaration (FieldDeclaration.keepsName_compose isRepeatable)
      FieldDeclaration.directives_of_compose (TypeGroup.mem_fields_of_body isRepeatable hf) hx
    obtain ⟨c, hc, hmem, hname⟩ := exists_contribution_of_named hd
    exact ⟨c, hc, _, hmem, hname, hxd⟩
  arguments f hf a ha := by
    rw [TypeDefinition.fields, hbody] at hf
    obtain ⟨d, hd, had⟩ :=
      exists_named_of_mem_arguments h (TypeGroup.mem_fields_of_body isRepeatable hf) ha
    obtain ⟨c, hc, hmem, hname⟩ := exists_contribution_of_named hd
    exact ⟨c, hc, _, hmem, hname, had⟩
  enumValues v hv x hx := by
    rw [hbody] at hv
    obtain ⟨d, hd, hxd⟩ := exists_declaration (EnumValue.keepsName_compose isRepeatable)
      EnumValue.directives_of_compose (TypeGroup.mem_enumValues_of_body isRepeatable hv) hx
    have hnode := List.mem_map_of_mem (f := Declared.node) (List.mem_filter.mp hd).1
    rw [map_node_enumValues, List.mem_flatMap] at hnode
    obtain ⟨c, hc, hmem⟩ := hnode
    exact ⟨c, hc, _, hmem, name_of_mem_named hd, hxd⟩
  inputFields v hv x hx := by
    rw [hbody] at hv
    obtain ⟨d, hd, hxd⟩ := exists_declaration (InputValue.keepsName_compose isRepeatable)
      InputValue.directives_of_compose (TypeGroup.mem_inputFields_of_body isRepeatable hv) hx
    have hnode := List.mem_map_of_mem (f := Declared.node) (List.mem_filter.mp hd).1
    rw [map_node_inputFields, List.mem_flatMap] at hnode
    obtain ⟨c, hc, hmem⟩ := hnode
    exact ⟨c, hc, _, hmem, name_of_mem_named hd, hxd⟩

end Subgraphs

/-! ## Sites -/

/-- **What a type carries is carried by one of the definitions that it comes from**, at the same
kind of place, where they are of its kind. -/
theorem TypeDefinition.AppliedIn.carries {t : TypeDefinition} {cs : List TypeDefinition}
    (h : t.AppliedIn cs) (hkind : ∀ c ∈ cs, c.kind = t.kind) {x : Directive}
    {place : DirectiveLocation} (hcarries : t.Carries x place) :
    ∃ c ∈ cs, c.Carries x place := by
  rcases hcarries.cases_self with ⟨hx, rfl⟩ | ⟨f, hf, hx, rfl⟩ | ⟨f, hf, a, ha, hx, rfl⟩ |
    ⟨v, hv, hx, rfl⟩ | ⟨v, hv, hx, rfl⟩
  · obtain ⟨c, hc, hxc⟩ := h.directives x hx
    rw [← hkind c hc]
    exact ⟨c, hc, carries_self hxc⟩
  · obtain ⟨c, hc, f', hf', -, hxf⟩ := h.fields f hf x hx
    exact ⟨c, hc, .field hf' hxf⟩
  · obtain ⟨c, hc, f', hf', -, haf⟩ := h.arguments f hf a ha
    exact ⟨c, hc, .argument hf' haf hx⟩
  · obtain ⟨c, hc, v', hv', -, hxv⟩ := h.enumValues v hv x hx
    exact ⟨c, hc, .enumValue hv' hxv⟩
  · obtain ⟨c, hc, v', hv', -, hxv⟩ := h.inputFields v hv x hx
    exact ⟨c, hc, .inputField hv' hxv⟩

/-- Where applications come from definitions of the same kind, so do their sites. -/
theorem Site.exists_site {t : TypeDefinition} {cs : List TypeDefinition} (h : t.AppliedIn cs)
    (hkind : ∀ c ∈ cs, c.kind = t.kind) {x : Site} (hx : x ∈ ofType t) :
    ∃ c ∈ cs, ∃ y ∈ ofType c, y.directive = x.directive ∧ y.place = x.place := by
  obtain ⟨c, hc, hcarries⟩ := h.carries hkind (TypeDefinition.carries_iff.mpr ⟨x, hx, rfl, rfl⟩)
  exact ⟨c, hc, TypeDefinition.carries_iff.mp hcarries⟩

end Federation
