import Federation.Proofs.Composition.Content
import Federation.Proofs.Schema.Descriptions
/-!
# Composition — whose description counts

An element of the composed schema has the description of the service
that comes first among those that describe it, in the order in which
services came and not in that of their names
(`describe_composedSchema`).
-/

namespace Federation

open Declared

/-! ## The first description -/

namespace TypeBody

/-- The first description of a member. -/
def memberDescription? (name : String) : TypeBody → Option String
  | object b | interface b => (b.fields.filter (·.name == name)).findSome? (·.description)
  | enum values => (values.filter (·.name == name)).findSome? (·.description)
  | inputObject fields => (fields.filter (·.name == name)).findSome? (·.description)
  | scalar | union _ => none

variable {b : TypeBody} (n : String)

theorem memberDescription?_fields (h : b.kind = .object ∨ b.kind = .interface) :
    b.memberDescription? n = (b.fields.filter (·.name == n)).findSome? (·.description) := by
  cases b with
  | object b => rfl
  | interface b => rfl
  | _ => exact (h.elim nofun nofun : False).elim

theorem memberDescription?_enumValues (h : b.kind = .enum) :
    b.memberDescription? n = (b.enumValues.filter (·.name == n)).findSome? (·.description) := by
  cases b with
  | enum values => rfl
  | _ => cases h

theorem memberDescription?_inputFields (h : b.kind = .inputObject) :
    b.memberDescription? n = (b.inputFields.filter (·.name == n)).findSome? (·.description) := by
  cases b with
  | inputObject fields => rfl
  | _ => cases h

theorem kind_of_mem_fields {f : Field} (h : f ∈ b.fields) :
    b.kind = .object ∨ b.kind = .interface := by
  cases b with
  | object b => exact .inl rfl
  | interface b => exact .inr rfl
  | _ => cases h

theorem kind_of_mem_enumValues {v : EnumValue} (h : v ∈ b.enumValues) : b.kind = .enum := by
  cases b with
  | enum values => rfl
  | _ => cases h

theorem kind_of_mem_inputFields {v : InputValue} (h : v ∈ b.inputFields) :
    b.kind = .inputObject := by
  cases b with
  | inputObject fields => rfl
  | _ => cases h

end TypeBody

namespace Service

/-- The first description that a service gives an element. -/
def description? (s : Service) : Coordinate → Option String
  | .schema => none
  | .directive name =>
    (s.directiveContributions.filter (·.name == name)).findSome? (·.description)
  | .type name => (s.typeContributions.filter (·.name == name)).findSome? (·.description)
  | .member typeName name =>
    (s.typeContributions.filter (·.name == typeName)).findSome? (·.body.memberDescription? name)

/-- The description of an element by the first of the services that describe it. -/
def firstDescription (services : List Service) (c : Coordinate) : Option String :=
  services.findSome? (·.description? c)

end Service

namespace Subgraphs

variable {α : Type} (s : Subgraphs)

/-- **The description that counts is that of the service that came first.** -/
theorem firstDescription_collect (description : α → Option String) (f : Subgraph → List α) :
    Declared.firstDescription description (s.collect f) =
      s.services.findSome? fun g => (f g).findSome? description := by
  have hfilter := collect_filter s f fun a => (description a).isSome
  have hranked := ranked_filter s f fun a => (description a).isSome
  rw [Declared.firstDescription, hfilter, mergeSort_rank_collect, ← hranked,
    bind_head?_filter_isSome (f := fun d : Declared α => description d.node), ranked,
    findSome?_flatMap]
  simp only [List.findSome?_map]
  have hzip := List.findSome?_map (l := s.services.zipIdx) (f := Prod.fst)
    (p := fun g => (f g).findSome? description)
  rw [List.zipIdx_map_fst] at hzip
  exact hzip.symm

/-! ## Types and their members -/

variable {s} {services : List Service} {typeName : String} {isRepeatable : String → Bool}

theorem kind_of_mem_contributions (h : (s.group typeName).problems isRepeatable = [])
    {c : TypeDefinition} (hc : c ∈ s.contributions typeName) :
    c.kind = (s.group typeName).kind := by
  obtain ⟨d, hd, hnode⟩ := exists_mem_group hc
  have hkind := TypeGroup.kind_of_problems h hd
  rw [hnode] at hkind
  exact hkind

section

variable (hs : s.services = services.map Service.toSubgraph)
  (hall : ∀ service ∈ services, service.toSubgraph.typeDefinitions = service.typeContributions)
include hs hall

theorem firstDescription_group (typeName : String) :
    Declared.firstDescription (·.node.description) (s.group typeName) =
      Service.firstDescription services (.type typeName) := by
  rw [group, firstDescription_collect, hs, List.findSome?_map, Service.firstDescription]
  refine findSome?_congr fun service hservice => ?_
  simp only [Function.comp, List.findSome?_map, definitionsOf, hall service hservice]
  rfl

/-- Parts of the contributions to a type are described as members, where the first description of a
member is that of its part. -/
theorem findSome?_parts {β : Type} {parts : TypeDefinition → List β} {name : β → String}
    {description : β → Option String} {n : String}
    (hparts : ∀ c ∈ s.contributions typeName, c.body.memberDescription? n =
      ((parts c).filter (name · == n)).findSome? description) :
    (s.services.findSome? fun g =>
      (((definitionsOf typeName g).flatMap parts).filter (name · == n)).findSome? description) =
      Service.firstDescription services (.member typeName n) := by
  rw [hs, List.findSome?_map, Service.firstDescription]
  refine findSome?_congr fun service hservice => ?_
  rw [Function.comp, List.filter_flatMap, findSome?_flatMap, definitionsOf, hall service hservice,
    Service.description?]
  refine findSome?_congr fun c hc => ?_
  refine (hparts c ?_).symm
  rw [contributions, List.mem_flatMap]
  refine ⟨service.toSubgraph, ?_, ?_⟩
  · rw [mem_inOrder, hs]
    exact List.mem_map_of_mem hservice
  · rw [definitionsOf, hall service hservice]
    exact hc

variable (h : (s.group typeName).problems isRepeatable = [])
include h

theorem description_field {f : Field}
    (hf : f ∈ ((s.group typeName).body isRepeatable).fields) :
    f.description = Service.firstDescription services (.member typeName f.name) := by
  have hkind := TypeBody.kind_of_mem_fields hf
  rw [TypeGroup.kind_body] at hkind
  obtain ⟨-, -, -, hcompose⟩ := (FieldDeclaration.keepsName_compose isRepeatable).compose_named
    (TypeGroup.mem_fields_of_body isRepeatable hf) fun _ hd =>
      FieldDeclaration.nodup_rank_of_problems (field_problems_eq_nil h hd)
  have hparts : ∀ c ∈ s.contributions typeName, c.body.memberDescription? f.name =
      (c.fields.filter (·.name == f.name)).findSome? Field.description := by
    intro c hc
    rw [← kind_of_mem_contributions h hc] at hkind
    exact TypeBody.memberDescription?_fields f.name hkind
  rw [FieldDeclaration.description_of_compose hcompose, ← findSome?_parts hs hall hparts,
    fieldDeclarations_group, named, collect_filter s _ fun d => FieldDeclaration.name d == f.name,
    firstDescription_collect]
  refine findSome?_congr fun g _ => ?_
  rw [← List.map_flatMap, List.filter_map, List.findSome?_map]
  rfl

theorem description_enumValue {v : EnumValue}
    (hv : v ∈ ((s.group typeName).body isRepeatable).enumValues) :
    v.description = Service.firstDescription services (.member typeName v.name) := by
  have hkind := TypeBody.kind_of_mem_enumValues hv
  rw [TypeGroup.kind_body] at hkind
  obtain ⟨-, -, -, hcompose⟩ := (EnumValue.keepsName_compose isRepeatable).compose_named
    (TypeGroup.mem_enumValues_of_body isRepeatable hv) fun _ hd =>
      EnumValue.nodup_rank_of_problems (enumValue_problems_eq_nil h hd)
  have hparts : ∀ c ∈ s.contributions typeName, c.body.memberDescription? v.name =
      (c.body.enumValues.filter (·.name == v.name)).findSome? EnumValue.description := by
    intro c hc
    rw [← kind_of_mem_contributions h hc] at hkind
    exact TypeBody.memberDescription?_enumValues v.name hkind
  rw [EnumValue.description_of_compose hcompose, ← findSome?_parts hs hall hparts,
    enumValues_group, named, collect_filter s _ fun w => EnumValue.name w == v.name,
    firstDescription_collect]

theorem description_inputField {v : InputValue}
    (hv : v ∈ ((s.group typeName).body isRepeatable).inputFields) :
    v.description = Service.firstDescription services (.member typeName v.name) := by
  have hkind := TypeBody.kind_of_mem_inputFields hv
  rw [TypeGroup.kind_body] at hkind
  obtain ⟨-, -, -, hcompose⟩ := (InputValue.keepsName_compose isRepeatable).compose_named
    (TypeGroup.mem_inputFields_of_body isRepeatable hv) fun _ hd =>
      InputValue.nodup_rank_of_problems (inputField_problems_eq_nil h hd)
  have hparts : ∀ c ∈ s.contributions typeName, c.body.memberDescription? v.name =
      (c.body.inputFields.filter (·.name == v.name)).findSome? InputValue.description := by
    intro c hc
    rw [← kind_of_mem_contributions h hc] at hkind
    exact TypeBody.memberDescription?_inputFields v.name hkind
  rw [InputValue.description_of_compose hcompose, ← findSome?_parts hs hall hparts,
    inputFields_group, named, collect_filter s _ fun w => InputValue.name w == v.name,
    firstDescription_collect]

end

/-! ## The composed schema -/

section

variable (hs : s.services = services.map Service.toSubgraph)
include hs

/-- A composed directive definition has the description of the service that came first. -/
theorem description_directiveDefinition {d : DirectiveDefinition}
    (hd : d ∈ s.mergedDirectiveDefinitions) :
    d.description = Service.firstDescription services (.directive d.name) := by
  obtain ⟨g, hg, hdefinition⟩ := List.mem_filterMap.mp hd
  obtain ⟨n, hn, rfl⟩ := List.mem_map.mp hg
  have hname := DirectiveGroup.name_of_definition hdefinition
  obtain ⟨first, hfirst, rfl⟩ := Option.map_eq_some_iff.mp hdefinition
  -- built-in directives are not composed, so leaving them out does not hide this one
  have hbuiltIn : (DirectiveDefinition.builtIn? n).isNone = true := by
    have hmem := List.mem_filter.mp (List.mem_of_mem_head? hfirst)
    have := (List.mem_filter.mp hmem.1).2
    rwa [beq_iff_eq.mp hmem.2] at this
  rw [hname]
  show Declared.firstDescription _ _ = _
  have hcomposed := collect_filter s (fun g => g.document.directiveDefinitions)
    fun d => (DirectiveDefinition.builtIn? d.name).isNone
  have hnamed := collect_filter s (fun g => g.document.directiveDefinitions.filter
    fun d => (DirectiveDefinition.builtIn? d.name).isNone) fun d => d.name == n
  rw [directiveDefinitions, hcomposed, hnamed, firstDescription_collect, hs, List.findSome?_map,
    Service.firstDescription]
  refine findSome?_congr fun service _ => ?_
  rw [Function.comp, Service.directiveDefinitions_toSubgraph, List.filter_filter,
    Service.description?]
  congr 1
  refine List.filter_congr fun d _ => ?_
  by_cases hd : d.name = n
  · simp [hd, hbuiltIn]
  · simp [hd]

/-- **The composed schema has the descriptions of the services that came first.** -/
theorem describe_composedSchema (hnone : s.allProblems = [])
    (hall : ∀ service ∈ services, service.toSubgraph.typeDefinitions = service.typeContributions) :
    s.composedSchema.1.describe (Service.firstDescription services) = s.composedSchema.1 := by
  have htypes : s.composedSchema.1.types.map
      (TypeDefinition.describe (Service.firstDescription services)) =
        s.composedSchema.1.types := by
    refine map_eq_self fun t ht => ?_
    obtain ⟨hn, hdescription, hbody⟩ := mem_types_composedSchema s ht
    have hproblems := group_problems_eq_nil (problems_eq_nil hnone).2.1 hn
    rw [TypeGroup.ofOneKind_eq_self hproblems] at hdescription hbody
    rw [firstDescription_group hs hall] at hdescription
    have hmembers : t.body.describe
        (fun name => Service.firstDescription services (.member t.name name)) = t.body := by
      rw [hbody]
      exact TypeBody.describe_eq_self _ _ (fun _ hf => description_field hs hall hproblems hf)
        (fun _ hv => description_enumValue hs hall hproblems hv)
        fun _ hv => description_inputField hs hall hproblems hv
    rw [TypeDefinition.describe, ← hdescription, hmembers]
  have hdirectives : s.composedSchema.1.directiveDefinitions.map
      (DirectiveDefinition.describe (Service.firstDescription services)) =
        s.composedSchema.1.directiveDefinitions := by
    rw [composedSchema_eq]
    refine map_eq_self fun d hd => ?_
    rw [DirectiveDefinition.describe, ← description_directiveDefinition hs hd]
  rw [Schema.describe, htypes, hdirectives]

end

end Subgraphs

end Federation
