import Federation.Proofs.Composition.Content
import Federation.Proofs.Composition.Origins
import Federation.Proofs.Schema.References
/-!
# Composition — what composed types implement

Two checks look at the names of interfaces: one at those that the schema
defines, which have to be interfaces, and one at those that it does not
define, which have to be known. A built-in scalar is known without being
defined, so neither check stops at it (`Schema.implements_cases`). The
names come from the services: composed types implement interfaces of the
schema exactly when every built-in scalar that a service implements is
declared by some service (`compose_implements`).
-/

namespace Federation

/-- Every name that a type of a schema implements is that of an interface of the schema. -/
def Schema.ImplementsInterfaces (s : Schema) : Prop :=
  ∀ t ∈ s.types, ∀ name ∈ t.implements, ∃ i ∈ s.types, i.name = name ∧ i.kind = .interface

/-- **What a checked type implements is an interface of the schema, or a built-in scalar** that the
schema does not define. -/
theorem Schema.implements_cases {s : Schema} (h : s.problems = []) {t : TypeDefinition}
    (ht : t ∈ s.types) {name : String} (hname : name ∈ t.implements) :
    (∃ i ∈ s.types, i.name = name ∧ i.kind = .interface) ∨
      name ∈ builtInScalars ∧ ∀ i ∈ s.types, i.name ≠ name := by
  simp only [problems, List.append_eq_nil_iff] at h
  obtain ⟨⟨⟨-, hinterfaces⟩, -⟩, hreferences⟩ := h
  cases hfound : s.type? name with
  | none =>
    -- the check of interfaces passes over it, and leaves it to the check of references
    have hundefined : ∀ i ∈ s.types, i.name ≠ name := fun i hi heq =>
      List.find?_eq_none.mp hfound i hi (beq_iff_eq.mpr heq)
    rcases knows_of_refersTo hreferences ht (.interface hname) with hscalar | ⟨i, hi, heq⟩
    · exact .inr ⟨hscalar, hundefined⟩
    · exact absurd heq (hundefined i hi)
  | some i =>
    obtain ⟨hi, hiname⟩ := mem_of_type? hfound
    have hproblems := List.flatMap_eq_nil_iff.mp (List.flatMap_eq_nil_iff.mp hinterfaces t ht) name
      hname
    rw [interfaceNameProblems, hfound] at hproblems
    refine .inl ⟨i, hi, hiname, ?_⟩
    by_contra hkind
    simp only [if_neg hkind] at hproblems
    cases hproblems

/-- A service contributes a type of a name. -/
def Service.Contributes (services : List Service) (name : String) : Prop :=
  ∃ service ∈ services, ∃ c ∈ service.typeContributions, c.name = name

namespace Subgraphs

variable {s : Subgraphs} {services : List Service}
  (hs : s.services = services.map Service.toSubgraph) (hnone : s.allProblems = [])
include hs hnone

/-- There is a composed type of a name exactly when a service contributes one. -/
theorem exists_type_iff {name : String} :
    (∃ t ∈ s.composedSchema.1.types, t.name = name) ↔ Service.Contributes services name := by
  rw [← List.mem_map, s.map_name_composedSchema]
  exact mem_typeNames_of_services hs (typeDefinitions_eq_of_problems hs hnone)

/-- A composed type implements what is implemented by the definitions that are contributed to
it. -/
theorem mem_implements_iff {t : TypeDefinition} (ht : t ∈ s.composedSchema.1.types)
    {name : String} :
    name ∈ t.implements ↔ ∃ c ∈ Service.contributions services t.name, name ∈ c.implements := by
  obtain ⟨hn, -, hbody⟩ := s.mem_types_composedSchema ht
  have hproblems := group_problems_eq_nil (problems_eq_nil hnone).2.1 hn
  rw [TypeGroup.ofOneKind_eq_self hproblems] at hbody
  rw [(holdsContributions hproblems hbody).implements, List.mem_eraseDups, List.mem_flatMap,
    contributions_of_services hs (typeDefinitions_eq_of_problems hs hnone)]

end Subgraphs

namespace Service

/-- **Composed types implement interfaces, or built-in scalars.** A name that a composed type
implements is that of an interface of the schema, or it is that of a built-in scalar and no type of
the schema has it. So all composed types implement interfaces exactly when every built-in scalar
that a service implements is declared by one. -/
theorem compose_implements {services : List Service} {g : Supergraph}
    (h : compose services = .ok (.ok g)) :
    (∀ t ∈ g.schema.types, ∀ name ∈ t.implements,
      (∃ i ∈ g.schema.types, i.name = name ∧ i.kind = .interface) ∨
        name ∈ Schema.builtInScalars ∧ ∀ i ∈ g.schema.types, i.name ≠ name) ∧
    (g.schema.ImplementsInterfaces ↔
      ∀ service ∈ services, ∀ c ∈ service.typeContributions, ∀ name ∈ c.implements,
        name ∈ Schema.builtInScalars → Contributes services name) := by
  obtain ⟨s, hs, hnone, hschema, -⟩ := exists_of_compose h
  have hcases := fun t => Schema.implements_cases (t := t) (Subgraphs.problems_eq_nil hnone).2.2
  rw [hschema]
  refine ⟨fun t ht name => hcases t ht, fun hlaw service hservice c hc name hname _ => ?_,
    fun hdeclared t ht name hname => ?_⟩
  · obtain ⟨t, ht, htname⟩ := (Subgraphs.exists_type_iff hs hnone).mpr ⟨service, hservice, c, hc, rfl⟩
    have himplements : name ∈ t.implements := (Subgraphs.mem_implements_iff hs hnone ht).mpr
      ⟨c, mem_contributions.mpr ⟨service, hservice, hc, htname.symm⟩, hname⟩
    obtain ⟨i, hi, hiname, -⟩ := hlaw t ht name himplements
    exact (Subgraphs.exists_type_iff hs hnone).mp ⟨i, hi, hiname⟩
  · rcases hcases t ht hname with hinterface | ⟨hscalar, hundefined⟩
    · exact hinterface
    · obtain ⟨c, hc, hcname⟩ := (Subgraphs.mem_implements_iff hs hnone ht).mp hname
      obtain ⟨service, hservice, hc, -⟩ := Service.mem_contributions.mp hc
      obtain ⟨i, hi, hiname⟩ := (Subgraphs.exists_type_iff hs hnone).mpr
        (hdeclared service hservice c hc name hcname hscalar)
      exact absurd hiname (hundefined i hi)

/-- A service with an interface, and a root type that implements a name. -/
def nodeService (implemented : String) : Service :=
  { name := "a"
    document :=
      ⟨[.type
          { name := "Node"
            body := .interface { fields := [{ name := "id", type := .named "ID" }] } },
        .type
          { name := "Query"
            body := .object
              { implements := [implemented]
                fields := [{ name := "id", type := .named "ID" }] } }]⟩ }

/-- The root type implements the interface. -/
theorem nodeService_implements :
    ∃ g, compose [nodeService "Node"] = .ok (.ok g) ∧ g.schema.ImplementsInterfaces ∧
      g.schema.types.map (fun t => (t.name, t.implements)) =
        [("Node", []), ("Query", ["Node"])] := by
  obtain ⟨g, hg, htypes⟩ : ∃ g, compose [nodeService "Node"] = .ok (.ok g) ∧
      g.schema.types.map (fun t => (t.name, t.implements)) = [("Node", []), ("Query", ["Node"])] :=
    exists_compose (fun s => s.types.map fun t => (t.name, t.implements)) (by cbv)
  refine ⟨g, hg, (compose_implements hg).2.mpr ?_, htypes⟩
  have hnone : ∀ service ∈ [nodeService "Node"], ∀ c ∈ service.typeContributions,
      ∀ name ∈ c.implements, name ∉ Schema.builtInScalars := by decide
  intro service hservice c hc name hname hscalar
  exact absurd hscalar (hnone service hservice c hc name hname)

/-- It implements a built-in scalar all the same, which is no type of the schema. -/
theorem nodeService_implements_scalar :
    ∃ g, compose [nodeService "String"] = .ok (.ok g) ∧ ¬g.schema.ImplementsInterfaces ∧
      g.schema.types.map (fun t => (t.name, t.implements)) =
        [("Node", []), ("Query", ["String"])] := by
  obtain ⟨g, hg, htypes⟩ : ∃ g, compose [nodeService "String"] = .ok (.ok g) ∧
      g.schema.types.map (fun t => (t.name, t.implements)) =
        [("Node", []), ("Query", ["String"])] :=
    exists_compose (fun s => s.types.map fun t => (t.name, t.implements)) (by cbv)
  refine ⟨g, hg, fun hlaw => ?_, htypes⟩
  have hquery : ("Query", ["String"]) ∈ g.schema.types.map fun t => (t.name, t.implements) := by
    rw [htypes]
    decide
  obtain ⟨t, ht, heq⟩ := List.mem_map.mp hquery
  have hstring : "String" ∈ t.implements := by
    rw [(Prod.mk.inj heq).2]
    exact List.mem_singleton_self _
  obtain ⟨i, hi, hname, -⟩ := hlaw t ht "String" hstring
  have hmem := List.mem_map_of_mem (f := fun t => (t.name, t.implements)) hi
  rw [htypes, hname] at hmem
  simp at hmem

end Service

end Federation
