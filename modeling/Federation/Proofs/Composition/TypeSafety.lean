import Federation.Proofs.Composition.Content
import Federation.Proofs.Schema.TypeSafety
/-!
# Composition — the schema is type safe

Fields, arguments and interfaces of a composed type come from several
services, and no service knows what the others add. The schema that is
handed out is the one that the checks looked at, so it is type safe
(`compose_typeSafe`).
-/

namespace Federation

namespace Service

/-- **A composed schema is type safe.** Every name that it refers to is a type of the schema or a
built-in scalar, and every type does what the interfaces promise that it implements. -/
theorem compose_typeSafe {services : List Service} {g : Supergraph}
    (h : compose services = .ok (.ok g)) : g.schema.TypeSafe := by
  obtain ⟨s, -, hnone, hschema, -⟩ := exists_of_compose h
  obtain ⟨-, -, hproblems⟩ := Subgraphs.problems_eq_nil hnone
  rw [hschema]
  refine Schema.typeSafe_of_problems ?_ hproblems
  rw [Subgraphs.map_name_composedSchema]
  exact s.nodup_typeNames

/-- An interface of one service, and a type of another that implements it with more specific types
and a further argument. -/
def interfaceServices : List Service :=
  [{ name := "users"
     document :=
       ⟨[.type
           { name := "User"
             body := .object
               { implements := ["Node"]
                 fields :=
                   [{ name := "id", type := .nonNull (.named "ID") },
                    { name := "near"
                      arguments :=
                        [{ name := "first", type := .named "Int" },
                         { name := "after", type := .named "String" }]
                      type := .list (.nonNull (.named "User")) }] } }]⟩ },
   { name := "nodes"
     document :=
       ⟨[.type
           { name := "Node"
             body := .interface
               { fields :=
                   [{ name := "id", type := .named "ID" },
                    { name := "near"
                      arguments := [{ name := "first", type := .named "Int" }]
                      type := .list (.named "Node") }] } },
         .type
           { name := "Query"
             body := .object { fields := [{ name := "node", type := .named "Node" }] } }]⟩ }]

/-- The services are composed, and the type of one implements the interface of the other. -/
theorem interfaceServices_typeSafe :
    ∃ g, compose interfaceServices = .ok (.ok g) ∧ g.schema.TypeSafe ∧
      ∃ user ∈ g.schema.types, ∃ node ∈ g.schema.types,
        node.name = "Node" ∧ node.name ∈ user.implements ∧ g.schema.Implements user node := by
  obtain ⟨g, hg, htypes⟩ : ∃ g, compose interfaceServices = .ok (.ok g) ∧
      (g.schema.types.map fun t => (t.name, t.implements)) =
        [("Node", []), ("Query", []), ("User", ["Node"])] :=
    exists_compose (fun s => s.types.map fun t => (t.name, t.implements)) (by cbv)
  have hsafe := compose_typeSafe hg
  have hnode : ("Node", []) ∈ g.schema.types.map fun t => (t.name, t.implements) := by
    rw [htypes]
    decide
  have huser : ("User", ["Node"]) ∈ g.schema.types.map fun t => (t.name, t.implements) := by
    rw [htypes]
    decide
  obtain ⟨node, hnodemem, hnodeeq⟩ := List.mem_map.mp hnode
  obtain ⟨user, husermem, husereq⟩ := List.mem_map.mp huser
  have hname : node.name = "Node" := (Prod.mk.inj hnodeeq).1
  have himplements : node.name ∈ user.implements := by
    rw [hname, (Prod.mk.inj husereq).2]
    exact List.mem_singleton_self _
  exact ⟨g, hg, hsafe, user, husermem, node, hnodemem, hname, himplements,
    hsafe.implementations user husermem node hnodemem himplements⟩

end Service

end Federation
