import Federation.Proofs.Composition.Content
import Federation.Proofs.Schema.Keys
/-!
# Composition — keys of composed types

A key comes from one service, and may select fields that others
contribute. So it is looked at when the types are composed, path by
path; and once services are composed, every key in the records of the
schema is offered by its type as a whole (`compose_offers_keys`).
-/

namespace Federation

namespace Service

/-- **Keys are checked as trees.** In any schema, all paths of a field set can be followed from a
type exactly if the type offers the field set: it has every field that is selected, and the
innermost type of the field has what is selected below. So the check of keys finds nothing exactly
if every key is offered by its type, and in a composed schema every key is. -/
theorem compose_offers_keys :
    (∀ (s : Schema) (typeName : String) (fields : FieldSet),
      (∀ path ∈ fields.paths, s.followPath typeName path = .ok ()) ↔
        s.OffersAll typeName fields) ∧
    (∀ s : Schema, s.keyProblems = [] ↔
      ∀ t ∈ s.ownership, ∀ key ∈ t.keys, s.OffersAll t.name key.2) ∧
    ∀ (services : List Service) (g : Supergraph), compose services = .ok (.ok g) →
      ∀ t ∈ g.schema.ownership, ∀ key ∈ t.keys, g.schema.OffersAll t.name key.2 := by
  refine ⟨fun s => s.followPath_paths_iff, fun s => s.keyProblems_eq_nil_iff_offers, ?_⟩
  intro services g h
  obtain ⟨s, -, hnone, hschema, -⟩ := exists_of_compose h
  obtain ⟨-, -, hproblems⟩ := Subgraphs.problems_eq_nil hnone
  simp only [Schema.problems, List.append_eq_nil_iff] at hproblems
  rw [hschema]
  exact Schema.keyProblems_eq_nil_iff_offers.mp hproblems.1.1.1.1

/-- A service with a key that leads to a field of another type, and a service that contributes the
field. -/
def regionServices : List Service :=
  [{ name := "regions"
     document :=
       ⟨[.type
           { name := "Organization"
             isExtension := true
             body := .object { fields := [{ name := "region", type := .named "Region" }] } },
         .type
           { name := "Region"
             body := .object
               { fields := [{ name := "code", type := .nonNull (.named "String") }] } }]⟩ },
   { name := "users"
     document :=
       ⟨[.type
           { name := "Organization"
             body := .object { fields := [{ name := "id", type := .named "ID" }] } },
         .type
           { name := "Query"
             body := .object { fields := [{ name := "user", type := .named "User" }] } },
         .type
           { name := "User"
             directives :=
               [{ name := "key"
                  arguments :=
                    [⟨"fields", .string "id organizations { id region { code } }"⟩] }]
             body := .object
               { fields :=
                   [{ name := "id", type := .nonNull (.named "ID") },
                    { name := "organizations"
                      type := .nonNull (.list (.nonNull (.named "Organization"))) }] } }]⟩ }]

/-- The key of the users. -/
def regionKey : FieldSet :=
  ⟨[.select "id" [],
    .select "organizations" [.select "id" [], .select "region" [.select "code" []]]]⟩

/-- The key is offered by the composed types, and no type that is not there offers it. -/
theorem regionServices_offers_keys :
    regionKey.paths =
      [["id"], ["organizations", "id"], ["organizations", "region", "code"]] ∧
    ∃ g, compose regionServices = .ok (.ok g) ∧
      g.schema.ownership.flatMap (fun t => t.keys.map fun key => (t.name, key)) =
        [("User", "users", regionKey)] ∧
      (∀ t ∈ g.schema.ownership, ∀ key ∈ t.keys, g.schema.OffersAll t.name key.2) ∧
      g.schema.OffersAll "User" regionKey ∧ ¬g.schema.OffersAll "Account" regionKey := by
  refine ⟨by decide, ?_⟩
  obtain ⟨hpaths, -, hkeys⟩ := compose_offers_keys
  obtain ⟨g, hg, hview⟩ : ∃ g, compose regionServices = .ok (.ok g) ∧
      (g.schema.ownership.flatMap (fun t => t.keys.map fun key => (t.name, key)),
        g.schema.followPath "Account" ["id"]) =
        ([("User", "users", regionKey)], .error ("Account", "id")) :=
    exists_compose (fun s => (s.ownership.flatMap fun t => t.keys.map fun key => (t.name, key),
      s.followPath "Account" ["id"])) (by cbv)
  obtain ⟨hrecorded, hfollow⟩ := Prod.mk.inj hview
  have hoffers := hkeys regionServices g hg
  refine ⟨g, hg, hrecorded, hoffers, ?_, fun haccount => ?_⟩
  · have hkey : ("User", "users", regionKey) ∈
        g.schema.ownership.flatMap fun t => t.keys.map fun key => (t.name, key) := by
      rw [hrecorded]
      exact List.mem_singleton_self _
    obtain ⟨t, ht, hkey⟩ := List.mem_flatMap.mp hkey
    obtain ⟨key, hkey, heq⟩ := List.mem_map.mp hkey
    obtain ⟨hname, hfields⟩ := Prod.mk.inj heq
    rw [← hname, ← (Prod.mk.inj hfields).2]
    exact hoffers t ht key hkey
  · have hid := (hpaths g.schema "Account" regionKey).mpr haccount ["id"] (by decide)
    rw [hfollow] at hid
    cases hid

end Service

end Federation
