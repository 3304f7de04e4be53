import Federation.Proofs.Composition.Content
import Federation.Proofs.Schema.TypeSafety
/-!
# Composition — subtypes

A type lists the interfaces that it implements, and the check of
subtypes looks at this list and no further. Still one may go from
interface to interface: a type that does what an interface promises
lists the interfaces of the interface too (`Schema.StandsFor.trans`),
also where interfaces implement one another. Through lists and exclusions
of null this carries over to type references (`Schema.Refines.trans`).
Both relations are preorders in a composed schema, as long as unions are
left out (`compose_subtypes_preorder`): a union need not list what
implements its members.
-/

namespace Federation

namespace Schema

variable {s : Schema}

/-- A name that is not that of a union: of another type of the schema, or of none. -/
def NotUnion (s : Schema) (name : String) : Prop :=
  ∀ t ∈ s.types, t.name = name → t.kind ≠ .union

/-! ## Names -/

/-- For a name that is not that of a union stand the name itself and the names of types that
implement the interface. -/
theorem standsFor_iff_of_notUnion {m n : String} (hn : s.NotUnion n) :
    s.StandsFor m n ↔ m = n ∨ ∃ d ∈ s.types, ∃ i ∈ s.types,
      d.name = m ∧ i.name = n ∧ i.kind = .interface ∧ n ∈ d.implements := by
  constructor
  · intro h
    cases h with
    | self => exact .inl rfl
    | @member union members _ hu hbody =>
      refine absurd ?_ (hn union hu rfl)
      rw [TypeDefinition.kind, hbody]
      rfl
    | @implementer d i hi hkind hd himplements =>
      exact .inr ⟨d, hd, i, hi, rfl, rfl, hkind, himplements⟩
  · rintro (rfl | ⟨d, hd, i, hi, rfl, rfl, hkind, himplements⟩)
    · exact .self m
    · exact .implementer hi hkind hd himplements

section

variable (hnodup : (s.types.map (·.name)).Nodup) (hsafe : s.TypeSafe)
include hnodup hsafe

/-- **What stands for a name that stands for another stands for the other.** -/
theorem StandsFor.trans {a b c : String} (hb : s.NotUnion b) (hc : s.NotUnion c)
    (hab : s.StandsFor a b) (hbc : s.StandsFor b c) : s.StandsFor a c := by
  rcases (standsFor_iff_of_notUnion hb).mp hab with rfl | ⟨d, hd, i, hi, rfl, rfl, -, hdi⟩
  · exact hbc
  · rcases (standsFor_iff_of_notUnion hc).mp hbc with heq | ⟨i', hi', j, hj, hname, rfl, hkind, hij⟩
    · rwa [← heq]
    -- the interface in the middle is one type, and a type lists the interfaces of its interfaces
    · obtain rfl : i' = i := List.inj_on_of_nodup_map hnodup hi' hi hname
      exact .implementer hj hkind hd ((hsafe.implementations d hd i' hi hdi).interfaces _ hij)

end

/-! ## Type references -/

theorem Refines.refl (s : Schema) (a : TypeRef) : s.Refines a a := by
  induction a with
  | named name => exact .named (.self name)
  | list _ ih => exact .list ih
  | nonNull _ ih => exact .nonNull ih

/-- A reference that admits null is not as specific as one that excludes it. -/
theorem Refines.isNonNull_eq_false {a b : TypeRef} (h : s.Refines a b)
    (ha : a.isNonNull = false) : b.isNonNull = false := by
  cases h with
  | named | list => rfl
  | nonNull | excludesNull => cases ha

section

variable (hnodup : (s.types.map (·.name)).Nodup) (hsafe : s.TypeSafe)
include hnodup hsafe

/-- **What is as specific as a reference is as specific as what that refines.** -/
theorem Refines.trans {a b c : TypeRef} (hb : s.NotUnion b.name) (hc : s.NotUnion c.name)
    (hab : s.Refines a b) (hbc : s.Refines b c) : s.Refines a c := by
  induction hab generalizing c with
  | named hmn =>
    cases hbc with
    | named hnk => exact .named (hmn.trans hnodup hsafe hb hc hnk)
  | list _ ih =>
    cases hbc with
    | list hbc => exact .list (ih hb hc hbc)
  | nonNull _ ih =>
    cases hbc with
    | nonNull hbc => exact .nonNull (ih hb hc hbc)
    | excludesNull hbc hnull => exact .excludesNull (ih hb hc hbc) hnull
  | excludesNull _ hnull ih =>
    exact .excludesNull (ih hb hc hbc) (hbc.isNonNull_eq_false hnull)

end

end Schema

namespace Service

/-- **Subtypes are a preorder.** In a composed schema, over names that are not those of unions, what
may stand for what is reflexive and transitive; and so it is, over type references to such names,
with lists and exclusions of null in any places, what is as specific as what. -/
theorem compose_subtypes_preorder {services : List Service} {g : Supergraph}
    (h : compose services = .ok (.ok g)) :
    IsPreorder {name // g.schema.NotUnion name}
      (fun concrete abstract => g.schema.isSubtype abstract concrete = true) ∧
    IsPreorder {t : TypeRef // g.schema.NotUnion t.name}
      (fun field expected => g.schema.isImplementationType field expected = true) := by
  obtain ⟨s, -, hnone, hschema, -⟩ := exists_of_compose h
  have hnodup : (g.schema.types.map (·.name)).Nodup := by
    rw [hschema, Subgraphs.map_name_composedSchema]
    exact s.nodup_typeNames
  have hsafe : g.schema.TypeSafe := by
    refine Schema.typeSafe_of_problems hnodup ?_
    rw [hschema]
    exact (Subgraphs.problems_eq_nil hnone).2.2
  simp only [Schema.isSubtype_iff hnodup, Schema.isImplementationType_iff hnodup]
  constructor
  · exact { refl := fun name => .self name.val
            trans := fun _ b c hab hbc => hab.trans hnodup hsafe b.property c.property hbc }
  · exact { refl := fun t => .refl _ t.val
            trans := fun _ b c hab hbc => hab.trans hnodup hsafe b.property c.property hbc }

/-- Interfaces that implement one another, a union of one of them, and a type that implements
both. -/
def folderServices : List Service :=
  let member := fun (implements : List String) (parent : TypeRef) =>
    ({ implements, fields := [{ name := "parent", type := parent }] } : ObjectBody)
  [{ name := "files"
     document :=
       ⟨[.type
           { name := "File"
             body := .object (member ["Node", "Resource"] (.nonNull (.named "File"))) },
         .type
           { name := "Query"
             body := .object { fields := [{ name := "found", type := .named "Found" }] } }]⟩ },
   { name := "nodes"
     document :=
       ⟨[.type { name := "Found", body := .union ["Node"] },
         .type
           { name := "Node"
             body := .interface (member ["Node", "Resource"] (.named "Node")) },
         .type
           { name := "Resource"
             body := .interface (member ["Node", "Resource"] (.named "Resource")) }]⟩ }]

/-- Files are nodes since they are resources, and so are lists of them. A file is no member of the
union, though a node is. -/
theorem folderServices_subtypes :
    ∃ g, compose folderServices = .ok (.ok g) ∧
      (∀ name ∈ ["File", "Node", "Resource", "Unknown"], g.schema.NotUnion name) ∧
      g.schema.isSubtype "Node" "File" = true ∧
      g.schema.isSubtype "Unknown" "Unknown" = true ∧
      g.schema.isImplementationType (.nonNull (.list (.nonNull (.named "File"))))
        (.list (.named "Node")) = true ∧
      g.schema.isSubtype "Found" "Node" = true ∧ g.schema.isSubtype "Found" "File" = false := by
  obtain ⟨g, hg, hview⟩ : ∃ g, compose folderServices = .ok (.ok g) ∧
      (g.schema.types.map (fun t => (t.name, t.kind)),
        [("Resource", "File"), ("Node", "Resource"), ("Found", "Node"), ("Found", "File")].map
          fun names => g.schema.isSubtype names.1 names.2) =
        ([("File", .object), ("Found", .union), ("Node", .interface), ("Query", .object),
          ("Resource", .interface)], [true, true, true, false]) :=
    exists_compose (fun s => (s.types.map fun t => (t.name, t.kind),
      [("Resource", "File"), ("Node", "Resource"), ("Found", "Node"), ("Found", "File")].map
        fun names => s.isSubtype names.1 names.2)) (by cbv)
  obtain ⟨hkinds, hsubtypes⟩ := Prod.mk.inj hview
  simp only [List.map_cons, List.map_nil, List.cons.injEq, and_true] at hsubtypes
  obtain ⟨hfile, hresource, hnode, hunion⟩ := hsubtypes
  have hplain : ∀ name ∈ ["File", "Node", "Resource", "Unknown"], g.schema.NotUnion name := by
    intro name hname t ht htname hkind
    have hmem := List.mem_map_of_mem (f := fun t => (t.name, t.kind)) ht
    rw [hkinds, htname, hkind] at hmem
    have hunions : ∀ name ∈ ["File", "Node", "Resource", "Unknown"],
        (name, TypeKind.union) ∉ [("File", .object), ("Found", .union), ("Node", .interface),
          ("Query", .object), ("Resource", .interface)] := by decide
    exact hunions name hname hmem
  obtain ⟨hnames, hreferences⟩ := compose_subtypes_preorder hg
  have hfiles := hnames.trans ⟨"File", hplain _ (by decide)⟩ ⟨"Resource", hplain _ (by decide)⟩
    ⟨"Node", hplain _ (by decide)⟩ hfile hresource
  refine ⟨g, hg, hplain, hfiles, hnames.refl ⟨"Unknown", hplain _ (by decide)⟩, ?_, hnode, hunion⟩
  exact hreferences.trans
    ⟨.nonNull (.list (.nonNull (.named "File"))), hplain "File" (by decide)⟩
    ⟨.list (.nonNull (.named "Resource")), hplain "Resource" (by decide)⟩
    ⟨.list (.named "Node"), hplain "Node" (by decide)⟩ hfile hresource

end Service

end Federation
