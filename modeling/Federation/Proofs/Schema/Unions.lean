import Federation.Proofs.Schema.Keys
import Federation.Proofs.Schema.TypeSafety
/-!
# Schema — schemas side by side

Two schemas that share no name can be put together to one that holds the
types and records of both. Each knows every name that it refers to, so
the larger schema finds the same types under these names
(`type?_eq_of_knows`), and what the checks looked up in the part they
find in the whole. So there is nothing wrong with the whole if there is
nothing wrong with the parts (`problems_of_union`).
-/

namespace Federation

namespace Schema

/-- A schema that holds what two others hold, which share no names. -/
structure UnionOf (s a b : Schema) : Prop where
  types : s.types.Perm (a.types ++ b.types)
  typesApart : (a.types.map (·.name)).Disjoint (b.types.map (·.name))
  directiveDefinitions :
    s.directiveDefinitions.Perm (a.directiveDefinitions ++ b.directiveDefinitions)
  directivesApart :
    (a.directiveDefinitions.map (·.name)).Disjoint (b.directiveDefinitions.map (·.name))
  ownership : s.ownership.Perm (a.ownership ++ b.ownership)
  ownershipApart : (a.ownership.map (·.name)).Disjoint (b.ownership.map (·.name))

/-- A schema without a schema definition that has one record for each type. -/
structure Recorded (s : Schema) : Prop where
  roots : s.roots = []
  names : s.ownership.map (·.name) = s.types.map (·.name)
  nodup : (s.types.map (·.name)).Nodup

/-- A part of a schema passes the checks, with its names looked up in the whole. -/
structure CheckedIn (a s : Schema) : Prop where
  keys : ∀ t ∈ a.ownership, ∀ key ∈ t.keys, ∀ path ∈ key.2.paths, s.followPath t.name path = .ok ()
  resolved : ∀ t ∈ a.ownership, ∀ f ∈ t.fields, f.contributions ≠ [] → f.owner?.isSome = true
  interfaces : ∀ d ∈ a.types, ∀ name ∈ d.implements, s.interfaceNameProblems d name = []
  roots : ∀ t ∈ a.ownership, ∀ operation : OperationType, t.name = operation.conventionalName →
    ∀ f ∈ t.fields, f.resolvers.length ≤ 1
  references : ∀ d ∈ a.types, ∀ r ∈ d.references, s.Knows r.2

variable {s a b : Schema}

theorem UnionOf.symm (h : s.UnionOf a b) : s.UnionOf b a where
  types := h.types.trans List.perm_append_comm
  typesApart := fun _ hb ha => h.typesApart ha hb
  directiveDefinitions := h.directiveDefinitions.trans List.perm_append_comm
  directivesApart := fun _ hb ha => h.directivesApart ha hb
  ownership := h.ownership.trans List.perm_append_comm
  ownershipApart := fun _ hb ha => h.ownershipApart ha hb

theorem UnionOf.knows (h : s.UnionOf a b) {name : String} (hname : a.Knows name) :
    s.Knows name := by
  rcases hname with hscalar | ⟨t, ht, rfl⟩
  · exact .inl hscalar
  · exact .inr ⟨t, h.types.mem_iff.mpr (List.mem_append_left _ ht), rfl⟩

/-! ## What the checks ask for -/

section

variable (hr : s.Recorded)
include hr

theorem Recorded.rootType? (operation : OperationType) :
    s.rootType? operation = s.type? operation.conventionalName := by
  rw [Schema.rootType?, rootName?, hr.roots]
  rfl

theorem Recorded.ownership?_of_mem {t : TypeOwnership} (ht : t ∈ s.ownership) :
    s.ownership? t.name = some t := by
  have hnodup : (s.ownership.map (·.name)).Nodup := by
    rw [hr.names]
    exact hr.nodup
  rw [ownership?, ← List.head?_filter, filter_eq_singleton hnodup ht, List.head?_cons]

theorem rootFieldProblems_eq_nil_iff : s.rootFieldProblems = [] ↔
    ∀ t ∈ s.ownership, ∀ operation : OperationType, t.name = operation.conventionalName →
      ∀ f ∈ t.fields, f.resolvers.length ≤ 1 := by
  rw [rootFieldProblems, List.flatMap_eq_nil_iff]
  constructor
  · intro h t ht operation hname f hf
    have hmem : t.name ∈ s.types.map (·.name) := by
      rw [← hr.names]
      exact List.mem_map_of_mem ht
    obtain ⟨root, hroot, hrootName⟩ := List.mem_map.mp hmem
    have hfound : s.rootType? operation = some root := by
      rw [hr.rootType?, ← hname, ← hrootName, type?_of_mem hr.nodup hroot]
    have hnone := h root (List.mem_filterMap.mpr ⟨operation, by cases operation <;> decide, hfound⟩)
    rw [hrootName, hr.ownership?_of_mem ht, List.map_eq_nil_iff] at hnone
    simpa using List.filter_eq_nil_iff.mp hnone f hf
  · intro h root hroot
    obtain ⟨operation, -, hfound⟩ := List.mem_filterMap.mp hroot
    rw [hr.rootType?] at hfound
    obtain ⟨-, hname⟩ := mem_of_type? hfound
    cases hrecord : s.ownership? root.name with
    | none => rfl
    | some t =>
      have ht : t ∈ s.ownership := List.mem_of_find?_eq_some hrecord
      have htname : t.name = root.name := by simpa using List.find?_some hrecord
      refine List.map_eq_nil_iff.mpr (List.filter_eq_nil_iff.mpr fun f hf => ?_)
      simpa using h t ht operation (htname.trans hname) f hf

/-- **There is nothing wrong with a schema exactly if all of it passes the checks.** -/
theorem problems_eq_nil_iff : s.problems = [] ↔ s.CheckedIn s := by
  have hresolved : s.externalFieldProblems = [] ↔
      ∀ t ∈ s.ownership, ∀ f ∈ t.fields, f.contributions ≠ [] → f.owner?.isSome = true := by
    simp only [externalFieldProblems, List.flatMap_eq_nil_iff, List.map_eq_nil_iff,
      List.filter_eq_nil_iff]
    refine forall₂_congr fun t _ => forall₂_congr fun f _ => ?_
    simp [Option.isSome_iff_ne_none]
  have hreferences : s.referenceProblems = [] ↔ ∀ d ∈ s.types, ∀ r ∈ d.references, s.Knows r.2 := by
    simp only [referenceProblems, TypeDefinition.unknownReferences, List.flatMap_eq_nil_iff,
      List.map_eq_nil_iff, List.filter_eq_nil_iff, ← isKnownType_iff]
    simp
  rw [problems]
  simp only [List.append_eq_nil_iff, keyProblems_eq_nil_iff, hresolved, rootFieldProblems_eq_nil_iff hr, hreferences,
    interfaceProblems, List.flatMap_eq_nil_iff]
  constructor
  · rintro ⟨⟨⟨⟨hkeys, hresolved⟩, hinterfaces⟩, hroots⟩, hreferences⟩
    exact ⟨hkeys, hresolved, hinterfaces, hroots, hreferences⟩
  · rintro ⟨hkeys, hresolved, hinterfaces, hroots, hreferences⟩
    exact ⟨⟨⟨⟨hkeys, hresolved⟩, hinterfaces⟩, hroots⟩, hreferences⟩

end

/-- Where both parts pass the checks, the whole does. -/
theorem UnionOf.checkedIn (h : s.UnionOf a b) (ha : a.CheckedIn s) (hb : b.CheckedIn s) :
    s.CheckedIn s := by
  have htypes : ∀ d ∈ s.types, d ∈ a.types ∨ d ∈ b.types := fun d hd =>
    List.mem_append.mp (h.types.mem_iff.mp hd)
  have hownership : ∀ t ∈ s.ownership, t ∈ a.ownership ∨ t ∈ b.ownership := fun t ht =>
    List.mem_append.mp (h.ownership.mem_iff.mp ht)
  exact
    { keys := fun t ht => (hownership t ht).elim (ha.keys t) (hb.keys t)
      resolved := fun t ht => (hownership t ht).elim (ha.resolved t) (hb.resolved t)
      interfaces := fun d hd => (htypes d hd).elim (ha.interfaces d) (hb.interfaces d)
      roots := fun t ht => (hownership t ht).elim (ha.roots t) (hb.roots t)
      references := fun d hd => (htypes d hd).elim (ha.references d) (hb.references d) }

/-! ## Looking names up in a part and in the whole -/

section

variable (h : s.UnionOf a b) (hr : s.Recorded)
variable (hscalars : ∀ t ∈ b.types, t.name ∉ builtInScalars)
include h hr hscalars

/-- **The whole finds what a part finds**, under every name that the part knows. -/
theorem type?_eq_of_knows {name : String} (hname : a.Knows name) : s.type? name = a.type? name := by
  have hother : name ∉ b.types.map (·.name) := by
    intro hmem
    rcases hname with hscalar | ⟨t, ht, rfl⟩
    · obtain ⟨t, ht, rfl⟩ := List.mem_map.mp hmem
      exact hscalars t ht hscalar
    · exact h.typesApart (List.mem_map_of_mem ht) hmem
  have hnone : (b.types.filter fun t => t.name == name) = [] :=
    List.filter_eq_nil_iff.mpr fun t ht heq => hother (beq_iff_eq.mp heq ▸ List.mem_map_of_mem ht)
  rw [type?, type?, ← List.head?_filter, ← List.head?_filter,
    filter_eq_of_perm TypeDefinition.name h.types hr.nodup, List.filter_append, hnone,
    List.append_nil]

theorem isSubtype_eq_of_knows {abstract concrete : String} (habstract : a.Knows abstract)
    (hconcrete : a.Knows concrete) :
    s.isSubtype abstract concrete = a.isSubtype abstract concrete := by
  rw [isSubtype, isSubtype, type?_eq_of_knows h hr hscalars habstract,
    type?_eq_of_knows h hr hscalars hconcrete]

theorem isImplementationType_eq_of_knows {field expected : TypeRef} (hfield : a.Knows field.name)
    (hexpected : a.Knows expected.name) :
    s.isImplementationType field expected = a.isImplementationType field expected := by
  fun_induction isImplementationType s field expected with
  | case1 field expected ih => exact ih hfield hexpected
  | case2 field expected hnullable ih =>
    rw [ih hfield hexpected, isImplementationType]
    exact hnullable
  | case3 field expected ih => exact ih hfield hexpected
  | case4 field expected => exact isSubtype_eq_of_knows h hr hscalars hexpected hfield
  | case5 field expected => rw [isImplementationType] <;> assumption

variable (ha : a.TypeSafe)
include ha

/-- A path from a type of a part stays in the part. -/
theorem followPath_eq_of_knows {name : String} (hname : a.Knows name) (path : List String) :
    s.followPath name path = a.followPath name path := by
  induction path generalizing name with
  | nil => rfl
  | cons field path ih =>
    rw [followPath, followPath, type?_eq_of_knows h hr hscalars hname]
    cases hfield : (a.type? name).bind (·.field? field) with
    | none => rfl
    | some f =>
      obtain ⟨t, ht, hf⟩ := Option.bind_eq_some_iff.mp hfield
      exact ih (ha.fields t (mem_of_type? ht).1 f (List.mem_of_find?_eq_some hf))

theorem fieldCauses_eq_of_mem {d interface : TypeDefinition} (hd : d ∈ a.types)
    (hi : interface ∈ a.types) {expected : Field} (he : expected ∈ interface.fields) :
    s.fieldCauses d interface.name expected = a.fieldCauses d interface.name expected := by
  rw [fieldCauses, fieldCauses]
  cases hfield : d.field? expected.name with
  | none => rfl
  | some f =>
    have hf : f ∈ d.fields := List.mem_of_find?_eq_some hfield
    simp only [isImplementationType_eq_of_knows h hr hscalars (ha.fields d hd f hf)
      (ha.fields interface hi expected he)]

theorem interfaceNameProblems_eq_of_mem {d : TypeDefinition} (hd : d ∈ a.types) {name : String}
    (hname : name ∈ d.implements) :
    s.interfaceNameProblems d name = a.interfaceNameProblems d name := by
  rw [interfaceNameProblems, interfaceNameProblems,
    type?_eq_of_knows h hr hscalars (ha.interfaces d hd name hname)]
  cases hfound : a.type? name with
  | none => rfl
  | some interface =>
    have hi := (mem_of_type? hfound).1
    have himplementation : s.implementationProblems d interface =
        a.implementationProblems d interface := by
      rw [implementationProblems, implementationProblems]
      congr 1
      refine List.flatMap_congr fun expected he => ?_
      rw [fieldCauses_eq_of_mem h hr hscalars ha hd hi he]
    simp only [himplementation]

end

/-- A part that passes the checks by itself passes them in the whole. -/
theorem CheckedIn.of_union (h : s.UnionOf a b) (hr : s.Recorded) (hra : a.Recorded)
    (hscalars : ∀ t ∈ b.types, t.name ∉ builtInScalars) (ha : a.CheckedIn a) : a.CheckedIn s := by
  have hsafe : a.TypeSafe := typeSafe_of_problems hra.nodup ((problems_eq_nil_iff hra).mpr ha)
  refine
    { keys := fun t ht key hkey path hpath => ?_
      resolved := ha.resolved
      interfaces := fun d hd name hname => ?_
      roots := ha.roots
      references := fun d hd r hmem => h.knows (ha.references d hd r hmem) }
  · have hknown : a.Knows t.name := by
      have hmem := List.mem_map_of_mem (f := TypeOwnership.name) ht
      rw [hra.names] at hmem
      obtain ⟨d, hd, hname⟩ := List.mem_map.mp hmem
      exact .inr ⟨d, hd, hname⟩
    rw [followPath_eq_of_knows h hr hscalars hsafe hknown]
    exact ha.keys t ht key hkey path hpath
  · rw [interfaceNameProblems_eq_of_mem h hr hscalars hsafe hd hname]
    exact ha.interfaces d hd name hname

/-- **There is nothing wrong with schemas side by side** if there is nothing wrong with each and
neither defines a built-in scalar. -/
theorem problems_of_union (h : s.UnionOf a b) (hr : s.Recorded) (hra : a.Recorded)
    (hrb : b.Recorded) (hscalars : ∀ t ∈ a.types ++ b.types, t.name ∉ builtInScalars)
    (ha : a.problems = []) (hb : b.problems = []) : s.problems = [] := by
  rw [problems_eq_nil_iff hra] at ha
  rw [problems_eq_nil_iff hrb] at hb
  rw [problems_eq_nil_iff hr]
  exact h.checkedIn
    (ha.of_union h hr hra fun t ht => hscalars t (List.mem_append_right _ ht))
    (hb.of_union h.symm hr hrb fun t ht => hscalars t (List.mem_append_left _ ht))

end Schema

end Federation
