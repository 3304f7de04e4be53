import Federation.Proofs.Subgraph.Contributions
import Mathlib.Data.List.Induction
/-!
# Subgraphs — one renaming of root types

The roots that a document names give every name a conventional one
(`Document.conventionalName`). Where no root type has the conventional
name of a root that goes by another name, this one function renames
definitions and references alike, and what is left out is what shadows
a root without being one (`ingested_consistently`). Root types that take
each other's conventional names are the exception: they are left out
themselves (`swappedRoots_left_out`).
-/

namespace Federation

/-! ## Names changed by a function -/

/-- An argument or input field with the names of types changed. -/
def InputValue.mapNames (f : String → String) (v : InputValue) : InputValue :=
  { v with type := v.type.mapName f }

/-- A field with the names of types changed. -/
def Field.mapNames (f : String → String) (x : Field) : Field :=
  { x with type := x.type.mapName f, arguments := x.arguments.map (InputValue.mapNames f) }

/-- What a definition holds with the names of types changed. -/
def TypeBody.mapNames (f : String → String) : TypeBody → TypeBody
  | scalar => scalar
  | object b =>
    object { implements := b.implements.map f, fields := b.fields.map (Field.mapNames f) }
  | interface b =>
    interface { implements := b.implements.map f, fields := b.fields.map (Field.mapNames f) }
  | union members => union (members.map f)
  | enum values => enum values
  | inputObject fields => inputObject (fields.map (InputValue.mapNames f))

/-- A type definition with the names of types changed, its own included. -/
def TypeDefinition.mapNames (f : String → String) (d : TypeDefinition) : TypeDefinition :=
  { d with name := f d.name, body := d.body.mapNames f }

/-- A directive definition with the names of types changed. -/
def DirectiveDefinition.mapNames (f : String → String) (d : DirectiveDefinition) :
    DirectiveDefinition :=
  { d with arguments := d.arguments.map (InputValue.mapNames f) }

theorem TypeRef.mapName_mapName (f g : String → String) (t : TypeRef) :
    (t.mapName f).mapName g = t.mapName fun n => g (f n) := by
  induction t with
  | named => rfl
  | list _ ih => exact congrArg list ih
  | nonNull _ ih => exact congrArg nonNull ih

theorem TypeRef.mapName_id (t : TypeRef) : t.mapName (fun n => n) = t := by
  induction t with
  | named => rfl
  | list _ ih => exact congrArg list ih
  | nonNull _ ih => exact congrArg nonNull ih

/-! ## Renames one after the other -/

namespace RootRename

variable {rs : List RootRename}

/-- No rename changes what another one makes. -/
def Apart (rs : List RootRename) : Prop :=
  ∀ r ∈ rs, ∀ r' ∈ rs, r.conventional ≠ r'.custom

theorem name_cons (r : RootRename) (rs : List RootRename) (n : String) :
    name (r :: rs) n = if n = r.custom then r.conventional else name rs n := by
  by_cases h : n = r.custom
  · simp [name, h]
  · have hne : r.custom ≠ n := fun heq => h heq.symm
    simp [name, h, hne]

/-- A name that no rename is about stays. -/
theorem name_eq_self {n : String} (h : ∀ r ∈ rs, r.custom ≠ n) : name rs n = n := by
  have hnone : rs.find? (·.custom == n) = none := by
    rw [List.find?_eq_none]
    intro r hr heq
    exact h r hr (beq_iff_eq.mp heq)
  rw [name, hnone]
  rfl

/-- **Renaming step by step is renaming at once**, where no step undoes another. -/
theorem type_eq_mapName (h : Apart rs) (t : TypeRef) : type rs t = t.mapName (name rs) := by
  induction rs generalizing t with
  | nil =>
    rw [name_nil]
    exact t.mapName_id.symm
  | cons r rs ih =>
    have hrest : Apart rs := fun a ha b hb =>
      h a (List.mem_cons_of_mem r ha) b (List.mem_cons_of_mem r hb)
    have hstep : type (r :: rs) t =
        type rs (t.mapName fun n => if n = r.custom then r.conventional else n) := rfl
    rw [hstep, ih hrest, TypeRef.mapName_mapName]
    congr 1
    funext n
    rw [name_cons]
    by_cases hn : n = r.custom
    · -- what the first rename made is no name that a later one is about
      have hfree : ∀ r' ∈ rs, r'.custom ≠ r.conventional := fun r' hr' heq =>
        h r List.mem_cons_self r' (List.mem_cons_of_mem r hr') heq.symm
      rw [if_pos hn, if_pos hn, name_eq_self hfree]
    · rw [if_neg hn, if_neg hn]

/-! So every node is renamed by the function that renames definitions. -/

section

variable (h : Apart rs)
include h

theorem inputValue_eq_mapNames : inputValue rs = InputValue.mapNames (name rs) := by
  funext v
  rw [inputValue, type_eq_mapName h, InputValue.mapNames]

theorem field_eq_mapNames : field rs = Field.mapNames (name rs) := by
  funext f
  rw [field, type_eq_mapName h, inputValue_eq_mapNames h, Field.mapNames]

theorem definition_eq_mapNames : definition rs = TypeDefinition.mapNames (name rs) := by
  funext d
  have hmembers : members rs d.body = d.body.mapNames (name rs) := by
    cases d.body <;>
      simp only [members, TypeBody.mapNames, field_eq_mapNames h, inputValue_eq_mapNames h]
  rw [definition, hmembers, TypeDefinition.mapNames]

theorem directive_eq_mapNames : directive rs = DirectiveDefinition.mapNames (name rs) := by
  funext d
  rw [directive, inputValue_eq_mapNames h, DirectiveDefinition.mapNames]

end

end RootRename

/-! ## The roots of a document -/

namespace Document

/-- The root types that the schema definitions and extensions of a document name. -/
def rootOperations (d : Document) : List RootOperation :=
  d.schemaDefinitions.flatMap (·.rootOperations)

/-- One type for each operation, and different types for different operations. -/
def HasConsistentRoots (d : Document) : Prop :=
  ∀ r ∈ d.rootOperations, ∀ r' ∈ d.rootOperations,
    r.operation = r'.operation ↔ r.typeName = r'.typeName

/-- The conventional name of a root type, and any other name as it is. -/
def conventionalName (d : Document) (name : String) : String :=
  ((d.rootOperations.find? (·.typeName == name)).map (·.operation.conventionalName)).getD name

/-- A name is the conventional one of an operation whose root has another name. -/
def IsTaken (d : Document) (name : String) : Prop :=
  ∃ r ∈ d.rootOperations, r.operation.conventionalName = name ∧ r.typeName ≠ name

/-- A name is that of a root type. -/
def IsRoot (d : Document) (name : String) : Prop :=
  ∃ r ∈ d.rootOperations, r.typeName = name

/-- A name is the conventional one of an operation whose root has another name, and is not that of
any root. -/
def Shadows (d : Document) (name : String) : Prop :=
  d.IsTaken name ∧ ¬d.IsRoot name

instance (d : Document) : Decidable d.HasConsistentRoots :=
  inferInstanceAs (Decidable (∀ r ∈ d.rootOperations, ∀ r' ∈ d.rootOperations,
    r.operation = r'.operation ↔ r.typeName = r'.typeName))

instance (d : Document) (name : String) : Decidable (d.IsTaken name) :=
  inferInstanceAs (Decidable (∃ r ∈ d.rootOperations, _ ∧ _))

instance (d : Document) (name : String) : Decidable (d.IsRoot name) :=
  inferInstanceAs (Decidable (∃ r ∈ d.rootOperations, _))

instance (d : Document) (name : String) : Decidable (d.Shadows name) :=
  inferInstanceAs (Decidable (_ ∧ _))

end Document

/-- One more root renames its type, if the type goes by a name of its own. -/
theorem RootRename.mem_add {rs : List RootRename} {r : RootOperation} {x : RootRename} :
    x ∈ add rs r ↔ (x ∈ rs ∧ x.operation ≠ r.operation) ∨
      (r.typeName ≠ r.operation.conventionalName ∧ x = ⟨r.typeName, r.operation⟩) := by
  rw [add, List.mem_append, List.mem_filter]
  by_cases h : r.typeName = r.operation.conventionalName <;> simp [h]

/-- **Consistent roots are renamed one by one**: a later root of an operation is the earlier one. -/
theorem RootRename.mem_foldl_add {roots : List RootOperation}
    (h : ∀ r ∈ roots, ∀ r' ∈ roots, r.operation = r'.operation → r.typeName = r'.typeName)
    {x : RootRename} :
    x ∈ roots.foldl add [] ↔ ∃ r ∈ roots,
      r.typeName ≠ r.operation.conventionalName ∧ x = ⟨r.typeName, r.operation⟩ := by
  -- the induction is on the roots that were taken, so it adds at the end
  induction roots using List.reverseRecOn with
  | nil => simp
  | append_singleton roots r ih =>
    have hbefore := ih fun a ha b hb =>
      h a (List.mem_append_left _ ha) b (List.mem_append_left _ hb)
    rw [List.foldl_append, List.foldl_cons, List.foldl_nil, mem_add, hbefore]
    constructor
    · rintro (⟨⟨a, ha, hx⟩, -⟩ | hx)
      · exact ⟨a, List.mem_append_left _ ha, hx⟩
      · exact ⟨r, List.mem_append_right _ List.mem_cons_self, hx⟩
    · rintro ⟨a, ha, hcustom, rfl⟩
      by_cases hoperation : a.operation = r.operation
      · have hname := h a ha r (List.mem_append_right _ List.mem_cons_self) hoperation
        right
        rw [← hname, ← hoperation]
        exact ⟨hcustom, rfl⟩
      · rcases List.mem_append.mp ha with hmem | hmem
        · exact .inl ⟨⟨a, hmem, hcustom, rfl⟩, hoperation⟩
        · rw [List.mem_singleton.mp hmem] at hoperation
          exact absurd rfl hoperation

namespace Document

variable {d : Document} (h : d.HasConsistentRoots)
include h

theorem mem_rootRenames {x : RootRename} :
    x ∈ d.rootRenames ↔ ∃ r ∈ d.rootOperations,
      r.typeName ≠ r.operation.conventionalName ∧ x = ⟨r.typeName, r.operation⟩ :=
  RootRename.mem_foldl_add fun r hr r' hr' => (h r hr r' hr').mp

/-- A root type is given the conventional name of its operation. -/
theorem conventionalName_of_mem {r : RootOperation} (hr : r ∈ d.rootOperations) :
    d.conventionalName r.typeName = r.operation.conventionalName := by
  have hsome : (d.rootOperations.find? (·.typeName == r.typeName)).isSome = true :=
    List.find?_isSome.mpr ⟨r, hr, beq_self_eq_true _⟩
  obtain ⟨r', hr'⟩ := Option.isSome_iff_exists.mp hsome
  have hname : r'.typeName = r.typeName := by
    have hfound := List.find?_some hr'
    exact beq_iff_eq.mp hfound
  have hoperation := (h r' (List.mem_of_find?_eq_some hr') r hr).mpr hname
  rw [conventionalName, hr', Option.map_some, Option.getD_some, hoperation]

/-- **Definitions are renamed to the conventional names.** -/
theorem name_rootRenames : RootRename.name d.rootRenames = d.conventionalName := by
  funext n
  cases hfind : d.rootRenames.find? (·.custom == n) with
  | some x =>
    obtain ⟨r, hr, -, rfl⟩ := (mem_rootRenames h).mp (List.mem_of_find?_eq_some hfind)
    have hname : r.typeName = n := by
      have hfound := List.find?_some hfind
      exact beq_iff_eq.mp hfound
    rw [RootRename.name, hfind, ← hname, conventionalName_of_mem h hr]
    rfl
  | none =>
    have hfree : ∀ x ∈ d.rootRenames, x.custom ≠ n := fun x hx heq =>
      List.find?_eq_none.mp hfind x hx (beq_iff_eq.mpr heq)
    rw [RootRename.name_eq_self hfree]
    cases hroot : d.rootOperations.find? (·.typeName == n) with
    | none =>
      rw [conventionalName, hroot]
      rfl
    | some r =>
      -- a root without a rename has its conventional name
      have hr := List.mem_of_find?_eq_some hroot
      have hname : r.typeName = n := by
        have hfound := List.find?_some hroot
        exact beq_iff_eq.mp hfound
      by_cases hcustom : r.typeName = r.operation.conventionalName
      · rw [← hname, conventionalName_of_mem h hr, ← hcustom]
      · exact absurd hname (hfree _ ((mem_rootRenames h).mpr ⟨r, hr, hcustom, rfl⟩))

theorem shadows_rootRenames {n : String} :
    RootRename.shadows d.rootRenames n = true ↔ d.IsTaken n := by
  rw [RootRename.shadows, List.any_eq_true]
  constructor
  · rintro ⟨x, hx, heq⟩
    obtain ⟨r, hr, hcustom, rfl⟩ := (mem_rootRenames h).mp hx
    have hname : r.operation.conventionalName = n := beq_iff_eq.mp heq
    exact ⟨r, hr, hname, hname ▸ hcustom⟩
  · rintro ⟨r, hr, rfl, hcustom⟩
    exact ⟨_, (mem_rootRenames h).mpr ⟨r, hr, hcustom, rfl⟩, beq_self_eq_true _⟩

/-- Where no root type has a taken name, no rename changes what another one makes. -/
theorem apart_rootRenames (hfree : ∀ r ∈ d.rootOperations, ¬d.IsTaken r.typeName) :
    RootRename.Apart d.rootRenames := by
  intro x hx y hy heq
  obtain ⟨r, hr, hcustom, rfl⟩ := (mem_rootRenames h).mp hx
  obtain ⟨r', hr', -, rfl⟩ := (mem_rootRenames h).mp hy
  have hname : r.operation.conventionalName = r'.typeName := heq
  exact hfree r' hr' ⟨r, hr, hname, hname ▸ hcustom⟩

omit h in
/-- Where no root type has a taken name, a name that is taken is no root's. -/
theorem shadows_iff_isTaken (hfree : ∀ r ∈ d.rootOperations, ¬d.IsTaken r.typeName) {n : String} :
    d.Shadows n ↔ d.IsTaken n := by
  constructor
  · exact And.left
  · intro htaken
    refine ⟨htaken, ?_⟩
    rintro ⟨r, hr, rfl⟩
    exact hfree r hr htaken

end Document

/-! ## Ingestion -/

/-- Malformed arguments are no report of a shadowed root. -/
theorem Directive.cause_of_mem_malformed {coordinate : Coordinate} {location : Location}
    {ds : List Directive} {p : Diagnostic} (hp : p ∈ malformed coordinate location ds) :
    p.cause ≠ .shadowsRoot := by
  obtain ⟨x, -, hx⟩ := List.mem_filterMap.mp hp
  cases hinterpret : FederationDirective.interpret x with
  | ok m =>
    rw [hinterpret] at hx
    cases hx
  | error e =>
    rw [hinterpret] at hx
    cases hx
    exact fun heq => by cases heq

theorem Declaration.cause_of_mem_problems {t : TypeDefinition} {p : Diagnostic}
    (hp : p ∈ Declaration.problems t) : p.cause ≠ .shadowsRoot := by
  rcases List.mem_append.mp hp with hp | hp
  · exact Directive.cause_of_mem_malformed hp
  · obtain ⟨f, -, hf⟩ := List.mem_flatMap.mp hp
    exact Directive.cause_of_mem_malformed hf

namespace Service

/-- The report that a definition of a service shadows a root. -/
def shadowDiagnostic (service : Service) (t : TypeDefinition) : Diagnostic :=
  { cause := .shadowsRoot, coordinate := .type t.name, service := some service.name,
    location := some t.location }

/-- The definitions that the visit leaves out are those that are reported, in order. -/
theorem shadowProblems_toSubgraph (service : Service) :
    service.toSubgraph.problems.filter (·.cause == .shadowsRoot) =
      service.document.shadowingTypes.map service.shadowDiagnostic := by
  have hshadows : ∀ p ∈ service.document.shadowingTypes.map service.shadowDiagnostic,
      (p.cause == .shadowsRoot) = true := by
    intro p hp
    obtain ⟨t, -, rfl⟩ := List.mem_map.mp hp
    rfl
  have hothers : ((service.toSubgraph.typeDefinitions.flatMap Declaration.problems).map
      (·.inService service.name)).filter (·.cause == .shadowsRoot) = [] := by
    rw [List.filter_eq_nil_iff]
    intro p hp heq
    obtain ⟨q, hq, rfl⟩ := List.mem_map.mp hp
    obtain ⟨t, -, hqt⟩ := List.mem_flatMap.mp hq
    exact Declaration.cause_of_mem_problems hqt (beq_iff_eq.mp heq)
  have hproblems : service.toSubgraph.problems =
      service.document.shadowingTypes.map service.shadowDiagnostic ++
        (service.toSubgraph.typeDefinitions.flatMap Declaration.problems).map
          (·.inService service.name) := by
    show List.map _ (_ ++ _) = _
    rw [List.map_append, List.map_map]
    rfl
  rw [hproblems, List.filter_append, hothers, List.append_nil, List.filter_eq_self.mpr hshadows]

/-- **Root types are renamed by one map.** Where the root types of a service are consistent, and
none has the conventional name of a root that goes by another name, definitions and references go
by the conventional names, and what is left out and reported is what shadows a root without being
one. -/
theorem ingested_consistently {service : Service} (h : service.document.HasConsistentRoots)
    (hfree : ∀ r ∈ service.document.rootOperations, ¬service.document.IsTaken r.typeName) :
    (∀ t ∈ service.document.typeDefinitions, ∀ r ∈ service.document.rootOperations,
      t.name = r.typeName →
        t.mapNames service.document.conventionalName ∈ service.toSubgraph.typeDefinitions ∧
          (t.mapNames service.document.conventionalName).name = r.operation.conventionalName) ∧
    service.toSubgraph.document.typeDefinitions =
      (service.document.typeDefinitions.filter fun t => !service.document.Shadows t.name).map
        (TypeDefinition.mapNames service.document.conventionalName) ∧
    service.toSubgraph.document.directiveDefinitions =
      service.document.directiveDefinitions.map
        (DirectiveDefinition.mapNames service.document.conventionalName) ∧
    service.toSubgraph.problems.filter (·.cause == .shadowsRoot) =
      (service.document.typeDefinitions.filter fun t => service.document.Shadows t.name).map
        service.shadowDiagnostic := by
  have hapart := Document.apart_rootRenames h hfree
  have hshadows : ∀ t : TypeDefinition,
      RootRename.shadows service.document.rootRenames t.name =
        decide (service.document.Shadows t.name) := by
    intro t
    rw [Bool.eq_iff_iff, decide_eq_true_iff, Document.shadows_rootRenames h,
      Document.shadows_iff_isTaken hfree]
  have htypes : service.toSubgraph.document.typeDefinitions =
      (service.document.typeDefinitions.filter fun t => !service.document.Shadows t.name).map
        (TypeDefinition.mapNames service.document.conventionalName) := by
    rw [← Document.name_rootRenames h, ← RootRename.definition_eq_mapNames hapart]
    simp only [← hshadows]
    exact service.document.typeDefinitions_withConventionalRoots
  refine ⟨fun t ht r hr hname => ?_, htypes, ?_, ?_⟩
  · have hconventional : (t.mapNames service.document.conventionalName).name =
        r.operation.conventionalName := by
      show service.document.conventionalName t.name = _
      rw [hname, Document.conventionalName_of_mem h hr]
    refine ⟨List.mem_filter.mpr ⟨?_, ?_⟩, hconventional⟩
    · -- a root shadows no root
      have hkept : (!decide (service.document.Shadows t.name)) = true := by
        rw [Bool.not_eq_true', decide_eq_false_iff_not]
        exact fun hshadow => hshadow.2 ⟨r, hr, hname.symm⟩
      rw [htypes]
      exact List.mem_map_of_mem (List.mem_filter.mpr ⟨ht, hkept⟩)
    · -- no conventional name is one of those that only a router uses
      rw [hconventional]
      cases r.operation <;> decide
  · rw [directiveDefinitions_toSubgraph, directiveContributions,
      RootRename.directive_eq_mapNames hapart, Document.name_rootRenames h]
  · simp only [shadowProblems_toSubgraph, Document.shadowingTypes, hshadows]

/-- A service that calls its query root `Root`, and has another type with the name `Query`. -/
def customRootService : Service :=
  let root : TypeRef := .named "Root"
  { name := "library"
    document :=
      ⟨[.schema { rootOperations := [⟨.query, "Root"⟩] },
        .directive
          { name := "from", arguments := [{ name := "root", type := root }],
            locations := [.object] },
        .type
          { name := "Root"
            body := .object
              { fields :=
                  [{ name := "roots", type := .list root,
                     arguments := [{ name := "of", type := .nonNull root }] }] } },
        .type { name := "Query", body := .scalar },
        .type
          { name := "Root"
            isExtension := true
            body := .object { implements := ["Root", "Node"] } },
        .type { name := "Either", body := .union ["Root", "Book"] }]⟩ }

/-- The root type is renamed wherever it is named, and the other type is left out. -/
theorem customRootService_ingested :
    customRootService.document.HasConsistentRoots ∧
    (∀ r ∈ customRootService.document.rootOperations,
      ¬customRootService.document.IsTaken r.typeName) ∧
    customRootService.toSubgraph.document.typeDefinitions.map (fun t => (t.name, t.body)) =
      [("Query", .object
        { fields :=
            [{ name := "roots", type := .list (.named "Query"),
               arguments := [{ name := "of", type := .nonNull (.named "Query") }] }] }),
       ("Query", .object { implements := ["Query", "Node"] }),
       ("Either", .union ["Query", "Book"])] ∧
    customRootService.toSubgraph.document.directiveDefinitions.map (·.arguments) =
      [[{ name := "root", type := .named "Query" }]] ∧
    (customRootService.toSubgraph.problems.filter (·.cause == .shadowsRoot)).map (·.coordinate) =
      [.type "Query"] := by
  have hroots : customRootService.document.HasConsistentRoots := by decide
  have hfree : ∀ r ∈ customRootService.document.rootOperations,
      ¬customRootService.document.IsTaken r.typeName := by decide
  obtain ⟨-, htypes, hdirectives, hproblems⟩ := ingested_consistently hroots hfree
  refine ⟨hroots, hfree, ?_, ?_, ?_⟩
  · rw [htypes]
    decide
  · rw [hdirectives]
    decide
  · rw [hproblems]
    decide

/-- A service whose query root is called `Mutation`, and whose mutation root is called `Query`. -/
def swappedRoots : Service :=
  let count : Field := { name := "count", type := .named "Int" }
  { name := "swapped"
    document :=
      ⟨[.schema { rootOperations := [⟨.query, "Mutation"⟩, ⟨.mutation, "Query"⟩] },
        .type { name := "Query", body := .object { fields := [count] } },
        .type { name := "Mutation", body := .object { fields := [count] } }]⟩ }

/-- Ingestion is not consistent where roots take each other's conventional names: both are left out
and reported, though neither shadows a root, and a reference to either is renamed twice. -/
theorem swappedRoots_left_out :
    swappedRoots.document.HasConsistentRoots ∧
    (∀ t ∈ swappedRoots.document.typeDefinitions,
      swappedRoots.document.IsRoot t.name ∧ ¬swappedRoots.document.Shadows t.name) ∧
    swappedRoots.toSubgraph.typeDefinitions = [] ∧
    swappedRoots.toSubgraph.problems.map (fun p => (p.cause, p.coordinate)) =
      [(.shadowsRoot, .type "Query"), (.shadowsRoot, .type "Mutation")] ∧
    swappedRoots.document.conventionalName "Mutation" = "Query" ∧
    RootRename.type swappedRoots.document.rootRenames (.named "Mutation") = .named "Mutation" := by
  decide

end Service

end Federation
