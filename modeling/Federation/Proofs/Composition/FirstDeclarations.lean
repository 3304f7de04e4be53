import Federation.Proofs.Composition.Labels
import Federation.Proofs.Composition.Recomposition
import Federation.Proofs.Composition.RepeatedMembers
/-!
# Composition — what counts of repeated declarations

Of the declarations of a member by one service the first counts. A type
is composed from its declarations without their members (`shells`) and
from the first declarations of each member by each service (`firsts`):
types with the same of both are composed to the same, with the same
record and the same problems (`TypeGroup.FirstsAlike`). There is one
exception. Definitions by several services are compared as wholes, so
whether they conflict or make a value type depends on all that they
declare.
-/

namespace Federation

open Declared Diagnostic

/-! ## Members -/

namespace Declared

variable {α β : Type} {name : α → String} {ds es : List (Declared α)}

/-- The first declaration of each member by each service. -/
def firsts (name : α → String) (ds : List (Declared α)) : List (Declared α) :=
  firstsBy (fun d => (d.rank, name d.node)) ds

theorem head?_firstPerService (ds : List (Declared α)) :
    (firstPerService ds).head? = ds.head? := by
  cases ds <;> rfl

theorem nodup_rank_firstPerService (ds : List (Declared α)) :
    ((firstPerService ds).map (·.rank)).Nodup :=
  nodup_map_firstsBy _ ds

theorem firstPerService_firstPerService (ds : List (Declared α)) :
    firstPerService (firstPerService ds) = firstPerService ds :=
  firstPerService_eq_self (nodup_rank_firstPerService ds)

theorem firsts_cons (d : Declared α) (ds : List (Declared α)) :
    firsts name (d :: ds) =
      d :: (firsts name ds).filter fun e => (e.rank, name e.node) ≠ (d.rank, name d.node) := rfl

/-- Of one member the first declarations of services are its first ones. -/
theorem firstPerService_named (n : String) (ds : List (Declared α)) :
    firstPerService (named name n ds) = named name n (firsts name ds) := by
  induction ds with
  | nil => rfl
  | cons d ds ih =>
    rw [firsts_cons]
    simp only [named] at ih ⊢
    by_cases hn : name d.node = n
    · -- under the name, ranks tell declarations apart as keys do
      have hkeys : ((firsts name ds).filter fun e =>
            (e.rank, name e.node) ≠ (d.rank, name d.node)).filter (fun e => name e.node == n) =
          ((firsts name ds).filter fun e => name e.node == n).filter fun e => e.rank ≠ d.rank := by
        rw [List.filter_filter, List.filter_filter]
        refine List.filter_congr fun e _ => ?_
        by_cases he : name e.node = n <;> simp [he, hn]
      rw [List.filter_cons_of_pos (by simpa using hn), List.filter_cons_of_pos (by simpa using hn),
        hkeys, ← ih]
      rfl
    · have hkeys : ((firsts name ds).filter fun e =>
            (e.rank, name e.node) ≠ (d.rank, name d.node)).filter (fun e => name e.node == n) =
          (firsts name ds).filter fun e => name e.node == n := by
        rw [List.filter_filter]
        refine List.filter_congr fun e _ => ?_
        by_cases he : name e.node = n
        · simp [he, Ne.symm hn]
        · simp [he]
      rw [List.filter_cons_of_neg (by simpa using hn), List.filter_cons_of_neg (by simpa using hn),
        hkeys, ih]

/-- Names first occur among the first declarations. -/
theorem distinct_map_firsts (ds : List (Declared α)) :
    distinct ((firsts name ds).map fun d => name d.node) =
      distinct (ds.map fun d => name d.node) := by
  have hcons : ∀ (n : String) (ns : List String),
      distinct (n :: ns) = n :: distinct (ns.filter (· ≠ n)) := fun n ns => by
    rw [distinct, firstsBy_cons, distinct]
    exact congrArg _ (filter_firstsBy id n ns)
  have hfilter : ∀ (n : String) (ns : List String),
      distinct (ns.filter (· ≠ n)) = (distinct ns).filter (· ≠ n) := fun n ns =>
    (filter_firstsBy id n ns).symm
  induction ds with
  | nil => rfl
  | cons d ds ih =>
    -- what is left out of the first declarations has the name of `d`
    have hkeys : (((firsts name ds).filter fun e =>
          (e.rank, name e.node) ≠ (d.rank, name d.node)).map fun e => name e.node).filter
            (· ≠ name d.node) =
        ((firsts name ds).map fun e => name e.node).filter (· ≠ name d.node) := by
      rw [List.filter_map, List.filter_map, List.filter_filter]
      congr 1
      refine List.filter_congr fun e _ => ?_
      by_cases he : name e.node = name d.node <;> simp [he]
    rw [firsts_cons, List.map_cons, List.map_cons, hcons, hcons, hkeys, hfilter, hfilter, ih]

/-- **Of each member the first declarations of services count.** -/
theorem map_firstPerService_byMember (ds : List (Declared α)) :
    (byMember name ds).map firstPerService = byMember name (firsts name ds) := by
  rw [byMember_eq, byMember_eq, distinct_map_firsts, List.map_map]
  exact List.map_congr_left fun n _ => firstPerService_named n ds

theorem filterMap_of_firsts (h : firsts name ds = firsts name es)
    (compose : List (Declared α) → Option β) :
    ((byMember name ds).filterMap fun ds => compose (firstPerService ds)) =
      (byMember name es).filterMap fun ds => compose (firstPerService ds) := by
  have hcompose : (fun ds => compose (firstPerService ds)) = compose ∘ firstPerService := rfl
  rw [hcompose, ← List.filterMap_map, ← List.filterMap_map, map_firstPerService_byMember, h,
    ← map_firstPerService_byMember]

end Declared

/-! ## Reports besides those on repetition -/

namespace Diagnostic

/-- A report that a service repeats a member. -/
def isRepeatedMember (d : Diagnostic) : Bool :=
  match d.cause with
  | .repeatedMember _ => true
  | _ => false

/-- A report that services define a type differently. -/
def isConflictingBases (d : Diagnostic) : Bool :=
  match d.cause with
  | .conflictingBases _ => true
  | _ => false

theorem filter_of_kinds {ds : List Diagnostic} (h : OfKinds (· ≠ .duplicateTypeDefinition) ds) :
    ds.filter (!·.isRepeatedMember) = ds := by
  refine List.filter_eq_self.mpr fun d hd => ?_
  have hkind := h d hd
  rw [Diagnostic.kind] at hkind
  rw [isRepeatedMember]
  split
  · rename_i hcause
    rw [hcause] at hkind
    exact absurd rfl hkind
  · rfl

end Diagnostic

theorem Declared.filter_repetitionProblems {α : Type} (kind : MemberKind)
    (coordinate : Coordinate) (ds : List (Declared α)) :
    (repetitionProblems kind coordinate ds).filter (!·.isRepeatedMember) = [] := by
  refine List.filter_eq_nil_iff.mpr fun d hd => ?_
  obtain ⟨e, -, rfl⟩ := List.mem_map.mp hd
  exact Bool.false_ne_true

/-- Where each service declares a member once, nothing is reported as repeated. -/
theorem Declared.repetitionProblems_firstPerService {α : Type} (kind : MemberKind)
    (coordinate : Coordinate) (ds : List (Declared α)) :
    repetitionProblems kind coordinate (firstPerService ds) = [] := by
  rw [repetitionProblems, List.map_eq_nil_iff, repeatedByService, List.filter_eq_nil_iff]
  intro d hd
  have hone := filter_eq_singleton (nodup_rank_firstPerService ds)
    ((firstPerService_sublist _).subset hd)
  simp [hone]

section

variable (isRepeatable : String → Bool) (typeName : String)

/-- **What else is wrong with a field is wrong with its first declarations.** -/
theorem FieldDeclaration.filter_problems (isShared : Bool)
    (all : List (Declared FieldDeclaration)) :
    (problems isRepeatable typeName isShared all).filter (!·.isRepeatedMember) =
      problems isRepeatable typeName isShared (firstPerService all) := by
  have hresolvers : ∀ coordinate (ds : List (Declared FieldDeclaration)),
      (if isShared then [] else resolverProblems coordinate ds).filter (!·.isRepeatedMember) =
        if isShared then [] else resolverProblems coordinate ds := by
    intro coordinate ds
    simp only [resolverProblems]
    split
    · rfl
    · split <;> rfl
  simp only [problems, List.filter_append, filter_repetitionProblems, hresolvers,
    filter_of_kinds (ofKinds_typeProblems _ (by decide) _ _),
    filter_of_kinds (ofKinds_argumentProblems (by decide) _ _),
    filter_of_kinds (ofKinds_directiveProblems _ _ (by decide) _ _),
    repetitionProblems_firstPerService, head?_firstPerService, firstPerService_firstPerService]

theorem InputValue.filter_problems (all : List (Declared InputValue)) :
    (problems isRepeatable typeName all).filter (!·.isRepeatedMember) =
      problems isRepeatable typeName (firstPerService all) := by
  simp only [problems, List.filter_append, filter_repetitionProblems,
    filter_of_kinds (ofKinds_typeProblems _ (by decide) _ _),
    filter_of_kinds (ofKinds_directiveProblems _ _ (by decide) _ _),
    repetitionProblems_firstPerService, head?_firstPerService, firstPerService_firstPerService]

theorem EnumValue.filter_problems (all : List (Declared EnumValue)) :
    (problems isRepeatable typeName all).filter (!·.isRepeatedMember) =
      problems isRepeatable typeName (firstPerService all) := by
  simp only [problems, List.filter_append, filter_repetitionProblems,
    filter_of_kinds (ofKinds_directiveProblems _ _ (by decide) _ _),
    repetitionProblems_firstPerService, head?_firstPerService, firstPerService_firstPerService]

end

/-- **Members with the same first declarations have the same other problems.** -/
theorem Declared.filter_of_firsts {α : Type} {name : α → String} {ds es : List (Declared α)}
    {problems : List (Declared α) → List Diagnostic} (h : firsts name ds = firsts name es)
    (hproblems : ∀ all, (problems all).filter (!·.isRepeatedMember) =
      problems (firstPerService all)) :
    ((byMember name ds).flatMap problems).filter (!·.isRepeatedMember) =
      ((byMember name es).flatMap problems).filter (!·.isRepeatedMember) := by
  have hfirst : ∀ ds : List (Declared α),
      ((byMember name ds).flatMap problems).filter (!·.isRepeatedMember) =
        (byMember name (firsts name ds)).flatMap problems := by
    intro ds
    rw [List.filter_flatMap, ← map_firstPerService_byMember, List.flatMap_map]
    exact List.flatMap_congr fun all _ => hproblems all
  rw [hfirst, hfirst, h]

/-! ## Records without the marks of value types -/

/-- The record of a type that does not say whether it is a value type. -/
def TypeOwnership.unmarked (t : TypeOwnership) : TypeOwnership :=
  { t with isValueType := false }

namespace Schema

/-- The schema whose records do not say which types are value types. -/
def unmarked (s : Schema) : Schema :=
  { s with ownership := s.ownership.map TypeOwnership.unmarked }

theorem followPath_unmarked (s : Schema) (typeName : String) (path : List String) :
    s.unmarked.followPath typeName path = s.followPath typeName path := by
  induction path generalizing typeName with
  | nil => rfl
  | cons field path ih =>
    simp only [followPath, ih]
    rfl

theorem ownership?_unmarked (s : Schema) (typeName : String) :
    s.unmarked.ownership? typeName = (s.ownership? typeName).map TypeOwnership.unmarked :=
  List.find?_map ..

/-- **The checks of a schema do not ask which types are value types.** -/
theorem problems_unmarked (s : Schema) : s.unmarked.problems = s.problems := by
  have hkeys : s.unmarked.keyProblems = s.keyProblems := by
    simp only [keyProblems, followPath_unmarked]
    rw [unmarked, List.flatMap_map]
    rfl
  have hexternal : s.unmarked.externalFieldProblems = s.externalFieldProblems := by
    rw [externalFieldProblems, unmarked, List.flatMap_map]
    rfl
  have hroots : s.unmarked.rootFieldProblems = s.rootFieldProblems := by
    refine List.flatMap_congr fun root _ => ?_
    rw [ownership?_unmarked]
    cases s.ownership? root.name <;> rfl
  have htypes : s.unmarked.types = s.types := rfl
  rw [problems, hkeys, hexternal, hroots, interfaceProblems_congr htypes,
    referenceProblems_congr htypes, problems]

end Schema

/-! ## Declarations without their members -/

/-- What a body holds besides fields, values and input fields. -/
def TypeBody.withoutMembers : TypeBody → TypeBody
  | .scalar => .scalar
  | .object b => .object { b with fields := [] }
  | .interface b => .interface { b with fields := [] }
  | .union members => .union members
  | .enum _ => .enum []
  | .inputObject _ => .inputObject []

namespace Declaration

/-- A declaration without its members. -/
def shell (d : Declaration) : Declaration :=
  { d with node := { d.node with body := d.node.body.withoutMembers }, fields := [] }

variable (d : Declaration)

@[simp] theorem kind_shell : d.shell.kind = d.kind := by
  rw [kind, TypeDefinition.kind, shell, kind, TypeDefinition.kind]
  cases d.node.body <;> rfl

@[simp] theorem implements_shell : d.shell.node.implements = d.node.implements := by
  rw [TypeDefinition.implements, shell, TypeDefinition.implements]
  cases d.node.body <;> rfl

@[simp] theorem members_shell : d.shell.node.body.members = d.node.body.members := by
  rw [shell]
  cases d.node.body <;> rfl

end Declaration

namespace TypeGroup

/-- The declarations of a type without their members. -/
def shells (g : TypeGroup) : TypeGroup :=
  g.map (Declared.map Declaration.shell)

variable (g : TypeGroup)

theorem shells_eq : g.shells = g.map (Declared.relabel id Declaration.shell) := rfl

@[simp] theorem length_shells : g.shells.length = g.length :=
  List.length_map ..

@[simp] theorem name_shells : g.shells.name = g.name := by
  cases g <;> rfl

@[simp] theorem kind_shells : g.shells.kind = g.kind := by
  cases g with
  | nil => rfl
  | cons d ds => exact d.node.kind_shell

theorem ofOneKind_shells : g.shells.ofOneKind = g.ofOneKind.shells := by
  rw [ofOneKind, kind_shells, shells, List.filter_map, ofOneKind, shells]
  simp only [Function.comp_def, map_node, Declaration.kind_shell]

@[simp] theorem isRoot_shells : g.shells.isRoot = g.isRoot := by
  rw [isRoot, shells, List.any_map]
  rfl

theorem baseDeclarations_shells : g.shells.baseDeclarations = g.baseDeclarations.shells := by
  rw [baseDeclarations, shells_eq, filter_node_relabel g fun d : Declaration => !d.isExtension]
  rfl

theorem bases_shells : g.shells.bases = g.bases.shells := by
  rw [bases, baseDeclarations_shells, shells_eq, firstPerService_relabel _ Function.injective_id,
    ← bases, shells_eq]

@[simp] theorem owner?_shells : g.shells.owner? = g.owner? := by
  rw [owner?, bases_shells, owner?]
  rcases g.bases with _ | ⟨first, _ | ⟨second, others⟩⟩ <;> rfl

@[simp] theorem implements_shells : g.shells.implements = g.implements := by
  rw [implements, shells, List.flatMap_map]
  simp only [map_node, Declaration.implements_shell, implements]

@[simp] theorem keys_shells : g.shells.keys = g.keys := by
  rw [keys, shells, List.flatMap_map]
  rfl

@[simp] theorem kindProblems_shells : g.shells.kindProblems = g.kindProblems := by
  rw [kindProblems, kindListing, kind_shells, name_shells, kindProblems, kindListing, shells,
    List.all_map, List.map_map]
  simp only [Function.comp_def, map_node, map_service, Declaration.kind_shell]

@[simp] theorem repeatedBaseProblems_shells :
    g.shells.repeatedBaseProblems = g.repeatedBaseProblems := by
  rw [repeatedBaseProblems, name_shells, baseDeclarations_shells, shells_eq,
    repeatedByService_relabel _ Function.injective_id, List.map_map, repeatedBaseProblems]
  refine List.map_congr_left fun d _ => ?_
  have hrank := filter_rank_relabel (e := Declaration.shell) g.baseDeclarations
    Function.injective_id d.rank
  rw [id] at hrank
  simp only [Function.comp, relabel_rank, relabel_service, id, hrank, List.getElem?_map,
    Option.map_map]
  rfl

@[simp] theorem services_shells : services g.shells = services g := by
  rw [shells_eq, services_relabel]

@[simp] theorem missingBaseProblems_shells :
    g.shells.missingBaseProblems = g.missingBaseProblems := by
  have hempty : g.bases.shells.isEmpty = g.bases.isEmpty := List.isEmpty_map
  simp only [missingBaseProblems, bases_shells, hempty, isRoot_shells, name_shells,
    services_shells]

/-- The fields of a type are shared if it is a root type, or defined by several services. -/
theorem isShared_eq : g.isShared = (g.isRoot || decide (1 < g.bases.length)) := by
  have hseveral : (g.isValueType || g.hasConflictingBases) = decide (1 < g.bases.length) := by
    rw [hasConflictingBases, isValueType]
    rcases g.bases with _ | ⟨first, _ | ⟨second, others⟩⟩
    · rfl
    · rfl
    · have hmany : 1 < (first :: second :: others).length := by simp
      rw [decide_eq_true hmany, Bool.true_and, Bool.or_not_self]
  rw [isShared, Bool.or_assoc, hseveral]

@[simp] theorem isShared_shells : g.shells.isShared = g.isShared := by
  rw [isShared_eq, isRoot_shells, bases_shells, length_shells, isShared_eq]

@[simp] theorem members_shells : (g.shells.flatMap fun d => d.node.node.body.members) =
    g.flatMap fun d => d.node.node.body.members := by
  rw [shells, List.flatMap_map]
  simp only [map_node, Declaration.members_shell]

@[simp] theorem mergedDirectives_shells (isRepeatable : String → Bool) :
    mergedDirectives isRepeatable (·.node.directives) g.shells =
      mergedDirectives isRepeatable (·.node.directives) g := by
  rw [shells_eq, mergedDirectives_relabel]
  rfl

@[simp] theorem directiveProblems_shells (isRepeatable : String → Bool)
    (coordinate : Coordinate) :
    directiveProblems isRepeatable (·.node.directives) coordinate g.shells =
      directiveProblems isRepeatable (·.node.directives) coordinate g := by
  rw [shells_eq, directiveProblems_relabel]
  rfl

@[simp] theorem description_shells : firstDescription (·.node.description) g.shells =
    firstDescription (·.node.description) g := by
  rw [shells_eq, firstDescription_relabel g strictMono_id]
  rfl

@[simp] theorem location_shells :
    g.shells.head?.map (·.node.node.location) = g.head?.map (·.node.node.location) := by
  cases g <;> rfl

/-- What does not ask for members is the same of declarations that are the same without. -/
theorem eq_of_shells {α : Type} {f : TypeGroup → α} (hf : ∀ g, f g.shells = f g)
    {g g' : TypeGroup} (h : g.shells = g'.shells) : f g = f g' := by
  rw [← hf, h, hf]

end TypeGroup

/-! ## Types -/

/-- What counts of the declarations of a type: the declarations without their members and, of those
of the kind that wins, the first declaration of each member by each service. -/
structure FirstDeclarations where
  shells : TypeGroup
  fields : List (Declared FieldDeclaration)
  enumValues : List (Declared EnumValue)
  inputFields : List (Declared InputValue)
  deriving DecidableEq

namespace TypeGroup

/-- What counts of the declarations of a type. -/
def firstDeclarations (g : TypeGroup) : FirstDeclarations where
  shells := g.shells
  fields := firsts FieldDeclaration.name g.ofOneKind.fieldDeclarations
  enumValues := firsts EnumValue.name g.ofOneKind.enumValues
  inputFields := firsts InputValue.name g.ofOneKind.inputFields

/-- Declarations of one kind of which the same counts. -/
structure FirstsAlike (g g' : TypeGroup) : Prop where
  shells : g.shells = g'.shells
  fields : firsts FieldDeclaration.name g.fieldDeclarations =
    firsts FieldDeclaration.name g'.fieldDeclarations
  enumValues : firsts EnumValue.name g.enumValues = firsts EnumValue.name g'.enumValues
  inputFields : firsts InputValue.name g.inputFields = firsts InputValue.name g'.inputFields

theorem firstsAlike_ofOneKind {g g' : TypeGroup} (h : g.firstDeclarations = g'.firstDeclarations) :
    g.ofOneKind.FirstsAlike g'.ofOneKind where
  shells := by
    have hshells : g.shells = g'.shells := congrArg FirstDeclarations.shells h
    rw [← ofOneKind_shells, hshells, ofOneKind_shells]
  fields := congrArg FirstDeclarations.fields h
  enumValues := congrArg FirstDeclarations.enumValues h
  inputFields := congrArg FirstDeclarations.inputFields h

namespace FirstsAlike

variable {g g' : TypeGroup} (h : g.FirstsAlike g')
include h

theorem name_eq : g.name = g'.name :=
  eq_of_shells name_shells h.shells

theorem kind_eq : g.kind = g'.kind :=
  eq_of_shells kind_shells h.shells

theorem body_eq (isRepeatable : String → Bool) : g.body isRepeatable = g'.body isRepeatable := by
  have hfields : g.fields isRepeatable = g'.fields isRepeatable :=
    filterMap_of_firsts h.fields (FieldDeclaration.compose? isRepeatable)
  rw [body, body, h.kind_eq, eq_of_shells implements_shells h.shells, hfields,
    eq_of_shells members_shells h.shells,
    filterMap_of_firsts h.enumValues (EnumValue.compose? isRepeatable),
    filterMap_of_firsts h.inputFields (InputValue.compose? isRepeatable)]

/-- **A type is composed from the first declarations.** -/
theorem definition_eq (isRepeatable : String → Bool) :
    g.definition isRepeatable = g'.definition isRepeatable := by
  have hlocation : g.head?.map (·.node.node.location) = g'.head?.map (·.node.node.location) :=
    eq_of_shells (f := fun g => g.head?.map (·.node.node.location)) location_shells h.shells
  rw [definition, definition, h.name_eq, eq_of_shells description_shells h.shells,
    eq_of_shells (mergedDirectives_shells · isRepeatable) h.shells, h.body_eq, hlocation]

/-- **The record of a type is left by the first declarations**, but for the mark of value types. -/
theorem unmarked_ownership_eq : g.ownership.unmarked = g'.ownership.unmarked := by
  have hrecord : ∀ ds : List (Declared FieldDeclaration),
      fieldOwnership ds = fieldOwnership (firstPerService ds) := fun ds => by
    rw [fieldOwnership, fieldOwnership, head?_firstPerService, firstPerService_firstPerService]
  have hfields : ∀ g : TypeGroup, g.fieldGroups.map fieldOwnership =
      (byMember FieldDeclaration.name
        (firsts FieldDeclaration.name g.fieldDeclarations)).map fieldOwnership := fun g => by
    rw [← map_firstPerService_byMember, List.map_map, fieldGroups]
    exact List.map_congr_left fun ds _ => hrecord ds
  rw [ownership, ownership, h.name_eq, h.kind_eq, eq_of_shells owner?_shells h.shells,
    eq_of_shells keys_shells h.shells, hfields, hfields, h.fields, TypeOwnership.unmarked,
    TypeOwnership.unmarked]

theorem ownership_eq (hvalue : g.isValueType = g'.isValueType) : g.ownership = g'.ownership := by
  have hmark : ∀ g : TypeGroup,
      g.ownership = { g.ownership.unmarked with isValueType := g.isValueType } := fun _ => rfl
  rw [hmark, h.unmarked_ownership_eq, hvalue, ← hmark]

theorem memberProblems_eq (isRepeatable : String → Bool) :
    (g.memberProblems isRepeatable).filter (!·.isRepeatedMember) =
      (g'.memberProblems isRepeatable).filter (!·.isRepeatedMember) := by
  have hfields := filter_of_firsts h.fields
    (FieldDeclaration.filter_problems isRepeatable g'.name g'.isShared)
  rw [memberProblems, memberProblems, h.kind_eq, h.name_eq,
    eq_of_shells isShared_shells h.shells]
  cases g'.kind with
  | object => exact hfields
  | interface => exact hfields
  | enum => exact filter_of_firsts h.enumValues (EnumValue.filter_problems isRepeatable g'.name)
  | inputObject =>
    exact filter_of_firsts h.inputFields (InputValue.filter_problems isRepeatable g'.name)
  | scalar => rfl
  | union => rfl

/-- **What else is wrong with a type is wrong with the first declarations**, except that definitions
are compared as wholes. -/
theorem problemsOfOneKind_eq (isRepeatable : String → Bool) {keep : Diagnostic → Bool}
    (hkeep : ∀ d, keep d = true → d.isRepeatedMember = false)
    (hbases : g.conflictingBaseProblems.filter keep = g'.conflictingBaseProblems.filter keep) :
    (g.problemsOfOneKind isRepeatable).filter keep =
      (g'.problemsOfOneKind isRepeatable).filter keep := by
  have hothers : ∀ ds : List Diagnostic,
      ds.filter keep = (ds.filter (!·.isRepeatedMember)).filter keep := fun ds => by
    rw [List.filter_filter]
    refine List.filter_congr fun d _ => ?_
    cases hd : keep d with
    | false => rfl
    | true => rw [hkeep d hd]; rfl
  have hmembers : (g.memberProblems isRepeatable).filter keep =
      (g'.memberProblems isRepeatable).filter keep := by
    rw [hothers, h.memberProblems_eq, ← hothers]
  rw [problemsOfOneKind, problemsOfOneKind, eq_of_shells repeatedBaseProblems_shells h.shells,
    eq_of_shells missingBaseProblems_shells h.shells, h.name_eq,
    eq_of_shells (directiveProblems_shells · isRepeatable _) h.shells]
  simp only [List.filter_append, hbases, hmembers]

/-- Whether definitions conflict is whether several of them make no value type. -/
theorem conflictingBaseProblems_eq (hvalue : g.isValueType = g'.isValueType) :
    g.conflictingBaseProblems = g'.conflictingBaseProblems := by
  have hbases : g.bases.shells = g'.bases.shells := by
    rw [← bases_shells, h.shells, bases_shells]
  rw [conflictingBaseProblems, hasConflictingBases, eq_of_shells length_shells hbases, hvalue,
    eq_of_shells services_shells hbases, h.name_eq, conflictingBaseProblems, hasConflictingBases]

end FirstsAlike

/-- **What else is wrong with a type name is wrong with the first declarations**, except that
definitions are compared as wholes. -/
theorem filter_problems_eq {g g' : TypeGroup} (h : g.firstDeclarations = g'.firstDeclarations)
    (isRepeatable : String → Bool) {keep : Diagnostic → Bool}
    (hkeep : ∀ d, keep d = true → d.isRepeatedMember = false)
    (hbases : g.ofOneKind.conflictingBaseProblems.filter keep =
      g'.ofOneKind.conflictingBaseProblems.filter keep) :
    (g.problems isRepeatable).filter keep = (g'.problems isRepeatable).filter keep := by
  have hshells : g.shells = g'.shells := congrArg FirstDeclarations.shells h
  rw [problems, problems, List.filter_append, List.filter_append,
    eq_of_shells kindProblems_shells hshells, (firstsAlike_ofOneKind h).problemsOfOneKind_eq isRepeatable hkeep hbases]

end TypeGroup

/-! ## Services -/

/-- Lists that are the same under `f` are the same under all that depends on `f` only. -/
theorem map_eq_of_factorsThrough {α β γ : Type} [Inhabited γ] {f : α → β} {e : α → γ}
    {as bs : List α} (he : e.FactorsThrough f) (h : as.map f = bs.map f) :
    as.map e = bs.map e := by
  have hmap : ∀ as : List α, as.map e = (as.map f).map (f.extend e default) := fun as => by
    rw [List.map_map, he.extend_comp]
  rw [hmap, h, ← hmap]

namespace Subgraphs

/-- Services that define the same directives, and of whose types the same counts. -/
structure FirstsAlike (s s' : Subgraphs) : Prop where
  directiveDefinitions : s.directiveDefinitions = s'.directiveDefinitions
  groups : s.groups.map TypeGroup.firstDeclarations = s'.groups.map TypeGroup.firstDeclarations

namespace FirstsAlike

variable {s s' : Subgraphs} (h : s.FirstsAlike s')
include h

theorem directiveGroups_eq : s.directiveGroups = s'.directiveGroups := by
  rw [directiveGroups, h.directiveDefinitions, directiveGroups]

theorem repeatableNames_eq : s.repeatableNames = s'.repeatableNames := by
  rw [repeatableNames, h.directiveDefinitions, repeatableNames]

/-- What is the same of types that are alike is the same of the services. -/
theorem map_typeGroups_eq {α : Type} [Inhabited α] {e : TypeGroup → α}
    (he : ∀ g g' : TypeGroup, g.FirstsAlike g' → e g = e g') :
    s.typeGroups.map e = s'.typeGroups.map e := by
  rw [typeGroups, typeGroups, List.map_map, List.map_map]
  exact map_eq_of_factorsThrough (fun g g' hg => he _ _ (TypeGroup.firstsAlike_ofOneKind hg))
    h.groups

/-- **Types are composed from the first declarations.** -/
theorem mergedTypes_eq : s.mergedTypes = s'.mergedTypes := by
  rw [mergedTypes, h.repeatableNames_eq, mergedTypes]
  exact h.map_typeGroups_eq fun g g' hg => hg.definition_eq _

/-- **The schema is composed from the first declarations**, but for the marks of value types. -/
theorem unmarked_composedSchema_eq :
    s.composedSchema.1.unmarked = s'.composedSchema.1.unmarked ∧
      s.composedSchema.2 = s'.composedSchema.2 := by
  have hdefinitions : s.mergedDirectiveDefinitions = s'.mergedDirectiveDefinitions := by
    rw [mergedDirectiveDefinitions, h.directiveGroups_eq, mergedDirectiveDefinitions]
  have hrepeatable : s.isRepeatable = s'.isRepeatable := by
    funext name
    rw [isRepeatable, hdefinitions, isRepeatable]
  have hownership : s.ownership.map TypeOwnership.unmarked =
      s'.ownership.map TypeOwnership.unmarked := by
    rw [ownership, ownership, List.map_map, List.map_map]
    exact h.map_typeGroups_eq fun g g' hg => hg.unmarked_ownership_eq
  rw [composedSchema_eq, composedSchema_eq, Schema.unmarked, Schema.unmarked, hownership,
    h.mergedTypes_eq, hdefinitions, hrepeatable]
  exact ⟨rfl, rfl⟩

/-- **The checks of the schema look at the first declarations.** -/
theorem problems_composedSchema_eq :
    s.composedSchema.1.problems = s'.composedSchema.1.problems := by
  rw [← Schema.problems_unmarked, h.unmarked_composedSchema_eq.1, Schema.problems_unmarked]

/-- What is reported of the directives is the same, so the types decide. -/
theorem filter_mergeProblems_eq {keep : Diagnostic → Bool}
    (hgroups :
      (s.groups.map fun g => (TypeGroup.problems s'.repeatableNames.contains g).filter keep) =
        s'.groups.map fun g => (TypeGroup.problems s'.repeatableNames.contains g).filter keep) :
    s.mergeProblems.filter keep = s'.mergeProblems.filter keep := by
  rw [mergeProblems, h.directiveGroups_eq, h.repeatableNames_eq, mergeProblems,
    List.filter_append, List.filter_append]
  refine congrArg _ ?_
  rw [List.filter_flatMap, List.filter_flatMap, List.flatMap_def, hgroups, ← List.flatMap_def]

/-- **The other checks of the merge look at the first declarations**, but for the one that compares
definitions. -/
theorem filter_problems_eq :
    s.mergeProblems.filter (fun d => !d.isRepeatedMember && !d.isConflictingBases) =
      s'.mergeProblems.filter fun d => !d.isRepeatedMember && !d.isConflictingBases := by
  have hnone : ∀ g : TypeGroup, g.conflictingBaseProblems.filter
      (fun d => !d.isRepeatedMember && !d.isConflictingBases) = [] := by
    intro g
    rw [TypeGroup.conflictingBaseProblems]
    split <;> rfl
  refine h.filter_mergeProblems_eq (map_eq_of_factorsThrough (fun g g' hg => ?_) h.groups)
  refine TypeGroup.filter_problems_eq hg _ (fun d hd => ?_) (by rw [hnone, hnone])
  simpa using (Bool.and_eq_true_iff.mp hd).1

/-- **Where the same types are value types, the definitions make no difference either.** -/
theorem eq_of_isValueType
    (hvalue : s.typeGroups.map TypeGroup.isValueType = s'.typeGroups.map TypeGroup.isValueType) :
    s.mergeProblems.filter (!·.isRepeatedMember) = s'.mergeProblems.filter (!·.isRepeatedMember) ∧
      s.composedSchema = s'.composedSchema := by
  have hgroups :
      (s.groups.map fun g : TypeGroup => (g.firstDeclarations, g.ofOneKind.isValueType)) =
        s'.groups.map fun g : TypeGroup => (g.firstDeclarations, g.ofOneKind.isValueType) := by
    rw [typeGroups, typeGroups, List.map_map, List.map_map] at hvalue
    have hzip := congrArg₂ List.zip h.groups hvalue
    rwa [List.zip_map', List.zip_map'] at hzip
  constructor
  · refine h.filter_mergeProblems_eq (map_eq_of_factorsThrough (fun g g' hg => ?_) hgroups)
    obtain ⟨hfirsts, hmark⟩ := Prod.mk.inj hg
    refine TypeGroup.filter_problems_eq hfirsts _ (fun d hd => by simpa using hd) ?_
    rw [(TypeGroup.firstsAlike_ofOneKind hfirsts).conflictingBaseProblems_eq hmark]
  · have hownership : s.ownership = s'.ownership := by
      rw [ownership, ownership, typeGroups, typeGroups, List.map_map, List.map_map]
      refine map_eq_of_factorsThrough (fun g g' hg => ?_) hgroups
      obtain ⟨hfirsts, hmark⟩ := Prod.mk.inj hg
      exact (TypeGroup.firstsAlike_ofOneKind hfirsts).ownership_eq hmark
    have hrecords : ∀ s : Subgraphs,
        s.composedSchema.1 = { s.composedSchema.1.unmarked with ownership := s.ownership } :=
      fun s => by rw [composedSchema_eq, Schema.unmarked]
    obtain ⟨hschema, hclashes⟩ := h.unmarked_composedSchema_eq
    exact Prod.ext (by rw [hrecords, hschema, hownership, ← hrecords]) hclashes

end FirstsAlike

/-- **Members that a service repeats are reported once**, and the first declarations count. A
service is reported for a member exactly once if it declares the member more than once, and
otherwise not at all. The other checks, the composed types and the records are the same for
services of which the same counts; only the comparison of definitions by several services, which
decides whether they conflict or make a value type, may tell them apart. -/
theorem repeated_members_reported_once (s : Subgraphs) :
    (∀ g ∈ s.services, ∀ typeName n,
      s.diagnostics.countP (repeats typeName n g.name) =
        if 1 < s.timesDeclared typeName n g then 1 else 0) ∧
    ∀ s', s.FirstsAlike s' →
      (s.mergeProblems.filter (fun d => !d.isRepeatedMember && !d.isConflictingBases) =
          s'.mergeProblems.filter (fun d => !d.isRepeatedMember && !d.isConflictingBases) ∧
        s.mergedTypes = s'.mergedTypes ∧
        s.composedSchema.1.unmarked = s'.composedSchema.1.unmarked ∧
        s.composedSchema.2 = s'.composedSchema.2 ∧
        s.composedSchema.1.problems = s'.composedSchema.1.problems) ∧
      (s.typeGroups.map TypeGroup.isValueType = s'.typeGroups.map TypeGroup.isValueType →
        s.mergeProblems.filter (!·.isRepeatedMember) =
            s'.mergeProblems.filter (!·.isRepeatedMember) ∧
          s.composedSchema = s'.composedSchema) := by
  refine ⟨fun g hg typeName n => countP_diagnostics hg typeName n, fun s' h => ⟨?_, ?_⟩⟩
  · obtain ⟨hschema, hclashes⟩ := h.unmarked_composedSchema_eq
    exact ⟨h.filter_problems_eq, h.mergedTypes_eq, hschema, hclashes,
      h.problems_composedSchema_eq⟩
  · exact h.eq_of_isValueType

/-- The service that defines a type with the fields and a query that returns it. -/
def fooService (fields : List Field) : Service where
  name := "a"
  document :=
    ⟨[.type { name := "Foo", body := .object { fields } },
      .type
        { name := "Query"
          body := .object { fields := [{ name := "f", type := .named "Foo" }] } }]⟩

/-- Another service that declares the type with the fields. -/
def otherFooService (isExtension : Bool) (fields : List Field) : Service where
  name := "b"
  document := ⟨[.type { name := "Foo", isExtension, body := .object { fields } }]⟩

/-- The two services together. -/
def fooServices (fields : List Field) (isExtension : Bool) (others : List Field) : Subgraphs where
  services := [fooService fields, otherFooService isExtension others].map Service.toSubgraph
  nodup := by simp [fooService, otherFooService]

def idField : Field := { name := "id", type := .named "ID" }

def sizeField (typeName : String) : Field := { name := "size", type := .named typeName }

/-- A service that extends a type with a field twice, the second time of another type, is reported
once, and the first field stands in the schema. -/
theorem fooServices_extended_twice :
    (fooServices [idField] true [sizeField "Int", sizeField "ID"]).diagnostics.countP
        (repeats "Foo" "size" "b") = 1 ∧
      (fooServices [idField] true [sizeField "Int", sizeField "ID"]).composedSchema =
        (fooServices [idField] true [sizeField "Int"]).composedSchema := by
  have hboth := repeated_members_reported_once
    (fooServices [idField] true [sizeField "Int", sizeField "ID"])
  have hcount := hboth.1
    (otherFooService true [sizeField "Int", sizeField "ID"]).toSubgraph (by simp [fooServices])
    "Foo" "size"
  have halike : (fooServices [idField] true [sizeField "Int", sizeField "ID"]).FirstsAlike
      (fooServices [idField] true [sizeField "Int"]) := ⟨by cbv, by cbv⟩
  refine ⟨hcount.trans (by cbv), ((hboth.2 _ halike).2 ?_).2⟩
  cbv

/-- Definitions are compared as wholes: where one repeats a field, the other no longer has the
same structure, and that is reported too. -/
theorem fooServices_compared_as_wholes :
    (fooServices [idField, idField] false [idField]).FirstsAlike
        (fooServices [idField] false [idField]) ∧
      (fooServices [idField] false [idField]).diagnostics = [] ∧
      (fooServices [idField, idField] false [idField]).diagnostics.map (·.cause) =
        [.conflictingBases ["a", "b"], .repeatedMember .field] := by
  refine ⟨⟨?_, ?_⟩, ?_, ?_⟩ <;> cbv

end Subgraphs

end Federation
