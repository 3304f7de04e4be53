import Federation.Proofs.Composition.DirectiveDefinitions
import Federation.Proofs.Composition.Members
import Federation.Proofs.Subgraph.Blocks
/-!
# Composition — extensions in two blocks

The declarations of a type by all services are composed as one list:
what they hold is gathered from all of them, one after another, and what
each of them says for itself is said once. So a type is composed to the
same, with the same record and the same problems, when a service spreads
an extension over two blocks (`TypeGroup.definition_of_splits`,
`TypeGroup.ownership_of_splits`, `TypeGroup.problems_of_splits`), and so
is the whole schema (`Subgraphs.composedSchema_of_splits`).
-/

namespace Federation

/-! ## Declarations of services -/

namespace Declared

variable {α : Type} {R : α → α → α → Prop}

/-- Two declarations by the service of another one stand for it. -/
structure Halves (R : α → α → α → Prop) (d b c : Declared α) : Prop where
  node : R d.node b.node c.node
  rank : b.rank = d.rank ∧ c.rank = d.rank
  service : b.service = d.service ∧ c.service = d.service

/-- The description that counts of an element and of those after it: that of the service that came
first, and of a service the first one. -/
def preferred (rank : Nat) (description : Option String) (later : Option (Nat × String)) :
    Option (Nat × String) :=
  match description with
  | none => later
  | some text => some ((later.filter fun l => l.1 < rank).getD (rank, text))

variable (description : α → Option String)

/-- The rank and the description of the first declaration that counts. -/
def leading (ds : List (Declared α)) : Option (Nat × String) :=
  ((ds.filter fun d => (description d.node).isSome).mergeSort fun a b =>
    decide (a.rank ≤ b.rank)).head?.bind fun d => (description d.node).map (d.rank, ·)

theorem firstDescription_eq_leading (ds : List (Declared α)) :
    firstDescription description ds = (leading description ds).map (·.2) := by
  rw [firstDescription, leading, Option.map_bind]
  congr 1
  funext d
  cases h : description d.node <;> simp [h]

/-- **The description that counts is found declaration by declaration.** -/
theorem leading_cons (d : Declared α) (ds : List (Declared α)) :
    leading description (d :: ds) =
      preferred d.rank (description d.node) (leading description ds) := by
  cases hd : description d.node with
  | none => rw [leading, List.filter_cons_of_neg (by simp [hd]), preferred, leading]
  | some text =>
    rw [leading, List.filter_cons_of_pos (by simp [hd]),
      head?_mergeSort_cons (leBy_trans _) (leBy_total _), Option.bind_some, preferred, leading]
    generalize hsorted : (ds.filter fun d => (description d.node).isSome).mergeSort
      (fun a b => decide (a.rank ≤ b.rank)) = sorted
    -- the head of the others comes first only if its service came before that of `d`
    cases sorted with
    | nil => simp [hd]
    | cons e es =>
      have he : (description e.node).isSome = true := by
        have hmem : e ∈ (ds.filter fun d => (description d.node).isSome).mergeSort
            fun a b => decide (a.rank ≤ b.rank) := by
          rw [hsorted]
          exact List.mem_cons_self
        exact (List.mem_filter.mp (List.mem_mergeSort.mp hmem)).2
      obtain ⟨earlier, hearlier⟩ := Option.isSome_iff_exists.mp he
      by_cases hlt : e.rank < d.rank <;> simp [Option.filter, hearlier, hd, hlt]

/-- A description in two parts counts as the first of them does. -/
theorem preferred_preferred (rank : Nat) (first second : Option String)
    (later : Option (Nat × String)) :
    preferred rank first (preferred rank second later) =
      preferred rank (first <|> second) later := by
  cases first with
  | none => rfl
  | some text =>
    cases second with
    | none => rfl
    | some other =>
      cases later with
      | none => simp [preferred, Option.filter]
      | some l => by_cases hlt : l.1 < rank <;> simp [preferred, Option.filter, hlt]

variable {description} {ds es : List (Declared α)}

theorem firstDescription_of_splits
    (hdescription : ∀ a b c, R a b c → (description b <|> description c) = description a)
    (h : Splits (Halves R) ds es) :
    firstDescription description es = firstDescription description ds := by
  rw [firstDescription_eq_leading, firstDescription_eq_leading]
  congr 1
  induction h with
  | nil => rfl
  | keep d _ ih => rw [leading_cons, ih, leading_cons]
  | split hs _ ih =>
    rw [leading_cons, leading_cons, ih, leading_cons, hs.rank.1, hs.rank.2, preferred_preferred,
      hdescription _ _ _ hs.node]

theorem services_of_splits (h : Splits (Halves R) ds es) : services es = services ds :=
  h.distinct_map fun _ _ _ hs => hs.service

theorem applications_of_splits {directives : α → List Directive}
    (hdirectives : ∀ a b c, R a b c → directives a = directives b ++ directives c)
    (h : Splits (Halves R) ds es) : applications directives es = applications directives ds := by
  rw [applications, h.flatMap_eq fun _ _ _ hs => hdirectives _ _ _ hs.node, applications]

/-- What the nodes hold is gathered from both halves, one after the other. -/
theorem parts_of_splits {β : Type} (parts : α → List β)
    (hparts : ∀ a b c, R a b c → parts a = parts b ++ parts c) (h : Splits (Halves R) ds es) :
    (es.flatMap fun d => (parts d.node).map fun b => d.map fun _ => b) =
      ds.flatMap fun d => (parts d.node).map fun b => d.map fun _ => b := by
  refine h.flatMap_eq fun d b c hs => ?_
  simp only [hparts _ _ _ hs.node, List.map_append, map, hs.rank, hs.service]

end Declared

/-! ## The declarations of a type -/

namespace TypeGroup

open Declared

/-- The declarations of a type with some of them split in two. -/
abbrev SplitsTo (g g' : TypeGroup) : Prop :=
  Splits (Halves Declaration.Splits) g g'

variable {g g' : TypeGroup} (h : g.SplitsTo g')
include h

theorem name_of_splits : g'.name = g.name := by
  rw [name, h.head?_map (f := fun d => d.node.name) fun _ _ _ hs => hs.node.node.name.1, name]

theorem kind_of_splits : g'.kind = g.kind := by
  rw [kind, h.head?_map (f := fun d => d.node.kind) fun _ _ _ hs => hs.node.node.kind.1, kind]

theorem ofOneKind_of_splits : g.ofOneKind.SplitsTo g'.ofOneKind := by
  rw [ofOneKind, ofOneKind, kind_of_splits h]
  refine h.filter fun x y z hs => ?_
  have hkind : y.node.kind = x.node.kind ∧ z.node.kind = x.node.kind := hs.node.node.kind
  rw [hkind.1, hkind.2, and_self]

theorem isRoot_of_splits : g'.isRoot = g.isRoot :=
  h.any_eq fun _ _ _ hs => by simp only [hs.node.root, and_self]

theorem baseDeclarations_of_splits : g'.baseDeclarations = g.baseDeclarations :=
  h.filter_eq fun _ _ _ hs => by simp [hs.node.isExtension]

theorem bases_of_splits : g'.bases = g.bases := by
  rw [bases, baseDeclarations_of_splits h, bases]

theorem isValueType_of_splits : g'.isValueType = g.isValueType := by
  rw [isValueType, bases_of_splits h, isValueType]

theorem hasConflictingBases_of_splits : g'.hasConflictingBases = g.hasConflictingBases := by
  rw [hasConflictingBases, bases_of_splits h, isValueType_of_splits h, hasConflictingBases]

theorem isShared_of_splits : g'.isShared = g.isShared := by
  rw [isShared, isRoot_of_splits h, isValueType_of_splits h, hasConflictingBases_of_splits h,
    isShared]

/-! The members of the type are gathered from all declarations. -/

theorem fieldDeclarations_of_splits : g'.fieldDeclarations = g.fieldDeclarations :=
  parts_of_splits Declaration.fields (fun _ _ _ hx => hx.fields) h

theorem enumValues_of_splits : g'.enumValues = g.enumValues :=
  parts_of_splits (fun x : Declaration => x.node.body.enumValues)
    (fun _ _ _ hx => hx.node.enumValues) h

theorem inputFields_of_splits : g'.inputFields = g.inputFields :=
  parts_of_splits (fun x : Declaration => x.node.body.inputFields)
    (fun _ _ _ hx => hx.node.inputFields) h

theorem fieldGroups_of_splits : g'.fieldGroups = g.fieldGroups := by
  rw [fieldGroups, fieldDeclarations_of_splits h, fieldGroups]

theorem implements_of_splits : g'.implements = g.implements := by
  rw [implements, h.flatMap_eq fun _ _ _ hs => hs.node.node.implements, implements]

theorem members_of_splits :
    g'.flatMap (·.node.node.body.members) = g.flatMap (·.node.node.body.members) :=
  h.flatMap_eq fun _ _ _ hs => hs.node.node.members

theorem keys_of_splits : g'.keys = g.keys := by
  rw [keys, h.flatMap_eq fun d b c hs => ?_, keys]
  rw [hs.node.keys, hs.service.1, hs.service.2, List.map_append]

theorem applications_of_splits :
    applications (·.node.directives) g' = applications (·.node.directives) g :=
  Declared.applications_of_splits (fun _ _ _ hx => hx.node.directives) h

/-! ### What is composed -/

variable (isRepeatable : String → Bool)

theorem body_of_splits : g'.body isRepeatable = g.body isRepeatable := by
  simp only [body, fields, kind_of_splits h, implements_of_splits h, fieldGroups_of_splits h,
    members_of_splits h, enumValues_of_splits h, inputFields_of_splits h]

/-- **A type is composed to the same**, whatever blocks its extensions stand in. -/
theorem definition_of_splits : g'.definition isRepeatable = g.definition isRepeatable := by
  have hlocation := h.head?_map (f := fun d => d.node.node.location)
    fun _ _ _ hs => hs.node.node.location.1
  have hdescription : firstDescription (·.node.description) g' =
      firstDescription (·.node.description) g :=
    firstDescription_of_splits (fun _ _ _ hx => hx.node.description) h
  rw [definition, definition, name_of_splits h, hdescription, mergedDirectives,
    applications_of_splits h, mergedDirectives, body_of_splits h, hlocation]

/-- **A type leaves the same record**, whatever blocks its extensions stand in. -/
theorem ownership_of_splits : g'.ownership = g.ownership := by
  rw [ownership, ownership, name_of_splits h, owner?, bases_of_splits h, owner?,
    isValueType_of_splits h, keys_of_splits h, kind_of_splits h, fieldGroups_of_splits h]

/-! ### What is wrong with a type -/

/-- Two declarations in a row by one service are listed once. -/
theorem kindListing_of_splits : g'.kindListing = g.kindListing := by
  rw [kindListing, kindListing, List.foldr_map, List.foldr_map]
  refine h.foldr_eq (fun x y z hs listing => ?_) []
  have hkind : y.node.kind = x.node.kind ∧ z.node.kind = x.node.kind := hs.node.node.kind
  simp only [hkind, hs.service]
  by_cases hhead : listing.head? = some (x.node.kind, x.service)
  · simp only [if_pos hhead]
  · simp only [if_neg hhead, List.head?_cons, if_true]

theorem kindProblems_of_splits : g'.kindProblems = g.kindProblems := by
  have hall : g'.all (·.node.kind == g.kind) = g.all (·.node.kind == g.kind) := by
    refine h.all_eq fun x y z hs => ?_
    have hkind : y.node.kind = x.node.kind ∧ z.node.kind = x.node.kind := hs.node.node.kind
    rw [hkind.1, hkind.2, and_self]
  rw [kindProblems, kind_of_splits h, hall, kindListing_of_splits h, name_of_splits h,
    kindProblems]

theorem memberProblems_of_splits :
    g'.memberProblems isRepeatable = g.memberProblems isRepeatable := by
  simp only [memberProblems, kind_of_splits h, fieldGroups_of_splits h, name_of_splits h,
    isShared_of_splits h, enumValues_of_splits h, inputFields_of_splits h]

theorem problemsOfOneKind_of_splits :
    g'.problemsOfOneKind isRepeatable = g.problemsOfOneKind isRepeatable := by
  have hrepeated : g'.repeatedBaseProblems = g.repeatedBaseProblems := by
    rw [repeatedBaseProblems, baseDeclarations_of_splits h, name_of_splits h, repeatedBaseProblems]
  have hconflicting : g'.conflictingBaseProblems = g.conflictingBaseProblems := by
    rw [conflictingBaseProblems, hasConflictingBases_of_splits h, bases_of_splits h,
      name_of_splits h, conflictingBaseProblems]
  have hmissing : g'.missingBaseProblems = g.missingBaseProblems := by
    rw [missingBaseProblems, bases_of_splits h, isRoot_of_splits h, services_of_splits h,
      name_of_splits h, missingBaseProblems]
  rw [problemsOfOneKind, problemsOfOneKind, hrepeated, hconflicting, hmissing,
    memberProblems_of_splits h, directiveProblems, applications_of_splits h, name_of_splits h,
    directiveProblems]

/-- **The same is wrong with a type**, whatever blocks its extensions stand in. -/
theorem problems_of_splits : g'.problems isRepeatable = g.problems isRepeatable := by
  rw [problems, kindProblems_of_splits h, problemsOfOneKind_of_splits (ofOneKind_of_splits h),
    problems]

end TypeGroup

namespace Subgraphs

variable {α : Type} {t t' : Subgraphs} {before after : List Service} {s s' : Service}
variable {e a b : TypeDefinition}

theorem splits_collect {R : α → α → α → Prop} {f f' : Subgraph → List α}
    (h : ∀ g, Splits R (f g) (f' g)) : Splits (Declared.Halves R) (t.collect f) (t.collect f') := by
  rw [collect_eq, collect_eq]
  exact Splits.flatMap fun p _ => (h p.1).map fun _ _ _ hx => ⟨hx, ⟨rfl, rfl⟩, ⟨rfl, rfl⟩⟩

section

variable (ht : t.services = (before ++ s :: after).map Service.toSubgraph)
variable (ht' : t'.services = (before ++ s' :: after).map Service.toSubgraph)
variable (h : s.SplitsAt s' e a b)
include ht ht' h

/-- The service with the blocks takes the place of the other one, and no other service changes. -/
theorem exists_map_services : ∃ ρ : Subgraph → Subgraph,
    t'.services = t.services.map ρ ∧
      (∀ g, ρ g = g ∨ g = s.toSubgraph ∧ ρ g = s'.toSubgraph) ∧
        ∀ g, (ρ g).name = g.name ∧ (ρ g).url = g.url := by
  classical
  -- names are unique, so the place of the service is known by the service
  have hnodup := t.nodup
  rw [ht, List.map_map, List.map_append, List.map_cons, List.nodup_middle, List.nodup_cons,
    ← List.map_append] at hnodup
  have hother : ∀ x ∈ before ++ after, x.toSubgraph ≠ s.toSubgraph := by
    intro x hx heq
    refine hnodup.1 ?_
    rw [Function.comp_apply, ← heq]
    exact List.mem_map_of_mem hx
  obtain ⟨ρ, hself, hrest⟩ : ∃ ρ : Subgraph → Subgraph,
      ρ s.toSubgraph = s'.toSubgraph ∧ ∀ g ≠ s.toSubgraph, ρ g = g :=
    ⟨fun g => if g = s.toSubgraph then s'.toSubgraph else g, if_pos rfl, fun _ hg => if_neg hg⟩
  have hplace : ∀ g, ρ g = g ∨ g = s.toSubgraph ∧ ρ g = s'.toSubgraph := by
    intro g
    by_cases hg : g = s.toSubgraph
    · exact .inr ⟨hg, hg ▸ hself⟩
    · exact .inl (hrest g hg)
  have hsame : ∀ services : List Service, services ⊆ before ++ after →
      (services.map Service.toSubgraph).map ρ = services.map Service.toSubgraph := by
    intro services hservices
    rw [List.map_map]
    exact List.map_congr_left fun x hx => hrest _ (hother x (hservices hx))
  refine ⟨ρ, ?_, hplace, fun g => ?_⟩
  · rw [ht, ht', List.map_append, List.map_cons, List.map_append, List.map_cons, List.map_append,
      List.map_cons, hsame before (List.subset_append_left _ _),
      hsame after (List.subset_append_right _ _), hself]
  · rcases hplace g with hg | ⟨rfl, hg⟩
    · rw [hg]
      exact ⟨rfl, rfl⟩
    · rw [hg]
      exact ⟨h.name, h.url⟩

theorem directiveDefinitions_of_splits : t'.directiveDefinitions = t.directiveDefinitions := by
  obtain ⟨ρ, hs, hplace, hname⟩ := exists_map_services ht ht' h
  rw [directiveDefinitions, collect_map (fun g => (hname g).1) hs, directiveDefinitions]
  congr 1
  funext g
  rcases hplace g with hg | ⟨rfl, hg⟩
  · rw [hg]
  · rw [hg, h.directiveDefinitions_eq]

theorem graphs_of_splits : t'.graphs = t.graphs := by
  obtain ⟨ρ, hs, -, hname⟩ := exists_map_services ht ht' h
  rw [graphs, byName_map (fun g => (hname g).1) hs, List.map_map, graphs]
  have hfst : (Prod.fst ∘ fun p : Subgraph × Nat => (ρ p.1, p.2)) = ρ ∘ Prod.fst := rfl
  rw [hfst, ← List.map_map, List.foldl_map]
  congr 1
  funext graphs g
  rw [Graph.add, (hname g).1, (hname g).2, Graph.add]

/-- The types of all services are declared as before, some of them in blocks. -/
theorem splits_collect_typeDefinitions {β : Type} {S : β → β → β → Prop}
    {f : List TypeDefinition → List β}
    (hf : ∀ ts us, Splits TypeDefinition.Splits ts us → Splits S (f ts) (f us)) :
    Splits (Declared.Halves S) (t.collect fun g => f g.typeDefinitions)
      (t'.collect fun g => f g.typeDefinitions) := by
  obtain ⟨ρ, hs, hplace, hname⟩ := exists_map_services ht ht' h
  rw [collect_map (fun g => (hname g).1) hs]
  refine splits_collect fun g => ?_
  rcases hplace g with hg | ⟨rfl, hg⟩
  · rw [hg]
    exact .refl _
  · rw [hg]
    exact hf _ _ h.splits_typeDefinitions

theorem splits_group (n : String) : (t.group n).SplitsTo (t'.group n) := by
  refine splits_collect_typeDefinitions ht ht' h
    (f := fun ts => (ts.filter (·.name == n)).map Declaration.ofDefinition) fun ts us hts => ?_
  refine (hts.filter fun x y z hx => ?_).map fun _ _ _ hx => Declaration.splits_ofDefinition hx
  simp only [hx.name, and_self]

theorem typeNames_of_splits : t'.typeNames = t.typeNames := by
  have hdeclarations := splits_collect_typeDefinitions ht ht' h
    (f := fun ts => ts.map Declaration.ofDefinition) fun ts us hts =>
      hts.map fun _ _ _ hx => Declaration.splits_ofDefinition hx
  have hnames := hdeclarations.distinct_map (f := fun d => d.node.name)
    fun _ _ _ hs => hs.node.node.name
  exact congrArg (·.mergeSort Text.stringLe) hnames

/-- **The services make the same schema**, and the same is wrong between them. -/
theorem composedSchema_of_splits :
    t'.mergeProblems = t.mergeProblems ∧ t'.composedSchema = t.composedSchema := by
  have hdefinitions := directiveDefinitions_of_splits ht ht' h
  have hdirectives : t'.definitionsOfDirective = t.definitionsOfDirective := by
    funext n
    rw [definitionsOfDirective, hdefinitions, definitionsOfDirective]
  refine composedSchema_congr (typeNames_of_splits ht ht' h) ?_ ?_ (fun n isRepeatable => ?_)
    fun n => ?_
  · rw [directiveNames, hdefinitions, directiveNames]
  · rw [repeatableNames, hdefinitions, repeatableNames]
  · have hgroup := splits_group ht ht' h n
    have hkind := TypeGroup.ofOneKind_of_splits hgroup
    exact ⟨TypeGroup.definition_of_splits hkind isRepeatable, TypeGroup.ownership_of_splits hkind,
      TypeGroup.problems_of_splits hgroup isRepeatable⟩
  · rw [hdirectives]
    exact ⟨rfl, rfl⟩

/-- **The services have the same problems**, but for the two kinds of reports on single services:
those that they are spared because an extension stands in two blocks, and one that is made once
more. -/
theorem allProblems_of_splits :
    (t'.allProblems ++ s.hiddenKeyReports a b).Perm (t.allProblems ++ s.shadowReports e) := by
  obtain ⟨hmerge, hschema⟩ := composedSchema_of_splits ht ht' h
  have hproblems := h.problems_perm
  have hchecks := h.checkProblems_perm
  simp only [allProblems, hmerge, hschema, problems, checkProblems, ht, ht', List.map_append,
    List.map_cons, List.flatMap_append, List.flatMap_cons]
  rw [List.perm_iff_count] at hproblems hchecks ⊢
  intro d
  have hproblems := hproblems d
  have hchecks := hchecks d
  simp only [List.count_append] at hproblems hchecks ⊢
  omega

end

end Subgraphs

end Federation
