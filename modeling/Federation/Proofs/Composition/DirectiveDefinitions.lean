import Federation.Proofs.Composition.Composed
/-!
# Composition — the composed directive definitions

A composed definition is that of the first service that has one, so a
name finds it as it would find it in the services
(`find?_mergedDirectiveDefinitions`). Where no service defines a
built-in directive, and the services agree, the merge of declarations
and the composed schema answer alike whether a directive may be repeated
(`contains_repeatableNames`). About a directive that is not built in they
do in any case (`contains_repeatableNames_of_not_builtIn`).
-/

namespace Federation

/-- The built-in definitions decide which built-in directives may be repeated. -/
theorem DirectiveDefinition.any_isRepeatable_builtIn? (name : String) :
    (builtIn? name).any (·.isRepeatable) = true ↔
      ∃ d ∈ builtIn, d.isRepeatable = true ∧ d.name = name := by
  rw [Option.any_eq_true]
  constructor
  · rintro ⟨d, hd, hrepeatable⟩
    have hname := List.find?_some hd
    exact ⟨d, List.mem_of_find?_eq_some hd, hrepeatable, beq_iff_eq.mp hname⟩
  · rintro ⟨d, hd, hrepeatable, rfl⟩
    have hnodup : (builtIn.map (·.name)).Nodup := by decide
    refine ⟨d, ?_, hrepeatable⟩
    rw [builtIn?, ← List.head?_filter, filter_eq_singleton hnodup hd, List.head?_cons]

namespace DirectiveGroup

/-- Services that are composed define a directive alike. -/
theorem sameSignature_of_problems {first : Declared DirectiveDefinition} {others : DirectiveGroup}
    (h : problems (first :: others) = []) :
    ∀ d ∈ first :: others, first.node.sameSignature d.node = true := by
  have hall : (first :: others).all (fun d => first.node.sameSignature d.node) = true := by
    by_contra hne
    rw [problems, if_neg hne] at h
    cases h
  exact List.all_eq_true.mp hall

/-- Services that define a directive alike agree about its repetition. -/
theorem isRepeatable_of_problems {first : Declared DirectiveDefinition} {others : DirectiveGroup}
    (h : problems (first :: others) = []) :
    ∀ d ∈ first :: others, d.node.isRepeatable = first.node.isRepeatable := by
  intro d hd
  have hsame := sameSignature_of_problems h d hd
  rw [DirectiveDefinition.sameSignature, Bool.and_eq_true, Bool.and_eq_true] at hsame
  exact (beq_iff_eq.mp hsame.1.1).symm

end DirectiveGroup

namespace Subgraphs

variable (s : Subgraphs)

/-- The definitions of a directive that are composed, by all services. -/
def definitionsOfDirective (name : String) : DirectiveGroup :=
  (s.directiveDefinitions.filter fun d =>
    (DirectiveDefinition.builtIn? d.node.name).isNone).filter (·.node.name == name)

/-- The names of the directives that are composed, in order. -/
def directiveNames : List String :=
  (distinct ((s.directiveDefinitions.filter fun d =>
    (DirectiveDefinition.builtIn? d.node.name).isNone).map (·.node.name))).mergeSort Text.stringLe

theorem directiveGroups_eq :
    s.directiveGroups = s.directiveNames.map s.definitionsOfDirective := rfl

theorem mergedDirectiveDefinitions_eq :
    s.mergedDirectiveDefinitions =
      s.directiveNames.filterMap fun n => (s.definitionsOfDirective n).definition? := by
  rw [mergedDirectiveDefinitions, directiveGroups_eq, List.filterMap_map]
  rfl

/-- **The names of directive definitions are in strict order.** -/
theorem pairwise_name_mergedDirectiveDefinitions :
    (s.mergedDirectiveDefinitions.map (·.name)).Pairwise (· < ·) := by
  have hnames : s.directiveNames.Pairwise (· < ·) :=
    pairwise_mergeSort_lt id (by simpa using nodup_distinct _)
  rw [mergedDirectiveDefinitions_eq, List.pairwise_map]
  refine hnames.filterMap _ fun n m hlt d hd e he => ?_
  rwa [DirectiveGroup.name_of_definition hd, DirectiveGroup.name_of_definition he]

variable {s} {name : String}

theorem mem_directiveNames (h : s.definitionsOfDirective name ≠ []) :
    name ∈ s.directiveNames := by
  obtain ⟨d, hd⟩ := List.exists_mem_of_ne_nil _ h
  obtain ⟨hmem, hname⟩ := List.mem_filter.mp hd
  rw [directiveNames, List.mem_mergeSort, mem_distinct, ← beq_iff_eq.mp hname]
  exact List.mem_map_of_mem hmem

/-- **A name finds the composed definition of its directive.** -/
theorem find?_mergedDirectiveDefinitions (s : Subgraphs) (name : String) :
    s.mergedDirectiveDefinitions.find? (·.name == name) =
      (s.definitionsOfDirective name).definition? := by
  rw [mergedDirectiveDefinitions_eq, List.find?_filterMap]
  -- what a name is composed to goes by that name, so only the name itself can find it
  have honly : ∀ n ∈ s.directiveNames,
      ((s.definitionsOfDirective n).definition?).any (·.name == name) = true → n = name := by
    intro n _ hn
    obtain ⟨d, hd, hname⟩ := (Option.any_eq_true _ _).mp hn
    rw [← DirectiveGroup.name_of_definition hd, beq_iff_eq.mp hname]
  cases hfind : s.directiveNames.find? fun n =>
      ((s.definitionsOfDirective n).definition?).any (·.name == name) with
  | some n =>
    have hn := List.find?_some hfind
    rw [honly n (List.mem_of_find?_eq_some hfind) hn]
    rfl
  | none =>
    cases hdefinition : (s.definitionsOfDirective name).definition? with
    | none => rfl
    | some d =>
      have hne : s.definitionsOfDirective name ≠ [] := by
        intro hnil
        rw [hnil] at hdefinition
        cases hdefinition
      refine absurd ?_ (List.find?_eq_none.mp hfind name (mem_directiveNames hne))
      rw [hdefinition, Option.any_some, beq_iff_eq]
      exact DirectiveGroup.name_of_definition hdefinition

/-- **What services make together is settled name by name**: by what they make of each type and of
each directive. -/
theorem composedSchema_congr {s' : Subgraphs} (htypeNames : s.typeNames = s'.typeNames)
    (hdirectiveNames : s.directiveNames = s'.directiveNames)
    (hrepeatable : s.repeatableNames = s'.repeatableNames)
    (hgroup : ∀ n isRepeatable,
      (s.group n).ofOneKind.definition isRepeatable =
          (s'.group n).ofOneKind.definition isRepeatable ∧
        (s.group n).ofOneKind.ownership = (s'.group n).ofOneKind.ownership ∧
        (s.group n).problems isRepeatable = (s'.group n).problems isRepeatable)
    (hdirective : ∀ n,
      (s.definitionsOfDirective n).definition? = (s'.definitionsOfDirective n).definition? ∧
        (s.definitionsOfDirective n).problems = (s'.definitionsOfDirective n).problems) :
    s.mergeProblems = s'.mergeProblems ∧ s.composedSchema = s'.composedSchema := by
  have htypes : s.mergedTypes = s'.mergedTypes := by
    rw [mergedTypes_eq, mergedTypes_eq, htypeNames, hrepeatable]
    exact List.map_congr_left fun n _ => (hgroup n _).1
  have hownership : s.ownership = s'.ownership := by
    rw [ownership_eq, ownership_eq, htypeNames]
    exact List.map_congr_left fun n _ => (hgroup n fun _ => true).2.1
  have hmerged : s.mergedDirectiveDefinitions = s'.mergedDirectiveDefinitions := by
    rw [mergedDirectiveDefinitions_eq, mergedDirectiveDefinitions_eq, hdirectiveNames]
    exact List.filterMap_congr fun n _ => (hdirective n).1
  have hproblems : s.mergeProblems = s'.mergeProblems := by
    rw [mergeProblems, mergeProblems, directiveGroups_eq, directiveGroups_eq, groups_eq, groups_eq,
      hdirectiveNames, htypeNames, hrepeatable]
    simp only [List.flatMap_map]
    congr 1
    · exact List.flatMap_congr fun n _ => (hdirective n).2
    · exact List.flatMap_congr fun n _ => (hgroup n _).2.2
  refine ⟨hproblems, ?_⟩
  rw [composedSchema, composedSchema, mergedDocument, mergedDocument, hmerged, htypes, hownership]

/-! ## What may be repeated -/

/-- The composed definition of a directive decides whether it may be repeated, or else the built-in
one. -/
theorem isRepeatable_eq : s.isRepeatable name =
    ((s.definitionsOfDirective name).definition? <|> DirectiveDefinition.builtIn? name).any
      (·.isRepeatable) := by
  rw [isRepeatable, Schema.isRepeatable, Schema.directiveDefinition?,
    find?_mergedDirectiveDefinitions]

/-- What is composed is not built in. -/
theorem builtIn?_of_mem {d : Declared DirectiveDefinition}
    (hd : d ∈ s.definitionsOfDirective name) : DirectiveDefinition.builtIn? name = none := by
  obtain ⟨hmem, hname⟩ := List.mem_filter.mp hd
  rw [← beq_iff_eq.mp hname, ← Option.isNone_iff_eq_none]
  exact (List.mem_filter.mp hmem).2

/-- A built-in directive is not composed, whoever defines it. -/
theorem definitionsOfDirective_of_builtIn {d : DirectiveDefinition}
    (h : DirectiveDefinition.builtIn? name = some d) : s.definitionsOfDirective name = [] := by
  refine List.eq_nil_iff_forall_not_mem.mpr fun e he => ?_
  rw [builtIn?_of_mem he] at h
  cases h

/-- A directive that is not built in is composed from all its definitions. -/
theorem mem_definitionsOfDirective (h : DirectiveDefinition.builtIn? name = none)
    {d : Declared DirectiveDefinition} :
    d ∈ s.definitionsOfDirective name ↔ d ∈ s.directiveDefinitions ∧ d.node.name = name := by
  simp only [definitionsOfDirective, List.mem_filter, beq_iff_eq]
  constructor
  · rintro ⟨⟨hd, -⟩, hname⟩
    exact ⟨hd, hname⟩
  · rintro ⟨hd, rfl⟩
    exact ⟨⟨hd, by rw [h]; rfl⟩, rfl⟩

/-- A built-in definition or that of any service lets a directive be repeated while declarations are
merged. -/
theorem contains_repeatableNames_iff : s.repeatableNames.contains name = true ↔
    (DirectiveDefinition.builtIn? name).any (·.isRepeatable) = true ∨
      ∃ d ∈ s.directiveDefinitions, d.node.name = name ∧ d.node.isRepeatable = true := by
  rw [DirectiveDefinition.any_isRepeatable_builtIn?]
  simp only [repeatableNames, List.contains_iff_mem, List.mem_map, List.mem_filter,
    List.mem_append]
  constructor
  · rintro ⟨d, ⟨hd | ⟨e, he, rfl⟩, hrepeatable⟩, rfl⟩
    · exact .inl ⟨d, hd, hrepeatable, rfl⟩
    · exact .inr ⟨e, he, rfl, hrepeatable⟩
  · rintro (⟨d, hd, hrepeatable, rfl⟩ | ⟨d, hd, rfl, hrepeatable⟩)
    · exact ⟨d, ⟨.inl hd, hrepeatable⟩, rfl⟩
    · exact ⟨d.node, ⟨.inr ⟨d, hd, rfl⟩, hrepeatable⟩, rfl⟩

/-- **Services that agree let a directive be repeated exactly when its composed definition does**,
if it is not built in. -/
theorem contains_repeatableNames_of_not_builtIn
    (hgroups : s.directiveGroups.flatMap DirectiveGroup.problems = [])
    (hnone : DirectiveDefinition.builtIn? name = none) :
    s.repeatableNames.contains name = s.isRepeatable name := by
  rw [Bool.eq_iff_iff, contains_repeatableNames_iff, isRepeatable_eq, hnone]
  simp only [Option.any_none, Bool.false_eq_true, false_or]
  cases hgroup : s.definitionsOfDirective name with
  | nil =>
    have hundefined : ¬∃ d ∈ s.directiveDefinitions, d.node.name = name ∧
        d.node.isRepeatable = true := by
      rintro ⟨d, hd, hname, -⟩
      have hmem := (mem_definitionsOfDirective hnone).mpr ⟨hd, hname⟩
      rw [hgroup] at hmem
      cases hmem
    simpa [DirectiveGroup.definition?] using hundefined
  | cons first others =>
    have hmem : s.definitionsOfDirective name ∈ s.directiveGroups :=
      List.mem_map_of_mem (mem_directiveNames (by rw [hgroup]; exact List.cons_ne_nil _ _))
    rw [hgroup] at hmem
    have hagree := DirectiveGroup.isRepeatable_of_problems
      (List.flatMap_eq_nil_iff.mp hgroups _ hmem)
    -- the composed definition is the first one, and the services agree with it
    show _ ↔ first.node.isRepeatable = true
    constructor
    · rintro ⟨d, hd, hname, hrepeatable⟩
      have hd' := (mem_definitionsOfDirective hnone).mpr ⟨hd, hname⟩
      rw [hgroup] at hd'
      rwa [hagree d hd'] at hrepeatable
    · intro hrepeatable
      have hfirst : first ∈ s.definitionsOfDirective name := by
        rw [hgroup]
        exact List.mem_cons_self
      obtain ⟨hd, hname⟩ := (mem_definitionsOfDirective hnone).mp hfirst
      exact ⟨first, hd, hname, hrepeatable⟩

/-- **A directive may be repeated by the composed definitions exactly when it may be by those of
the services**, where none of them defines what is built in. -/
theorem contains_repeatableNames
    (hbuiltIn : ∀ d ∈ s.directiveDefinitions, DirectiveDefinition.builtIn? d.node.name = none)
    (hgroups : s.directiveGroups.flatMap DirectiveGroup.problems = []) :
    s.repeatableNames.contains = s.isRepeatable := by
  funext name
  cases hdefinition : DirectiveDefinition.builtIn? name with
  | none => exact contains_repeatableNames_of_not_builtIn hgroups hdefinition
  | some d =>
    have hundefined : ¬∃ d ∈ s.directiveDefinitions, d.node.name = name ∧
        d.node.isRepeatable = true := by
      rintro ⟨e, he, rfl, -⟩
      rw [hbuiltIn e he] at hdefinition
      cases hdefinition
    rw [Bool.eq_iff_iff, contains_repeatableNames_iff, isRepeatable_eq,
      definitionsOfDirective_of_builtIn hdefinition]
    exact or_iff_left hundefined

/-- Where no built-in directive is defined, all definitions are composed. -/
theorem filter_builtIn?_eq_self (hbuiltIn : ∀ d ∈ s.directiveDefinitions,
    DirectiveDefinition.builtIn? d.node.name = none) :
    (s.directiveDefinitions.filter fun d =>
      (DirectiveDefinition.builtIn? d.node.name).isNone) = s.directiveDefinitions := by
  rw [List.filter_eq_self]
  intro d hd
  rw [hbuiltIn d hd]
  rfl

end Subgraphs

end Federation
