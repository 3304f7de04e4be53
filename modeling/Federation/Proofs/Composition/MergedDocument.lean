import Federation.Proofs.Composition.Applications
/-!
# Composition — merging and applying agree

Applications on a type are merged twice: with the declarations of the
services, and once more when the merged document is applied to the empty
schema. The first merge lets a directive be repeated where a service or
a built-in definition does, the second where its composed definition
does, or else the built-in one. Built-in directives are not composed, so
the two part where a service lets one be repeated that may be applied
once (`Loosens`), and nowhere else (`loosens_iff`). What the second
merge has to report is that such a directive stands on a type more than
once; otherwise the schema holds what was merged, as it was merged
(`mergedDocument_applied`).
-/

namespace Federation

open Declared

namespace Subgraphs

/-- A service lets a built-in directive be repeated that by its built-in definition is applied
once. -/
def Loosens (s : Subgraphs) (name : String) : Prop :=
  (∃ d, DirectiveDefinition.builtIn? name = some d ∧ d.isRepeatable = false) ∧
    ∃ g ∈ s.services, ∃ d ∈ g.document.directiveDefinitions,
      d.name = name ∧ d.isRepeatable = true

variable {s : Subgraphs}

/-! ## The two answers about repetition -/

/-- A service defines a directive as repeatable exactly where a collected definition is. -/
theorem exists_repeatable_iff {name : String} :
    (∃ d ∈ s.directiveDefinitions, d.node.name = name ∧ d.node.isRepeatable = true) ↔
      ∃ g ∈ s.services, ∃ d ∈ g.document.directiveDefinitions,
        d.name = name ∧ d.isRepeatable = true := by
  constructor
  · rintro ⟨d, hd, hname, hrepeatable⟩
    obtain ⟨g, hg, -, hmem⟩ := mem_collect hd
    exact ⟨g, hg, d.node, hmem, hname, hrepeatable⟩
  · rintro ⟨g, hg, d, hmem, hname, hrepeatable⟩
    obtain ⟨e, he, rfl, -⟩ :=
      exists_mem_collect (f := fun g => g.document.directiveDefinitions) hg hmem
    exact ⟨e, he, hname, hrepeatable⟩

section

variable (hgroups : s.directiveGroups.flatMap DirectiveGroup.problems = [])
include hgroups

/-- **The two merges part exactly about the built-in directives that a service loosens.** -/
theorem loosens_iff {name : String} :
    s.Loosens name ↔ s.repeatableNames.contains name = true ∧ s.isRepeatable name = false := by
  cases hdefinition : DirectiveDefinition.builtIn? name with
  | none =>
    rw [contains_repeatableNames_of_not_builtIn hgroups hdefinition, Loosens, hdefinition]
    simp
  | some d =>
    have happlied : s.isRepeatable name = d.isRepeatable := by
      rw [isRepeatable_eq, definitionsOfDirective_of_builtIn hdefinition, hdefinition]
      rfl
    rw [contains_repeatableNames_iff, exists_repeatable_iff, happlied, Loosens, hdefinition]
    cases hrepeatable : d.isRepeatable <;> simp [hrepeatable]

/-- What is apart after the first merge is apart for the second, unless it is applied twice and
loosened. -/
theorem apart_isRepeatable_iff {a b : Directive}
    (h : Directive.Apart s.repeatableNames.contains a b) :
    Directive.Apart s.isRepeatable a b ↔ (a.name = b.name → ¬s.Loosens a.name) := by
  constructor
  · intro hapart hname hloosens
    rw [hname] at hloosens
    exact hapart.2 ((loosens_iff hgroups).mp hloosens).2 hname
  · refine fun hnot => ⟨h.1, fun honce hname => ?_⟩
    -- the first merge let the directive be repeated, or it would not stand there twice
    cases hrepeatable : s.repeatableNames.contains b.name with
    | false => exact h.2 hrepeatable hname
    | true =>
      refine hnot hname ?_
      rw [hname]
      exact (loosens_iff hgroups).mpr ⟨hrepeatable, honce⟩

end

/-! ## The merged types -/

/-- What was merged on a type is apart. -/
theorem pairwise_directives_of_mem_mergedTypes {t : TypeDefinition} (ht : t ∈ s.mergedTypes) :
    t.directives.Pairwise (Directive.Apart s.repeatableNames.contains) := by
  obtain ⟨g, -, rfl⟩ := List.mem_map.mp ht
  exact (settled_mergedDirectives _ _ g).apart

section

variable (h : s.mergeProblems = [])
include h

/-- **A merged type is applied without a report exactly when it repeats nothing that a service
loosens**, and then as it is. -/
theorem applicationConflicts_eq_nil_iff {t : TypeDefinition} (ht : t ∈ s.mergedTypes) :
    (t.applicationConflicts s.isRepeatable = [] ↔
      t.directives.Pairwise fun a b => a.name = b.name → ¬s.Loosens a.name) ∧
    (t.applicationConflicts s.isRepeatable = [] → t.mergeApplications s.isRepeatable = t) := by
  have hmerged := pairwise_directives_of_mem_mergedTypes ht
  have hdiffer : ([] ++ t.directives).Pairwise fun a b : Directive => a.same b = false :=
    hmerged.imp fun hapart => hapart.1
  have hiff : Directive.conflicts s.isRepeatable [] t.directives = [] ↔
      t.directives.Pairwise (Directive.Apart s.isRepeatable) :=
    Directive.conflicts_eq_nil_iff List.Pairwise.nil hdiffer
  have hnone : t.applicationConflicts s.isRepeatable = [] ↔
      t.directives.Pairwise (Directive.Apart s.isRepeatable) := by
    rw [← hiff, TypeDefinition.applicationConflicts, Directive.conflictDiagnostics,
      List.map_eq_nil_iff]
  refine ⟨hnone.trans ⟨fun hpairwise => ?_, fun hpairwise => ?_⟩, fun hconflicts => ?_⟩
  · exact hmerged.imp₂ (fun _ _ hapart happlied =>
      (apart_isRepeatable_iff (directiveProblems_eq_nil h) hapart).mp happlied) hpairwise
  · exact hmerged.imp₂ (fun _ _ hapart hnot =>
      (apart_isRepeatable_iff (directiveProblems_eq_nil h) hapart).mpr hnot) hpairwise
  · have hapart : ([] ++ t.directives).Pairwise (Directive.Apart s.isRepeatable) :=
      hnone.mp hconflicts
    rw [TypeDefinition.mergeApplications, (Directive.merge_of_pairwise hapart).1,
      List.nil_append]

/-- A report on a merged type is about two applications of a directive that a service loosens. -/
theorem of_mem_applicationConflicts {t : TypeDefinition} (ht : t ∈ s.mergedTypes) {p : Diagnostic}
    (hp : p ∈ t.applicationConflicts s.isRepeatable) :
    ∃ a ∈ t.directives, ∃ b ∈ t.directives, a.name = b.name ∧ s.Loosens a.name ∧
      a.same b = false ∧
        p = { cause := .conflictingApplications a b, coordinate := .type t.name } := by
  obtain ⟨⟨a, b⟩, hconflict, rfl⟩ := List.mem_map.mp hp
  obtain ⟨ha | ha, hb, hname, honce, hdiffer⟩ := Directive.of_mem_conflicts hconflict
  · cases ha
  refine ⟨a, ha, b, hb, hname, ?_, hdiffer, rfl⟩
  -- two different applications are left of the first merge, so it let the directive be repeated
  have hpairs : t.directives.Pairwise fun a b =>
      a.name = b.name → s.repeatableNames.contains a.name = true := by
    refine (pairwise_directives_of_mem_mergedTypes ht).imp fun {a b} hapart hname => ?_
    rw [hname]
    by_contra hnot
    exact hapart.2 (Bool.not_eq_true _ ▸ hnot) hname
  have hne : a ≠ b := by
    rintro rfl
    rw [Directive.same_iff.mpr rfl] at hdiffer
    cases hdiffer
  have hsymm : Std.Symm fun a b : Directive =>
      a.name = b.name → s.repeatableNames.contains a.name = true :=
    ⟨fun a b hab hname => hname ▸ hab hname.symm⟩
  have hrepeatable : s.repeatableNames.contains b.name = true :=
    hname ▸ hpairs.forall ha hb hne hname
  rw [hname]
  exact (loosens_iff (directiveProblems_eq_nil h)).mpr ⟨hrepeatable, honce⟩

/-! ## The merged document -/

omit h in
theorem typeDefinitions_mergedDocument (s : Subgraphs) :
    s.mergedDocument.typeDefinitions = s.mergedTypes := by
  simp [mergedDocument, Document.typeDefinitions, List.filterMap_append, List.filterMap_map]

omit h in
theorem directiveDefinitions_mergedDocument (s : Subgraphs) :
    s.mergedDocument.directiveDefinitions = s.mergedDirectiveDefinitions := by
  simp [mergedDocument, Document.directiveDefinitions, List.filterMap_append, List.filterMap_map]

/-- **Services that are merged without a report make the schema that was merged**, unless a service
lets a built-in directive be repeated that is applied once. Without a report the schema holds the
types and the directive definitions of the merged document, in its order and as they are; there is
none exactly when no type carries a loosened directive twice; and what is reported are two different
applications of one, on the type that carries them. -/
theorem mergedDocument_applied :
    ((∀ name, ¬s.Loosens name) → (Schema.empty.applyDocument s.mergedDocument).2 = []) ∧
    ((Schema.empty.applyDocument s.mergedDocument).2 = [] →
      (Schema.empty.applyDocument s.mergedDocument).1 =
        { types := s.mergedDocument.typeDefinitions
          directiveDefinitions := s.mergedDocument.directiveDefinitions }) ∧
    ((Schema.empty.applyDocument s.mergedDocument).2 = [] ↔
      ∀ t ∈ s.mergedDocument.typeDefinitions,
        t.directives.Pairwise fun a b => a.name = b.name → ¬s.Loosens a.name) ∧
    ∀ p ∈ (Schema.empty.applyDocument s.mergedDocument).2,
      ∃ t ∈ s.mergedDocument.typeDefinitions, ∃ a ∈ t.directives, ∃ b ∈ t.directives,
        a.name = b.name ∧ s.Loosens a.name ∧ a.same b = false ∧
          p = { cause := .conflictingApplications a b, coordinate := .type t.name } := by
  rw [applyDocument_mergedDocument, typeDefinitions_mergedDocument,
    directiveDefinitions_mergedDocument]
  have hnone : s.mergedTypes.flatMap (TypeDefinition.applicationConflicts s.isRepeatable) = [] ↔
      ∀ t ∈ s.mergedTypes,
        t.directives.Pairwise fun a b => a.name = b.name → ¬s.Loosens a.name := by
    rw [List.flatMap_eq_nil_iff]
    exact forall₂_congr fun t ht => (applicationConflicts_eq_nil_iff h ht).1
  refine ⟨fun hloosens => ?_, fun hconflicts => ?_, hnone, fun p hp => ?_⟩
  · exact hnone.mpr fun t _ => List.pairwise_of_forall fun a _ _ => hloosens a.name
  · have htypes : s.mergedTypes.map (TypeDefinition.mergeApplications s.isRepeatable) =
        s.mergedTypes := map_eq_self fun t ht =>
      (applicationConflicts_eq_nil_iff h ht).2 (List.flatMap_eq_nil_iff.mp hconflicts t ht)
    rw [htypes]
  · obtain ⟨t, ht, hp⟩ := List.mem_flatMap.mp hp
    exact ⟨t, ht, of_mem_applicationConflicts h ht hp⟩

end

/-! ### Two addresses -/

/-- A service that lets a directive be repeated on scalars, and gives dates one address by it. -/
def dateService (service directive url : String) : Service :=
  { name := service
    document :=
      ⟨[.directive
          { name := directive
            arguments := [{ name := "url", type := .named "String" }]
            isRepeatable := true
            locations := [.scalar] },
        .type
          { name := "Date"
            directives := [{ name := directive, arguments := [⟨"url", .string url⟩] }]
            body := .scalar }]⟩ }

/-- Two services that give dates different addresses by the same directive. -/
def dateServices (directive : String) : Subgraphs where
  services := [dateService "a" directive "x", dateService "b" directive "y"].map Service.toSubgraph
  nodup := (by decide : ["a", "b"].Nodup)

/-- By a directive of their own, both addresses stand on the merged type, and are applied. -/
theorem dateServices_applied :
    (dateServices "source").mergeProblems = [] ∧
      ((dateServices "source").mergedDocument.typeDefinitions.flatMap (·.directives)).map (·.name) =
        ["source", "source"] ∧
      (Schema.empty.applyDocument (dateServices "source").mergedDocument).2 = [] ∧
      (Schema.empty.applyDocument (dateServices "source").mergedDocument).1.types =
        (dateServices "source").mergedDocument.typeDefinitions := by
  have hmerge : (dateServices "source").mergeProblems = [] := by cbv
  obtain ⟨hunloosened, hlossless, -, -⟩ := mergedDocument_applied hmerge
  -- what a service may loosen is built in, and the directive is not
  have hloosens : ∀ name, ¬(dateServices "source").Loosens name := by
    rintro name ⟨⟨d, hd, -⟩, g, hg, e, he, rfl, -⟩
    have hnone : ∀ g ∈ (dateServices "source").services, ∀ e ∈ g.document.directiveDefinitions,
        DirectiveDefinition.builtIn? e.name = none := by decide
    rw [hnone g hg e he] at hd
    cases hd
  refine ⟨hmerge, by cbv, hunloosened hloosens, ?_⟩
  rw [hlossless (hunloosened hloosens)]

/-- By a built-in directive that is applied once, both addresses stand on the merged type too, and
there the schema has one of them. -/
theorem dateServices_not_applied :
    (dateServices "specifiedBy").problems = [] ∧
      (dateServices "specifiedBy").checkProblems = [] ∧
      (dateServices "specifiedBy").mergeProblems = [] ∧
      ((dateServices "specifiedBy").mergedDocument.typeDefinitions.map fun t =>
        (t.name, t.directives)) =
          [("Date", [⟨"specifiedBy", [⟨"url", .string "x"⟩]⟩,
            ⟨"specifiedBy", [⟨"url", .string "y"⟩]⟩])] ∧
      (Schema.empty.applyDocument (dateServices "specifiedBy").mergedDocument).2 =
        [{ cause := .conflictingApplications ⟨"specifiedBy", [⟨"url", .string "x"⟩]⟩
             ⟨"specifiedBy", [⟨"url", .string "y"⟩]⟩
           coordinate := .type "Date" }] ∧
      ((Schema.empty.applyDocument
          (dateServices "specifiedBy").mergedDocument).1.types.map fun t =>
        (t.name, t.directives)) = [("Date", [⟨"specifiedBy", [⟨"url", .string "x"⟩]⟩])] := by
  refine ⟨?_, ?_, ?_, ?_, ?_, ?_⟩ <;> cbv

end Subgraphs

end Federation
