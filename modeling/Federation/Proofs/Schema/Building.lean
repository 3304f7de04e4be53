import Federation.Proofs.Sequence
import Federation.Schema.Extension
/-!
# Schema — building from a document without repetition

A document of directive definitions and base definitions of types, where
no name is defined twice and no type has a member twice, is applied
without loss: the schema holds exactly these definitions, in order, with
the applications on each type merged (`applyDocument_distinct`). All
that can clash are the applications on one type.
-/

namespace Federation

namespace Reported

variable {α σ : Type} {step : σ → α → Reported σ}

theorem foldl_eq (as : List α) (s : σ) (found : List Diagnostic) :
    as.foldl (fun state a => ((step state.1 a).1, state.2 ++ (step state.1 a).2)) (s, found) =
      ((fold step s as).1, found ++ (fold step s as).2) := by
  induction as generalizing s found with
  | nil => simp [fold]
  | cons a as ih =>
    have hfold : fold step s (a :: as) =
        ((fold step (step s a).1 as).1, (step s a).2 ++ (fold step (step s a).1 as).2) := by
      rw [← List.nil_append (step s a).2, ← ih]
      rfl
    rw [List.foldl_cons, ih, hfold, List.append_assoc]

@[simp] theorem fold_nil (s : σ) : fold step s [] = (s, []) := rfl

theorem fold_cons (s : σ) (a : α) (as : List α) :
    fold step s (a :: as) =
      ((fold step (step s a).1 as).1, (step s a).2 ++ (fold step (step s a).1 as).2) := by
  rw [fold, List.foldl_cons, foldl_eq, List.nil_append]

theorem fold_append (s : σ) (as bs : List α) :
    fold step s (as ++ bs) =
      ((fold step (fold step s as).1 bs).1,
        (fold step s as).2 ++ (fold step (fold step s as).1 bs).2) := by
  rw [fold, List.foldl_append, foldl_eq, foldl_eq, List.nil_append]

end Reported

/-! ## Members -/

section

variable {α : Type} (name : α → String)

theorem not_any_name {as : List α} {a : α} (h : name a ∉ as.map name) :
    as.any (name · == name a) = false := by
  rw [List.any_eq_false]
  intro b hb heq
  exact h (beq_iff_eq.mp heq ▸ List.mem_map_of_mem hb)

/-- Members with new names are all added. -/
theorem addMembers_of_nodup (target source : List α)
    (h : ((target ++ source).map name).Nodup) :
    addMembers name target source = target ++ source := by
  induction source generalizing target with
  | nil => simp [addMembers]
  | cons m source ih =>
    have hnew : name m ∉ target.map name := not_mem_map_of_nodup h
    rw [List.append_cons] at h ⊢
    rw [addMembers, List.foldl_cons, not_any_name name hnew]
    exact ih _ h

theorem addMembers_cons (target : List α) (m : α) (source : List α) :
    addMembers name target (m :: source) =
      addMembers name (if target.any (name · == name m) then target else target ++ [m]) source :=
  rfl

/-- Adding members repeats no name. -/
theorem nodup_addMembers {target source : List α} (h : (target.map name).Nodup) :
    ((addMembers name target source).map name).Nodup := by
  induction source generalizing target with
  | nil => exact h
  | cons m source ih =>
    rw [addMembers_cons]
    split
    · exact ih h
    · rename_i hnew
      refine ih ?_
      rw [List.map_append, List.nodup_append]
      refine ⟨h, by simp, ?_⟩
      rintro a ha b hb rfl
      obtain ⟨m', hm', hname⟩ := List.mem_map.mp ha
      refine hnew (List.any_eq_true.mpr ⟨m', hm', ?_⟩)
      simpa [hname] using hb

theorem mem_addMembers {target source : List α} {a : α} (h : a ∈ addMembers name target source) :
    a ∈ target ∨ a ∈ source := by
  induction source generalizing target with
  | nil => exact .inl h
  | cons m source ih =>
    rw [addMembers_cons] at h
    rcases ih h with hmem | hmem
    · split at hmem
      · exact .inl hmem
      · rcases List.mem_append.mp hmem with hmem | hmem
        · exact .inl hmem
        · exact .inr (List.mem_singleton.mp hmem ▸ List.mem_cons_self)
    · exact .inr (List.mem_cons_of_mem _ hmem)

theorem subset_addMembers {target source : List α} : target ⊆ addMembers name target source := by
  induction source generalizing target with
  | nil => exact List.Subset.refl _
  | cons m source ih =>
    rw [addMembers_cons]
    split
    · exact ih
    · exact List.Subset.trans (List.subset_append_left _ _) ih

/-- Every name is there after adding. -/
theorem exists_mem_addMembers (target : List α) {source : List α} {a : α}
    (h : a ∈ target ∨ a ∈ source) :
    ∃ b ∈ addMembers name target source, name b = name a := by
  induction source generalizing target with
  | nil =>
    rcases h with h | h
    · exact ⟨a, h, rfl⟩
    · cases h
  | cons m source ih =>
    rcases h with h | h
    · exact ⟨a, subset_addMembers name h, rfl⟩
    · rcases List.mem_cons.mp h with rfl | h
      · rw [addMembers_cons]
        split
        · rename_i htaken
          obtain ⟨b, hb, hname⟩ := List.any_eq_true.mp htaken
          exact ⟨b, subset_addMembers name hb, beq_iff_eq.mp hname⟩
        · exact ⟨a, subset_addMembers name (List.mem_append_right _ List.mem_cons_self), rfl⟩
      · rw [addMembers_cons]
        exact ih _ (.inr h)

theorem repeatedMembers_of_nodup (target source : List α)
    (h : ((target ++ source).map name).Nodup) : repeatedMembers name target source = [] := by
  induction source generalizing target with
  | nil => rfl
  | cons m source ih =>
    have hnew : name m ∉ target.map name := not_mem_map_of_nodup h
    rw [List.append_cons] at h
    rw [repeatedMembers, not_any_name name hnew]
    exact ih _ h

end

namespace TypeBody

/-- No interface, member, field or value is listed twice. -/
def DistinctMembers : TypeBody → Prop
  | scalar => True
  | object b | interface b => b.implements.Nodup ∧ (b.fields.map Field.name).Nodup
  | union members => members.Nodup
  | enum values => (values.map EnumValue.name).Nodup
  | inputObject fields => (fields.map InputValue.name).Nodup

variable {b : TypeBody}

theorem DistinctMembers.implements (h : b.DistinctMembers) : b.implements.Nodup := by
  cases b with
  | object b | interface b => exact h.1
  | _ => exact List.nodup_nil

theorem DistinctMembers.fields (h : b.DistinctMembers) : (b.fields.map Field.name).Nodup := by
  cases b with
  | object b | interface b => exact h.2
  | _ => exact List.nodup_nil

theorem DistinctMembers.members (h : b.DistinctMembers) : b.members.Nodup := by
  cases b with
  | union members => exact h
  | _ => exact List.nodup_nil

theorem DistinctMembers.enumValues (h : b.DistinctMembers) :
    (b.enumValues.map EnumValue.name).Nodup := by
  cases b with
  | enum values => exact h
  | _ => exact List.nodup_nil

theorem DistinctMembers.inputFields (h : b.DistinctMembers) :
    (b.inputFields.map InputValue.name).Nodup := by
  cases b with
  | inputObject fields => exact h
  | _ => exact List.nodup_nil

theorem addMembers_empty (h : b.DistinctMembers) : (empty b.kind).addMembers b = b := by
  cases b with
  | scalar => rfl
  | object b =>
    have hi := addMembers_of_nodup id [] b.implements (by simpa using h.1)
    have hf := addMembers_of_nodup Field.name [] b.fields h.2
    simp only [empty, kind, addMembers, hi, hf, List.nil_append]
  | interface b =>
    have hi := addMembers_of_nodup id [] b.implements (by simpa using h.1)
    have hf := addMembers_of_nodup Field.name [] b.fields h.2
    simp only [empty, kind, addMembers, hi, hf, List.nil_append]
  | union members =>
    have hnames : (members.map id).Nodup := by
      rw [List.map_id]
      exact h
    have hm := addMembers_of_nodup id [] members hnames
    simp only [empty, kind, addMembers, hm, List.nil_append]
  | enum values =>
    have hv := addMembers_of_nodup EnumValue.name [] values h
    simp only [empty, kind, addMembers, hv, List.nil_append]
  | inputObject fields =>
    have hf := addMembers_of_nodup InputValue.name [] fields h
    simp only [empty, kind, addMembers, hf, List.nil_append]

theorem repeatedMembers_empty (h : b.DistinctMembers) : (empty b.kind).repeatedMembers b = [] := by
  cases b with
  | scalar => rfl
  | object b =>
    have hf := repeatedMembers_of_nodup Field.name [] b.fields h.2
    simp only [empty, kind, repeatedMembers, hf, List.map_nil]
  | interface b =>
    have hf := repeatedMembers_of_nodup Field.name [] b.fields h.2
    simp only [empty, kind, repeatedMembers, hf, List.map_nil]
  | union members => rfl
  | enum values =>
    have hv := repeatedMembers_of_nodup EnumValue.name [] values h
    simp only [empty, kind, repeatedMembers, hv, List.map_nil]
  | inputObject fields =>
    have hf := repeatedMembers_of_nodup InputValue.name [] fields h
    simp only [empty, kind, repeatedMembers, hf, List.map_nil]

end TypeBody

namespace TypeDefinition

/-- The definition with the applications on the type merged. -/
def mergeApplications (isRepeatable : String → Bool) (d : TypeDefinition) : TypeDefinition :=
  { d with directives := Directive.merge isRepeatable [] d.directives }

/-- The conflicts of the applications on the type. -/
def applicationConflicts (isRepeatable : String → Bool) (d : TypeDefinition) : List Diagnostic :=
  Directive.conflictDiagnostics isRepeatable [] d.directives (.type d.name)

/-- A definition without repeated members is absorbed whole by its shell. -/
theorem absorb_shell (isRepeatable : String → Bool) {d : TypeDefinition}
    (h : d.body.DistinctMembers) :
    d.shell.absorb isRepeatable d =
      (d.mergeApplications isRepeatable, d.applicationConflicts isRepeatable) := by
  have hdescription : (d.description <|> d.description) = d.description := by
    cases d.description <;> rfl
  simp only [absorb, shell, TypeDefinition.kind, TypeBody.addMembers_empty h,
    TypeBody.repeatedMembers_empty h, hdescription, List.map_nil, List.append_nil]
  rfl

end TypeDefinition

namespace Schema

/-! ## Definitions with new names -/

theorem directiveDefinition?_eq_none {s : Schema} {name : String}
    (h : name ∉ s.directiveDefinitions.map (·.name)) : s.directiveDefinition? name = none := by
  rw [directiveDefinition?, List.find?_eq_none]
  intro d hd heq
  exact h (beq_iff_eq.mp heq ▸ List.mem_map_of_mem hd)

theorem type?_eq_none {s : Schema} {name : String} (h : name ∉ s.types.map (·.name)) :
    s.type? name = none := by
  rw [type?, List.find?_eq_none]
  intro d hd heq
  exact h (beq_iff_eq.mp heq ▸ List.mem_map_of_mem hd)

theorem fold_directiveDefinitions (s : Schema) (ds : List DirectiveDefinition)
    (h : ((s.directiveDefinitions ++ ds).map (·.name)).Nodup) :
    Reported.fold addDefinition s (ds.map .directive) =
      ({ s with directiveDefinitions := s.directiveDefinitions ++ ds }, []) := by
  induction ds generalizing s with
  | nil => simp
  | cons d ds ih =>
    have hnew : d.name ∉ s.directiveDefinitions.map (·.name) := not_mem_map_of_nodup h
    have hstep : s.addDefinition (.directive d) =
        ({ s with directiveDefinitions := s.directiveDefinitions ++ [d] }, []) := by
      simp [addDefinition, addDirectiveDefinition, directiveDefinition?_eq_none hnew]
    rw [List.append_cons] at h ⊢
    rw [List.map_cons, Reported.fold_cons, hstep, ih _ h, List.nil_append]

theorem fold_types (s : Schema) (ts : List TypeDefinition)
    (h : ((s.types ++ ts).map (·.name)).Nodup)
    (hts : ∀ t ∈ ts, t.isExtension = false ∧ t.body.DistinctMembers) :
    Reported.fold addDefinition s (ts.map .type) =
      ({ s with types := s.types ++ ts.map (TypeDefinition.mergeApplications s.isRepeatable) },
        ts.flatMap (TypeDefinition.applicationConflicts s.isRepeatable)) := by
  induction ts generalizing s with
  | nil => simp
  | cons t ts ih =>
    have hnew : t.name ∉ s.types.map (·.name) := not_mem_map_of_nodup h
    obtain ⟨hbase, hmembers⟩ := hts t List.mem_cons_self
    have hstep : s.addDefinition (.type t) =
        ({ s with types := s.types ++ [t.mergeApplications s.isRepeatable] },
          t.applicationConflicts s.isRepeatable) := by
      simp [addDefinition, addTypeDefinition, hbase, type?_eq_none hnew,
        TypeDefinition.absorb_shell s.isRepeatable hmembers]
    -- the merged definition goes by the name of the definition, so later names are new to it too
    have hnext :
        (((s.types ++ [t.mergeApplications s.isRepeatable]) ++ ts).map (·.name)).Nodup := by
      simpa [TypeDefinition.mergeApplications] using h
    rw [List.map_cons, Reported.fold_cons, hstep,
      ih { s with types := s.types ++ [t.mergeApplications s.isRepeatable] } hnext
        fun t ht => hts t (List.mem_cons_of_mem _ ht)]
    simp only [List.map_cons, List.flatMap_cons, List.append_assoc, List.cons_append,
      List.nil_append]
    rfl

/-- **A document without repetition is applied without loss.** -/
theorem applyDocument_distinct {ds : List DirectiveDefinition} {ts : List TypeDefinition}
    (hds : (ds.map (·.name)).Nodup) (hts : (ts.map (·.name)).Nodup)
    (hbase : ∀ t ∈ ts, t.isExtension = false ∧ t.body.DistinctMembers) :
    let s : Schema := { empty with directiveDefinitions := ds }
    empty.applyDocument ⟨ds.map .directive ++ ts.map .type⟩ =
      ({ s with types := ts.map (TypeDefinition.mergeApplications s.isRepeatable) },
        ts.flatMap (TypeDefinition.applicationConflicts s.isRepeatable)) := by
  intro s
  have hdirectives := fold_directiveDefinitions empty ds hds
  have htypes := fold_types s ts hts hbase
  -- extensions are applied in a second pass, and here are none
  have hextensions : (Document.typeDefinitions
      ⟨ds.map .directive ++ ts.map .type⟩).filter (·.isExtension) = [] := by
    have : Document.typeDefinitions ⟨ds.map .directive ++ ts.map .type⟩ = ts := by
      simp [Document.typeDefinitions, List.filterMap_append, List.filterMap_map]
    rw [this, List.filter_eq_nil_iff]
    intro t ht
    simp [(hbase t ht).1]
  rw [applyDocument, Reported.fold_append, hdirectives]
  rw [show ({ empty with directiveDefinitions := empty.directiveDefinitions ++ ds } : Schema) = s
    from rfl, htypes]
  simp only [hextensions, Reported.fold_nil, List.nil_append, List.append_nil]
  rfl

/-- A document is built when nothing is wrong with it and nothing in it clashes, and then to what
its definitions make. -/
theorem build_eq_ok_iff {d : Document} {s : Schema} :
    build d = .ok s ↔ empty.documentProblems d = [] ∧ empty.applyDocument d = (s, []) := by
  rw [build, extend]
  simp only [Bool.false_eq_true, if_false]
  split
  · rename_i hnone
    obtain ⟨hproblems, hclashes⟩ := List.append_eq_nil_iff.mp hnone
    rw [Except.ok.injEq, Prod.ext_iff]
    exact ⟨fun h => ⟨hproblems, h, hclashes⟩, fun h => h.2.1⟩
  · rename_i hsome
    constructor
    · intro h
      cases h
    · rintro ⟨hproblems, happlied⟩
      rw [hproblems, happlied] at hsome
      exact (hsome rfl).elim

end Schema

end Federation
