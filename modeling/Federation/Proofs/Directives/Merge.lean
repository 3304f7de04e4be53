import Federation.Directives.Merge
/-!
# Directives — what merging leaves

After a merge no application stands twice, and a directive that may be
applied once stands once (`pairwise_merge`). Applications of this kind
are merged without loss and without a conflict (`merge_of_pairwise`), so
merging a second time changes nothing; different applications of another
kind conflict (`conflicts_eq_nil_iff`). A merge without a conflict stays
as it is where more directives may be repeated (`merge_of_le`).
-/

namespace Federation

namespace Directive

variable {isRepeatable : String → Bool} {merged ds : List Directive} {d : Directive}

/-- Two applications that stand side by side after a merge: they differ, and are of different
directives unless the directive may be repeated. -/
def Apart (isRepeatable : String → Bool) (a b : Directive) : Prop :=
  a.same b = false ∧ (isRepeatable b.name = false → a.name ≠ b.name)

/-! ## One application -/

theorem isIn_eq_false_iff : d.isIn merged = false ↔ ∀ a ∈ merged, a.same d = false := by
  simp [isIn]

theorem conflict?_eq_none_iff (h : d.isIn merged = false) {repeatable : Bool} :
    conflict? merged d repeatable = none ↔
      (repeatable = false → ∀ a ∈ merged, a.name ≠ d.name) := by
  rw [conflict?, h, Bool.false_or]
  cases repeatable <;> simp

/-- An application is apart from those before it exactly when it is new and nothing keeps it
out. -/
theorem apart_iff : (∀ a ∈ merged, Apart isRepeatable a d) ↔
    d.isIn merged = false ∧ conflict? merged d (isRepeatable d.name) = none := by
  constructor
  · intro h
    have hin := isIn_eq_false_iff.mpr fun a ha => (h a ha).1
    exact ⟨hin, (conflict?_eq_none_iff hin).mpr fun hr a ha => (h a ha).2 hr⟩
  · rintro ⟨hin, hconflict⟩ a ha
    exact ⟨isIn_eq_false_iff.mp hin a ha,
      fun hr => (conflict?_eq_none_iff hin).mp hconflict hr a ha⟩

/-- What keeps an application out is a different one of the same directive, which may be applied
once. -/
theorem of_conflict? {repeatable : Bool} {existing : Directive}
    (h : conflict? merged d repeatable = some existing) :
    existing ∈ merged ∧ existing.name = d.name ∧ repeatable = false ∧ existing.same d = false := by
  rw [conflict?] at h
  split at h
  · cases h
  · rename_i hnew
    rw [Bool.or_eq_true, not_or, Bool.not_eq_true, Bool.not_eq_true] at hnew
    have hmem := List.mem_of_find?_eq_some h
    have hname := List.find?_some h
    exact ⟨hmem, beq_iff_eq.mp hname, hnew.2, isIn_eq_false_iff.mp hnew.1 existing hmem⟩

theorem add_of_apart (h : ∀ a ∈ merged, Apart isRepeatable a d) :
    add merged d (isRepeatable d.name) = merged ++ [d] := by
  obtain ⟨hin, hconflict⟩ := apart_iff.mp h
  rw [add, hin, hconflict]
  rfl

/-- A step adds the application only where it is apart from those before it. -/
theorem add_cases (isRepeatable : String → Bool) (merged : List Directive) (d : Directive) :
    add merged d (isRepeatable d.name) = merged ∨
    add merged d (isRepeatable d.name) = merged ++ [d] ∧
      ∀ a ∈ merged, Apart isRepeatable a d := by
  rw [add]
  split
  · exact .inl rfl
  · rename_i hnew
    rw [Bool.or_eq_true, not_or, Bool.not_eq_true, Bool.not_eq_true, Option.isSome_eq_false_iff,
      Option.isNone_iff_eq_none] at hnew
    exact .inr ⟨rfl, apart_iff.mpr hnew⟩

/-! ## Many applications -/

/-- **After a merge applications are apart.** -/
theorem pairwise_merge (h : merged.Pairwise (Apart isRepeatable)) :
    (merge isRepeatable merged ds).Pairwise (Apart isRepeatable) := by
  induction ds generalizing merged with
  | nil => exact h
  | cons d ds ih =>
    rw [merge_cons]
    refine ih ?_
    obtain hadd | ⟨hadd, hapart⟩ := add_cases isRepeatable merged d
    · rwa [hadd]
    · rw [hadd, List.pairwise_append]
      refine ⟨h, List.pairwise_singleton _ _, fun a ha b hb => ?_⟩
      rw [List.mem_singleton.mp hb]
      exact hapart a ha

/-- A merge makes no applications up. -/
theorem mem_of_mem_merge (h : d ∈ merge isRepeatable merged ds) : d ∈ merged ∨ d ∈ ds := by
  induction ds generalizing merged with
  | nil => exact .inl h
  | cons e ds ih =>
    rw [merge_cons] at h
    obtain hmem | hmem := ih h
    · obtain hadd | ⟨hadd, -⟩ := add_cases isRepeatable merged e
      · rw [hadd] at hmem
        exact .inl hmem
      · rw [hadd, List.mem_append, List.mem_singleton] at hmem
        rcases hmem with hmem | rfl
        · exact .inl hmem
        · exact .inr List.mem_cons_self
    · exact .inr (List.mem_cons_of_mem e hmem)

/-- **Applications that are apart are merged without loss**, and without a conflict. -/
theorem merge_of_pairwise (h : (merged ++ ds).Pairwise (Apart isRepeatable)) :
    merge isRepeatable merged ds = merged ++ ds ∧ conflicts isRepeatable merged ds = [] := by
  induction ds generalizing merged with
  | nil => simp [conflicts]
  | cons d ds ih =>
    have hapart : ∀ a ∈ merged, Apart isRepeatable a d := fun a ha =>
      (List.pairwise_append.mp h).2.2 a ha d List.mem_cons_self
    rw [List.append_cons] at h ⊢
    obtain ⟨hmerge, hconflicts⟩ := ih h
    rw [merge_cons, conflicts, add_of_apart hapart, (apart_iff.mp hapart).2, hconflicts]
    exact ⟨hmerge, rfl⟩

/-- **Different applications are merged without a conflict exactly when they are apart.** -/
theorem conflicts_eq_nil_iff (hmerged : merged.Pairwise (Apart isRepeatable))
    (h : (merged ++ ds).Pairwise fun a b => a.same b = false) :
    conflicts isRepeatable merged ds = [] ↔ (merged ++ ds).Pairwise (Apart isRepeatable) := by
  refine ⟨fun hnone => ?_, fun hapart => (merge_of_pairwise hapart).2⟩
  induction ds generalizing merged with
  | nil => rwa [List.append_nil]
  | cons d ds ih =>
    have hin : d.isIn merged = false := isIn_eq_false_iff.mpr fun a ha =>
      (List.pairwise_append.mp h).2.2 a ha d List.mem_cons_self
    rw [conflicts] at hnone
    cases hconflict : conflict? merged d (isRepeatable d.name) with
    | some existing =>
      rw [hconflict] at hnone
      cases hnone
    | none =>
      have hapart := apart_iff.mpr ⟨hin, hconflict⟩
      rw [hconflict, add_of_apart hapart] at hnone
      rw [List.append_cons] at h ⊢
      refine ih ?_ h hnone
      rw [List.pairwise_append]
      refine ⟨hmerged, List.pairwise_singleton _ _, fun a ha b hb => ?_⟩
      rw [List.mem_singleton.mp hb]
      exact hapart a ha

/-- A conflict is between two different applications of one directive that may be applied once. -/
theorem of_mem_conflicts {x : Directive × Directive} (h : x ∈ conflicts isRepeatable merged ds) :
    (x.1 ∈ merged ∨ x.1 ∈ ds) ∧ x.2 ∈ ds ∧ x.1.name = x.2.name ∧
      isRepeatable x.2.name = false ∧ x.1.same x.2 = false := by
  induction ds generalizing merged with
  | nil => cases h
  | cons d ds ih =>
    rw [conflicts] at h
    have hcase : conflict? merged d (isRepeatable d.name) = some x.1 ∧ x.2 = d ∨
        x ∈ conflicts isRepeatable (add merged d (isRepeatable d.name)) ds := by
      cases hconflict : conflict? merged d (isRepeatable d.name) with
      | none =>
        rw [hconflict] at h
        exact .inr h
      | some existing =>
        rw [hconflict] at h
        rcases List.mem_cons.mp h with rfl | h
        · exact .inl ⟨rfl, rfl⟩
        · exact .inr h
    rcases hcase with ⟨hconflict, hd⟩ | hlater
    · obtain ⟨hmem, hname, honce, hdiffer⟩ := of_conflict? hconflict
      rw [hd]
      exact ⟨.inl hmem, List.mem_cons_self, hname, honce, hdiffer⟩
    · obtain ⟨hexisting, hincoming, hrest⟩ := ih hlater
      refine ⟨?_, List.mem_cons_of_mem d hincoming, hrest⟩
      rcases hexisting with hmem | hmem
      · obtain hadd | ⟨hadd, -⟩ := add_cases isRepeatable merged d
        · rw [hadd] at hmem
          exact .inl hmem
        · rw [hadd, List.mem_append, List.mem_singleton] at hmem
          exact hmem.imp_right fun heq : x.1 = d => heq ▸ List.mem_cons_self
      · exact .inr (List.mem_cons_of_mem d hmem)

/-! ## Repeatable directives -/

section

variable {allowed : String → Bool}
variable (hle : ∀ name, isRepeatable name = true → allowed name = true)
include hle

/-- Nothing is kept out because more directives may be repeated. -/
theorem conflict?_of_le (h : conflict? merged d (isRepeatable d.name) = none) :
    conflict? merged d (allowed d.name) = none := by
  cases hrepeatable : isRepeatable d.name with
  | true => rw [hle d.name hrepeatable, ← hrepeatable, h]
  | false =>
    cases hallowed : allowed d.name with
    | true => rw [conflict?, Bool.or_true, if_pos rfl]
    | false => rw [← hrepeatable, h]

/-- **A merge without a conflict stays as it is** where more directives may be repeated. -/
theorem merge_of_le (h : conflicts isRepeatable merged ds = []) :
    merge allowed merged ds = merge isRepeatable merged ds ∧ conflicts allowed merged ds = [] := by
  induction ds generalizing merged with
  | nil => exact ⟨rfl, rfl⟩
  | cons d ds ih =>
    rw [conflicts] at h
    cases hconflict : conflict? merged d (isRepeatable d.name) with
    | some existing =>
      rw [hconflict] at h
      cases h
    | none =>
      rw [hconflict] at h
      have hallowed := conflict?_of_le hle hconflict
      have hadd : add merged d (allowed d.name) = add merged d (isRepeatable d.name) := by
        rw [add, add, hallowed, hconflict]
      rw [merge_cons, merge_cons, conflicts, hallowed, hadd]
      exact ih h

end

end Directive

end Federation
