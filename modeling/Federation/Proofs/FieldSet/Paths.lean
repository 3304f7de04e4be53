import Federation.FieldSet.Basic
/-!
# Field sets — paths

A path of a field set leads from a field at the top down to a field with
nothing selected below it. The paths of a selection go on where the
paths of the selections below it start (`mem_paths_select`), and every
selection has one (`exists_mem_paths`), so that no field of a field set
is missed by its paths.
-/

namespace Federation

namespace FieldSelection

/-- What holds of a selection when it holds of the selections below holds of every selection. -/
@[induction_eliminator]
theorem induction {P : FieldSelection → Prop}
    (select : ∀ field nested, (∀ n ∈ nested, P n) → P (.select field nested)) :
    ∀ s, P s
  | .select field nested => select field nested fun n _ => induction select n

theorem listPaths_eq (ss : List FieldSelection) : listPaths ss = ss.flatMap paths := by
  induction ss with
  | nil => rfl
  | cons s ss ih => rw [listPaths, ih, List.flatMap_cons]

theorem mem_paths_select {field : String} {nested : List FieldSelection} {path : List String} :
    path ∈ (select field nested).paths ↔
      nested = [] ∧ path = [field] ∨ ∃ n ∈ nested, ∃ rest ∈ n.paths, path = field :: rest := by
  cases nested with
  | nil => simp [paths]
  | cons n ns =>
    rw [paths, listPaths_eq]
    simp only [List.mem_map, List.mem_flatMap, reduceCtorEq, false_and, false_or]
    constructor
    · rintro ⟨rest, ⟨m, hm, hrest⟩, rfl⟩
      exact ⟨m, hm, rest, hrest, rfl⟩
    · rintro ⟨m, hm, rest, hrest, rfl⟩
      exact ⟨rest, ⟨m, hm, hrest⟩, rfl⟩

/-- A selection is followed from its own field. -/
theorem exists_mem_paths (s : FieldSelection) : ∃ path, s.field :: path ∈ s.paths := by
  induction s with
  | select field nested ih =>
    cases nested with
    | nil => exact ⟨[], mem_paths_select.mpr (.inl ⟨rfl, rfl⟩)⟩
    | cons n ns =>
      obtain ⟨path, hpath⟩ := ih n List.mem_cons_self
      exact ⟨n.field :: path,
        mem_paths_select.mpr (.inr ⟨n, List.mem_cons_self, _, hpath, rfl⟩)⟩

end FieldSelection

theorem FieldSet.mem_paths {s : FieldSet} {path : List String} :
    path ∈ s.paths ↔ ∃ x ∈ s.selections, path ∈ x.paths := by
  rw [paths, FieldSelection.listPaths_eq, List.mem_flatMap]

end Federation
