import Federation.Proofs.Directives.Merge
import Federation.Proofs.Sequence
/-!
# Directives — merging in turn

An application may join those that are there already if it is one of
them, if its directive may be repeated, or if it is the first of its
directive (`Directive.Joins`). Applications are merged without a conflict
exactly when they join one after the other (`conflicts_eq_nil_iff_join`),
and then the merge keeps the first occurrences (`merge_firstsBy`).
-/

namespace Federation

namespace Directive

variable {isRepeatable : String → Bool} {there : List Directive} {d : Directive}

/-- An application may join others: it is there already, its directive may be repeated, or none of
the others is of its directive. -/
def Joins (there : List Directive) (repeatable : Bool) (d : Directive) : Prop :=
  d.isIn there = true ∨ repeatable = true ∨ ∀ a ∈ there, a.name ≠ d.name

/-- Applications may join others one after the other. -/
def JoinInTurn (isRepeatable : String → Bool) (there ds : List Directive) : Prop :=
  ∀ as d bs, ds = as ++ d :: bs → Joins (there ++ as) (isRepeatable d.name) d

theorem conflict?_eq_none_iff_joins {repeatable : Bool} :
    conflict? there d repeatable = none ↔ Joins there repeatable d := by
  cases hin : d.isIn there with
  | true => simp [conflict?, Joins, hin]
  | false =>
    rw [conflict?_eq_none_iff hin, Joins, hin]
    cases repeatable <;> simp

theorem isIn_iff : d.isIn there = true ↔ d.canonical ∈ there.map canonical := by
  simp [isIn, same, List.any_eq_true]

/-- What joins reads of the others is their structure. -/
theorem joins_congr {there' : List Directive} {repeatable : Bool}
    (h : ∀ c, c ∈ there.map canonical ↔ c ∈ there'.map canonical) :
    Joins there repeatable d ↔ Joins there' repeatable d := by
  have hnames : ∀ ds : List Directive,
      (∀ a ∈ ds, a.name ≠ d.name) ↔ ∀ c ∈ ds.map canonical, c.name ≠ d.name := fun ds => by
    rw [List.forall_mem_map]
    rfl
  rw [Joins, Joins, isIn_iff, isIn_iff, hnames there, hnames there', h]
  simp only [h]

theorem joins_firstsBy {repeatable : Bool} :
    Joins (firstsBy canonical there) repeatable d ↔ Joins there repeatable d :=
  joins_congr fun _ => mem_map_firstsBy canonical

/-- An application that may join is added where it is new. -/
theorem add_firstsBy {repeatable : Bool} (h : Joins there repeatable d) :
    add (firstsBy canonical there) d repeatable = firstsBy canonical (there ++ [d]) := by
  have hjoins : Joins (firstsBy canonical there) repeatable d := joins_firstsBy.mpr h
  have hmem : d.isIn (firstsBy canonical there) = true ↔ d.canonical ∈ there.map canonical := by
    rw [isIn_iff, mem_map_firstsBy]
  rw [add, conflict?_eq_none_iff_joins.mpr hjoins, Option.isSome_none, Bool.or_false]
  split
  · rename_i hin
    rw [firstsBy_concat_of_mem canonical (hmem.mp hin)]
  · rename_i hnew
    rw [firstsBy_concat_of_not_mem canonical fun hin => hnew (hmem.mpr hin)]

/-- Conflicts come from the first application or from the others. -/
theorem conflicts_cons_eq_nil_iff {ds : List Directive} :
    conflicts isRepeatable there (d :: ds) = [] ↔
      Joins there (isRepeatable d.name) d ∧
        conflicts isRepeatable (add there d (isRepeatable d.name)) ds = [] := by
  rw [conflicts, ← conflict?_eq_none_iff_joins]
  cases conflict? there d (isRepeatable d.name) <;> simp

/-- **Applications are merged without a conflict exactly when each may join** those before it. -/
theorem conflicts_eq_nil_iff_join {ds : List Directive} :
    conflicts isRepeatable (firstsBy canonical there) ds = [] ↔
      JoinInTurn isRepeatable there ds := by
  induction ds generalizing there with
  | nil => simp [conflicts, JoinInTurn]
  | cons d ds ih =>
    rw [conflicts_cons_eq_nil_iff, joins_firstsBy]
    constructor
    · rintro ⟨hd, hrest⟩ as a bs hsplit
      rw [add_firstsBy hd, ih] at hrest
      cases as with
      | nil =>
        obtain ⟨rfl, -⟩ := List.cons.inj hsplit
        rwa [List.append_nil]
      | cons b as =>
        obtain ⟨rfl, htail⟩ := List.cons.inj hsplit
        rw [List.append_cons]
        exact hrest as a bs htail
    · intro h
      have hd : Joins there (isRepeatable d.name) d := by
        simpa using h [] d ds rfl
      refine ⟨hd, ?_⟩
      rw [add_firstsBy hd, ih]
      rintro as a bs rfl
      rw [← List.append_cons]
      exact h (d :: as) a bs rfl

/-- **A merge without a conflict keeps the first occurrences.** -/
theorem merge_firstsBy {ds : List Directive}
    (h : conflicts isRepeatable (firstsBy canonical there) ds = []) :
    merge isRepeatable (firstsBy canonical there) ds = firstsBy canonical (there ++ ds) := by
  induction ds generalizing there with
  | nil => rw [merge_nil, List.append_nil]
  | cons d ds ih =>
    obtain ⟨hd, hrest⟩ := conflicts_cons_eq_nil_iff.mp h
    have hjoins : Joins there (isRepeatable d.name) d := joins_firstsBy.mp hd
    rw [add_firstsBy hjoins] at hrest
    rw [merge_cons, add_firstsBy hjoins, ih hrest, List.append_cons there d ds]

end Directive

end Federation
