import Federation.Diagnostic
import Federation.Proofs.Sequence
import Mathlib.Data.List.Basic
/-!
# Diagnostics — the order in which they are reported

The key of a diagnostic is its kind with the names of the type and of
the field that it is about. Diagnostics are sorted by their keys, which
are in a linear order: whatever the order in which diagnostics are
found, they are reported with the same keys in the same places
(`map_key_sorted_eq_of_perm`). What has the first key, a text that
cannot be read, is reported before everything else
(`sorted_eq_filter_append`).
-/

namespace Federation

namespace DiagnosticKind

theorem ctorIdx_injective : Function.Injective DiagnosticKind.ctorIdx := by
  intro a b h
  rw [← ofNat_ctorIdx a, ← ofNat_ctorIdx b, h]

end DiagnosticKind

namespace Diagnostic

/-! ## Optional names -/

theorem optionLe_total (a b : Option String) : optionLe a b = true ∨ optionLe b a = true := by
  cases a with
  | none => exact .inl rfl
  | some a =>
    cases b with
    | none => exact .inr rfl
    | some b => exact (String.le_total a b).imp decide_eq_true decide_eq_true

theorem optionLe_trans {a b c : Option String} (hab : optionLe a b = true)
    (hbc : optionLe b c = true) : optionLe a c = true := by
  cases a with
  | none => rfl
  | some a =>
    cases b with
    | none => cases hab
    | some b =>
      cases c with
      | none => cases hbc
      | some c =>
        exact decide_eq_true (String.le_trans (of_decide_eq_true hab) (of_decide_eq_true hbc))

theorem optionLe_antisymm {a b : Option String} (hab : optionLe a b = true)
    (hba : optionLe b a = true) : a = b := by
  cases a with
  | none =>
    cases b with
    | none => rfl
    | some b => cases hba
  | some a =>
    cases b with
    | none => cases hab
    | some b =>
      exact congrArg some (String.le_antisymm (of_decide_eq_true hab) (of_decide_eq_true hba))

/-! ## Keys -/

/-- What diagnostics are sorted by: the kind, the name of the type and the name of the field. -/
def key (d : Diagnostic) : DiagnosticKind × Option String × Option String :=
  (d.kind, d.coordinate.typeName?, d.coordinate.fieldName?)

/-- The order of keys. -/
def KeyLe (a b : DiagnosticKind × Option String × Option String) : Prop :=
  a.1.ctorIdx < b.1.ctorIdx ∨ a.1 = b.1 ∧
    ((optionLe a.2.1 b.2.1 = true ∧ a.2.1 ≠ b.2.1) ∨
      a.2.1 = b.2.1 ∧ optionLe a.2.2 b.2.2 = true)

theorem le_iff {a b : Diagnostic} : le a b = true ↔ KeyLe a.key b.key := by
  by_cases hkind : a.kind = b.kind
  · by_cases htype : a.coordinate.typeName? = b.coordinate.typeName?
    · simp [le, KeyLe, key, hkind, htype]
    · simp [le, KeyLe, key, hkind, htype]
  · simp [le, KeyLe, key, hkind]

theorem keyLe_total (a b : DiagnosticKind × Option String × Option String) :
    KeyLe a b ∨ KeyLe b a := by
  rcases Nat.lt_trichotomy a.1.ctorIdx b.1.ctorIdx with hlt | heq | hlt
  · exact .inl (.inl hlt)
  · have hkind := DiagnosticKind.ctorIdx_injective heq
    by_cases htype : a.2.1 = b.2.1
    · rcases optionLe_total a.2.2 b.2.2 with hle | hle
      · exact .inl (.inr ⟨hkind, .inr ⟨htype, hle⟩⟩)
      · exact .inr (.inr ⟨hkind.symm, .inr ⟨htype.symm, hle⟩⟩)
    -- names of types that differ settle the order before names of fields are looked at
    · rcases optionLe_total a.2.1 b.2.1 with hle | hle
      · exact .inl (.inr ⟨hkind, .inl ⟨hle, htype⟩⟩)
      · exact .inr (.inr ⟨hkind.symm, .inl ⟨hle, Ne.symm htype⟩⟩)
  · exact .inr (.inl hlt)

theorem keyLe_trans {a b c : DiagnosticKind × Option String × Option String} (hab : KeyLe a b)
    (hbc : KeyLe b c) : KeyLe a c := by
  rcases hab with hab | ⟨hkind, hab⟩
  · rcases hbc with hbc | ⟨hkind', -⟩
    · exact .inl (Nat.lt_trans hab hbc)
    · exact .inl (hkind' ▸ hab)
  · rcases hbc with hbc | ⟨hkind', hbc⟩
    · exact .inl (hkind ▸ hbc)
    · refine .inr ⟨hkind.trans hkind', ?_⟩
      rcases hab with ⟨hab, hne⟩ | ⟨htype, hab⟩
      · rcases hbc with ⟨hbc, -⟩ | ⟨htype', -⟩
        · refine .inl ⟨optionLe_trans hab hbc, fun heq => ?_⟩
          rw [← heq] at hbc
          exact hne (optionLe_antisymm hab hbc)
        · exact .inl (htype' ▸ ⟨hab, hne⟩)
      · rcases hbc with hbc | ⟨htype', hbc⟩
        · exact .inl (htype ▸ hbc)
        · exact .inr ⟨htype.trans htype', optionLe_trans hab hbc⟩

theorem keyLe_antisymm {a b : DiagnosticKind × Option String × Option String} (hab : KeyLe a b)
    (hba : KeyLe b a) : a = b := by
  rcases hab with hab | ⟨hkind, hab⟩
  · rcases hba with hba | ⟨hkind, -⟩
    · omega
    · rw [hkind] at hab
      omega
  · rcases hba with hba | ⟨-, hba⟩
    · rw [hkind] at hba
      omega
    · rcases hab with ⟨hab, hne⟩ | ⟨htype, hab⟩
      · rcases hba with ⟨hba, -⟩ | ⟨htype, -⟩
        · exact absurd (optionLe_antisymm hab hba) hne
        · exact absurd htype.symm hne
      · rcases hba with ⟨-, hne⟩ | ⟨-, hba⟩
        · exact absurd htype.symm hne
        · exact Prod.ext hkind (Prod.ext htype (optionLe_antisymm hab hba))

/-! ## Sorting -/

theorem le_trans (a b c : Diagnostic) (hab : le a b = true) (hbc : le b c = true) :
    le a c = true :=
  le_iff.mpr (keyLe_trans (le_iff.mp hab) (le_iff.mp hbc))

theorem le_total (a b : Diagnostic) : (le a b || le b a) = true := by
  rw [Bool.or_eq_true, le_iff, le_iff]
  exact keyLe_total _ _

theorem sorted_perm (ds : List Diagnostic) : (sorted ds).Perm ds :=
  List.mergeSort_perm _ _

theorem pairwise_key_sorted (ds : List Diagnostic) : ((sorted ds).map key).Pairwise KeyLe := by
  rw [List.pairwise_map]
  exact (List.pairwise_mergeSort le_trans le_total ds).imp fun h => le_iff.mp h

/-- **The keys of what is reported do not depend on the order in which it is found.** -/
theorem map_key_sorted_eq_of_perm {as bs : List Diagnostic} (h : as.Perm bs) :
    (sorted as).map key = (sorted bs).map key := by
  refine List.Perm.eq_of_pairwise (fun a b _ _ hab hba => keyLe_antisymm hab hba)
    (pairwise_key_sorted as) (pairwise_key_sorted bs) ?_
  exact ((sorted_perm as).trans (h.trans (sorted_perm bs).symm)).map key

/-- The key that comes before all others. -/
def firstKey : DiagnosticKind × Option String × Option String :=
  (.syntaxError, none, none)

theorem firstKey_le (k : DiagnosticKind × Option String × Option String) : KeyLe firstKey k := by
  obtain ⟨kind, typeName, fieldName⟩ := k
  cases kind with
  | syntaxError =>
    refine .inr ⟨rfl, ?_⟩
    cases typeName with
    | none => exact .inr ⟨rfl, rfl⟩
    | some typeName => exact .inl ⟨rfl, nofun⟩
  | _ => exact .inl (Nat.zero_lt_succ _)

/-- **What has the first key is reported first, in the order in which it is found.** -/
theorem sorted_eq_filter_append (ds : List Diagnostic) :
    sorted ds = (ds.filter fun d => d.key = firstKey) ++
      sorted (ds.filter fun d => !decide (d.key = firstKey)) := by
  refine mergeSort_eq_filter_append le_trans le_total (fun a b ha => ?_) (fun a b ha hb => ?_) ds
  · rw [le_iff, of_decide_eq_true ha]
    exact firstKey_le _
  · rw [Bool.eq_false_iff, ne_eq, le_iff, of_decide_eq_true ha]
    exact fun hle => of_decide_eq_false hb (keyLe_antisymm hle (firstKey_le _))

end Diagnostic

end Federation
