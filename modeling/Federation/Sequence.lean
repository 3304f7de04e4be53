/-!
# Sequences

Lists without repetition. `firstsBy` keeps the first element under each
key, so that what comes first stays first, and no key is left twice.
-/

namespace Federation

variable {α κ : Type}

/-- The elements that are the first under their key. -/
def firstsBy [DecidableEq κ] (key : α → κ) : List α → List α
  | [] => []
  | a :: as => a :: (firstsBy key as).filter fun b => key b ≠ key a

/-- The elements without repetition, each at its first place. -/
def distinct [DecidableEq α] (as : List α) : List α :=
  firstsBy id as

section

variable [DecidableEq κ] (key : α → κ)

@[simp] theorem firstsBy_nil : firstsBy key [] = [] := rfl

theorem firstsBy_cons (a : α) (as : List α) :
    firstsBy key (a :: as) = a :: (firstsBy key as).filter fun b => key b ≠ key a := rfl

theorem firstsBy_sublist (as : List α) : (firstsBy key as).Sublist as := by
  induction as with
  | nil => exact List.Sublist.refl _
  | cons a as ih => exact (List.filter_sublist.trans ih).cons_cons a

/-- Every key of a list is still there. -/
theorem exists_mem_firstsBy {as : List α} {a : α} (h : a ∈ as) :
    ∃ b ∈ firstsBy key as, key b = key a := by
  induction as with
  | nil => cases h
  | cons c as ih =>
    rw [firstsBy_cons]
    by_cases hc : key c = key a
    · exact ⟨c, by simp, hc⟩
    · rcases List.mem_cons.mp h with rfl | h
      · exact absurd rfl hc
      · obtain ⟨b, hb, hk⟩ := ih h
        refine ⟨b, ?_, hk⟩
        simp [hb, hk, Ne.symm hc]

/-- No key is left twice. -/
theorem nodup_map_firstsBy (as : List α) : ((firstsBy key as).map key).Nodup := by
  induction as with
  | nil => simp
  | cons a as ih =>
    rw [firstsBy_cons, List.map_cons, List.nodup_cons]
    refine ⟨by simp, ih.sublist ?_⟩
    exact List.filter_sublist.map key

end

@[simp] theorem mem_distinct [DecidableEq α] {as : List α} {a : α} :
    a ∈ distinct as ↔ a ∈ as := by
  constructor
  · exact fun h => (firstsBy_sublist id as).subset h
  · intro h
    obtain ⟨b, hb, rfl⟩ := exists_mem_firstsBy id h
    exact hb

theorem nodup_distinct [DecidableEq α] (as : List α) : (distinct as).Nodup := by
  simpa [distinct] using nodup_map_firstsBy id as

end Federation
