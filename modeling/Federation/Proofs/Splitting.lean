import Federation.Sequence
/-!
# Sequences — elements split in two

A list in which some elements are replaced by two that together stand
for them. What is selected, listed or folded element by element is the
same for both lists when it is the same for one element and its two
halves.
-/

namespace Federation

variable {α β γ : Type} {R : α → α → α → Prop} {S : β → β → β → Prop}

/-- A list with some of its elements split in two: `R a b c` says that `b` and `c` together stand
for `a`. -/
inductive Splits (R : α → α → α → Prop) : List α → List α → Prop
  | nil : Splits R [] []
  | keep (a : α) {as bs : List α} (h : Splits R as bs) : Splits R (a :: as) (a :: bs)
  | split {a b c : α} {as bs : List α} (hs : R a b c) (h : Splits R as bs) :
      Splits R (a :: as) (b :: c :: bs)

theorem distinct_cons_cons_self [DecidableEq β] (b : β) (bs : List β) :
    distinct (b :: b :: bs) = distinct (b :: bs) := by
  simp only [distinct, firstsBy_cons]
  rw [List.filter_cons_of_neg (by simp), List.filter_filter]
  simp only [Bool.and_self]

variable {as bs cs ds : List α}

/-- What two lists hold in halves, one list after the other, may be listed half by half. -/
theorem perm_append_halves {as' bs' : List α} (h : (as ++ as').Perm cs) (h' : (bs ++ bs').Perm ds) :
    ((as ++ bs) ++ (as' ++ bs')).Perm (cs ++ ds) := by
  refine .trans ?_ (h.append h')
  rw [List.append_assoc, List.append_assoc]
  exact (List.perm_append_comm_assoc bs as' bs').append_left as

namespace Splits

theorem refl (as : List α) : Splits R as as := by
  induction as with
  | nil => exact .nil
  | cons a as ih => exact .keep a ih

theorem append (h : Splits R as bs) (h' : Splits R cs ds) : Splits R (as ++ cs) (bs ++ ds) := by
  induction h with
  | nil => exact h'
  | keep a _ ih => exact .keep a ih
  | split hs _ ih => exact .split hs ih

theorem flatMap {F G : γ → List α} {xs : List γ} (h : ∀ x ∈ xs, Splits R (F x) (G x)) :
    Splits R (xs.flatMap F) (xs.flatMap G) := by
  induction xs with
  | nil => exact .nil
  | cons x xs ih =>
    obtain ⟨hx, hxs⟩ := List.forall_mem_cons.mp h
    exact hx.append (ih hxs)

theorem map {f : α → β} (hf : ∀ a b c, R a b c → S (f a) (f b) (f c)) (h : Splits R as bs) :
    Splits S (as.map f) (bs.map f) := by
  induction h with
  | nil => exact .nil
  | keep a _ ih => exact .keep (f a) ih
  | split hs _ ih => exact .split (hf _ _ _ hs) ih

theorem filter {p : α → Bool} (hp : ∀ a b c, R a b c → p b = p a ∧ p c = p a)
    (h : Splits R as bs) : Splits R (as.filter p) (bs.filter p) := by
  induction h with
  | nil => exact .nil
  | keep a _ ih =>
    rw [List.filter_cons, List.filter_cons]
    split
    · exact .keep a ih
    · exact ih
  | @split a b c _ _ hs _ ih =>
    obtain ⟨hb, hc⟩ := hp a b c hs
    rw [List.filter_cons, List.filter_cons, List.filter_cons, hb, hc]
    split
    · exact .split hs ih
    · exact ih

/-- What selects nothing of what is split selects the same. -/
theorem filter_eq {p : α → Bool} (hp : ∀ a b c, R a b c → p a = false ∧ p b = false ∧ p c = false)
    (h : Splits R as bs) : bs.filter p = as.filter p := by
  induction h with
  | nil => rfl
  | keep a _ ih => rw [List.filter_cons, ih, ← List.filter_cons]
  | split hs _ ih =>
    obtain ⟨ha, hb, hc⟩ := hp _ _ _ hs
    rw [List.filter_cons_of_neg (by simp [hb]), List.filter_cons_of_neg (by simp [hc]),
      List.filter_cons_of_neg (by simp [ha]), ih]

/-- What two elements hold between them is listed in the same order. -/
theorem flatMap_eq {f : α → List β} (hf : ∀ a b c, R a b c → f a = f b ++ f c)
    (h : Splits R as bs) : bs.flatMap f = as.flatMap f := by
  induction h with
  | nil => rfl
  | keep a _ ih => rw [List.flatMap_cons, ih, List.flatMap_cons]
  | split hs _ ih =>
    rw [List.flatMap_cons, List.flatMap_cons, ih, List.flatMap_cons, hf _ _ _ hs,
      List.append_assoc]

theorem any_eq {p : α → Bool} (hp : ∀ a b c, R a b c → p b = p a ∧ p c = p a)
    (h : Splits R as bs) : bs.any p = as.any p := by
  induction h with
  | nil => rfl
  | keep a _ ih => rw [List.any_cons, ih, List.any_cons]
  | split hs _ ih =>
    obtain ⟨hb, hc⟩ := hp _ _ _ hs
    rw [List.any_cons, List.any_cons, ih, hb, hc, List.any_cons, ← Bool.or_assoc, Bool.or_self]

theorem all_eq {p : α → Bool} (hp : ∀ a b c, R a b c → p b = p a ∧ p c = p a)
    (h : Splits R as bs) : bs.all p = as.all p := by
  induction h with
  | nil => rfl
  | keep a _ ih => rw [List.all_cons, ih, List.all_cons]
  | split hs _ ih =>
    obtain ⟨hb, hc⟩ := hp _ _ _ hs
    rw [List.all_cons, List.all_cons, ih, hb, hc, List.all_cons, ← Bool.and_assoc, Bool.and_self]

theorem head?_map {f : α → β} (hf : ∀ a b c, R a b c → f b = f a) (h : Splits R as bs) :
    bs.head?.map f = as.head?.map f := by
  cases h with
  | nil => rfl
  | keep a _ => rfl
  | split hs _ => exact congrArg some (hf _ _ _ hs)

/-- What two elements hold between them is listed, perhaps in another order. -/
theorem flatMap_perm {f : α → List β} (hf : ∀ a b c, R a b c → (f b ++ f c).Perm (f a))
    (h : Splits R as bs) : (bs.flatMap f).Perm (as.flatMap f) := by
  induction h with
  | nil => exact .refl _
  | keep a _ ih => exact ih.append_left (f a)
  | @split a b c as bs hs _ ih =>
    rw [List.flatMap_cons, List.flatMap_cons, ← List.append_assoc]
    exact (hf a b c hs).append ih

/-- A fold for which two elements do what one does. -/
theorem foldr_eq {step : α → β → β} (hs : ∀ a b c, R a b c → ∀ x, step b (step c x) = step a x)
    (h : Splits R as bs) (x : β) : bs.foldr step x = as.foldr step x := by
  induction h with
  | nil => rfl
  | keep a _ ih => rw [List.foldr_cons, ih, List.foldr_cons]
  | split hsplit _ ih =>
    rw [List.foldr_cons, List.foldr_cons, hs _ _ _ hsplit, ih, List.foldr_cons]

/-- What both halves have in common is listed once anyway. -/
theorem distinct_map [DecidableEq β] {f : α → β} (hf : ∀ a b c, R a b c → f b = f a ∧ f c = f a)
    (h : Splits R as bs) : distinct (bs.map f) = distinct (as.map f) := by
  induction h with
  | nil => rfl
  | keep a _ ih =>
    simp only [distinct] at ih
    simp only [distinct, List.map_cons, firstsBy_cons, ih]
  | split hs _ ih =>
    obtain ⟨hb, hc⟩ := hf _ _ _ hs
    simp only [distinct] at ih
    rw [List.map_cons, List.map_cons, hb, hc, distinct_cons_cons_self]
    simp only [distinct, List.map_cons, firstsBy_cons, ih]

end Splits

end Federation
