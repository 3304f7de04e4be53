import Federation.Sequence
import Federation.Text.Listing
import Mathlib.Data.List.Nodup
import Mathlib.Data.List.SplitBy
/-!
# Sequences — first occurrences and sorting by name

`distinct` keeps first occurrences, and `firstsBy` changes nothing where no
key repeats. Sorting by name is settled by what it yields: a list whose
names are distinct has one order by name (`mergeSort_eq_of_perm`), and a
stable sort is the only sorted list that keeps the elements under each key
as they were (`eq_of_pairwise_of_filter_eq`). A sorted list falls into one
run for each key (`splitBy_eq_map_filter`).
-/

namespace Federation

variable {α κ : Type}

/-! ## First occurrences -/

theorem filter_firstsBy [DecidableEq κ] (key : α → κ) (k : κ) (as : List α) :
    ((firstsBy key as).filter fun a => key a ≠ k) =
      firstsBy key (as.filter fun a => key a ≠ k) := by
  induction as with
  | nil => rfl
  | cons a as ih =>
    by_cases h : key a = k
    · have hf : ∀ b, (decide (key b ≠ k) && decide (key b ≠ key a)) = decide (key b ≠ k) := by
        intro b
        rw [h, Bool.and_self]
      simp only [firstsBy_cons, List.filter_cons, h, ne_eq, not_true_eq_false, decide_false,
        Bool.false_eq_true, if_false, List.filter_filter, Bool.and_self]
      exact ih
    · have hcomm : ∀ bs : List α, ((bs.filter fun b => key b ≠ key a).filter fun b => key b ≠ k) =
          (bs.filter fun b => key b ≠ k).filter fun b => key b ≠ key a := by
        intro bs
        simp only [List.filter_filter, Bool.and_comm]
      rw [firstsBy_cons, List.filter_cons_of_pos (by simpa using h),
        List.filter_cons_of_pos (by simpa using h), firstsBy_cons, hcomm, ih]

/-- **`distinct` keeps first occurrences**, as the library's `eraseDups` does. -/
theorem distinct_eq_eraseDups [DecidableEq α] (as : List α) : distinct as = as.eraseDups := by
  induction h : as.length using Nat.strongRecOn generalizing as with
  | ind n ih =>
    cases as with
    | nil => rfl
    | cons a as =>
      have hlt : (as.filter fun b => b ≠ a).length < n := by
        have := List.length_filter_le (fun b => b ≠ a) as
        simp only [List.length_cons] at h
        omega
      have htail := ih _ hlt (as.filter fun b => b ≠ a) rfl
      simp only [distinct] at htail ⊢
      have hfilter := filter_firstsBy id a as
      simp only [id_eq] at hfilter
      rw [List.eraseDups_cons, firstsBy_cons]
      simp only [id_eq]
      rw [hfilter, htail]
      congr 3
      funext b
      by_cases hb : b = a <;> simp [hb]

/-- Where no key repeats, every element is a first one. -/
theorem firstsBy_eq_self [DecidableEq κ] {key : α → κ} {as : List α}
    (h : (as.map key).Nodup) : firstsBy key as = as := by
  induction as with
  | nil => rfl
  | cons a as ih =>
    rw [List.map_cons, List.nodup_cons] at h
    rw [firstsBy_cons, ih h.2, List.filter_eq_self.mpr]
    intro b hb
    simp only [ne_eq, decide_not, Bool.not_eq_eq_eq_not, Bool.not_true, decide_eq_false_iff_not]
    intro hk
    exact h.1 (hk ▸ List.mem_map_of_mem hb)

theorem distinct_eq_self [DecidableEq α] {as : List α} (h : as.Nodup) : distinct as = as :=
  firstsBy_eq_self (by rwa [List.map_id])

/-- First occurrences are kept by a map that tells keys apart as they were. -/
theorem firstsBy_map {β ι : Type} [DecidableEq κ] [DecidableEq ι] (key : α → κ) (key' : β → ι)
    {f : α → β} (h : ∀ a b, key' (f a) = key' (f b) ↔ key a = key b) (as : List α) :
    firstsBy key' (as.map f) = (firstsBy key as).map f := by
  induction as with
  | nil => rfl
  | cons a as ih =>
    rw [List.map_cons, firstsBy_cons, firstsBy_cons, ih, List.map_cons, List.filter_map]
    congr 2
    refine List.filter_congr fun b _ => ?_
    simp only [Function.comp, ne_eq, h]

section

variable [DecidableEq κ] (key : α → κ)

/-- First occurrences have the same keys. -/
theorem mem_map_firstsBy {as : List α} {k : κ} :
    k ∈ (firstsBy key as).map key ↔ k ∈ as.map key := by
  constructor
  · exact fun h => ((firstsBy_sublist key as).map key).subset h
  · intro h
    obtain ⟨a, ha, rfl⟩ := List.mem_map.mp h
    obtain ⟨b, hb, hk⟩ := exists_mem_firstsBy key ha
    exact hk ▸ List.mem_map_of_mem hb

/-- **The first occurrences in two lists** are those of the first, and then those of the second
under new keys. -/
theorem firstsBy_append (as bs : List α) :
    firstsBy key (as ++ bs) =
      firstsBy key as ++ (firstsBy key bs).filter fun b => key b ∉ as.map key := by
  induction as with
  | nil => simp
  | cons a as ih =>
    rw [List.cons_append, firstsBy_cons, ih, firstsBy_cons, List.filter_append, List.filter_filter,
      List.cons_append]
    congr 3
    funext b
    simp [eq_comm]

theorem firstsBy_prefix (as bs : List α) : firstsBy key as <+: firstsBy key (as ++ bs) :=
  ⟨_, (firstsBy_append key as bs).symm⟩

theorem firstsBy_concat_of_mem {as : List α} {a : α} (h : key a ∈ as.map key) :
    firstsBy key (as ++ [a]) = firstsBy key as := by
  rw [firstsBy_append, firstsBy_cons, firstsBy_nil, List.filter_nil,
    List.filter_cons_of_neg (by simpa using h), List.filter_nil, List.append_nil]

theorem firstsBy_concat_of_not_mem {as : List α} {a : α} (h : key a ∉ as.map key) :
    firstsBy key (as ++ [a]) = firstsBy key as ++ [a] := by
  rw [firstsBy_append, firstsBy_cons, firstsBy_nil, List.filter_nil,
    List.filter_cons_of_pos (by simpa using h), List.filter_nil]

end

/-- Elements under one key have one first. -/
theorem firstsBy_of_key [DecidableEq κ] {key : α → κ} {k : κ} {as : List α}
    (h : ∀ a ∈ as, key a = k) : firstsBy key as = as.head?.toList := by
  cases as with
  | nil => rfl
  | cons a as =>
    obtain ⟨ha, has⟩ := List.forall_mem_cons.mp h
    rw [firstsBy_cons, List.filter_eq_nil_iff.mpr]
    · rfl
    · intro b hb
      simp [ha, has b ((firstsBy_sublist key as).subset hb)]

/-- The first elements of parts that have distinct keys are the first of each part. -/
theorem firstsBy_flatMap {β : Type} [DecidableEq κ] {key : β → κ} {rank : α → κ}
    {f : α → List β} {as : List α} (hnodup : (as.map rank).Nodup)
    (hkey : ∀ a ∈ as, ∀ b ∈ f a, key b = rank a) :
    firstsBy key (as.flatMap f) = as.filterMap fun a => (f a).head? := by
  induction as with
  | nil => rfl
  | cons a as ih =>
    obtain ⟨hnew, hnodup⟩ := List.nodup_cons.mp hnodup
    obtain ⟨ha, has⟩ := List.forall_mem_cons.mp hkey
    -- the elements of later parts have other keys
    have hkeep : ∀ b ∈ firstsBy key (as.flatMap f), key b ∉ (f a).map key := by
      intro b hb hmem
      obtain ⟨c, hc, hcb⟩ := List.mem_map.mp hmem
      obtain ⟨a', ha', hb⟩ := List.mem_flatMap.mp ((firstsBy_sublist key _).subset hb)
      exact hnew (List.mem_map.mpr ⟨a', ha', by rw [← has a' ha' b hb, ← hcb, ha c hc]⟩)
    rw [List.flatMap_cons, firstsBy_append, firstsBy_of_key ha,
      List.filter_eq_self.mpr fun b hb => decide_eq_true (hkeep b hb), ih hnodup has,
      List.filterMap_cons]
    cases (f a).head? <;> rfl

/-- No key repeats when every key has one element. -/
theorem nodup_map_of_filter_le [DecidableEq κ] {key : α → κ} {as : List α}
    (h : ∀ a ∈ as, (as.filter fun b => key b == key a).length ≤ 1) : (as.map key).Nodup := by
  induction as with
  | nil => exact List.nodup_nil
  | cons a as ih =>
    rw [List.map_cons, List.nodup_cons]
    constructor
    · intro hmem
      obtain ⟨b, hb, hk⟩ := List.mem_map.mp hmem
      have hpos : 0 < (as.filter fun c => key c == key a).length :=
        List.length_pos_of_mem (List.mem_filter.mpr ⟨hb, by simpa using hk⟩)
      have := h a List.mem_cons_self
      simp only [List.filter_cons, beq_self_eq_true, if_true, List.length_cons] at this
      omega
    · refine ih fun b hb => Nat.le_trans ?_ (h b (List.mem_cons_of_mem a hb))
      exact ((List.sublist_cons_self a as).filter _).length_le

/-- Where no key repeats, an element is the only one under its key. -/
theorem filter_eq_singleton [DecidableEq κ] {key : α → κ} {as : List α} (h : (as.map key).Nodup)
    {a : α} (ha : a ∈ as) : (as.filter fun b => key b == key a) = [a] := by
  induction as with
  | nil => cases ha
  | cons c as ih =>
    rw [List.map_cons, List.nodup_cons] at h
    rcases List.mem_cons.mp ha with rfl | ha
    · rw [List.filter_cons_of_pos (by simp), List.filter_eq_nil_iff.mpr]
      intro b hb heq
      exact h.1 (beq_iff_eq.mp heq ▸ List.mem_map_of_mem hb)
    · rw [List.filter_cons_of_neg, ih h.2 ha]
      intro heq
      exact h.1 (beq_iff_eq.mp heq ▸ List.mem_map_of_mem ha)

/-- Where no key repeats, reordering keeps the elements under each key. -/
theorem filter_eq_of_perm [DecidableEq κ] (key : α → κ) {as bs : List α} (h : as.Perm bs)
    (hn : (as.map key).Nodup) (k : κ) :
    (as.filter fun a => key a == k) = bs.filter fun a => key a == k := by
  cases hfilter : as.filter fun a => key a == k with
  | nil =>
    have hperm := h.filter fun a => key a == k
    rw [hfilter] at hperm
    exact hperm.nil_eq
  | cons a others =>
    have ha : a ∈ as.filter fun a => key a == k := by
      rw [hfilter]
      exact List.mem_cons_self
    obtain ⟨hmem, hk⟩ := List.mem_filter.mp ha
    rw [beq_iff_eq] at hk
    rw [← hfilter, ← hk, filter_eq_singleton hn hmem,
      filter_eq_singleton ((h.map key).nodup_iff.mp hn) (h.mem_iff.mp hmem)]

/-- Lists with the same elements under each key, in the same order there, are permutations. -/
theorem perm_of_filter_eq [DecidableEq κ] (key : α → κ) {as bs : List α}
    (h : ∀ k, as.filter (key · = k) = bs.filter (key · = k)) : as.Perm bs := by
  classical
  rw [List.perm_iff_count]
  intro a
  have hcount : ∀ cs : List α, (cs.filter (key · = key a)).count a = cs.count a :=
    fun cs => List.count_filter (decide_eq_true rfl)
  rw [← hcount as, h, hcount bs]

/-- Where no key repeats, the key of an element is none of those before it. -/
theorem not_mem_map_of_nodup {key : α → κ} {as bs : List α} {a : α}
    (h : ((as ++ a :: bs).map key).Nodup) : key a ∉ as.map key := by
  intro hmem
  rw [List.map_append, List.map_cons] at h
  exact (List.nodup_append.mp h).2.2 _ hmem _ List.mem_cons_self rfl

/-- Keys do not repeat with one more element exactly when its key is new. -/
theorem nodup_map_concat_iff {key : α → κ} {as : List α} {a : α} :
    ((as ++ [a]).map key).Nodup ↔ (as.map key).Nodup ∧ key a ∉ as.map key := by
  rw [List.map_append, List.map_singleton, List.nodup_append]
  constructor
  · exact fun h => ⟨h.1, fun hmem => h.2.2 _ hmem _ List.mem_cons_self rfl⟩
  · rintro ⟨h, hnew⟩
    refine ⟨h, List.nodup_singleton _, fun k hk k' hk' heq => hnew ?_⟩
    rwa [← List.mem_singleton.mp hk', ← heq]

/-- The elements under different keys, read key by key, are under each key what they were. -/
theorem filter_flatMap_filter [DecidableEq κ] (key : α → κ) {keys : List κ} (hkeys : keys.Nodup)
    (as : List α) (k : κ) :
    ((keys.flatMap fun k' => as.filter fun a => key a == k').filter fun a => key a == k) =
      if k ∈ keys then as.filter fun a => key a == k else [] := by
  induction keys with
  | nil => simp
  | cons k' keys ih =>
    obtain ⟨hnew, hkeys⟩ := List.nodup_cons.mp hkeys
    rw [List.flatMap_cons, List.filter_append, ih hkeys]
    by_cases hk : k = k'
    · subst hk
      rw [if_neg hnew, if_pos List.mem_cons_self, List.append_nil, List.filter_filter]
      simp only [Bool.and_self]
    · have hnone : (as.filter fun a => key a == k').filter (fun a => key a == k) = [] := by
        refine List.filter_eq_nil_iff.mpr fun a ha hak => hk ?_
        rw [← beq_iff_eq.mp hak, beq_iff_eq.mp (List.mem_filter.mp ha).2]
      rw [hnone, List.nil_append]
      simp only [List.mem_cons, hk, false_or]

/-- Elements with their places: the places increase. -/
theorem pairwise_snd_zipIdx (as : List α) : as.zipIdx.Pairwise fun p q => p.2 < q.2 := by
  have hplaces : (as.zipIdx.map (·.2)).Pairwise (· < ·) := by
    rw [List.zipIdx_map_snd]
    exact List.pairwise_lt_range'
  exact List.pairwise_map.mp hplaces

/-- **Reading all elements key by key is a permutation** of them. -/
theorem flatMap_filter_perm [DecidableEq κ] (key : α → κ) {keys : List κ} (hkeys : keys.Nodup)
    {as : List α} (hmem : ∀ a ∈ as, key a ∈ keys) :
    (keys.flatMap fun k => as.filter fun a => key a == k).Perm as := by
  refine perm_of_filter_eq key fun k => ?_
  refine (filter_flatMap_filter key hkeys as k).trans ?_
  split
  · rfl
  · rename_i hk
    refine (List.filter_eq_nil_iff.mpr fun a ha hak => hk ?_).symm
    exact of_decide_eq_true hak ▸ hmem a ha

/-- The elements under each key stand next to one another. -/
def Contiguous [DecidableEq κ] (key : α → κ) (as : List α) : Prop :=
  ∀ k, ∃ before after, as = before ++ (as.filter fun a => key a == k) ++ after

/-- A map that keeps every element keeps the list. -/
theorem map_eq_self {f : α → α} {as : List α} (h : ∀ a ∈ as, f a = a) : as.map f = as :=
  (List.map_congr_left h).trans (List.map_id as)

/-- What elements give is what the chosen ones give, if the others give nothing. -/
theorem flatMap_filter_of_eq_nil {β : Type} {f : α → List β} {p : α → Bool} {as : List α}
    (h : ∀ a ∈ as, p a = false → f a = []) : (as.filter p).flatMap f = as.flatMap f := by
  induction as with
  | nil => rfl
  | cons a as ih =>
    have hrest := ih fun b hb => h b (List.mem_cons_of_mem a hb)
    rw [List.flatMap_cons]
    cases hp : p a with
    | false => rw [List.filter_cons_of_neg (by simp [hp]), hrest, h a List.mem_cons_self hp,
        List.nil_append]
    | true => rw [List.filter_cons_of_pos hp, List.flatMap_cons, hrest]

/-! ## The first of optional values -/

section

variable {β γ : Type} {f : α → List β} {g : β → Option γ}

theorem findSome?_flatMap (as : List α) :
    (as.flatMap f).findSome? g = as.findSome? fun a => (f a).findSome? g := by
  rw [← List.head?_filterMap, List.filterMap_flatMap, List.head?_flatMap]
  simp only [List.head?_filterMap]

theorem findSome?_congr {as : List α} {f g : α → Option β} (h : ∀ a ∈ as, f a = g a) :
    as.findSome? f = as.findSome? g := by
  rw [← List.head?_filterMap, ← List.head?_filterMap, List.filterMap_congr h]

/-- Where one element at most has a value, reordering keeps the first value. -/
theorem findSome?_eq_of_perm {as bs : List α} {f : α → Option β} (h : as.Perm bs)
    (hf : ∀ a ∈ as, ∀ b ∈ as, (f a).isSome = true → (f b).isSome = true → a = b) :
    as.findSome? f = bs.findSome? f := by
  cases hfirst : as.findSome? f with
  | none =>
    rw [List.findSome?_eq_none_iff] at hfirst
    exact (List.findSome?_eq_none_iff.mpr fun b hb => hfirst b (h.mem_iff.mpr hb)).symm
  | some x =>
    obtain ⟨a, ha, hax⟩ := List.exists_of_findSome?_eq_some hfirst
    have hsome : (f a).isSome = true := by
      rw [hax]
      rfl
    -- the other list has a first value too, and only one element can have it
    obtain ⟨y, hy⟩ := Option.isSome_iff_exists.mp
      (List.findSome?_isSome_iff.mpr ⟨a, h.mem_iff.mp ha, hsome⟩)
    obtain ⟨b, hb, hby⟩ := List.exists_of_findSome?_eq_some hy
    obtain rfl := hf a ha b (h.mem_iff.mpr hb) hsome (by rw [hby]; rfl)
    rw [hy, ← hax, hby]

/-- The first value is that of the first element that has one. -/
theorem bind_head?_filter_isSome {f : α → Option β} (as : List α) :
    ((as.filter fun a => (f a).isSome).head?.bind f) = as.findSome? f := by
  induction as with
  | nil => rfl
  | cons a as ih =>
    cases hf : f a with
    | none =>
      rw [List.filter_cons_of_neg (by simp [hf]), ih,
        List.findSome?_cons_of_isNone (by simp [hf])]
    | some b =>
      rw [List.filter_cons_of_pos (by simp [hf]), List.head?_cons,
        List.findSome?_cons_of_isSome (by simp [hf])]
      rfl

end

/-! ## Sorting by name -/

theorem Text.stringLe_iff {a b : String} : Text.stringLe a b = true ↔ a ≤ b :=
  decide_eq_true_iff

/-- Names in strict order are distinct. -/
theorem nodup_of_pairwise_lt {names : List String} (h : names.Pairwise (· < ·)) :
    names.Nodup := by
  refine h.imp ?_
  rintro a b hlt rfl
  exact String.lt_irrefl _ hlt

section

variable (name : α → String)

theorem stringLe_trans (a b c : α) (h : Text.stringLe (name a) (name b) = true)
    (h' : Text.stringLe (name b) (name c) = true) : Text.stringLe (name a) (name c) = true := by
  rw [Text.stringLe_iff] at *
  exact String.le_trans h h'

theorem stringLe_total (a b : α) :
    (Text.stringLe (name a) (name b) || Text.stringLe (name b) (name a)) = true := by
  rw [Bool.or_eq_true, Text.stringLe_iff, Text.stringLe_iff]
  exact String.le_total _ _

/-- A list that is sorted by name, and has no name twice, has strictly increasing names. -/
theorem pairwise_mergeSort_lt {as : List α} (h : (as.map name).Nodup) :
    (as.mergeSort fun a b => Text.stringLe (name a) (name b)).Pairwise
      fun a b => name a < name b := by
  have hle := List.pairwise_mergeSort (stringLe_trans name) (stringLe_total name) as
  have hne : (as.mergeSort fun a b => Text.stringLe (name a) (name b)).Pairwise
      fun a b => name a ≠ name b :=
    List.pairwise_map.mp (((List.mergeSort_perm as _).map name).nodup_iff.mpr h)
  refine (hle.and hne).imp ?_
  rintro a b ⟨hab, hn⟩
  exact Std.lt_of_le_of_ne (Text.stringLe_iff.mp hab) hn

/-- **A list whose names are distinct has one order by name.** -/
theorem mergeSort_eq_of_perm {as bs : List α} (h : as.Perm bs) (hn : (as.map name).Nodup) :
    (as.mergeSort fun a b => Text.stringLe (name a) (name b)) =
      bs.mergeSort fun a b => Text.stringLe (name a) (name b) := by
  have hasymm : ∀ a b : α, name a < name b → name b < name a → a = b := fun a b hab hba =>
    absurd (String.lt_trans hab hba) (String.lt_irrefl _)
  exact List.Perm.eq_of_pairwise (fun a b _ _ => hasymm a b) (pairwise_mergeSort_lt name hn)
    (pairwise_mergeSort_lt name ((h.map name).nodup_iff.mp hn))
    ((List.mergeSort_perm as _).trans (h.trans (List.mergeSort_perm bs _).symm))

end

/-! ## Stable sorting -/

section

variable [LE κ] [Std.IsLinearOrder κ]

/-- **A sorted list is settled by its elements under each key.** -/
theorem eq_of_pairwise_of_filter_eq [DecidableEq κ] (key : α → κ) {as bs : List α}
    (ha : as.Pairwise fun a b => key a ≤ key b) (hb : bs.Pairwise fun a b => key a ≤ key b)
    (h : ∀ k, (as.filter fun a => key a == k) = bs.filter fun a => key a == k) : as = bs := by
  induction as generalizing bs with
  | nil =>
    cases bs with
    | nil => rfl
    | cons b bs => simpa using h (key b)
  | cons a as ih =>
    cases bs with
    | nil => simpa using h (key a)
    | cons b bs =>
      rw [List.pairwise_cons] at ha hb
      -- the first elements bound one another, so they stand under one key
      have hmem : a ∈ b :: bs := by
        have : a ∈ (b :: bs).filter fun c => key c == key a := by
          rw [← h]
          simp
        exact (List.mem_filter.mp this).1
      have hmem' : b ∈ a :: as := by
        have : b ∈ (a :: as).filter fun c => key c == key b := by
          rw [h]
          simp
        exact (List.mem_filter.mp this).1
      have hle : key b ≤ key a := by
        rcases List.mem_cons.mp hmem with rfl | hm
        · exact Std.le_refl _
        · exact hb.1 a hm
      have hle' : key a ≤ key b := by
        rcases List.mem_cons.mp hmem' with rfl | hm
        · exact Std.le_refl _
        · exact ha.1 b hm
      have hk : key a = key b := Std.le_antisymm hle' hle
      have hhead := h (key a)
      rw [List.filter_cons_of_pos (by simp), List.filter_cons_of_pos (by simp [hk])] at hhead
      obtain ⟨rfl, -⟩ := List.cons.inj hhead
      rw [ih ha.2 hb.2 fun k => ?_]
      have := h k
      by_cases hak : key a = k <;> simpa [List.filter_cons, hak] using this

/-- **In a sorted list the elements under each key stand next to one another**: those with lesser
keys are before them, and those with greater keys after them. -/
theorem contiguous_of_pairwise [DecidableEq κ] [DecidableLE κ] (key : α → κ) {as : List α}
    (h : as.Pairwise fun a b => key a ≤ key b) : Contiguous key as := by
  intro k
  refine ⟨as.filter fun a => !decide (k ≤ key a), as.filter fun a => !decide (key a ≤ k), ?_⟩
  induction as with
  | nil => rfl
  | cons a as ih =>
    obtain ⟨ha, has⟩ := List.pairwise_cons.mp h
    -- where an element has the key or a greater one, none after it has a lesser one
    have hnone : k ≤ key a → (as.filter fun b => !decide (k ≤ key b)) = [] := fun hk =>
      List.filter_eq_nil_iff.mpr fun b hb => by simp [Std.le_trans hk (ha b hb)]
    by_cases heq : key a = k
    · have hle : k ≤ key a := heq ▸ Std.le_refl _
      have hle' : key a ≤ k := heq ▸ Std.le_refl _
      have ih := ih has
      rw [hnone hle, List.nil_append] at ih
      rw [List.filter_cons_of_neg (by simp [hle]), hnone hle, List.filter_cons_of_pos (by simp [heq]),
        List.filter_cons_of_neg (by simp [hle']), List.nil_append, List.cons_append, ← ih]
    · by_cases hle : k ≤ key a
      · have hnot : ¬ key a ≤ k := fun hle' => heq (Std.le_antisymm hle' hle)
        have hgreater : ∀ b ∈ as, ¬ key b ≤ k := fun b hb hb' =>
          hnot (Std.le_trans (ha b hb) hb')
        have hempty : (as.filter fun b => key b == k) = [] :=
          List.filter_eq_nil_iff.mpr fun b hb hbk =>
            hgreater b hb (beq_iff_eq.mp hbk ▸ Std.le_refl _)
        rw [List.filter_cons_of_neg (by simp [hle]), hnone hle, List.filter_cons_of_neg (by simp [heq]),
          hempty, List.filter_cons_of_pos (by simp [hnot]), List.filter_eq_self.mpr fun b hb => by
            simp [hgreater b hb]]
        rfl
      · have hle' : key a ≤ k := (Std.le_total (a := k) (b := key a)).resolve_left hle
        rw [List.filter_cons_of_pos (by simp [hle]), List.filter_cons_of_neg (by simp [heq]),
          List.filter_cons_of_neg (by simp [hle']), List.cons_append, List.cons_append, ← ih has]

/-- **A sorted list falls into runs of equal keys**: for each key in order, the elements under it. -/
theorem splitBy_eq_map_filter [DecidableEq κ] (key : α → κ) {as : List α} {keys : List κ}
    (hsorted : as.Pairwise fun a b => key a ≤ key b)
    (hkeys : keys.Pairwise fun a b => a ≤ b ∧ a ≠ b) (hmem : ∀ k, k ∈ keys ↔ k ∈ as.map key) :
    (as.splitBy fun a b => key a == key b) =
      keys.map fun k => as.filter fun a => key a == k := by
  have hkey : ∀ k, ∀ a ∈ as.filter (fun a => key a == k), key a = k := fun k a ha =>
    beq_iff_eq.mp (List.mem_filter.mp ha).2
  have hne : ∀ k ∈ keys, as.filter (fun a => key a == k) ≠ [] := by
    intro k hk
    obtain ⟨a, ha, rfl⟩ := List.mem_map.mp ((hmem k).mp hk)
    exact List.ne_nil_of_mem (List.mem_filter.mpr ⟨ha, beq_self_eq_true _⟩)
  refine List.splitBy_eq_iff.mpr ⟨?_, ?_, ?_, ?_⟩
  · -- read key by key, a sorted list is what it was
    rw [← List.flatMap_def]
    refine eq_of_pairwise_of_filter_eq key hsorted ?_ fun k => ?_
    · rw [List.pairwise_flatMap]
      refine ⟨fun k _ => hsorted.sublist List.filter_sublist, hkeys.imp ?_⟩
      rintro k k' ⟨hle, -⟩ a ha b hb
      rwa [hkey k a ha, hkey k' b hb]
    · rw [filter_flatMap_filter key (hkeys.imp fun h => h.2)]
      split
      · rfl
      · rename_i hk
        rw [hmem] at hk
        refine List.filter_eq_nil_iff.mpr fun a ha hak => hk ?_
        exact List.mem_map.mpr ⟨a, ha, beq_iff_eq.mp hak⟩
  · intro hnil
    obtain ⟨k, hk, hempty⟩ := List.mem_map.mp hnil
    exact hne k hk hempty
  · intro run hrun
    obtain ⟨k, -, rfl⟩ := List.mem_map.mp hrun
    refine (List.pairwise_of_forall_mem_list fun a ha b hb => ?_).isChain
    rw [hkey k a ha, hkey k b hb, beq_self_eq_true]
  · refine (List.pairwise_map.mpr (hkeys.imp_of_mem fun {k k'} hk hk' h => ?_)).isChain
    refine ⟨hne k hk, hne k' hk', beq_eq_false_iff_ne.mpr ?_⟩
    rw [hkey k _ (List.getLast_mem _), hkey k' _ (List.head_mem _)]
    exact h.2

variable [DecidableLE κ] (key : α → κ)

theorem leBy_trans (a b c : α) (h : decide (key a ≤ key b) = true)
    (h' : decide (key b ≤ key c) = true) : decide (key a ≤ key c) = true := by
  rw [decide_eq_true_eq] at *
  exact Std.le_trans h h'

theorem leBy_total (a b : α) :
    (decide (key a ≤ key b) || decide (key b ≤ key a)) = true := by
  rw [Bool.or_eq_true, decide_eq_true_eq, decide_eq_true_eq]
  exact Std.le_total

/-- Sorting puts the elements in the order of their keys. -/
theorem pairwise_mergeSort_le (as : List α) :
    (as.mergeSort fun a b => decide (key a ≤ key b)).Pairwise fun a b => key a ≤ key b :=
  (List.pairwise_mergeSort (leBy_trans key) (leBy_total key) as).imp fun h => of_decide_eq_true h

/-- Sorting keeps the elements under each key as they were. -/
theorem filter_mergeSort_eq [DecidableEq κ] (as : List α) (k : κ) :
    ((as.mergeSort fun a b => decide (key a ≤ key b)).filter fun a => key a == k) =
      as.filter fun a => key a == k := by
  have hsub : (as.filter fun a => key a == k).Sublist
      (as.mergeSort fun a b => decide (key a ≤ key b)) := by
    refine List.sublist_mergeSort (leBy_trans key) (leBy_total key) ?_ List.filter_sublist
    refine List.pairwise_of_forall_mem_list fun a ha b hb => ?_
    have ha' := (List.mem_filter.mp ha).2
    have hb' := (List.mem_filter.mp hb).2
    rw [beq_iff_eq] at ha' hb'
    rw [ha', hb', decide_eq_true_eq]
    exact Std.le_refl k
  have hfilter : (as.filter fun a => key a == k).Sublist
      ((as.mergeSort fun a b => decide (key a ≤ key b)).filter fun a => key a == k) := by
    have := hsub.filter fun a => key a == k
    rwa [List.filter_filter, funext fun a => Bool.and_self _] at this
  exact (hfilter.eq_of_length ((List.mergeSort_perm as _).filter _).length_eq.symm).symm

end

section

variable {le : α → α → Bool}
variable (htrans : ∀ a b c, le a b = true → le b c = true → le a c = true)
variable (htotal : ∀ a b, (le a b || le b a) = true)
include htrans htotal

/-- A stable sort puts an element in front of those that it may come before. -/
theorem mergeSort_cons_eq (a : α) (as : List α) :
    (a :: as).mergeSort le =
      ((as.mergeSort le).filter fun b => !le a b) ++ a :: (as.mergeSort le).filter (le a) := by
  obtain ⟨before, after, hsort, hrest, hbefore⟩ := List.mergeSort_cons htrans htotal a as
  have hsorted := List.pairwise_mergeSort htrans htotal (a :: as)
  rw [hsort, List.pairwise_append, List.pairwise_cons] at hsorted
  have hafter : ∀ b ∈ after, le a b = true := hsorted.2.1.1
  rw [hsort, hrest, List.filter_append, List.filter_append, List.filter_eq_self.mpr hbefore,
    List.filter_eq_self.mpr hafter,
    List.filter_eq_nil_iff.mpr fun b hb => by simp [hafter b hb],
    List.filter_eq_nil_iff.mpr fun b hb => by simpa using hbefore b hb,
    List.append_nil, List.nil_append]

/-- The first of sorted elements stays first, unless the one in front comes before it. -/
theorem head?_mergeSort_cons (a : α) (as : List α) :
    ((a :: as).mergeSort le).head? =
      some (((as.mergeSort le).head?.filter fun b => !le a b).getD a) := by
  have hsorted := List.pairwise_mergeSort htrans htotal as
  rw [mergeSort_cons_eq htrans htotal]
  cases hsort : as.mergeSort le with
  | nil => rfl
  | cons b bs =>
    rw [hsort, List.pairwise_cons] at hsorted
    cases hab : le a b with
    | false => simp [hab, Option.filter]
    | true =>
      -- what comes before the first one comes before all
      have hall : ∀ x ∈ b :: bs, ¬(!le a x) = true := by
        intro x hx
        rcases List.mem_cons.mp hx with rfl | hx
        · simp [hab]
        · simp [htrans a b x hab (hsorted.1 x hx)]
      rw [List.filter_eq_nil_iff.mpr hall]
      simp [hab, Option.filter]

/-- **A stable sort puts what comes before everything else first, as it was.** -/
theorem mergeSort_eq_filter_append {p : α → Bool} (hle : ∀ a b, p a = true → le a b = true)
    (hlt : ∀ a b, p a = true → p b = false → le b a = false) (as : List α) :
    as.mergeSort le = as.filter p ++ (as.filter fun a => !p a).mergeSort le := by
  induction as with
  | nil => rw [List.filter_nil, List.filter_nil, List.mergeSort_nil, List.append_nil]
  | cons a as ih =>
    rw [mergeSort_cons_eq htrans htotal, ih, List.filter_append, List.filter_append]
    cases hp : p a with
    | true =>
      have hall : ∀ bs : List α, bs.filter (le a) = bs ∧ (bs.filter fun b => !le a b) = [] := by
        intro bs
        simp [hle a _ hp]
      rw [(hall _).1, (hall _).1, (hall _).2, (hall _).2, List.filter_cons_of_pos hp,
        List.filter_cons_of_neg (by simp [hp])]
      rfl
    | false =>
      have hfirst : ∀ b ∈ as.filter p, le a b = false := fun b hb =>
        hlt b a (List.mem_filter.mp hb).2 hp
      have hkept : ((as.filter p).filter fun b => !le a b) = as.filter p :=
        List.filter_eq_self.mpr fun b hb => by simp [hfirst b hb]
      have hnone : (as.filter p).filter (le a) = [] :=
        List.filter_eq_nil_iff.mpr fun b hb => by simp [hfirst b hb]
      rw [List.filter_cons_of_neg (by simp [hp]), List.filter_cons_of_pos (by simp [hp]),
        mergeSort_cons_eq htrans htotal a, hkept, hnone, List.nil_append, List.append_assoc]

end

end Federation
