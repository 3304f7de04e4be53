import Federation.Proofs.Directives.Joining
/-!
# Directives — the order of applications

A merge keeps the first of conflicting applications and drops those that
come later, so what it has kept on the way depends on the order. Whether
there is a conflict does not: as long as none was found, what was kept
are the first occurrences of what came, and no two of what came clash
(`conflicts_eq_nil_iff_clashFree`). So the verdict reads which
applications there are and not where they stand, and a merge without a
conflict keeps each application once (`conflicts_order_independent`).
-/

namespace Federation

namespace Directive

variable {isRepeatable : String → Bool} {there ds es : List Directive} {a b d : Directive}

/-- Two applications clash: they are different applications of one directive, which may be applied
once. -/
def Clash (isRepeatable : String → Bool) (a b : Directive) : Prop :=
  a.name = b.name ∧ isRepeatable a.name = false ∧ a.same b = false

/-- No two applications clash. -/
def ClashFree (isRepeatable : String → Bool) (ds : List Directive) : Prop :=
  ∀ a ∈ ds, ∀ b ∈ ds, ¬ Clash isRepeatable a b

/-- Applications are kept of others, no two of them the same and one for each of the others. -/
structure Keeps (kept ds : List Directive) : Prop where
  distinct : kept.Pairwise fun a b => a.same b = false
  subset : kept ⊆ ds
  covers : ∀ d ∈ ds, ∃ a ∈ kept, a.same d = true

/-- The applications of two lists are the same, each as often, up to their order. -/
def PermSame (ds es : List Directive) : Prop :=
  (ds.map canonical).Perm (es.map canonical)

theorem not_clash_iff : ¬ Clash isRepeatable a b ↔
    (a.name = b.name → isRepeatable a.name = false → a.same b = true) := by
  rw [Clash]
  cases a.same b <;> simp

theorem ClashFree.subset (h : ClashFree isRepeatable es) (hs : ds ⊆ es) :
    ClashFree isRepeatable ds :=
  fun a ha b hb => h a (hs ha) b (hs hb)

theorem Keeps.of_perm {kept : List Directive} (h : Keeps kept ds) (hperm : ds.Perm es) :
    Keeps kept es :=
  ⟨h.distinct, fun _ ha => hperm.mem_iff.mp (h.subset ha),
    fun d hd => h.covers d (hperm.mem_iff.mpr hd)⟩

theorem not_clashFree_iff : ¬ ClashFree isRepeatable ds ↔
    ∃ a ∈ ds, ∃ b ∈ ds, Clash isRepeatable a b := by
  simp [ClashFree]

/-- **One more application clashes with none exactly when it may join.** Those there that are of its
directive are all the same, so it is enough that it is the same as one of them. -/
theorem clashFree_concat_iff : ClashFree isRepeatable (there ++ [d]) ↔
    ClashFree isRepeatable there ∧ Joins there (isRepeatable d.name) d := by
  constructor
  · intro h
    refine ⟨h.subset (List.subset_append_left _ _), ?_⟩
    by_cases hone : ∃ a ∈ there, a.name = d.name
    · obtain ⟨a, ha, hname⟩ := hone
      cases honce : isRepeatable d.name with
      | true => exact .inr (.inl rfl)
      | false =>
        have hsame := not_clash_iff.mp (h a (by simp [ha]) d (by simp)) hname (hname ▸ honce)
        exact .inl (List.any_eq_true.mpr ⟨a, ha, hsame⟩)
    · exact .inr (.inr fun a ha hname => hone ⟨a, ha, hname⟩)
  · rintro ⟨hthere, hjoins⟩
    -- what was there is the same as the new one, if it is of a directive that may be applied once
    have hnew : ∀ a ∈ there, a.name = d.name → isRepeatable d.name = false →
        a.canonical = d.canonical := by
      intro a ha hname honce
      rcases hjoins with hin | hrepeatable | hfirst
      · obtain ⟨c, hc, hcd⟩ := List.any_eq_true.mp hin
        rw [same_iff] at hcd
        have hcname : c.canonical.name = d.canonical.name := by rw [hcd]
        have hac := not_clash_iff.mp (hthere a ha c hc) (hname.trans hcname.symm) (hname ▸ honce)
        exact (same_iff.mp hac).trans hcd
      · rw [honce] at hrepeatable
        cases hrepeatable
      · exact absurd hname (hfirst a ha)
    intro a ha b hb
    rw [not_clash_iff, same_iff]
    intro hname honce
    rw [List.mem_append, List.mem_singleton] at ha hb
    rcases ha with ha | rfl
    · rcases hb with hb | rfl
      · exact same_iff.mp (not_clash_iff.mp (hthere a ha b hb) hname honce)
      · exact hnew a ha hname (hname ▸ honce)
    · rcases hb with hb | rfl
      · exact (hnew b hb hname.symm honce).symm
      · rfl

/-- **A merge meets a conflict exactly when two applications clash**, those that it has kept
included. The induction is over the applications to come; what has been kept are the first
occurrences of those that came, which do not clash. -/
theorem conflicts_eq_nil_iff_clashFree (hthere : ClashFree isRepeatable there) :
    conflicts isRepeatable (firstsBy canonical there) ds = [] ↔
      ClashFree isRepeatable (there ++ ds) := by
  induction ds generalizing there with
  | nil => simp [conflicts, hthere]
  | cons d ds ih =>
    rw [conflicts_cons_eq_nil_iff, joins_firstsBy, List.append_cons]
    constructor
    · rintro ⟨hd, hrest⟩
      rw [add_firstsBy hd] at hrest
      exact (ih (clashFree_concat_iff.mpr ⟨hthere, hd⟩)).mp hrest
    · intro h
      have hstep := h.subset (List.subset_append_left (there ++ [d]) ds)
      have hd := (clashFree_concat_iff.mp hstep).2
      rw [add_firstsBy hd]
      exact ⟨hd, (ih hstep).mpr h⟩

theorem conflicts_nil_iff :
    conflicts isRepeatable [] ds = [] ↔ ClashFree isRepeatable ds := by
  have hthere : ClashFree isRepeatable [] := fun _ ha => by cases ha
  exact conflicts_eq_nil_iff_clashFree hthere

/-- A merge without a conflict, from nothing on, keeps the first occurrences. -/
theorem merge_eq_firstsBy (h : conflicts isRepeatable [] ds = []) :
    merge isRepeatable [] ds = firstsBy canonical ds :=
  @merge_firstsBy isRepeatable [] ds h

/-- First occurrences among the same applications are the same applications. -/
theorem permSame_firstsBy (h : ds.Perm es) :
    PermSame (firstsBy canonical ds) (firstsBy canonical es) := by
  refine (List.perm_ext_iff_of_nodup (nodup_map_firstsBy canonical ds)
    (nodup_map_firstsBy canonical es)).mpr fun c => ?_
  rw [mem_map_firstsBy, mem_map_firstsBy, (h.map canonical).mem_iff]

/-- What merging keeps without a conflict holds each application once. -/
theorem keeps_merge (h : conflicts isRepeatable [] ds = []) :
    Keeps (merge isRepeatable [] ds) ds := by
  rw [merge_eq_firstsBy h]
  refine ⟨?_, (firstsBy_sublist canonical ds).subset, fun d hd => ?_⟩
  · refine (List.pairwise_map.mp (nodup_map_firstsBy canonical ds)).imp fun {a b} hne => ?_
    rw [← Bool.not_eq_true, same_iff]
    exact hne
  · obtain ⟨a, ha, hsame⟩ := exists_mem_firstsBy canonical hd
    exact ⟨a, ha, same_iff.mpr hsame⟩

/-- **Merging does not depend on the order of applications.** Whatever directives may be repeated, a
merge reports a conflict exactly when two applications clash. So on a reordering of the applications
both merges report a conflict or neither does; and when they report none, both keep each application
once, and they keep the same applications up to their order. -/
theorem conflicts_order_independent (isRepeatable : String → Bool) (ds : List Directive) :
    (conflicts isRepeatable [] ds ≠ [] ↔ ∃ a ∈ ds, ∃ b ∈ ds, Clash isRepeatable a b) ∧
    ∀ es, ds.Perm es →
      (conflicts isRepeatable [] ds ≠ [] ↔ conflicts isRepeatable [] es ≠ []) ∧
      (conflicts isRepeatable [] ds = [] →
        Keeps (merge isRepeatable [] ds) ds ∧ Keeps (merge isRepeatable [] es) ds ∧
        PermSame (merge isRepeatable [] ds) (merge isRepeatable [] es)) := by
  refine ⟨?_, fun es h => ?_⟩
  · rw [Ne, conflicts_nil_iff, not_clashFree_iff]
  -- the verdict reads the members only, which a reordering keeps
  have hverdict : conflicts isRepeatable [] ds = [] ↔ conflicts isRepeatable [] es = [] := by
    rw [conflicts_nil_iff, conflicts_nil_iff]
    exact ⟨fun hds => hds.subset h.symm.subset, fun hes => hes.subset h.subset⟩
  refine ⟨not_congr hverdict, fun hnone => ⟨keeps_merge hnone, ?_, ?_⟩⟩
  · exact (keeps_merge (hverdict.mp hnone)).of_perm h.symm
  · rw [merge_eq_firstsBy hnone, merge_eq_firstsBy (hverdict.mp hnone)]
    exact permSame_firstsBy h

/-- An application of `@cost`, which may be applied once. -/
def costing (weight : Int) : Directive :=
  { name := "cost", arguments := [{ name := "weight", value := .int weight }] }

/-- An application of `@tag`, which may be repeated. -/
def tagging (name : String) : Directive :=
  { name := "tag", arguments := [{ name := "name", value := .string name }] }

/-- Two tags and a cost that is applied twice, in two orders. -/
theorem tagging_order_independent :
    [tagging "a", costing 1, tagging "b", costing 1].Perm
      [costing 1, tagging "b", costing 1, tagging "a"] ∧
    conflicts (· == "tag") [] [tagging "a", costing 1, tagging "b", costing 1] = [] ∧
    PermSame (merge (· == "tag") [] [tagging "a", costing 1, tagging "b", costing 1])
      (merge (· == "tag") [] [costing 1, tagging "b", costing 1, tagging "a"]) ∧
    conflicts (· == "tag") [] [costing 1, tagging "b", costing 2, tagging "a"] ≠ [] := by
  have hperm : [tagging "a", costing 1, tagging "b", costing 1].Perm
      [costing 1, tagging "b", costing 1, tagging "a"] := by decide
  have hnone : conflicts (· == "tag") [] [tagging "a", costing 1, tagging "b", costing 1] = [] := by
    decide
  have hclash : Clash (· == "tag") (costing 1) (costing 2) := ⟨rfl, rfl, by decide⟩
  refine ⟨hperm, hnone, ?_, ?_⟩
  · exact (((conflicts_order_independent (· == "tag") _).2 _ hperm).2 hnone).2.2
  · exact (conflicts_order_independent (· == "tag") _).1.mpr
      ⟨costing 1, by simp, costing 2, by simp, hclash⟩

end Directive

end Federation
