import Federation.Proofs.Subgraph.Collection
import Mathlib.Data.List.NodupEquivFin
import Mathlib.Logic.Equiv.Basic
import Mathlib.Order.Hom.Basic
/-!
# Subgraphs — ranks among other services

When services come in another order, they are read in the same order of
their names and only their ranks change, each to one of its own: what
they declare is what they declared, under other ranks
(`exists_rerank_collect`). When more services come, those that were
there keep the order of their ranks, so that what only they declare is
what they declared, under ranks in the same order
(`exists_rerank_collect_of_sublist`).
-/

namespace Federation

namespace Declared

variable {α : Type}

/-- The declaration of a service that has another rank. -/
def rerank (ρ : Nat → Nat) (d : Declared α) : Declared α :=
  { d with rank := ρ d.rank }

end Declared

/-- **Places in a permuted list are places in the list, renamed one to one.** The induction keeps
the names of the places before the list. -/
theorem exists_zipIdx_perm {α : Type} {as bs : List α} (h : as.Perm bs) (k : Nat) :
    ∃ ρ : Nat → Nat, Function.Injective ρ ∧ (∀ i < k, ρ i = i) ∧
      ((as.zipIdx k).map fun p => (p.1, ρ p.2)).Perm (bs.zipIdx k) := by
  induction h generalizing k with
  | nil => exact ⟨id, Function.injective_id, fun _ _ => rfl, List.Perm.refl _⟩
  | cons a _ ih =>
    obtain ⟨ρ, hinj, hfix, hperm⟩ := ih (k + 1)
    refine ⟨ρ, hinj, fun i hi => hfix i (by omega), ?_⟩
    rw [List.zipIdx_cons, List.zipIdx_cons, List.map_cons, hfix k (by omega)]
    exact hperm.cons _
  | swap a b as =>
    -- the two places are swapped, and those after them stay
    have hrest : (as.zipIdx (k + 1 + 1)).map (fun p => (p.1, Equiv.swap k (k + 1) p.2)) =
        as.zipIdx (k + 1 + 1) := by
      refine map_eq_self fun p hp => ?_
      have hle := List.le_snd_of_mem_zipIdx hp
      rw [Equiv.swap_apply_of_ne_of_ne (by omega) (by omega)]
    refine ⟨Equiv.swap k (k + 1), (Equiv.swap k (k + 1)).injective, fun i hi => ?_, ?_⟩
    · exact Equiv.swap_apply_of_ne_of_ne (by omega) (by omega)
    · simp only [List.zipIdx_cons, List.map_cons, hrest, Equiv.swap_apply_left,
        Equiv.swap_apply_right]
      exact List.Perm.swap _ _ _
  | trans _ _ ih ih' =>
    obtain ⟨ρ, hinj, hfix, hperm⟩ := ih k
    obtain ⟨ρ', hinj', hfix', hperm'⟩ := ih' k
    refine ⟨ρ' ∘ ρ, hinj'.comp hinj, fun i hi => ?_, ?_⟩
    · rw [Function.comp, hfix i hi, hfix' i hi]
    · have h := (hperm.map fun p => (p.1, ρ' p.2)).trans hperm'
      rwa [List.map_map] at h

namespace Subgraphs

variable {s s' : Subgraphs}

/-- The services in the order of their names are the same. -/
theorem inOrder_eq_of_perm (h : s.services.Perm s'.services) : s.inOrder = s'.inOrder :=
  mergeSort_eq_of_perm Subgraph.name h s.nodup

theorem exists_byName_eq (h : s.services.Perm s'.services) :
    ∃ ρ : Nat → Nat, Function.Injective ρ ∧ s'.byName = s.byName.map fun p => (p.1, ρ p.2) := by
  obtain ⟨ρ, hinj, -, hperm⟩ := exists_zipIdx_perm h 0
  have hnodup : ((s.services.zipIdx.map fun p => (p.1, ρ p.2)).map fun p => p.1.name).Nodup := by
    rw [List.map_map]
    exact s.nodup_name_zipIdx
  -- names are distinct, so what the places are called cannot change the order by name
  have hsort := mergeSort_eq_of_perm (fun p : Subgraph × Nat => p.1.name) hperm hnodup
  have hmap := List.map_mergeSort (f := fun p : Subgraph × Nat => (p.1, ρ p.2))
    (l := s.services.zipIdx) (r := fun a b => Text.stringLe a.1.name b.1.name)
    (s := fun a b => Text.stringLe a.1.name b.1.name) fun _ _ _ _ => rfl
  exact ⟨ρ, hinj, hsort.symm.trans hmap.symm⟩

/-- **What services declare in another order** is what they declare, under other ranks. -/
theorem exists_rerank_collect (h : s.services.Perm s'.services) :
    ∃ ρ : Nat → Nat, Function.Injective ρ ∧ ∀ (α : Type) (f : Subgraph → List α),
      s'.collect f = (s.collect f).map (Declared.rerank ρ) := by
  obtain ⟨ρ, hinj, hbyName⟩ := exists_byName_eq h
  refine ⟨ρ, hinj, fun α f => ?_⟩
  rw [collect_eq, hbyName, List.flatMap_map, collect_eq, List.map_flatMap]
  simp only [List.map_map]
  rfl

/-! ## More services -/

theorem mem_byName {p : Subgraph × Nat} : p ∈ s.byName ↔ s.services[p.2]? = some p.1 := by
  rw [s.byName_perm.mem_iff, List.mem_zipIdx_iff_getElem?]

theorem mem_services_of_mem_byName {p : Subgraph × Nat} (h : p ∈ s.byName) : p.1 ∈ s.services :=
  List.mem_of_getElem? (mem_byName.mp h)

/-- **Fewer services in the same order** are in their places, renamed in order, among all. -/
theorem exists_byName_filter_eq (h : s'.services.Sublist s.services) :
    ∃ ρ : Nat → Nat, StrictMono ρ ∧
      (s.byName.filter fun p => (s'.services.map (·.name)).contains p.1.name) =
        s'.byName.map fun p => (p.1, ρ p.2) := by
  obtain ⟨ρ, hρ⟩ := List.sublist_iff_exists_orderEmbedding_getElem?_eq.mp h
  refine ⟨ρ, ρ.strictMono, ?_⟩
  have hplace : ∀ p ∈ s'.byName, (p.1, ρ p.2) ∈ s.byName := by
    intro p hp
    rw [mem_byName] at hp ⊢
    rw [← hρ, hp]
  -- both are in the strict order of names, so it is enough that they have the same members
  have hall := s.pairwise_byName.imp And.left
  have hleft := hall.sublist
    (List.filter_sublist (p := fun p => (s'.services.map (·.name)).contains p.1.name))
  have hright : (s'.byName.map fun p => (p.1, ρ p.2)).Pairwise
      fun a b => a.1.name < b.1.name := by
    rw [List.pairwise_map]
    exact s'.pairwise_byName.imp And.left
  have hnodup : ∀ {ps : List (Subgraph × Nat)}, ps.Pairwise (fun a b => a.1.name < b.1.name) →
      (ps.map fun p => p.1.name).Nodup := by
    intro ps hps
    exact nodup_of_pairwise_lt (List.pairwise_map.mpr hps)
  refine List.Perm.eq_of_pairwise
    (fun a b _ _ hab hba => absurd (String.lt_trans hab hba) (String.lt_irrefl _)) hleft hright ?_
  rw [List.perm_ext_iff_of_nodup (hnodup hleft).of_map (hnodup hright).of_map]
  intro p
  rw [List.mem_filter, List.mem_map, List.contains_iff_mem]
  constructor
  · rintro ⟨hp, hname⟩
    obtain ⟨g, hg, hgname⟩ := List.mem_map.mp hname
    obtain ⟨i, hi⟩ := List.getElem?_of_mem hg
    have hq : (g, i) ∈ s'.byName := mem_byName.mpr hi
    exact ⟨(g, i), hq, List.inj_on_of_nodup_map (hnodup hall) (hplace _ hq) hp hgname⟩
  · rintro ⟨q, hq, rfl⟩
    have hname := List.mem_map_of_mem (f := Subgraph.name) (mem_services_of_mem_byName hq)
    exact ⟨hplace q hq, hname⟩

/-- **What services declare of which the others declare nothing** is what they declare without the
others, under ranks in the same order. -/
theorem exists_rerank_collect_of_sublist (h : s'.services.Sublist s.services) :
    ∃ ρ : Nat → Nat, StrictMono ρ ∧ ∀ (α : Type) (f : Subgraph → List α),
      (∀ g ∈ s.services, g ∉ s'.services → f g = []) →
        s.collect f = (s'.collect f).map (Declared.rerank ρ) := by
  obtain ⟨ρ, hρ, hbyName⟩ := exists_byName_filter_eq h
  refine ⟨ρ, hρ, fun α f hf => ?_⟩
  have hothers : ∀ p ∈ s.byName, (s'.services.map (·.name)).contains p.1.name = false →
      ((f p.1).map fun node => (⟨p.2, p.1.name, node⟩ : Declared α)) = [] := by
    intro p hp hname
    rw [hf p.1 (mem_services_of_mem_byName hp) fun hmem => ?_, List.map_nil]
    have hcontains := List.contains_iff_mem.mpr (List.mem_map_of_mem (f := Subgraph.name) hmem)
    rw [hcontains] at hname
    cases hname
  rw [collect_eq, ← flatMap_filter_of_eq_nil hothers, hbyName, List.flatMap_map, collect_eq,
    List.map_flatMap]
  simp only [List.map_map]
  rfl

end Subgraphs

end Federation
