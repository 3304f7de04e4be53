import Federation.Proofs.Composition.Descriptions
import Federation.Proofs.Composition.Reordering
import Federation.Proofs.DiagnosticOrder
/-!
# Composition — the order of services does not matter

Services in two orders are composed to the same, or rejected for the
same reasons (`compose_order_independent`). Two things follow the order
of services: which of the diagnostics that share a kind, a type and a
field is reported first, and whose description of an element counts.
-/

namespace Federation

namespace Service

/-- The same outcome for services in two orders. Diagnostics are the same, with the same keys in the
same places. Schemas are the same up to descriptions, and have the descriptions of the services that
came first; where no two services describe one element, the texts are the same. -/
inductive SameOutcome (services services' : List Service) :
    Except (List Diagnostic) Supergraph → Except (List Diagnostic) Supergraph → Prop
  | rejected {ds ds' : List Diagnostic} (perm : ds.Perm ds')
      (keys : ds.map Diagnostic.key = ds'.map Diagnostic.key) :
      SameOutcome services services' (.error ds) (.error ds')
  | composed {g g' : Supergraph} (undescribed : g.schema.undescribed = g'.schema.undescribed)
      (descriptions : g.schema.describe (firstDescription services) = g.schema)
      (descriptions' : g'.schema.describe (firstDescription services') = g'.schema)
      (text : (∀ c, ∀ s ∈ services, ∀ t ∈ services, (s.description? c).isSome = true →
        (t.description? c).isSome = true → s = t) → g.text = g'.text) :
      SameOutcome services services' (.ok g) (.ok g')

/-- Schemas that are the same up to descriptions are told apart by descriptions only. -/
theorem eq_of_undescribed {a b : Schema} {σ : Coordinate → Option String}
    (h : a.undescribed = b.undescribed) (ha : a.describe σ = a) (hb : b.describe σ = b) :
    a = b := by
  calc a = a.describe σ := ha.symm
    _ = a.undescribed.describe σ := (Schema.describe_describe _ _ a).symm
    _ = b.undescribed.describe σ := by rw [h]
    _ = b.describe σ := Schema.describe_describe _ _ b
    _ = b := hb

/-- **The order of services does not matter.** -/
theorem compose_order_independent {services services' : List Service}
    (hnames : (services.map (·.name)).Nodup) (hperm : services.Perm services') :
    ∃ r r', compose services = .ok r ∧ compose services' = .ok r' ∧
      SameOutcome services services' r r' := by
  obtain ⟨s, hs⟩ := Subgraphs.exists_ofServices hnames
  obtain ⟨s', hs'⟩ := Subgraphs.exists_ofServices ((hperm.map (·.name)).nodup_iff.mp hnames)
  have hservices := Subgraphs.services_of_ofServices hs
  have hservices' := Subgraphs.services_of_ofServices hs'
  have h : s.services.Perm s'.services := by
    rw [hservices, hservices']
    exact hperm.map _
  refine ⟨s.compose, s'.compose, by rw [compose, hs]; rfl, by rw [compose, hs']; rfl, ?_⟩
  have hproblems := Subgraphs.allProblems_perm h
  by_cases hnone : s.allProblems = []
  · have hnone' : s'.allProblems = [] := by
      rw [hnone] at hproblems
      exact hproblems.nil_eq.symm
    rw [Subgraphs.compose_of_eq_nil hnone, Subgraphs.compose_of_eq_nil hnone']
    have hundescribed := (Subgraphs.undescribed_composedSchema h).symm
    have hdescribe := Subgraphs.describe_composedSchema hservices hnone
      (Subgraphs.typeDefinitions_eq_of_problems hservices hnone)
    have hdescribe' := Subgraphs.describe_composedSchema hservices' hnone'
      (Subgraphs.typeDefinitions_eq_of_problems hservices' hnone')
    refine .composed hundescribed hdescribe hdescribe' fun hone => ?_
    -- with one service to describe each element, the first one is the same in both orders
    have hfirst : firstDescription services = firstDescription services' := by
      funext c
      exact findSome?_eq_of_perm hperm fun s hs t ht => hone c s hs t ht
    rw [← hfirst] at hdescribe'
    have hschema := eq_of_undescribed hundescribed hdescribe hdescribe'
    rw [Supergraph.text, Supergraph.text, hschema, Subgraphs.graphs_eq_of_perm h]
  · have hnone' : s'.allProblems ≠ [] := by
      intro hnil
      rw [hnil] at hproblems
      exact hnone hproblems.eq_nil
    rw [Subgraphs.compose_of_ne_nil hnone, Subgraphs.compose_of_ne_nil hnone']
    refine .rejected ?_ (Diagnostic.map_key_sorted_eq_of_perm hproblems)
    exact (Diagnostic.sorted_perm _).trans (hproblems.trans (Diagnostic.sorted_perm _).symm)

/-- Two services, and the same services the other way round. -/
theorem twoServices_order_independent :
    (twoServices.map (·.name)).Nodup ∧ twoServices.Perm twoServices.reverse ∧
      ∃ r r', compose twoServices = .ok r ∧ compose twoServices.reverse = .ok r' ∧
        SameOutcome twoServices twoServices.reverse r r' := by
  have hnames : (twoServices.map (·.name)).Nodup := by decide
  have hperm : twoServices.Perm twoServices.reverse := twoServices.reverse_perm.symm
  exact ⟨hnames, hperm, compose_order_independent hnames hperm⟩

end Service

end Federation
