import Federation.Proofs.Composition.Kinds
/-!
# Composition — reports on what was read

Only a text that cannot be read is a syntax error. Every check looks at
what was read, and stage by stage none of them reports one: a syntax
error is found when services are handed in, or not at all
(`ofReadable_laterProblems`).
-/

namespace Federation

namespace Diagnostic

/-- Reports on what was read. -/
def OfReadable (ds : List Diagnostic) : Prop :=
  ∀ d ∈ ds, d.kind ≠ .syntaxError

variable {α : Type}

/-- Reports on what was read are those of the other kinds. -/
theorem ofReadable_iff {ds : List Diagnostic} : OfReadable ds ↔ OfKinds (· ≠ .syntaxError) ds :=
  Iff.rfl

@[simp] theorem ofReadable_append {as bs : List Diagnostic} :
    OfReadable (as ++ bs) ↔ OfReadable as ∧ OfReadable bs := by
  simp only [ofReadable_iff, ofKinds_append]

theorem ofReadable_flatMap {as : List α} {f : α → List Diagnostic}
    (h : ∀ a ∈ as, OfReadable (f a)) : OfReadable (as.flatMap f) :=
  ofReadable_iff.mpr (ofKinds_flatMap h)

end Diagnostic

open Diagnostic

/-- A service that can be read is handed in without a syntax error. -/
theorem Subgraph.ofReadable_problems {s : Subgraph} {d : Document} (h : s.content = .ok d) :
    OfReadable s.problems := by
  rw [problems, h, ofReadable_iff]
  refine OfKinds.inService (ofKinds_append.mpr ⟨ofKinds_map ?_, ?_⟩) _
  · intro _ _ hkind
    cases hkind
  · exact ofKinds_flatMap fun t _ => Declaration.ofKinds_problems (by decide) t

namespace Subgraphs

variable (s : Subgraphs)

/-- What is wrong with services besides what was wrong as they were handed in. -/
def laterProblems : List Diagnostic :=
  s.checkProblems ++ s.mergeProblems ++ s.composedSchema.2 ++ s.composedSchema.1.problems

theorem allProblems_eq : s.allProblems = s.problems ++ s.laterProblems := by
  simp only [allProblems, laterProblems, List.append_assoc]

/-- **What is found after services are handed in is no syntax error.** -/
theorem ofReadable_laterProblems : OfReadable s.laterProblems := by
  rw [ofReadable_iff, laterProblems]
  simp only [checkProblems, Schema.problems, ofKinds_append]
  refine ⟨⟨⟨?_, ?_⟩, ?_⟩, ⟨⟨⟨?_, ?_⟩, ?_⟩, ?_⟩, ?_⟩
  · exact ofKinds_flatMap fun g _ => g.ofKinds_checkProblems (by decide)
  · exact s.ofKinds_mergeProblems (by decide) (by decide) (by decide) (by decide) (by decide)
  · exact s.ofKinds_clashes (by decide)
  · exact Schema.ofKinds_keyProblems _ (by decide)
  · exact Schema.ofKinds_externalFieldProblems _ (by decide)
  · exact Schema.ofKinds_interfaceProblems _ (by decide) (by decide)
  · exact Schema.ofKinds_rootFieldProblems _ (by decide)
  · exact Schema.ofKinds_referenceProblems _ (by decide)

end Subgraphs

end Federation
