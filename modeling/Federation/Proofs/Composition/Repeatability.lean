import Federation.Composition.TypeGroup
import Federation.Proofs.Directives.Merge
import Federation.Proofs.Schema.Building
/-!
# Composition — where more directives may be repeated

Whether a directive may be repeated is decided by all services, so one
more service can change it for declarations that it has nothing to do
with. Declarations without a problem are not affected: no application
was kept out, so none is let in. Fields, input fields and values of
enumerations are composed as before, and so is the type
(`TypeGroup.definition_of_le`).
-/

namespace Federation

open Declared

section

variable {isRepeatable allowed : String → Bool}
variable (hle : ∀ name, isRepeatable name = true → allowed name = true)
include hle

/-! ## Members -/

theorem Declared.mergedDirectives_of_le {α : Type} {directives : α → List Directive}
    {coordinate : Coordinate} {ds : List (Declared α)}
    (h : directiveProblems isRepeatable directives coordinate ds = []) :
    mergedDirectives allowed directives ds = mergedDirectives isRepeatable directives ds ∧
      directiveProblems allowed directives coordinate ds = [] := by
  rw [directiveProblems, Directive.conflictDiagnostics, List.map_eq_nil_iff] at h
  obtain ⟨hmerge, hconflicts⟩ := Directive.merge_of_le hle h
  refine ⟨hmerge, ?_⟩
  rw [directiveProblems, Directive.conflictDiagnostics, hconflicts, List.map_nil]

theorem FieldDeclaration.compose?_of_le {typeName : String} {isShared : Bool}
    {all : List (Declared FieldDeclaration)}
    (h : problems isRepeatable typeName isShared all = []) :
    compose? allowed (firstPerService all) = compose? isRepeatable (firstPerService all) ∧
      problems allowed typeName isShared all = [] := by
  obtain ⟨hothers, hdirectives⟩ := List.append_eq_nil_iff.mp h
  obtain ⟨hmerged, hallowed⟩ := mergedDirectives_of_le hle hdirectives
  rw [compose?, compose?, hmerged]
  exact ⟨rfl, List.append_eq_nil_iff.mpr ⟨hothers, hallowed⟩⟩

theorem InputValue.compose?_of_le {typeName : String} {all : List (Declared InputValue)}
    (h : problems isRepeatable typeName all = []) :
    compose? allowed (firstPerService all) = compose? isRepeatable (firstPerService all) ∧
      problems allowed typeName all = [] := by
  obtain ⟨hothers, hdirectives⟩ := List.append_eq_nil_iff.mp h
  obtain ⟨hmerged, hallowed⟩ := mergedDirectives_of_le hle hdirectives
  rw [compose?, compose?, hmerged]
  exact ⟨rfl, List.append_eq_nil_iff.mpr ⟨hothers, hallowed⟩⟩

theorem EnumValue.compose?_of_le {typeName : String} {all : List (Declared EnumValue)}
    (h : problems isRepeatable typeName all = []) :
    compose? allowed (firstPerService all) = compose? isRepeatable (firstPerService all) ∧
      problems allowed typeName all = [] := by
  obtain ⟨hothers, hdirectives⟩ := List.append_eq_nil_iff.mp h
  obtain ⟨hmerged, hallowed⟩ := mergedDirectives_of_le hle hdirectives
  rw [compose?, compose?, hmerged]
  exact ⟨rfl, List.append_eq_nil_iff.mpr ⟨hothers, hallowed⟩⟩

/-! ## Types -/

omit hle in
/-- What each group of declarations of a member is composed to, and what is wrong with it, taken
together. -/
theorem Declared.composed_of_le {α β : Type} {compose compose' : List (Declared α) → Option β}
    {problems problems' : List (Declared α) → List Diagnostic} {dss : List (List (Declared α))}
    (hmember : ∀ ds, problems ds = [] →
      compose' (firstPerService ds) = compose (firstPerService ds) ∧ problems' ds = [])
    (h : dss.flatMap problems = []) :
    (dss.filterMap fun ds => compose' (firstPerService ds)) =
        (dss.filterMap fun ds => compose (firstPerService ds)) ∧
      dss.flatMap problems' = [] := by
  rw [List.flatMap_eq_nil_iff] at h
  exact ⟨List.filterMap_congr fun ds hds => (hmember ds (h ds hds)).1,
    List.flatMap_eq_nil_iff.mpr fun ds hds => (hmember ds (h ds hds)).2⟩

namespace TypeGroup

variable {g : TypeGroup}

/-- The members of a type without problems are composed as before. -/
theorem body_of_le (h : g.memberProblems isRepeatable = []) :
    g.body allowed = g.body isRepeatable ∧ g.memberProblems allowed = [] := by
  have hobject : (g.fieldGroups.flatMap
      (FieldDeclaration.problems isRepeatable g.name g.isShared)) = [] →
        g.fields allowed = g.fields isRepeatable ∧
          (g.fieldGroups.flatMap (FieldDeclaration.problems allowed g.name g.isShared)) = [] :=
    composed_of_le fun ds => FieldDeclaration.compose?_of_le hle
  rw [memberProblems] at h ⊢
  rw [body, body]
  cases hkind : g.kind with
  | scalar => exact ⟨rfl, rfl⟩
  | union => exact ⟨rfl, rfl⟩
  | object =>
    rw [hkind] at h
    obtain ⟨hfields, hnone⟩ := hobject h
    exact ⟨by rw [hfields], hnone⟩
  | interface =>
    rw [hkind] at h
    obtain ⟨hfields, hnone⟩ := hobject h
    exact ⟨by rw [hfields], hnone⟩
  | enum =>
    rw [hkind] at h
    obtain ⟨hvalues, hnone⟩ := composed_of_le (fun ds => EnumValue.compose?_of_le hle) h
    exact ⟨congrArg TypeBody.enum hvalues, hnone⟩
  | inputObject =>
    rw [hkind] at h
    obtain ⟨hfields, hnone⟩ := composed_of_le (fun ds => InputValue.compose?_of_le hle) h
    exact ⟨congrArg TypeBody.inputObject hfields, hnone⟩

/-- **A type without problems is composed as before** where more directives may be repeated. -/
theorem definition_of_le (h : g.problems isRepeatable = []) :
    g.ofOneKind.definition allowed = g.ofOneKind.definition isRepeatable ∧
      g.problems allowed = [] := by
  obtain ⟨hkinds, hone⟩ := List.append_eq_nil_iff.mp h
  obtain ⟨hothers, hdirectives⟩ := List.append_eq_nil_iff.mp hone
  obtain ⟨hbases, hmembers⟩ := List.append_eq_nil_iff.mp hothers
  obtain ⟨hbody, hnone⟩ := body_of_le hle hmembers
  obtain ⟨hmerged, hallowed⟩ := mergedDirectives_of_le hle hdirectives
  rw [definition, definition, hmerged, hbody]
  exact ⟨rfl, List.append_eq_nil_iff.mpr ⟨hkinds, List.append_eq_nil_iff.mpr
    ⟨List.append_eq_nil_iff.mpr ⟨hbases, hnone⟩, hallowed⟩⟩⟩

end TypeGroup

/-- Applications on a type that were merged once without a conflict are merged as before. -/
theorem TypeDefinition.mergeApplications_of_le {t : TypeDefinition}
    (h : t.applicationConflicts isRepeatable = []) :
    t.mergeApplications allowed = t.mergeApplications isRepeatable ∧
      t.applicationConflicts allowed = [] := by
  rw [applicationConflicts, Directive.conflictDiagnostics, List.map_eq_nil_iff] at h
  obtain ⟨hmerge, hconflicts⟩ := Directive.merge_of_le hle h
  rw [mergeApplications, mergeApplications, hmerge, applicationConflicts,
    Directive.conflictDiagnostics, hconflicts]
  exact ⟨rfl, rfl⟩

end

end Federation
