import Federation.Proofs.Composition.MoreServices
import Federation.Proofs.Composition.Readable
import Federation.Proofs.DiagnosticOrder
import Federation.Proofs.Subgraph.Ingestion
/-!
# Composition — services that are dropped

A service whose text cannot be read keeps its name and its place among
the services, and declares nothing. So what is reported about services
some of which are dropped is one syntax error for each of these, in the
order in which they were handed in, and then what is reported about the
others by themselves (`diagnostics_run`).
-/

namespace Federation

open Diagnostic

/-! ## Reports -/

namespace Diagnostic

/-- Reports on what was read do not have the key that comes first. -/
theorem OfReadable.filter_firstKey {ds : List Diagnostic} (h : OfReadable ds) :
    (ds.filter fun d => d.key = firstKey) = [] ∧
      (ds.filter fun d => !decide (d.key = firstKey)) = ds := by
  have hne : ∀ d ∈ ds, d.key ≠ firstKey := fun d hd heq => h d hd (congrArg Prod.fst heq)
  constructor
  · exact List.filter_eq_nil_iff.mpr fun d hd => by simp [hne d hd]
  · exact List.filter_eq_self.mpr fun d hd => by simp [hne d hd]

end Diagnostic

namespace Subgraph

/-- A service that cannot be read declares nothing. -/
theorem declares_nothing {g : Subgraph} {e : SyntaxError} (h : g.content = .error e) :
    g.typeDefinitions = [] ∧ g.document.directiveDefinitions = [] ∧ g.checkProblems = [] := by
  have hdocument : g.document = {} := by rw [document, h]
  have htypes : g.typeDefinitions = [] := by
    rw [typeDefinitions, hdocument]
    rfl
  refine ⟨htypes, by rw [hdocument]; rfl, ?_⟩
  rw [checkProblems, siteProblems, schemaSites, hdocument, declarations, htypes]
  rfl

end Subgraph

namespace Submission

variable {c : Submission}

theorem exists_content_of_not_isReadable (h : c.isReadable = false) :
    ∃ e, c.subgraph.content = .error e := by
  cases hcontent : c.subgraph.content with
  | error e => exact ⟨e, rfl⟩
  | ok d =>
    rw [isReadable_iff.mpr ⟨d, hcontent⟩] at h
    cases h

/-- The reports on a service as it is handed in: on one that is dropped its syntax error, and on
another one no syntax error. -/
theorem problems_subgraph (c : Submission) :
    (c.subgraph.problems.filter fun d => d.key = firstKey) = c.syntaxError?.toList ∧
      (c.subgraph.problems.filter fun d => !decide (d.key = firstKey)) =
        if c.isReadable then c.subgraph.problems else [] := by
  cases hcontent : c.subgraph.content with
  | ok d =>
    have hreadable : c.isReadable = true := isReadable_iff.mpr ⟨d, hcontent⟩
    have hnone : c.syntaxError? = none := Option.isNone_iff_eq_none.mp hreadable
    rw [hreadable, hnone]
    exact (Subgraph.ofReadable_problems hcontent).filter_firstKey
  | error e =>
    have hsome : c.syntaxError? =
        some { cause := .unreadable e, coordinate := .schema, service := some c.name } := by
      rw [syntaxError?, hcontent]
    have hreadable : c.isReadable = false := by rw [isReadable, hsome]; rfl
    have hproblems : c.subgraph.problems =
        [{ cause := .unreadable e, coordinate := .schema, service := some c.name }] := by
      rw [Subgraph.problems, hcontent, name_subgraph]
      rfl
    rw [hreadable, hsome, hproblems]
    exact ⟨rfl, rfl⟩

end Submission

namespace Subgraphs

/-- What is reported when services are composed: nothing if they are composed to a supergraph. -/
def diagnostics (s : Subgraphs) : List Diagnostic :=
  match s.compose with
  | .ok _ => []
  | .error ds => ds

theorem diagnostics_eq (s : Subgraphs) : s.diagnostics = sorted s.allProblems := by
  rw [diagnostics]
  by_cases h : s.allProblems = []
  · rw [compose_of_eq_nil h, h, sorted, List.mergeSort_nil]
  · rw [compose_of_ne_nil h]

/-! ## Services without those that are dropped -/

section

variable {s s' : Subgraphs} {calls : List Submission}
variable (hs : s.services = calls.map Submission.subgraph)
variable (hs' : s'.services = (calls.filter Submission.isReadable).map Submission.subgraph)
include hs hs'

theorem laterProblems_of_dropped : s.laterProblems = s'.laterProblems := by
  have hsublist : s'.services.Sublist s.services := by
    rw [hs, hs']
    exact List.filter_sublist.map _
  have hsilent : ∀ g ∈ s.services, g ∉ s'.services →
      g.typeDefinitions = [] ∧ g.document.directiveDefinitions = [] := by
    intro g hg hother
    rw [hs] at hg
    rw [hs'] at hother
    obtain ⟨c, hc, rfl⟩ := List.mem_map.mp hg
    cases hreadable : c.isReadable with
    | true => exact absurd (List.mem_map_of_mem (List.mem_filter.mpr ⟨hc, hreadable⟩)) hother
    | false =>
      obtain ⟨e, he⟩ := Submission.exists_content_of_not_isReadable hreadable
      exact ⟨(Subgraph.declares_nothing he).1, (Subgraph.declares_nothing he).2.1⟩
  obtain ⟨hmerge, hschema⟩ := composedSchema_of_silent hsublist hsilent
  have hchecks : s.checkProblems = s'.checkProblems := by
    rw [checkProblems, hs, List.flatMap_map, checkProblems, hs', List.flatMap_map,
      flatMap_filter_of_eq_nil fun c _ hreadable => ?_]
    obtain ⟨e, he⟩ := Submission.exists_content_of_not_isReadable hreadable
    exact (Subgraph.declares_nothing he).2.2
  rw [laterProblems, hmerge, hschema, hchecks, laterProblems]

theorem problems_of_dropped :
    (s.problems.filter fun d => d.key = firstKey) = calls.filterMap Submission.syntaxError? ∧
      (s.problems.filter fun d => !decide (d.key = firstKey)) = s'.problems := by
  have hproblems : s.problems = calls.flatMap fun c => c.subgraph.problems := by
    rw [problems, hs, List.flatMap_map]
  have hproblems' : s'.problems =
      (calls.filter Submission.isReadable).flatMap fun c => c.subgraph.problems := by
    rw [problems, hs', List.flatMap_map]
  rw [hproblems, hproblems', List.filter_flatMap, List.filter_flatMap,
    List.filterMap_eq_flatMap_toList]
  constructor
  · exact List.flatMap_congr fun c _ => c.problems_subgraph.1
  · simp only [fun c : Submission => c.problems_subgraph.2]
    rw [← flatMap_filter_of_eq_nil (p := Submission.isReadable) fun c _ h => by rw [h]; rfl]
    exact List.flatMap_congr fun c hc => if_pos (List.mem_filter.mp hc).2

/-- **What is reported about services some of which are dropped** is their syntax errors, in order,
and then what is reported about the others. -/
theorem diagnostics_of_dropped :
    s.diagnostics = calls.filterMap Submission.syntaxError? ++ s'.diagnostics := by
  obtain ⟨hnone, hall⟩ := s.ofReadable_laterProblems.filter_firstKey
  obtain ⟨hunreadable, hreadable⟩ := problems_of_dropped hs hs'
  rw [diagnostics_eq, sorted_eq_filter_append, allProblems_eq, List.filter_append,
    List.filter_append, hnone, hall, hunreadable, hreadable, List.append_nil,
    laterProblems_of_dropped hs hs', ← allProblems_eq, diagnostics_eq]

end

/-! ## Runs of calls -/

theorem size_run (calls : List Submission) : (run calls).size = (accepted calls).length := by
  rw [size, services_run, List.length_map]

/-- A text that can be read is handed in like the service that is read from it. -/
theorem ingestText_of_ofText {name source : String} {url : Option String} {service : Service}
    (h : Service.ofText name url source = .ok service) (s : Subgraphs) :
    s.ingestText name url source = s.ingest service := by
  cases hparse : Document.parse source with
  | error e =>
    rw [Service.ofText, hparse] at h
    cases h
  | ok d =>
    rw [Service.ofText, hparse] at h
    cases h
    rw [ingestText, hparse, ingest]

/-- Services that can all be read are composed without a syntax error. -/
theorem kind_of_mem_diagnostics {s : Subgraphs} {calls : List Submission}
    (hs : s.services = (calls.filter Submission.isReadable).map Submission.subgraph) :
    ∀ d ∈ s.diagnostics, d.kind ≠ .syntaxError := by
  have hproblems : OfReadable s.problems := by
    rw [problems, hs, List.flatMap_map]
    refine ofReadable_flatMap fun c hc => ?_
    obtain ⟨d, hd⟩ := Submission.isReadable_iff.mp (List.mem_filter.mp hc).2
    exact Subgraph.ofReadable_problems hd
  intro d hd
  rw [diagnostics_eq, (sorted_perm _).mem_iff, allProblems_eq] at hd
  exact ofReadable_append.mpr ⟨hproblems, s.ofReadable_laterProblems⟩ d hd

/-- What is reported about services handed in one after another holds one syntax error for each
that is dropped, in order. -/
theorem filter_diagnostics_run (calls : List Submission) :
    ((run calls).diagnostics.filter fun d => d.kind = .syntaxError) =
      (accepted calls).filterMap Submission.syntaxError? := by
  have hreadable := services_run_of_sublist
    (List.filter_sublist (p := Submission.isReadable) (l := accepted calls))
  have hall : ∀ d ∈ (accepted calls).filterMap Submission.syntaxError?,
      d.kind = .syntaxError := by
    intro d hd
    obtain ⟨c, -, hc⟩ := List.mem_filterMap.mp hd
    rw [Submission.syntaxError?] at hc
    split at hc
    · cases hc
    · cases hc
      rfl
  rw [diagnostics_of_dropped (services_run calls) hreadable, List.filter_append,
    List.filter_eq_self.mpr fun d hd => decide_eq_true (hall d hd),
    List.filter_eq_nil_iff.mpr fun d hd => by simp [kind_of_mem_diagnostics hreadable d hd],
    List.append_nil]

/-- **Services handed in one after another.** Whatever calls are made, from no services on: a call
is rejected exactly when an earlier call with its name was accepted, be it for a service that is
dropped, and it might as well not have been made; there are as many services as calls were accepted;
a text that can be read is handed in like its service; and what is reported is one syntax error for
each service that is dropped, in order, followed by what is reported about the other services when
they alone are handed in, which holds no syntax error. -/
theorem run_ingested (calls : List Submission) :
    (∀ before c after, calls = before ++ c :: after →
      ((run before).submit c = .error (.duplicateName c.name) ↔
        c.name ∈ (accepted before).map Submission.name) ∧
      ((∃ t, (run before).submit c = .ok t) ↔ c.name ∉ (accepted before).map Submission.name) ∧
      (c.name ∈ (accepted before).map Submission.name →
        ∀ later, run (before ++ c :: later) = run (before ++ later))) ∧
    (run calls).size = (accepted calls).length ∧
    (∀ name url source service, Service.ofText name url source = .ok service →
      ∀ s : Subgraphs, s.ingestText name url source = s.ingest service) ∧
    (run calls).diagnostics = (accepted calls).filterMap Submission.syntaxError? ++
      (run ((accepted calls).filter Submission.isReadable)).diagnostics ∧
    ∀ d ∈ (run ((accepted calls).filter Submission.isReadable)).diagnostics,
      d.kind ≠ .syntaxError := by
  have hreadable := services_run_of_sublist
    (List.filter_sublist (p := Submission.isReadable) (l := accepted calls))
  refine ⟨fun before c after _ => ⟨?_, ?_, run_of_rejected⟩, size_run calls,
    fun _ _ _ _ => ingestText_of_ofText, ?_, kind_of_mem_diagnostics hreadable⟩
  · rw [submit_eq_error_iff, names_run]
  · rw [← names_run]
    constructor
    · rintro ⟨t, ht⟩ hmem
      rw [submit_of_mem hmem] at ht
      cases ht
    · intro hnew
      obtain ⟨t, ht, -⟩ := exists_submit_of_not_mem hnew
      exact ⟨t, ht⟩
  · exact diagnostics_of_dropped (services_run calls) hreadable

/-- A service that extends a type which no service defines. -/
def extendingService (name : String) : Service :=
  { name, document := ⟨[.type { name := "S", body := .scalar, isExtension := true }]⟩ }

/-- The service that is dropped keeps its place, and a service is not taken twice. -/
example :
    let calls : List Submission :=
      [.document (extendingService "b"), .text "a" none "!", .document (extendingService "b")]
    (accepted calls).map Submission.name = ["b", "a"] ∧
      (run calls).diagnostics.map (fun d => (d.kind, d.service)) =
        [(.syntaxError, some "a"), (.extensionWithNoBase, none)] := by
  cbv

end Subgraphs

end Federation
