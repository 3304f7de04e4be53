import Federation.Proofs.Sequence
import Federation.Proofs.Subgraph.Contributions
/-!
# Subgraphs — services handed in one after another

Services are handed in with their documents or as texts, one call after
another. A call is rejected when its name is taken, and only then; a
rejected call leaves the services as they were. So the services after a
run of calls are those of the calls that were accepted
(`services_run`), and the names of these are distinct.
-/

namespace Federation

/-- A service as it is handed in: with its document, or as a text. -/
inductive Submission
  | document (service : Service)
  | text (name : String) (url : Option String) (source : String)
  deriving Inhabited, Repr

namespace Submission

/-- The name under which a service is handed in. -/
def name : Submission → String
  | document service => service.name
  | text name _ _ => name

/-- The service among the services to compose. -/
def subgraph : Submission → Subgraph
  | document service => service.toSubgraph
  | text name url source => { name, url, content := Document.parse source }

/-- The report on a service that is dropped because its text cannot be read. -/
def syntaxError? (c : Submission) : Option Diagnostic :=
  match c.subgraph.content with
  | .ok _ => none
  | .error e =>
    some { cause := .unreadable e, coordinate := .schema, service := some c.name }

/-- Whether a service is well-formed. -/
def isReadable (c : Submission) : Bool :=
  c.syntaxError?.isNone

@[simp] theorem name_subgraph (c : Submission) : c.subgraph.name = c.name := by
  cases c <;> rfl

theorem isReadable_iff {c : Submission} :
    c.isReadable = true ↔ ∃ d, c.subgraph.content = .ok d := by
  rw [isReadable, syntaxError?]
  cases c.subgraph.content <;> simp

end Submission

namespace Subgraphs

/-- Hands a service in. -/
def submit (s : Subgraphs) : Submission → Except IngestError Subgraphs
  | .document service => s.ingest service
  | .text name url source => s.ingestText name url source

/-- The services after a call. One that is rejected leaves them as they were. -/
def afterCall (s : Subgraphs) (c : Submission) : Subgraphs :=
  match s.submit c with
  | .ok t => t
  | .error _ => s

/-- The services after calls, from no services on. -/
def run (calls : List Submission) : Subgraphs :=
  calls.foldl afterCall empty

/-- The calls that are accepted when there are services already. -/
def acceptedAfter (s : Subgraphs) : List Submission → List Submission
  | [] => []
  | c :: calls =>
    match s.submit c with
    | .ok t => c :: t.acceptedAfter calls
    | .error _ => s.acceptedAfter calls

/-- The calls that are accepted, from no services on. -/
def accepted (calls : List Submission) : List Submission :=
  empty.acceptedAfter calls

/-! ## One call -/

variable {s : Subgraphs} {c : Submission}

theorem submit_eq_add (s : Subgraphs) (c : Submission) : s.submit c = s.add c.subgraph := by
  cases c <;> rfl

/-- A call is rejected if its name is taken. -/
theorem submit_of_mem (h : c.name ∈ s.services.map (·.name)) :
    s.submit c = .error (.duplicateName c.name) := by
  rw [← c.name_subgraph] at h ⊢
  rw [submit_eq_add, add, dif_pos h]

/-- A call is accepted if its name is not taken, and its service comes last. -/
theorem exists_submit_of_not_mem (h : c.name ∉ s.services.map (·.name)) :
    ∃ t, s.submit c = .ok t ∧ t.services = s.services ++ [c.subgraph] := by
  rw [← c.name_subgraph] at h
  rw [submit_eq_add, add, dif_neg h]
  exact ⟨_, rfl, rfl⟩

theorem submit_eq_error_iff :
    s.submit c = .error (.duplicateName c.name) ↔ c.name ∈ s.services.map (·.name) := by
  refine ⟨fun h => ?_, submit_of_mem⟩
  by_contra hnew
  obtain ⟨t, ht, -⟩ := exists_submit_of_not_mem hnew
  rw [h] at ht
  cases ht

/-! ## Runs -/

/-- **The services after a run** are those that there were, and those of the calls that were
accepted, in order. -/
theorem services_foldl_afterCall (calls : List Submission) (s : Subgraphs) :
    (calls.foldl afterCall s).services =
      s.services ++ (s.acceptedAfter calls).map Submission.subgraph := by
  induction calls generalizing s with
  | nil => rw [List.foldl_nil, acceptedAfter, List.map_nil, List.append_nil]
  | cons c calls ih =>
    rw [List.foldl_cons, ih, acceptedAfter, afterCall]
    by_cases h : c.name ∈ s.services.map (·.name)
    · rw [submit_of_mem h]
    · obtain ⟨t, ht, hservices⟩ := exists_submit_of_not_mem h
      rw [ht, hservices, List.map_cons, List.append_assoc, List.singleton_append]

theorem services_run (calls : List Submission) :
    (run calls).services = (accepted calls).map Submission.subgraph :=
  services_foldl_afterCall calls empty

theorem names_run (calls : List Submission) :
    (run calls).services.map (·.name) = (accepted calls).map Submission.name := by
  rw [services_run, List.map_map]
  exact List.map_congr_left fun c _ => c.name_subgraph

/-- A call in a run that is rejected might as well not have been made. -/
theorem run_of_rejected {before : List Submission}
    (h : c.name ∈ (accepted before).map Submission.name) (after : List Submission) :
    run (before ++ c :: after) = run (before ++ after) := by
  rw [← names_run] at h
  have hcall : (run before).afterCall c = run before := by
    rw [afterCall, submit_of_mem h]
  rw [run, List.foldl_append, List.foldl_cons, ← run, hcall, run, ← List.foldl_append, ← run]

/-- Calls with distinct names are all accepted. -/
theorem acceptedAfter_eq_self {calls : List Submission} {s : Subgraphs}
    (h : (s.services.map (·.name) ++ calls.map Submission.name).Nodup) :
    s.acceptedAfter calls = calls := by
  induction calls generalizing s with
  | nil => rfl
  | cons c calls ih =>
    have hnew : c.name ∉ s.services.map (·.name) := by
      intro hmem
      exact (List.nodup_append.mp h).2.2 _ hmem _ List.mem_cons_self rfl
    obtain ⟨t, ht, hservices⟩ := exists_submit_of_not_mem hnew
    rw [acceptedAfter, ht]
    dsimp only
    rw [ih]
    simpa [hservices] using h

theorem accepted_eq_self {calls : List Submission} (h : (calls.map Submission.name).Nodup) :
    accepted calls = calls :=
  acceptedAfter_eq_self h

theorem nodup_name_accepted (calls : List Submission) :
    ((accepted calls).map Submission.name).Nodup := by
  rw [← names_run]
  exact (run calls).nodup

/-- Handing in what was accepted once more, some of it left out, gives the services of what is
handed in. -/
theorem services_run_of_sublist {calls part : List Submission}
    (h : part.Sublist (accepted calls)) :
    (run part).services = part.map Submission.subgraph := by
  rw [services_run, accepted_eq_self ((nodup_name_accepted calls).sublist (h.map _))]

end Subgraphs

end Federation
