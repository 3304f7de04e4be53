import Federation.Manifest.Load
import Federation.Proofs.Composition.DroppedServices
/-!
# Manifests — the two ways to run one

To compose a manifest is to read all its schemas, and to hand these in
one after another (`compose_eq`): no name is taken twice, so no call is
rejected. For the services of a manifest, each schema is read and parsed
before the next one is read. So what stops the two ways differs: for
composition it is the first file that cannot be read, and for the
services the first schema that cannot be read or cannot be parsed. Where
nothing stops the latter, both come to the same (`runs_agree`).
-/

namespace Federation

/-! ## Stopping at the first error -/

section

variable {ε α β : Type} {f : α → Except ε β} {e : ε} {a : α} {as : List α}

theorem mapM_cons_of_ok {b : β} (h : f a = .ok b) :
    (a :: as).mapM f = (as.mapM f).map (b :: ·) := by
  rw [List.mapM_cons, h]
  cases as.mapM f <;> rfl

theorem mapM_cons_of_error (h : f a = .error e) : (a :: as).mapM f = .error e := by
  rw [List.mapM_cons, h]
  rfl

/-- Where each element is in some way like what comes of it, a list is like what comes of its
elements in turn. -/
theorem map_eq_of_mapM_eq_ok {γ : Type} {p : α → γ} {q : β → γ} {bs : List β}
    (h : as.mapM f = .ok bs) (halike : ∀ a b, f a = .ok b → p a = q b) :
    as.map p = bs.map q := by
  induction as generalizing bs with
  | nil =>
    cases h
    rfl
  | cons a as ih =>
    cases ha : f a with
    | error e =>
      rw [mapM_cons_of_error ha] at h
      cases h
    | ok b =>
      rw [mapM_cons_of_ok ha] at h
      cases has : as.mapM f with
      | error e =>
        rw [has] at h
        cases h
      | ok cs =>
        rw [has] at h
        cases h
        rw [List.map_cons, List.map_cons, halike a b ha, ih has]

/-- What stops elements in turn is the first of them that fails. -/
theorem exists_of_mapM_eq_error (h : as.mapM f = .error e) :
    ∃ before a after, as = before ++ a :: after ∧
      (∀ b ∈ before, ∃ c, f b = .ok c) ∧ f a = .error e := by
  induction as with
  | nil => cases h
  | cons a as ih =>
    cases ha : f a with
    | error e' =>
      rw [mapM_cons_of_error ha] at h
      cases h
      exact ⟨[], a, as, rfl, nofun, ha⟩
    | ok b =>
      have hrest : as.mapM f = .error e := by
        rw [mapM_cons_of_ok ha] at h
        cases has : as.mapM f with
        | error e' =>
          rw [has] at h
          cases h
          rfl
        | ok cs =>
          rw [has] at h
          cases h
      obtain ⟨before, x, after, rfl, hbefore, hx⟩ := ih hrest
      exact ⟨a :: before, x, after, rfl, List.forall_mem_cons.mpr ⟨⟨b, ha⟩, hbefore⟩, hx⟩

/-- Elements in turn stop at one that fails, if those before it do not. -/
theorem mapM_append_cons_eq_error {before : List α} (hbefore : ∀ b ∈ before, ∃ c, f b = .ok c)
    (ha : f a = .error e) (after : List α) : (before ++ a :: after).mapM f = .error e := by
  induction before with
  | nil => exact mapM_cons_of_error ha
  | cons b before ih =>
    obtain ⟨⟨c, hc⟩, hrest⟩ := List.forall_mem_cons.mp hbefore
    rw [List.cons_append, mapM_cons_of_ok hc, ih hrest]
    rfl

end

/-! ## One entry -/

namespace Submission

/-- The service of a call, for a manifest that needs it. -/
def service : Submission → Except ManifestError Service
  | document service => .ok service
  | text name url source => (Service.ofText name url source).mapError (.unparsable name)

theorem subgraph_of_service {c : Submission} {service : Service} (h : c.service = .ok service) :
    c.subgraph = service.toSubgraph := by
  cases c with
  | document s =>
    cases h
    rfl
  | text name url source =>
    rw [Submission.service, Service.ofText] at h
    cases hparse : Document.parse source with
    | error error =>
      rw [hparse] at h
      cases h
    | ok d =>
      rw [hparse] at h
      cases h
      rw [subgraph, hparse]
      rfl

end Submission

namespace ManifestEntry

variable {t : FileTree} {e : ManifestEntry}

/-- The error of a schema that can be read and cannot be parsed. -/
def syntaxError? (t : FileTree) (e : ManifestEntry) : Option SyntaxError :=
  match t.read e.path with
  | .error _ => none
  | .ok text =>
    match Document.parse text with
    | .error error => some error
    | .ok _ => none

/-- The error of the first schema that can be read and cannot be parsed, for a manifest that needs
its service. -/
def firstUnparsable? (t : FileTree) (entries : List ManifestEntry) : Option ManifestError :=
  entries.findSome? fun e => (e.syntaxError? t).map (.unparsable e.name)

/-- The report on a schema that cannot be parsed. -/
def syntaxReport? (t : FileTree) (e : ManifestEntry) : Option Diagnostic :=
  (e.syntaxError? t).map fun error =>
    { cause := .unreadable error, coordinate := .schema, service := some e.name }

/-- The service of an entry as it is handed in, by its text. -/
def submission (t : FileTree) (e : ManifestEntry) : Except ManifestError Submission :=
  (t.require e.path).map (.text e.name e.url)

theorem submission_of_error {fault : ReadFault} (h : t.read e.path = .error fault) :
    e.submission t = .error (.unreadable e.path fault) := by
  rw [submission, FileTree.require, h]
  rfl

theorem submission_of_ok {text : String} (h : t.read e.path = .ok text) :
    e.submission t = .ok (.text e.name e.url text) := by
  rw [submission, FileTree.require, h]
  rfl

/-- An entry that is handed in can be read, and its text is what is handed in. -/
theorem exists_read_of_submission {c : Submission} (h : e.submission t = .ok c) :
    ∃ text, t.read e.path = .ok text ∧ c = .text e.name e.url text := by
  cases hread : t.read e.path with
  | ok text =>
    rw [submission_of_ok hread] at h
    cases h
    exact ⟨text, rfl, rfl⟩
  | error fault =>
    rw [submission_of_error hread] at h
    cases h

/-- An entry that is not handed in cannot be read. -/
theorem exists_fault_of_submission {x : ManifestError} (h : e.submission t = .error x) :
    ∃ fault, t.read e.path = .error fault ∧ x = .unreadable e.path fault := by
  cases hread : t.read e.path with
  | ok text =>
    rw [submission_of_ok hread] at h
    cases h
  | error fault =>
    rw [submission_of_error hread] at h
    cases h
    exact ⟨fault, rfl, rfl⟩

/-- The service of an entry is read before it is parsed. -/
theorem service_eq (t : FileTree) (e : ManifestEntry) :
    e.service t = (e.submission t).bind Submission.service := by
  rw [service, submission]
  cases t.require e.path <;> rfl

/-- A schema cannot be read, or is read and cannot be parsed, or is read and parsed. -/
theorem service_cases (t : FileTree) (e : ManifestEntry) :
    (∃ fault, t.read e.path = .error fault ∧
      e.service t = .error (.unreadable e.path fault)) ∨
    (∃ text error, t.read e.path = .ok text ∧ e.syntaxError? t = some error ∧
      e.service t = .error (.unparsable e.name error)) ∨
    ∃ text service, t.read e.path = .ok text ∧ e.syntaxError? t = none ∧
      e.service t = .ok service := by
  cases hread : t.read e.path with
  | error fault =>
    refine .inl ⟨fault, rfl, ?_⟩
    rw [service_eq, submission_of_error hread]
    rfl
  | ok text =>
    rw [service_eq, submission_of_ok hread, syntaxError?, hread]
    simp only [Except.bind, Submission.service, Service.ofText]
    cases hparse : Document.parse text with
    | error error => exact .inr (.inl ⟨text, error, rfl, rfl, rfl⟩)
    | ok d => exact .inr (.inr ⟨text, _, rfl, rfl, rfl⟩)

/-- What is reported about an entry is reported about its call. -/
theorem syntaxReport?_of_submission {c : Submission} (h : e.submission t = .ok c) :
    e.syntaxReport? t = c.syntaxError? := by
  obtain ⟨text, hread, rfl⟩ := exists_read_of_submission h
  rw [syntaxReport?, syntaxError?, hread, Submission.syntaxError?, Submission.subgraph]
  cases hparse : Document.parse text <;> simp only [hparse] <;> rfl

theorem name_of_submission {c : Submission} (h : e.submission t = .ok c) : e.name = c.name := by
  obtain ⟨text, -, rfl⟩ := exists_read_of_submission h
  rfl

theorem exists_service (hread : ∃ text, t.read e.path = .ok text)
    (hparse : e.syntaxError? t = none) : ∃ service, e.service t = .ok service := by
  obtain ⟨text, hread⟩ := hread
  obtain ⟨fault, hfault, -⟩ | ⟨-, error, -, herror, -⟩ | ⟨-, service, -, -, hservice⟩ :=
    e.service_cases t
  · rw [hread] at hfault
    cases hfault
  · rw [hparse] at herror
    cases herror
  · exact ⟨service, hservice⟩

theorem service_of_syntaxError {error : SyntaxError} (h : e.syntaxError? t = some error) :
    e.service t = .error (.unparsable e.name error) := by
  obtain ⟨fault, hfault, -⟩ | ⟨-, error', -, herror, hservice⟩ | ⟨-, -, -, hnone, -⟩ :=
    e.service_cases t
  · rw [syntaxError?, hfault] at h
    cases h
  · rw [h] at herror
    cases herror
    exact hservice
  · rw [h] at hnone
    cases hnone

/-- Entries that can be read are stopped by the first one that cannot be parsed. -/
theorem mapM_service_of_firstUnparsable {entries : List ManifestEntry} {x : ManifestError}
    (hread : ∀ e ∈ entries, ∃ text, t.read e.path = .ok text)
    (hfirst : firstUnparsable? t entries = some x) (later : List ManifestEntry) :
    (entries ++ later).mapM (service t) = .error x := by
  obtain ⟨before, e, after, rfl, he, hbefore⟩ := List.findSome?_eq_some_iff.mp hfirst
  obtain ⟨error, herror, rfl⟩ := Option.map_eq_some_iff.mp he
  rw [List.append_assoc, List.cons_append]
  refine mapM_append_cons_eq_error (fun b hb => ?_) (service_of_syntaxError herror) _
  exact exists_service (hread b (List.mem_append_left _ hb))
    (Option.map_eq_none_iff.mp (hbefore b hb))

/-- **Entries with new names** are read, and handed in one after another. -/
theorem foldlM_ingest {entries : List ManifestEntry} {s : Subgraphs}
    (h : (s.services.map (·.name) ++ entries.map (·.name)).Nodup) :
    entries.foldlM (ingest t) s =
      (entries.mapM (submission t)).map (·.foldl Subgraphs.afterCall s) := by
  induction entries generalizing s with
  | nil => rfl
  | cons e entries ih =>
    cases hread : t.read e.path with
    | error fault =>
      have hstop : ingest t s e = .error (.unreadable e.path fault) := by
        rw [ingest, FileTree.require, hread]
        rfl
      rw [List.foldlM_cons, hstop, mapM_cons_of_error (submission_of_error hread)]
      rfl
    | ok text =>
      have hnew : e.name ∉ s.services.map (·.name) := fun hmem =>
        (List.nodup_append.mp h).2.2 _ hmem _ List.mem_cons_self rfl
      obtain ⟨s', hs', hservices⟩ :=
        Subgraphs.exists_submit_of_not_mem (c := .text e.name e.url text) hnew
      have hstep : ingest t s e = .ok s' := by
        rw [ingest, FileTree.require, hread]
        exact congrArg (Except.mapError ManifestError.refused) hs'
      have hcall : s.afterCall (.text e.name e.url text) = s' := by
        rw [Subgraphs.afterCall, hs']
      have hnodup : (s'.services.map (·.name) ++ entries.map (·.name)).Nodup := by
        simpa [hservices, Submission.subgraph] using h
      rw [List.foldlM_cons, hstep, mapM_cons_of_ok (submission_of_ok hread)]
      refine (ih hnodup).trans ?_
      rw [← hcall]
      cases entries.mapM (submission t) <;> rfl

end ManifestEntry

/-! ## All entries -/

namespace Manifest

variable {m : Manifest} {t : FileTree} {calls : List Submission}

/-- The services of a manifest as they are handed in, in order. -/
def submissions (m : Manifest) (t : FileTree) : Except ManifestError (List Submission) :=
  m.entries.mapM (ManifestEntry.submission t)

/-- **To compose a manifest** is to read its schemas and hand them in one after another. -/
theorem compose_eq (m : Manifest) (t : FileTree) :
    m.compose t = (m.submissions t).map fun calls => (Subgraphs.run calls).compose := by
  have hnodup : (Subgraphs.empty.services.map (·.name) ++ m.entries.map (·.name)).Nodup := m.nodup
  rw [compose, subgraphs, ManifestEntry.foldlM_ingest hnodup, submissions]
  cases m.entries.mapM (ManifestEntry.submission t) <;> rfl

theorem compose_eq_error_iff {x : ManifestError} :
    m.compose t = .error x ↔ m.submissions t = .error x := by
  rw [compose_eq]
  cases m.submissions t <;> simp [Except.map]

/-- Files that can be read are all handed in. -/
theorem exists_submissions (h : ∀ e ∈ m.entries, ∃ text, t.read e.path = .ok text) :
    ∃ calls, m.submissions t = .ok calls := by
  cases hcalls : m.submissions t with
  | ok calls => exact ⟨calls, rfl⟩
  | error x =>
    obtain ⟨before, e, after, hentries, -, he⟩ := exists_of_mapM_eq_error hcalls
    obtain ⟨text, htext⟩ := h e (by rw [hentries]; exact List.mem_append_cons_self)
    rw [ManifestEntry.submission_of_ok htext] at he
    cases he

section

variable (h : m.submissions t = .ok calls)
include h

/-- Once the schemas are read, they are parsed one after another. -/
theorem services_of_submissions : m.services t = calls.mapM Submission.service := by
  have halike : m.entries.map (ManifestEntry.service t) = calls.map Submission.service := by
    refine map_eq_of_mapM_eq_ok h fun e c hc => ?_
    rw [ManifestEntry.service_eq, hc]
    rfl
  calc m.entries.mapM (ManifestEntry.service t)
      = (m.entries.map (ManifestEntry.service t)).mapM id :=
        (List.mapM_map (f := ManifestEntry.service t) (g := id)).symm
    _ = (calls.map Submission.service).mapM id := by rw [halike]
    _ = calls.mapM Submission.service := List.mapM_map (g := id)

/-- The calls for a manifest are all accepted. -/
theorem accepted_of_submissions : Subgraphs.accepted calls = calls := by
  have hnames : calls.map Submission.name = m.entries.map (·.name) :=
    (map_eq_of_mapM_eq_ok h fun _ _ => ManifestEntry.name_of_submission).symm
  refine Subgraphs.accepted_eq_self ?_
  rw [hnames]
  exact m.nodup

theorem filterMap_syntaxError?_of_submissions :
    calls.filterMap Submission.syntaxError? =
      m.entries.filterMap (ManifestEntry.syntaxReport? t) := by
  have hreports : m.entries.map (ManifestEntry.syntaxReport? t) =
      calls.map Submission.syntaxError? :=
    map_eq_of_mapM_eq_ok h fun _ _ => ManifestEntry.syntaxReport?_of_submission
  calc calls.filterMap Submission.syntaxError?
      = (calls.map Submission.syntaxError?).filterMap id := by rw [List.filterMap_map]; rfl
    _ = (m.entries.map (ManifestEntry.syntaxReport? t)).filterMap id := by rw [hreports]
    _ = m.entries.filterMap (ManifestEntry.syntaxReport? t) := by rw [List.filterMap_map]; rfl

/-- Services that can all be parsed are composed as they are. -/
theorem compose_of_services {services : List Service} (hservices : m.services t = .ok services) :
    ∃ outcome, Service.compose services = .ok outcome ∧ m.compose t = .ok outcome := by
  rw [services_of_submissions h] at hservices
  have hparsed : calls.map Submission.subgraph = services.map Service.toSubgraph :=
    map_eq_of_mapM_eq_ok hservices fun _ _ => Submission.subgraph_of_service
  have hrun : (Subgraphs.run calls).services = services.map Service.toSubgraph := by
    rw [Subgraphs.services_run, accepted_of_submissions h, hparsed]
  have hnodup : (services.map (·.name)).Nodup := by
    have hnames := (Subgraphs.run calls).nodup
    rwa [hrun, List.map_map] at hnames
  obtain ⟨s, hs⟩ := Subgraphs.exists_ofServices hnodup
  obtain rfl : Subgraphs.run calls = s :=
    Subgraphs.eq_of_services (hrun.trans (Subgraphs.services_of_ofServices hs).symm)
  refine ⟨(Subgraphs.run calls).compose, ?_, ?_⟩
  · rw [Service.compose, hs]
    rfl
  · rw [compose_eq, h]
    rfl

/-- A schema that cannot be parsed is reported, in its place. -/
theorem compose_of_syntaxError {e : ManifestEntry} {error : SyntaxError} (he : e ∈ m.entries)
    (herror : e.syntaxError? t = some error) :
    ∃ ds, m.compose t = .ok (.error ds) ∧
      (ds.filter fun d => d.kind = .syntaxError) =
        m.entries.filterMap (ManifestEntry.syntaxReport? t) := by
  have hreports : ((Subgraphs.run calls).diagnostics.filter fun d => d.kind = .syntaxError) =
      m.entries.filterMap (ManifestEntry.syntaxReport? t) := by
    rw [Subgraphs.filter_diagnostics_run, accepted_of_submissions h,
      filterMap_syntaxError?_of_submissions h]
  rw [compose_eq, h]
  cases hcompose : (Subgraphs.run calls).compose with
  | error ds =>
    rw [Subgraphs.diagnostics, hcompose] at hreports
    exact ⟨ds, congrArg Except.ok hcompose, hreports⟩
  | ok g =>
    -- a supergraph comes without reports, and there is one about the schema
    rw [Subgraphs.diagnostics, hcompose] at hreports
    have hnone := List.filterMap_eq_nil_iff.mp hreports.symm e he
    rw [ManifestEntry.syntaxReport?, herror] at hnone
    cases hnone

end

/-- Composition is stopped by the first file that cannot be read, and the services by that file too,
or by the first schema before it that cannot be parsed. -/
theorem exists_of_compose_eq_error {x : ManifestError} (h : m.compose t = .error x) :
    ∃ before e after fault, m.entries = before ++ e :: after ∧
      (∀ b ∈ before, ∃ text, t.read b.path = .ok text) ∧ t.read e.path = .error fault ∧
      x = .unreadable e.path fault ∧
      m.services t = .error ((ManifestEntry.firstUnparsable? t before).getD x) := by
  rw [compose_eq_error_iff] at h
  obtain ⟨before, e, after, hentries, hbefore, he⟩ := exists_of_mapM_eq_error h
  obtain ⟨fault, hfault, hx⟩ := ManifestEntry.exists_fault_of_submission he
  have hread : ∀ b ∈ before, ∃ text, t.read b.path = .ok text := by
    intro b hb
    obtain ⟨c, hc⟩ := hbefore b hb
    obtain ⟨text, hread, -⟩ := ManifestEntry.exists_read_of_submission hc
    exact ⟨text, hread⟩
  refine ⟨before, e, after, fault, hentries, hread, hfault, hx, ?_⟩
  rw [services, hentries]
  cases hfirst : ManifestEntry.firstUnparsable? t before with
  | some y => exact ManifestEntry.mapM_service_of_firstUnparsable hread hfirst _
  | none =>
    have hservice : e.service t = .error x := by
      rw [ManifestEntry.service_eq, he]
      rfl
    refine mapM_append_cons_eq_error (fun b hb => ?_) hservice after
    exact ManifestEntry.exists_service (hread b hb)
      (Option.map_eq_none_iff.mp (List.findSome?_eq_none_iff.mp hfirst b hb))

/-- **The two ways to run a manifest agree.** If the services of a manifest are given, they are
composed to what the manifest is composed to. If all schemas can be read and some cannot be parsed,
then the services are stopped by the first of these, and composition reports one syntax error for
each of them, in order. And if composition is stopped, then by the first file that cannot be read,
and the services are stopped by the first schema before it that cannot be parsed, or by that file if
there is none. -/
theorem runs_agree (m : Manifest) (t : FileTree) :
    (∀ services, m.services t = .ok services →
      ∃ outcome, Service.compose services = .ok outcome ∧ m.compose t = .ok outcome) ∧
    ((∀ e ∈ m.entries, ∃ text, t.read e.path = .ok text) →
      ∀ x, ManifestEntry.firstUnparsable? t m.entries = some x →
        m.services t = .error x ∧
        ∃ ds, m.compose t = .ok (.error ds) ∧
          (ds.filter fun d => d.kind = .syntaxError) =
            m.entries.filterMap (ManifestEntry.syntaxReport? t)) ∧
    ∀ x, m.compose t = .error x →
      ∃ before e after fault, m.entries = before ++ e :: after ∧
        (∀ b ∈ before, ∃ text, t.read b.path = .ok text) ∧ t.read e.path = .error fault ∧
        x = .unreadable e.path fault ∧
        m.services t = .error ((ManifestEntry.firstUnparsable? t before).getD x) := by
  refine ⟨fun services hservices => ?_, fun hread x hx => ⟨?_, ?_⟩,
    fun x => exists_of_compose_eq_error⟩
  · cases hcalls : m.submissions t with
    | ok calls => exact compose_of_services hcalls hservices
    | error x =>
      -- what stops composition stops the services
      have hcompose : m.compose t = .error x := compose_eq_error_iff.mpr hcalls
      obtain ⟨_, _, _, _, -, -, -, -, hstop⟩ := exists_of_compose_eq_error hcompose
      rw [hservices] at hstop
      cases hstop
  · have hstop := ManifestEntry.mapM_service_of_firstUnparsable hread hx []
    rwa [List.append_nil] at hstop
  · obtain ⟨calls, hcalls⟩ := exists_submissions hread
    obtain ⟨e, he, hfirst⟩ := List.exists_of_findSome?_eq_some hx
    obtain ⟨error, herror, -⟩ := Option.map_eq_some_iff.mp hfirst
    exact compose_of_syntaxError hcalls he herror

/-- A manifest of two services. -/
def shop : Manifest where
  entries :=
    [{ name := "products", url := some "http://products", path := "/shop/products.graphql" },
     { name := "inventory", path := "/shop/inventory.graphql" }]
  nodup := by decide

/-- The files of the shop: the schema of its products, and perhaps that of its inventory. -/
def shopFiles (products : String) (inventory : Option String) : FileTree :=
  .ofFiles "/shop" (("products.graphql", products) ::
    inventory.toList.map fun text => ("inventory.graphql", text))

/-- Both services are parsed; or the products are not; or besides there is no inventory. -/
theorem shop_runs_agree :
    (∃ services outcome, shop.services (shopFiles "scalar P" (some "scalar I")) = .ok services ∧
      Service.compose services = .ok outcome ∧
      shop.compose (shopFiles "scalar P" (some "scalar I")) = .ok outcome) ∧
    (shop.services (shopFiles "" (some "scalar I")) =
        .error (.unparsable "products" .emptyDocument) ∧
      ∃ ds, shop.compose (shopFiles "" (some "scalar I")) = .ok (.error ds) ∧
        (ds.filter fun d => d.kind = .syntaxError) =
          [{ cause := .unreadable .emptyDocument, coordinate := .schema,
             service := some "products" }]) ∧
    shop.compose (shopFiles "" none) = .error (.unreadable "/shop/inventory.graphql" .notFound) ∧
    ∃ before e after fault, shop.entries = before ++ e :: after ∧
      (∀ b ∈ before, ∃ text, (shopFiles "" none).read b.path = .ok text) ∧
      (shopFiles "" none).read e.path = .error fault ∧
      .unreadable "/shop/inventory.graphql" .notFound = ManifestError.unreadable e.path fault ∧
      shop.services (shopFiles "" none) =
        .error ((ManifestEntry.firstUnparsable? (shopFiles "" none) before).getD
          (.unreadable "/shop/inventory.graphql" .notFound)) := by
  refine ⟨?_, ?_, ?_⟩
  · have hok : (shop.services (shopFiles "scalar P" (some "scalar I"))).isOk = true := by
      decide +kernel
    cases hservices : shop.services (shopFiles "scalar P" (some "scalar I")) with
    | error x =>
      rw [hservices] at hok
      cases hok
    | ok services =>
      obtain ⟨outcome, hcompose, hrun⟩ := (runs_agree shop _).1 services hservices
      exact ⟨services, outcome, rfl, hcompose, hrun⟩
  · have hread : ∀ e ∈ shop.entries,
        ∃ text, (shopFiles "" (some "scalar I")).read e.path = .ok text :=
      List.forall_mem_cons.mpr ⟨⟨"", by decide +kernel⟩,
        List.forall_mem_cons.mpr ⟨⟨"scalar I", by decide +kernel⟩, nofun⟩⟩
    have hreports : shop.entries.filterMap
        (ManifestEntry.syntaxReport? (shopFiles "" (some "scalar I"))) =
          [{ cause := .unreadable .emptyDocument, coordinate := .schema,
             service := some "products" }] := by
      decide +kernel
    rw [← hreports]
    exact (runs_agree shop _).2.1 hread _ (by decide +kernel)
  · have hstop : shop.compose (shopFiles "" none) =
        .error (.unreadable "/shop/inventory.graphql" .notFound) := by
      decide +kernel
    exact ⟨hstop, (runs_agree shop _).2.2 _ hstop⟩

end Manifest

end Federation
