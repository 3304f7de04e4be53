import Federation.Composition.Compose
import Federation.Files.Tree
import Federation.Manifest.Basic
/-!
# Manifests — loading and running

A manifest is loaded from a tree of files, and then run in one of two
ways. `Manifest.compose` reads the schema of every service and composes
them, and reports a schema that cannot be parsed with everything else
that is wrong. `Manifest.services` gives the services themselves, and so
stops at the first schema that cannot be parsed.
-/

namespace Federation

/-- Why a manifest cannot be loaded or run. -/
inductive ManifestError
  | unreadable (path : String) (fault : ReadFault)
  | malformed
  | unparsable (service : String) (error : SyntaxError)
  | refused (error : IngestError)
  deriving DecidableEq, Inhabited, Repr

namespace ManifestError

/-- The wording of an error. -/
def message : ManifestError → String
  | unreadable path fault => s!"Could not read `{path}`: {fault.message}"
  | malformed => "Invalid composition config"
  | unparsable service error => s!"The schema of `{service}` could not be parsed: {error.message}"
  | refused error => error.message

end ManifestError

namespace FileTree

/-- The contents of a file, for a manifest that needs it. -/
def require (t : FileTree) (path : String) : Except ManifestError String :=
  (t.read path).mapError (.unreadable path)

end FileTree

namespace ManifestEntry

/-- The service of an entry. -/
def service (t : FileTree) (e : ManifestEntry) : Except ManifestError Service := do
  let text ← t.require e.path
  (Service.ofText e.name e.url text).mapError (.unparsable e.name)

/-- Adds the service of an entry, by its text, to others. -/
def ingest (t : FileTree) (s : Subgraphs) (e : ManifestEntry) :
    Except ManifestError Subgraphs := do
  let text ← t.require e.path
  (s.ingestText e.name e.url text).mapError .refused

end ManifestEntry

namespace Manifest

/-- The manifest that a text spells. -/
def ofText (text : String) : Except ManifestError Manifest :=
  match (Toml.parse text).bind ofToml with
  | some m => .ok m
  | none => .error .malformed

/-- The manifest in a file. Its paths are seen from the directory of that file. -/
def load (t : FileTree) (path : String) : Except ManifestError Manifest := do
  let m ← ofText (← t.require path)
  return m.seenFrom (Path.directory path)

/-- The services of a manifest, in order. -/
def services (m : Manifest) (t : FileTree) : Except ManifestError (List Service) :=
  m.entries.mapM (ManifestEntry.service t)

/-- The services of a manifest by their texts. -/
def subgraphs (m : Manifest) (t : FileTree) : Except ManifestError Subgraphs :=
  m.entries.foldlM (ManifestEntry.ingest t) Subgraphs.empty

/-- The supergraph of the services of a manifest, or everything that is wrong with them. -/
def compose (m : Manifest) (t : FileTree) :
    Except ManifestError (Except (List Diagnostic) Supergraph) :=
  (m.subgraphs t).map Subgraphs.compose

end Manifest

end Federation
