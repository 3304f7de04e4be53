import Federation.Files.Path
import Federation.Subgraph.Basic
import Federation.Toml.Parser
/-!
# Manifests

A manifest is a TOML document that lists the services to compose: under
`subgraphs`, by their names, the address of each service and the path of
its schema. Services keep the order in which the document declares them.
A key that a manifest does not know is an error.
-/

namespace Federation

/-- What a manifest says about a service. -/
structure ManifestEntry where
  name : String
  url : Option String := none
  path : String
  deriving DecidableEq, Inhabited, Repr

/-- The services to compose, under different names. -/
structure Manifest where
  entries : List ManifestEntry := []
  nodup : (entries.map (·.name)).Nodup := by exact List.nodup_nil
  deriving DecidableEq, Repr

namespace ManifestEntry

/-- A service as a table, with its address and its path under their keys. -/
def ofTable (name : String) (es : Toml.Entries) : Option ManifestEntry :=
  if es.all fun (key, _) => key == "url" || key == "schema_path" then
    match Toml.lookup? es "url", Toml.lookup? es "schema_path" with
    | none, some (.text path) => some { name, path }
    | some (.text url), some (.text path) => some { name, url, path }
    | _, _ => none
  else none

/-- A service as a value: a table, or an array of which the first items are its address and its
path. -/
def ofToml (name : String) : Toml → Option ManifestEntry
  | .table _ es => ofTable name es
  | .array (.text url :: .text path :: _) => some { name, url, path }
  | .array _ | .tables _ | .text _ | .scalar => none

/-- An entry with its path as it is seen from a directory. -/
def seenFrom (directory : String) (e : ManifestEntry) : ManifestEntry :=
  { e with path := Path.join directory e.path }

end ManifestEntry

namespace Manifest

/-- The manifest with given entries, if they have different names. -/
def ofEntries? (entries : List ManifestEntry) : Option Manifest :=
  if nodup : (entries.map (·.name)).Nodup then some { entries, nodup } else none

/-- The manifest that a document spells. A document without services spells the empty one. -/
def ofToml (document : Toml.Entries) : Option Manifest :=
  if document.all fun (key, _) => key == "subgraphs" then
    match Toml.lookup? document "subgraphs" with
    | none => some {}
    | some (.table _ services) =>
      (services.mapM fun (name, value) => ManifestEntry.ofToml name value).bind ofEntries?
    | some _ => none
  else none

/-- The manifest with its paths as they are seen from a directory. -/
def seenFrom (directory : String) (m : Manifest) : Manifest :=
  { entries := m.entries.map (ManifestEntry.seenFrom directory)
    nodup := by simpa [Function.comp_def, ManifestEntry.seenFrom] using m.nodup }

end Manifest

end Federation
