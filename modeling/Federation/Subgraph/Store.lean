import Federation.Subgraph.Declaration
import Federation.Text.Listing
/-!
# Subgraphs — the store of declarations

What services declare is kept in tables: the services in the order in
which they came, the definitions of all services one after another, and
the fields of all definitions one after another. A definition names its
service by its rank and its fields by their places, and a field names
its definition. An index in the order of type names keeps the
definitions of one type next to each other. `Store.groups?` follows the
index, and reads every definition back from the tables
(`Store.declaration?`).
-/

namespace Federation

/-- A field in the table of fields, with the number of the definition that declares it. -/
structure StoredField where
  definition : Nat
  declaration : FieldDeclaration
  deriving DecidableEq, Inhabited, Repr

/-- A type definition in the table of definitions. It has the rank of its service, and instead of its
fields their places: from the first one up to, but not including, the last. -/
structure StoredDefinition where
  service : Nat
  node : TypeDefinition
  isExtension : Bool
  root : Option OperationType
  keys : List FieldSet
  fieldsFrom : Nat
  fieldsTo : Nat
  deriving DecidableEq, Inhabited, Repr

/-- An entry of the index: a definition under the name of its type. -/
structure IndexEntry where
  name : String
  service : Nat
  definition : Nat
  deriving DecidableEq, Inhabited, Repr

namespace IndexEntry

/-- The order of the index: by name, then by the rank of the service, then by the number of the
definition. -/
def order : IndexEntry → IndexEntry → Ordering :=
  compareLex (compareOn (·.name)) (compareLex (compareOn (·.service)) (compareOn (·.definition)))

/-- The index with one more entry at its place. An entry that is there already stays the only one. -/
def insertInto (e : IndexEntry) : List IndexEntry → List IndexEntry
  | [] => [e]
  | x :: xs =>
    match order e x with
    | .lt => e :: x :: xs
    | .eq => x :: xs
    | .gt => x :: insertInto e xs

end IndexEntry

/-- What services declare, in tables. -/
structure Store where
  services : Array String := #[]
  definitions : Array StoredDefinition := #[]
  fields : Array StoredField := #[]
  index : List IndexEntry := []
  deriving DecidableEq, Inhabited, Repr

namespace Store

/-- Enters one more service. Its rank is the number of services before it. -/
def pushService (t : Store) (name : String) : Store :=
  { t with services := t.services.push name }

/-- Enters a definition of a service: its fields go to the end of their table, and so does the
definition. -/
def pushDefinition (t : Store) (service : Nat) (d : Declaration) : Store :=
  let number := t.definitions.size
  let fields := t.fields ++ d.fields.map (StoredField.mk number)
  { t with
    definitions := t.definitions.push
      { service
        node := d.node
        isExtension := d.isExtension
        root := d.root
        keys := d.keys
        fieldsFrom := t.fields.size
        fieldsTo := fields.size }
    fields
    index := IndexEntry.insertInto { name := d.name, service, definition := number } t.index }

/-- Enters a service and its definitions in order. -/
def ingest (t : Store) (name : String) (ds : List Declaration) : Store :=
  ds.foldl (fun u d => u.pushDefinition t.services.size d) (t.pushService name)

/-- The fields at some places, if they are all in the table. -/
def fieldsAt? (t : Store) (places : List Nat) : Option (List FieldDeclaration) :=
  places.mapM fun place => t.fields[place]?.map (·.declaration)

/-- The definition of a number, with its service and its fields, if they are all in the tables. -/
def declaration? (t : Store) (number : Nat) : Option (Declared Declaration) := do
  let d ← t.definitions[number]?
  let service ← t.services[d.service]?
  let fields ← t.fieldsAt? (List.range' d.fieldsFrom (d.fieldsTo - d.fieldsFrom))
  return {
    rank := d.service
    service
    node := { node := d.node, isExtension := d.isExtension, root := d.root, keys := d.keys, fields } }

/-- The definitions of each type, if they are all in the tables. Types come in the order of the index;
the definitions of a type come by the names of their services, and those of one service as they are in
the index. -/
def groups? (t : Store) : Option (List (List (Declared Declaration))) :=
  (t.index.splitBy fun a b => a.name == b.name).mapM fun entries => do
    let ds ← entries.mapM fun e => t.declaration? e.definition
    return ds.mergeSort fun a b => Text.stringLe a.service b.service

end Store

end Federation
