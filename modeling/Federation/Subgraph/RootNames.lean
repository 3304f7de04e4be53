import Federation.Document.Visit
/-!
# Subgraphs — the names of root types

A service may name its root types as it likes. So that the root types
of all services can be merged, they are renamed to the conventional
names. A type that has a conventional name of an operation whose root
goes by another name shadows the root, and is left out.
-/

namespace Federation

/-- A root type that goes by a name of its own. -/
structure RootRename where
  custom : String
  operation : OperationType
  deriving DecidableEq, Inhabited, Repr

namespace RootRename

/-- The name that the root type is given. -/
def conventional (r : RootRename) : String :=
  r.operation.conventionalName

/-- The renames after one more root type: the last root type of an operation counts. -/
def add (rs : List RootRename) (r : RootOperation) : List RootRename :=
  rs.filter (·.operation ≠ r.operation) ++
    if r.typeName = r.operation.conventionalName then [] else [⟨r.typeName, r.operation⟩]

/-- The new name of a type definition, an interface or a union member. -/
def name (rs : List RootRename) (name : String) : String :=
  ((rs.find? (·.custom == name)).map conventional).getD name

/-- The new form of a type reference: the renames apply one after the other. -/
def type (rs : List RootRename) (t : TypeRef) : TypeRef :=
  rs.foldl (fun t r => t.mapName fun n => if n = r.custom then r.conventional else n) t

/-- Whether a type of a name shadows a renamed root type. -/
def shadows (rs : List RootRename) (name : String) : Bool :=
  rs.any (·.conventional == name)

/-- The new form of what a definition holds, apart from its fields. -/
def body (rs : List RootRename) : TypeBody → TypeBody
  | .object b => .object { b with implements := b.implements.map (name rs) }
  | .interface b => .interface { b with implements := b.implements.map (name rs) }
  | .union members => .union (members.map (name rs))
  | .scalar => .scalar
  | .enum values => .enum values
  | .inputObject fields => .inputObject fields

/-- The transform that renames root types and leaves out what shadows them. -/
def transform (rs : List RootRename) : Transform Id where
  typeDefinition d :=
    if shadows rs d.name then .delete
    else .replace { d with name := name rs d.name, body := body rs d.body }
  field f := .replace { f with type := type rs f.type }
  inputValue v := .replace { v with type := type rs v.type }

end RootRename

namespace Document

/-- The root types that go by names of their own. -/
def rootRenames (d : Document) : List RootRename :=
  (d.schemaDefinitions.flatMap (·.rootOperations)).foldl RootRename.add []

/-- The types that shadow a renamed root type. -/
def shadowingTypes (d : Document) : List TypeDefinition :=
  d.typeDefinitions.filter fun t => RootRename.shadows d.rootRenames t.name

/-- The document with its root types under their conventional names. -/
def withConventionalRoots (d : Document) : Document :=
  match d.rootRenames with
  | [] => d
  | rs => (d.visit (RootRename.transform rs)).run

end Document

end Federation
