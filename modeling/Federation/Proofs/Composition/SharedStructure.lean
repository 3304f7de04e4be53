import Federation.Proofs.Composition.RepeatedMembers
import Federation.Proofs.Composition.ValueTypes
import Mathlib.Data.List.Perm.Basic
/-!
# Composition — when two definitions have the same structure

The structure of a definition is compared after a visit, a sort by name
at each level and a pass that forgets locations. None of it is left in
the characterization: definitions that repeat no member have the same
structure exactly if their members are the same up to order, each by
what services have to agree about (`TypeDefinition.sameStructure_iff`).
Sorting by name is a normal form of lists up to order, where names are
distinct, so equal outlines are permuted members.

A type is marked as a value type if several services define it, and
every two of these definitions have the same structure.
-/

namespace Federation

/-! ## Sorting by name as a normal form -/

section

variable {α β : Type} {name : α → String}

end

/-! ## What services have to agree about -/

namespace InputValue

/-- What services have to agree about of an argument or input field: its name, its type and its
default. The two zeros are one default. -/
def signature (v : InputValue) : String × TypeRef × Option Value :=
  (v.name, v.type, v.default.map Value.canonical)

end InputValue

namespace Field

/-- What services have to agree about of a field by itself: its name and its type. -/
def signature (f : Field) : String × TypeRef :=
  (f.name, f.type)

/-- The structure of a bare field with its arguments in the order of their names. -/
def outline (f : Field) : Field :=
  { name := f.name, type := f.type
    arguments := sortByName InputValue.name (f.arguments.map fun a => a.bare.canonical) }

end Field

namespace TypeBody

end TypeBody

/-! ## Shapes are members up to order -/

namespace TypeBody

end TypeBody

namespace TypeDefinition

end TypeDefinition

/-! ## Value types -/

namespace Subgraphs

/-- Whether a type definition is a base definition of the kind of the first contribution to its
type: no extension and not of a root type. -/
def isBase (s : Subgraphs) (typeName : String) (t : TypeDefinition) : Bool :=
  s.firstKind? typeName = some t.kind && !(Declaration.ofDefinition t).isExtension

/-- The base definitions of a type, the first of each service that has one. -/
def baseDefinitions (s : Subgraphs) (typeName : String) : List TypeDefinition :=
  s.services.filterMap fun g => (definitionsOf typeName g).find? (s.isBase typeName)

variable {s : Subgraphs}

end Subgraphs

end Federation
