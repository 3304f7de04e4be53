import Federation.Schema.Interfaces
import Federation.Schema.References
/-!
# Schema — what holds of a composed schema

The checks that need the contributions of all services: keys select
fields that there are, a field that is marked as resolved elsewhere is
resolved somewhere, interfaces are implemented, a field of a root type
is resolved by one service, and references name types.
-/

namespace Federation

namespace Schema

/-- Follows a path of fields from a type down. The failure is the type that lacks a field, and the
field. -/
def followPath (s : Schema) (typeName : String) : List String → Except (String × String) Unit
  | [] => .ok ()
  | field :: path =>
    match (s.type? typeName).bind (·.field? field) with
    | none => .error (typeName, field)
    | some f => s.followPath f.type.name path

/-- Keys that select fields which are not there, once for each path. -/
def keyProblems (s : Schema) : List Diagnostic :=
  s.ownership.flatMap fun t =>
    t.keys.flatMap fun (service, key) =>
      key.paths.filterMap fun path =>
        match s.followPath t.name path with
        | .ok () => none
        | .error (typeName, field) =>
          some
            { cause := .unresolvedKey key typeName field, coordinate := .type t.name,
              service := some service }

/-- Fields that every service marks as resolved elsewhere. -/
def externalFieldProblems (s : Schema) : List Diagnostic :=
  s.ownership.flatMap fun t =>
    (t.fields.filter fun f => !f.contributions.isEmpty && f.owner?.isNone).map fun f =>
      { cause := .unresolvedExternal (f.contributions.map (·.service))
        coordinate := .member t.name f.name }

/-- Fields of root types that several services resolve. -/
def rootFieldProblems (s : Schema) : List Diagnostic :=
  (OperationType.all.filterMap s.rootType?).flatMap fun root =>
    match s.ownership? root.name with
    | none => []
    | some t =>
      (t.fields.filter fun f => 1 < f.resolvers.length).map fun f =>
        { cause := .severalRootResolvers f.resolvers, coordinate := .member root.name f.name }

/-- References to types that the schema does not know. -/
def referenceProblems (s : Schema) : List Diagnostic :=
  s.types.flatMap (TypeDefinition.unknownReferences s.isKnownType)

/-- What is wrong with a composed schema. -/
def problems (s : Schema) : List Diagnostic :=
  s.keyProblems ++ s.externalFieldProblems ++ s.interfaceProblems ++ s.rootFieldProblems ++
    s.referenceProblems

end Schema

end Federation
