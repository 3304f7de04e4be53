import Federation.Diagnostic
/-!
# Schema — references to types

Every name that a type definition refers to: the interfaces that it
implements, the types of its fields, of their arguments and of input
fields, and the members of a union. `unknownReferences` reports those
that name no known type.
-/

namespace Federation

namespace TypeDefinition

/-- The names that a type definition refers to, each with the coordinate that refers to it. -/
def references (d : TypeDefinition) : List (Coordinate × String) :=
  let ofType := fun names : List String => names.map (Coordinate.type d.name, ·)
  let ofMember := fun (name : String) (type : TypeRef) => (Coordinate.member d.name name, type.name)
  ofType d.implements ++
    match d.body with
    | .object body | .interface body =>
      body.fields.flatMap fun f =>
        ofMember f.name f.type :: f.arguments.map fun a => ofMember f.name a.type
    | .union members => ofType members
    | .inputObject fields => fields.map fun f => ofMember f.name f.type
    | .scalar | .enum _ => []

/-- The references of a type definition that name no known type. -/
def unknownReferences (isKnown : String → Bool) (d : TypeDefinition) : List Diagnostic :=
  (d.references.filter (!isKnown ·.2)).map fun (coordinate, name) =>
    { cause := .unknownType name, coordinate, location := some d.location }

end TypeDefinition

end Federation
