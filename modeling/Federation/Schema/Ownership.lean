import Federation.FieldSet.Basic
/-!
# Schema — who resolves what

The record that composition leaves of every type: the service that
defines it, its keys, and for every field the services that declare it.
The owner of a field is the first service that declares it and does not
mark it as resolved elsewhere.
-/

namespace Federation

/-- The declaration of a field by one service. -/
structure FieldContribution where
  service : String
  isExternal : Bool
  requires : Option FieldSet
  provides : Option FieldSet
  deriving DecidableEq, Inhabited, Repr

/-- The services that declare a field, in the order of their names. -/
structure FieldOwnership where
  name : String
  contributions : List FieldContribution
  deriving DecidableEq, Inhabited, Repr

namespace FieldOwnership

/-- The first contribution that is not marked as resolved elsewhere. -/
def owner? (f : FieldOwnership) : Option FieldContribution :=
  f.contributions.find? (!·.isExternal)

/-- The services that resolve the field. -/
def resolvers (f : FieldOwnership) : List String :=
  (f.contributions.filter (!·.isExternal)).map (·.service)

end FieldOwnership

/-- The services that a type comes from. The owner is the one service with a base definition. A
value type is defined identically by several services. Keys come with the services that declare
them. -/
structure TypeOwnership where
  name : String
  owner : Option String := none
  isValueType : Bool := false
  keys : List (String × FieldSet) := []
  fields : List FieldOwnership := []
  deriving DecidableEq, Inhabited, Repr

namespace TypeOwnership

/-- The record of a field. -/
def field? (t : TypeOwnership) (name : String) : Option FieldOwnership :=
  t.fields.find? (·.name == name)

end TypeOwnership

end Federation
