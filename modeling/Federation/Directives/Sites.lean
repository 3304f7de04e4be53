import Federation.Diagnostic
import Federation.Directives.BuiltIn
/-!
# Directives — where they are applied

A site is an application together with the place that it stands in.
`Site.problems` checks a site against the definition of its directive:
the place has to be an allowed location, the arguments have to be
known, and the required ones have to be there. Directives without a
definition are not checked, and the arguments of the federation
directives are checked where they are interpreted.
-/

namespace Federation

/-- The application of a directive and where it stands. -/
structure Site where
  directive : Directive
  place : DirectiveLocation
  coordinate : Coordinate
  location : Location
  deriving DecidableEq, Inhabited, Repr

namespace Site

/-- Applications at one place. -/
def listAt (place : DirectiveLocation) (coordinate : Coordinate) (location : Location)
    (ds : List Directive) : List Site :=
  ds.map fun directive => { directive, place, coordinate, location }

/-- The sites of a schema definition. -/
def ofSchema (d : SchemaDefinition) : List Site :=
  listAt .schema .schema d.location d.directives

/-- The sites of a field: those on the field, then those on its arguments, which go by the
coordinate of the field. -/
def ofField (typeName : String) (f : Field) : List Site :=
  let coordinate := Coordinate.member typeName f.name
  listAt .fieldDefinition coordinate f.location f.directives ++
    f.arguments.flatMap fun a => listAt .argumentDefinition coordinate a.location a.directives

/-- The sites of a value of an enumeration. -/
def ofEnumValue (typeName : String) (v : EnumValue) : List Site :=
  listAt .enumValue (.member typeName v.name) v.location v.directives

/-- The sites of a field of an input object. -/
def ofInputField (typeName : String) (v : InputValue) : List Site :=
  listAt .inputFieldDefinition (.member typeName v.name) v.location v.directives

/-- The location of the types of a kind. -/
def placeOfKind : TypeKind → DirectiveLocation
  | .scalar => .scalar
  | .object => .object
  | .interface => .interface
  | .union => .union
  | .enum => .enum
  | .inputObject => .inputObject

/-- The sites of a type definition: those on the type, then those on its members. -/
def ofType (d : TypeDefinition) : List Site :=
  listAt (placeOfKind d.kind) (.type d.name) d.location d.directives ++
    match d.body with
    | .object body | .interface body => body.fields.flatMap (ofField d.name)
    | .enum values => values.flatMap (ofEnumValue d.name)
    | .inputObject fields => fields.flatMap (ofInputField d.name)
    | .scalar | .union _ => []

/-- A diagnostic about a site. -/
def diagnostic (s : Site) (cause : Cause) : Diagnostic :=
  { cause, coordinate := s.coordinate, location := some s.location }

/-- What is wrong with the arguments of a site. -/
def argumentProblems (s : Site) (d : DirectiveDefinition) : List Diagnostic :=
  let unknown := s.directive.arguments.filter fun a => !d.arguments.any (·.name == a.name)
  let absent := d.requiredArguments.filter fun a => (s.directive.argument? a.name).isNone
  unknown.map (fun a => s.diagnostic (.unknownArgument s.directive.name a.name)) ++
    absent.map fun a => s.diagnostic (.absentArgument s.directive.name a.name)

/-- Whether the arguments of a directive are checked where it is interpreted. -/
def isInterpreted (name : String) : Bool :=
  FederationDirective.isServiceOnly name || name == FederationDirective.tagName

/-- What is wrong with a site, by the definition of its directive. -/
def problems (lookup : String → Option DirectiveDefinition) (s : Site) : List Diagnostic :=
  match lookup s.directive.name with
  | none => []
  | some d =>
    (if d.locations.contains s.place then []
      else [s.diagnostic (.misplaced s.directive.name s.place d.locations)]) ++
    if isInterpreted s.directive.name then [] else s.argumentProblems d

end Site

end Federation
