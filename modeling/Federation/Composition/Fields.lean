import Federation.Composition.Member
import Federation.Schema.Ownership
/-!
# Composition — fields, input fields and values of enumerations

A field of an object or interface is composed from the first declaration
that is not marked as resolved elsewhere; arguments that only other
declarations have are added. Unless the fields of a type are shared, one
service only may resolve a field. Input fields and values of
enumerations are shared freely.
-/

namespace Federation

namespace FieldDeclaration

open Declared

/-- The declaration that a field is composed from. -/
def canonical? (ds : List (Declared FieldDeclaration)) : Option (Declared FieldDeclaration) :=
  ds.find? (!·.node.isExternal) <|> ds.head?

/-- The declarations that are not marked as resolved elsewhere. -/
def resolving (ds : List (Declared FieldDeclaration)) : List (Declared FieldDeclaration) :=
  ds.filter (!·.node.isExternal)

/-- The arguments with others added that have new names. -/
def addArguments (arguments others : List InputValue) : List InputValue :=
  others.foldl
    (fun arguments a => if arguments.any (·.name == a.name) then arguments else arguments ++ [a])
    arguments

/-- The field that the first declarations of services are composed to. -/
def compose? (isRepeatable : String → Bool) (ds : List (Declared FieldDeclaration)) :
    Option Field :=
  (canonical? ds).map fun canonical =>
    { canonical.node.node with
      description := firstDescription (·.node.description) ds
      arguments :=
        addArguments canonical.node.node.arguments (ds.flatMap (·.node.node.arguments))
      directives := mergedDirectives isRepeatable (·.node.directives) ds }

/-- What a service contributes to a field. -/
def contribution (d : Declared FieldDeclaration) : FieldContribution :=
  { service := d.service
    isExternal := d.node.isExternal
    requires := d.node.requires
    provides := d.node.provides }

/-- The disagreements about the arguments of a field. -/
def argumentProblems (coordinate : Coordinate) (ds : List (Declared FieldDeclaration)) :
    List Diagnostic :=
  let names := distinct (ds.flatMap fun d => d.node.node.arguments.map (·.name))
  names.flatMap fun name =>
    let types := ds.filterMap fun d =>
      (d.node.node.argument? name).map fun a => (d.service, a.type)
    typeProblems (.argument name) coordinate types

/-- The resolvers of a field of which there may be only one. It is not reported when the services
do not even agree about its type. -/
def resolverProblems (coordinate : Coordinate) (ds : List (Declared FieldDeclaration)) :
    List Diagnostic :=
  let resolvers := resolving ds
  if agree (typesOf (·.node.type) ds) && 1 < resolvers.length then
    [{ cause := .severalResolvers (services resolvers), coordinate }]
  else []

/-- What is wrong with a field, by all its declarations. -/
def problems (isRepeatable : String → Bool) (typeName : String) (isShared : Bool)
    (all : List (Declared FieldDeclaration)) : List Diagnostic :=
  let coordinate := Coordinate.member typeName ((all.head?.map (·.node.name)).getD "")
  let ds := firstPerService all
  repetitionProblems .field coordinate all ++
    typeProblems .field coordinate (typesOf (·.node.type) ds) ++
    argumentProblems coordinate ds ++
    (if isShared then [] else resolverProblems coordinate ds) ++
    directiveProblems isRepeatable (·.node.directives) coordinate ds

end FieldDeclaration

namespace InputValue

open Declared

/-- The input field that the first declarations of services are composed to. The default is the
first that there is. -/
def compose? (isRepeatable : String → Bool) (ds : List (Declared InputValue)) :
    Option InputValue :=
  ds.head?.map fun first =>
    { first.node with
      description := firstDescription (·.description) ds
      default := ds.findSome? (·.node.default)
      directives := mergedDirectives isRepeatable (·.directives) ds }

/-- What is wrong with an input field, by all its declarations. -/
def problems (isRepeatable : String → Bool) (typeName : String)
    (all : List (Declared InputValue)) : List Diagnostic :=
  let coordinate := Coordinate.member typeName ((all.head?.map (·.node.name)).getD "")
  let ds := firstPerService all
  repetitionProblems .inputField coordinate all ++
    typeProblems .inputField coordinate (typesOf (·.type) ds) ++
    directiveProblems isRepeatable (·.directives) coordinate ds

end InputValue

namespace EnumValue

open Declared

/-- The value that the first declarations of services are composed to. -/
def compose? (isRepeatable : String → Bool) (ds : List (Declared EnumValue)) :
    Option EnumValue :=
  ds.head?.map fun first =>
    { first.node with
      description := firstDescription (·.description) ds
      directives := mergedDirectives isRepeatable (·.directives) ds }

/-- What is wrong with a value of an enumeration, by all its declarations. -/
def problems (isRepeatable : String → Bool) (typeName : String)
    (all : List (Declared EnumValue)) : List Diagnostic :=
  let coordinate := Coordinate.member typeName ((all.head?.map (·.node.name)).getD "")
  let ds := firstPerService all
  repetitionProblems .enumValue coordinate all ++
    directiveProblems isRepeatable (·.directives) coordinate ds

end EnumValue

end Federation
