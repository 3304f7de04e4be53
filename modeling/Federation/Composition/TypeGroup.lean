import Federation.Composition.Fields
import Federation.Composition.ValueType
/-!
# Composition — types

The declarations of one type name, by all services, are composed to one
definition and one ownership record. They have to be of one kind: the
kind of the first declaration wins, and the others are left out. The
base definitions decide who owns the type: one service does, or several
that define it identically share it, and the rest have to extend it.
-/

namespace Federation

/-- The declarations of one type name, in the order of their services. -/
abbrev TypeGroup := List (Declared Declaration)

namespace TypeGroup

open Declared

/-- The name of the type. -/
def name (g : TypeGroup) : String :=
  (g.head?.map (·.node.name)).getD ""

/-- The kind of the first declaration. -/
def kind (g : TypeGroup) : TypeKind :=
  (g.head?.map (·.node.kind)).getD .scalar

/-- The declarations of the kind that wins. -/
def ofOneKind (g : TypeGroup) : TypeGroup :=
  g.filter (·.node.kind == g.kind)

/-- Whether the type is the root type of an operation. -/
def isRoot (g : TypeGroup) : Bool :=
  g.any (·.node.root.isSome)

/-- The declarations that are base definitions. -/
def baseDeclarations (g : TypeGroup) : TypeGroup :=
  g.filter (!·.node.isExtension)

/-- The base definition of each service that has one. -/
def bases (g : TypeGroup) : TypeGroup :=
  firstPerService g.baseDeclarations

/-- Whether several services define the type identically. -/
def isValueType (g : TypeGroup) : Bool :=
  match g.bases with
  | first :: others@(_ :: _) => others.all fun d => first.node.node.sameStructure d.node.node
  | _ => false

/-- Whether several services define the type, and not identically. -/
def hasConflictingBases (g : TypeGroup) : Bool :=
  1 < g.bases.length && !g.isValueType

/-- Whether several services may resolve one field: of a root type, which is checked later, of a
value type, and of a type whose definitions conflict anyway. -/
def isShared (g : TypeGroup) : Bool :=
  g.isRoot || g.isValueType || g.hasConflictingBases

/-- The service that defines the type, if there is just one. -/
def owner? (g : TypeGroup) : Option String :=
  match g.bases with
  | [base] => some base.service
  | _ => none

/-- The fields of objects and interfaces. -/
def fieldDeclarations (g : TypeGroup) : List (Declared FieldDeclaration) :=
  g.flatMap fun d => d.node.fields.map fun f => d.map fun _ => f

/-- The values of enumerations. -/
def enumValues (g : TypeGroup) : List (Declared EnumValue) :=
  g.flatMap fun d => d.node.node.body.enumValues.map fun v => d.map fun _ => v

/-- The fields of input objects. -/
def inputFields (g : TypeGroup) : List (Declared InputValue) :=
  g.flatMap fun d => d.node.node.body.inputFields.map fun v => d.map fun _ => v

/-- The declarations of each field. -/
def fieldGroups (g : TypeGroup) : List (List (Declared FieldDeclaration)) :=
  byMember FieldDeclaration.name g.fieldDeclarations

/-- The interfaces that the type implements, by any declaration. -/
def implements (g : TypeGroup) : List String :=
  distinct (g.flatMap (·.node.node.implements))

/-- The composed fields. -/
def fields (isRepeatable : String → Bool) (g : TypeGroup) : List Field :=
  g.fieldGroups.filterMap fun ds => FieldDeclaration.compose? isRepeatable (firstPerService ds)

/-- The composed body. -/
def body (isRepeatable : String → Bool) (g : TypeGroup) : TypeBody :=
  match g.kind with
  | .scalar => .scalar
  | .object => .object { implements := g.implements, fields := g.fields isRepeatable }
  | .interface => .interface { implements := g.implements, fields := g.fields isRepeatable }
  | .union => .union (distinct (g.flatMap (·.node.node.body.members)))
  | .enum =>
    .enum ((byMember EnumValue.name g.enumValues).filterMap fun ds =>
      EnumValue.compose? isRepeatable (firstPerService ds))
  | .inputObject =>
    .inputObject ((byMember InputValue.name g.inputFields).filterMap fun ds =>
      InputValue.compose? isRepeatable (firstPerService ds))

/-- The definition that declarations of one kind are composed to. -/
def definition (isRepeatable : String → Bool) (g : TypeGroup) : TypeDefinition :=
  { name := g.name
    description := firstDescription (·.node.description) g
    directives := mergedDirectives isRepeatable (·.node.directives) g
    body := g.body isRepeatable
    location := (g.head?.map (·.node.node.location)).getD Location.none }

/-- The keys of the type, each with the service that declares it, and each once. -/
def keys (g : TypeGroup) : List (String × FieldSet) :=
  distinct (g.flatMap fun d => d.node.keys.map fun key => (d.service, key))

/-- The ownership record of a field. -/
def fieldOwnership (ds : List (Declared FieldDeclaration)) : FieldOwnership :=
  { name := (ds.head?.map (·.node.name)).getD ""
    contributions := (firstPerService ds).map FieldDeclaration.contribution }

/-- The ownership record that declarations of one kind leave. -/
def ownership (g : TypeGroup) : TypeOwnership :=
  { name := g.name
    owner := g.owner?
    isValueType := g.isValueType
    keys := g.keys
    fields := match g.kind with
      | .object | .interface => g.fieldGroups.map fieldOwnership
      | .scalar | .union | .enum | .inputObject => [] }

/-- The kinds of the declarations by their services, runs of equals once. -/
def kindListing (g : TypeGroup) : List (TypeKind × String) :=
  (g.map fun d => (d.node.kind, d.service)).foldr
    (fun a listing => if listing.head? = some a then listing else a :: listing) []

/-- The report that declarations are of different kinds. -/
def kindProblems (g : TypeGroup) : List Diagnostic :=
  if g.all (·.node.kind == g.kind) then []
  else [{ cause := .conflictingKinds g.kindListing, coordinate := .type g.name }]

/-- The report that a service defines the type more than once, at its second definition. -/
def repeatedBaseProblems (g : TypeGroup) : List Diagnostic :=
  (repeatedByService g.baseDeclarations).map fun d =>
    let second := (g.baseDeclarations.filter (·.rank == d.rank))[1]?
    { cause := .repeatedBase, coordinate := .type g.name, service := some d.service,
      location := second.map (·.node.node.location) }

/-- The report that services define the type differently. -/
def conflictingBaseProblems (g : TypeGroup) : List Diagnostic :=
  if g.hasConflictingBases then
    [{ cause := .conflictingBases (services g.bases), coordinate := .type g.name }]
  else []

/-- The report that the type is extended only. Root types need no definition. -/
def missingBaseProblems (g : TypeGroup) : List Diagnostic :=
  if g.bases.isEmpty && !g.isRoot then
    [{ cause := .neverDefined (services g), coordinate := .type g.name }]
  else []

/-- What is wrong with the members of the type. -/
def memberProblems (isRepeatable : String → Bool) (g : TypeGroup) : List Diagnostic :=
  match g.kind with
  | .object | .interface =>
    g.fieldGroups.flatMap (FieldDeclaration.problems isRepeatable g.name g.isShared)
  | .enum => (byMember EnumValue.name g.enumValues).flatMap (EnumValue.problems isRepeatable g.name)
  | .inputObject =>
    (byMember InputValue.name g.inputFields).flatMap (InputValue.problems isRepeatable g.name)
  | .scalar | .union => []

/-- What is wrong with declarations of one kind. -/
def problemsOfOneKind (isRepeatable : String → Bool) (g : TypeGroup) : List Diagnostic :=
  g.repeatedBaseProblems ++ g.conflictingBaseProblems ++ g.missingBaseProblems ++
    g.memberProblems isRepeatable ++
    directiveProblems isRepeatable (·.node.directives) (.type g.name) g

/-- What is wrong with the declarations of a type name. -/
def problems (isRepeatable : String → Bool) (g : TypeGroup) : List Diagnostic :=
  g.kindProblems ++ problemsOfOneKind isRepeatable g.ofOneKind

end TypeGroup

end Federation
