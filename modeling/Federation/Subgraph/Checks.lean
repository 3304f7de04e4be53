import Federation.Subgraph.Basic
/-!
# Subgraphs — what holds of a service by itself

The checks that look at one service at a time: directives are applied as
their definitions allow, reserved fields stay free, and the marks of
federation stand on extensions only, where key fields have to carry
theirs.
-/

namespace Federation

namespace Subgraph

/-- The fields that a router adds to the query root of every service. -/
def reservedQueryFields : List String :=
  ["_service", "_entities"]

/-- A diagnostic about a field of a declaration. -/
def fieldDiagnostic (d : Declaration) (f : FieldDeclaration) (cause : Cause) : Diagnostic :=
  { cause, coordinate := .member d.name f.name, location := some f.node.location }

/-- Applications of directives that their definitions do not allow. -/
def siteProblems (s : Subgraph) : List Diagnostic :=
  (s.schemaSites ++ s.typeDefinitions.flatMap Site.ofType).flatMap
    (Site.problems s.lookupDirective)

/-- Reserved fields on the query root. -/
def reservedFieldProblems (ds : List Declaration) : List Diagnostic :=
  (ds.filter (·.root == some .query)).flatMap fun d =>
    (d.fields.filter fun f => reservedQueryFields.contains f.name).map fun f =>
      fieldDiagnostic d f .reservedField

/-- Fields of base definitions that are marked as resolved elsewhere or ask for other fields. -/
def baseFieldProblems (ds : List Declaration) : List Diagnostic :=
  (ds.filter (!·.isExtension)).flatMap fun d =>
    d.fields.flatMap fun f =>
      (if f.isExternal then [fieldDiagnostic d f .externalOnBase] else []) ++
      if f.requires.isSome then [fieldDiagnostic d f .requiresOnBase] else []

/-- Key fields of extensions that are not marked as resolved elsewhere. -/
def extensionKeyProblems (ds : List Declaration) : List Diagnostic :=
  (ds.filter fun d => d.isExtension && d.root.isNone).flatMap fun d =>
    let keyFields := d.keys.flatMap FieldSet.fieldNames
    (d.fields.filter fun f => !f.isExternal && keyFields.contains f.name).map fun f =>
      fieldDiagnostic d f .keyFieldNotExternal

/-- What is wrong with a service by itself. -/
def checkProblems (s : Subgraph) : List Diagnostic :=
  let ds := s.declarations
  (s.siteProblems ++ reservedFieldProblems ds ++ baseFieldProblems ds ++
    extensionKeyProblems ds).map (·.inService s.name)

end Subgraph

namespace Subgraphs

/-- What is wrong with services by themselves, in the order in which they came. -/
def checkProblems (s : Subgraphs) : List Diagnostic :=
  s.services.flatMap Subgraph.checkProblems

end Subgraphs

end Federation
