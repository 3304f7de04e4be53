import Federation.Composition.DirectiveGroup
import Federation.Composition.TypeGroup
/-!
# Composition — the merged document

The types and directives of all services in one document: directive
definitions first, then types, both in the order of their names, so that
the order of the services does not matter.
-/

namespace Federation

namespace Subgraphs

/-- The declarations of each type that are composed. -/
def typeGroups (s : Subgraphs) : List TypeGroup :=
  s.groups.map TypeGroup.ofOneKind

/-- The composed directive definitions. -/
def mergedDirectiveDefinitions (s : Subgraphs) : List DirectiveDefinition :=
  s.directiveGroups.filterMap DirectiveGroup.definition?

/-- The composed types. -/
def mergedTypes (s : Subgraphs) : List TypeDefinition :=
  s.typeGroups.map (TypeGroup.definition s.repeatableNames.contains)

/-- The document of all services. -/
def mergedDocument (s : Subgraphs) : Document :=
  ⟨s.mergedDirectiveDefinitions.map .directive ++ s.mergedTypes.map .type⟩

/-- The ownership records of all types. -/
def ownership (s : Subgraphs) : List TypeOwnership :=
  s.typeGroups.map TypeGroup.ownership

/-- What is wrong between services. -/
def mergeProblems (s : Subgraphs) : List Diagnostic :=
  s.directiveGroups.flatMap DirectiveGroup.problems ++
    s.groups.flatMap (TypeGroup.problems s.repeatableNames.contains)

end Subgraphs

end Federation
