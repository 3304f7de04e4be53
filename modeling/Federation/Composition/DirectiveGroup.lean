import Federation.Composition.Member
/-!
# Composition — directive definitions

The services that define a directive have to define it alike: the same
arguments, the same locations and the same answer to whether it may be
repeated, in whatever order. Built-in directives are not composed.
-/

namespace Federation

namespace DirectiveDefinition

/-- What the definitions of a directive have to agree about in its arguments: names, types and
defaults, in the order of the names. -/
def argumentSignature (d : DirectiveDefinition) : List (String × TypeRef × Option Value) :=
  (d.arguments.mergeSort fun a b => Text.stringLe a.name b.name).map fun a =>
    (a.name, a.type, a.default.map Value.canonical)

/-- Whether two definitions allow the same locations. -/
def sameLocations (a b : DirectiveDefinition) : Bool :=
  a.locations.all b.locations.contains && b.locations.all a.locations.contains

/-- Whether two definitions agree. Descriptions and the order of arguments and locations do not
count. -/
def sameSignature (a b : DirectiveDefinition) : Bool :=
  a.isRepeatable == b.isRepeatable
    && decide (a.argumentSignature = b.argumentSignature)
    && sameLocations a b

end DirectiveDefinition

/-- The definitions of one directive, in the order of their services. -/
abbrev DirectiveGroup := List (Declared DirectiveDefinition)

namespace DirectiveGroup

/-- The composed definition: the first one, with the description of the service that came first. -/
def definition? (g : DirectiveGroup) : Option DirectiveDefinition :=
  g.head?.map fun first =>
    { first.node with description := Declared.firstDescription (·.description) g }

/-- The report that services define the directive differently. -/
def problems (g : DirectiveGroup) : List Diagnostic :=
  match g with
  | [] => []
  | first :: _ =>
    if g.all fun d => first.node.sameSignature d.node then []
    else
      [{ cause := .conflictingDefinitions (Declared.services g)
         coordinate := .directive first.node.name }]

end DirectiveGroup

namespace Subgraphs

/-- The directives that any service, or a built-in definition, lets be repeated. -/
def repeatableNames (s : Subgraphs) : List String :=
  ((DirectiveDefinition.builtIn ++ s.directiveDefinitions.map (·.node)).filter
    (·.isRepeatable)).map (·.name)

/-- The directive definitions that are composed, by name and in the order of names. -/
def directiveGroups (s : Subgraphs) : List DirectiveGroup :=
  let definitions := s.directiveDefinitions.filter fun d =>
    (DirectiveDefinition.builtIn? d.node.name).isNone
  let names := (distinct (definitions.map (·.node.name))).mergeSort Text.stringLe
  names.map fun name => definitions.filter (·.node.name == name)

end Subgraphs

end Federation
