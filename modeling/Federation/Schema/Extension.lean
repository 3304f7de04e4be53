import Federation.Directives.Merge
import Federation.Directives.Sites
import Federation.Schema.Basic
import Federation.Schema.References
/-!
# Schema — building and extending

A document is applied to a schema definition by definition: first the
directive definitions, schema definitions and base definitions of
types, in order, then the extensions of types. What clashes with what is
there already is reported and left out.

`Schema.applyDocument` does this and nothing more. `Schema.extend` also
checks the document, unless it is told that the document is valid, and
gives the schema only when there is nothing to report.
-/

namespace Federation

/-- A result together with the diagnostics that were found on the way. -/
abbrev Reported (α : Type) := α × List Diagnostic

namespace Reported

/-- Applies steps in order, and collects their diagnostics. -/
def fold {α σ : Type} (step : σ → α → Reported σ) (start : σ) (as : List α) : Reported σ :=
  as.foldl
    (fun state a =>
      let next := step state.1 a
      (next.1, state.2 ++ next.2))
    (start, [])

end Reported

/-- The members with others added that have new names. -/
def addMembers {α : Type} (name : α → String) (target source : List α) : List α :=
  source.foldl (fun target m => if target.any (name · == name m) then target else target ++ [m])
    target

/-- The members that are left out because their names are taken. -/
def repeatedMembers {α : Type} (name : α → String) : (target source : List α) → List α
  | _, [] => []
  | target, m :: source =>
    if target.any (name · == name m) then m :: repeatedMembers name target source
    else repeatedMembers name (target ++ [m]) source

namespace TypeBody

/-- The body with the members of another of the same kind. -/
def addMembers : (target source : TypeBody) → TypeBody
  | object a, object b =>
    object
      { implements := Federation.addMembers id a.implements b.implements
        fields := Federation.addMembers Field.name a.fields b.fields }
  | interface a, interface b =>
    interface
      { implements := Federation.addMembers id a.implements b.implements
        fields := Federation.addMembers Field.name a.fields b.fields }
  | union as, union bs => union (Federation.addMembers id as bs)
  | enum as, enum bs => enum (Federation.addMembers EnumValue.name as bs)
  | inputObject as, inputObject bs => inputObject (Federation.addMembers InputValue.name as bs)
  | target, _ => target

/-- The members that are left out because their names are taken, with their locations. Names in
lists of interfaces and union members may repeat. -/
def repeatedMembers : (target source : TypeBody) → List (String × Location)
  | object a, object b | interface a, interface b =>
    (Federation.repeatedMembers Field.name a.fields b.fields).map fun f => (f.name, f.location)
  | enum as, enum bs =>
    (Federation.repeatedMembers EnumValue.name as bs).map fun v => (v.name, v.location)
  | inputObject as, inputObject bs =>
    (Federation.repeatedMembers InputValue.name as bs).map fun v => (v.name, v.location)
  | _, _ => []

end TypeBody

namespace TypeDefinition

/-- The type without its directives and members. -/
def shell (d : TypeDefinition) : TypeDefinition :=
  { d with directives := [], body := .empty d.kind }

/-- The type with the description, the directives and the members of a definition or extension of
the same kind. The first description stays. -/
def absorb (isRepeatable : String → Bool) (target source : TypeDefinition) :
    Reported TypeDefinition :=
  let merged :=
    { target with
      description := target.description <|> source.description
      directives := Directive.merge isRepeatable target.directives source.directives
      body := target.body.addMembers source.body }
  let conflicts :=
    Directive.conflictDiagnostics isRepeatable target.directives source.directives
      (.type target.name)
  let repeated := (target.body.repeatedMembers source.body).map fun (name, location) =>
    { cause := .repeatedMember .field, coordinate := .member target.name name,
      location := some location : Diagnostic }
  (merged, conflicts ++ repeated)

end TypeDefinition

namespace Schema

/-- Whether a directive may be applied more than once: by the definition of the schema, or else by
the built-in one. -/
def isRepeatable (s : Schema) (name : String) : Bool :=
  ((s.directiveDefinition? name) <|> DirectiveDefinition.builtIn? name).any (·.isRepeatable)

/-- Applies a directive definition. -/
def addDirectiveDefinition (s : Schema) (d : DirectiveDefinition) : Reported Schema :=
  if (s.directiveDefinition? d.name).isSome then
    (s, [{ cause := .repeatedDirective, coordinate := .directive d.name,
           location := some d.location }])
  else ({ s with directiveDefinitions := s.directiveDefinitions ++ [d] }, [])

/-- Applies a root type, named at a location. -/
def addRoot (location : Location) (s : Schema) (r : RootOperation) : Reported Schema :=
  match s.rootName? r.operation with
  | none => ({ s with roots := s.roots ++ [r] }, [])
  | some existing =>
    if existing = r.typeName then (s, [])
    else
      (s, [{ cause := .conflictingRoots r.operation existing r.typeName,
             coordinate := .type r.typeName, location := some location }])

/-- Applies a schema definition or extension. -/
def addSchemaDefinition (s : Schema) (d : SchemaDefinition) : Reported Schema :=
  let (s, rootProblems) := Reported.fold (addRoot d.location) s d.rootOperations
  ({ s with directives := Directive.merge s.isRepeatable s.directives d.directives },
   rootProblems ++ Directive.conflictDiagnostics s.isRepeatable s.directives d.directives .schema)

/-- Applies the base definition of a type. -/
def addTypeDefinition (s : Schema) (d : TypeDefinition) : Reported Schema :=
  if (s.type? d.name).isSome then
    (s, [{ cause := .repeatedType, coordinate := .type d.name, location := some d.location }])
  else
    let (type, problems) := d.shell.absorb s.isRepeatable d
    ({ s with types := s.types ++ [type] }, problems)

/-- The type that an extension makes when there is none to extend, before it is applied. -/
def typeForExtension (e : TypeDefinition) : TypeDefinition :=
  { name := e.name, body := .empty e.kind, location := e.location }

/-- Applies the extension of a type. The extension of a type that is not there makes the type. -/
def addTypeExtension (s : Schema) (e : TypeDefinition) : Reported Schema :=
  match s.type? e.name with
  | none =>
    let (type, problems) := (typeForExtension e).absorb s.isRepeatable e
    ({ s with types := s.types ++ [type] }, problems)
  | some target =>
    if target.kind ≠ e.kind then
      (s, [{ cause := .extensionKind e.kind target.kind, coordinate := .type e.name,
             location := some e.location }])
    else
      let (type, problems) := target.absorb s.isRepeatable e
      ({ s with types := s.types.map fun t => if t.name = e.name then type else t }, problems)

/-- Applies a definition. Extensions of types wait for their turn. -/
def addDefinition (s : Schema) : Definition → Reported Schema
  | .directive d => s.addDirectiveDefinition d
  | .schema d => s.addSchemaDefinition d
  | .type d => if d.isExtension then (s, []) else s.addTypeDefinition d

/-- Applies a document: its definitions, then its extensions of types. -/
def applyDocument (s : Schema) (d : Document) : Reported Schema :=
  let (s, problems) := Reported.fold addDefinition s d.definitions
  let (s, extensionProblems) :=
    Reported.fold addTypeExtension s (d.typeDefinitions.filter (·.isExtension))
  (s, problems ++ extensionProblems)

/-- The directive definition for a name in a document that extends the schema. -/
def lookupDirective (s : Schema) (d : Document) (name : String) : Option DirectiveDefinition :=
  d.directiveDefinitions.find? (·.name == name) <|> s.directiveDefinition? name <|>
    DirectiveDefinition.builtIn? name

/-- What is wrong with a document that extends the schema: applications of directives that their
definitions do not allow, and references to types that neither knows. -/
def documentProblems (s : Schema) (d : Document) : List Diagnostic :=
  let sites := d.schemaDefinitions.flatMap Site.ofSchema ++ d.typeDefinitions.flatMap Site.ofType
  let isKnown := fun name => s.isKnownType name || d.typeDefinitions.any (·.name == name)
  sites.flatMap (Site.problems (s.lookupDirective d)) ++
    d.typeDefinitions.flatMap (TypeDefinition.unknownReferences isKnown)

/-- The schema extended by a document, or everything that is wrong with it. The document is not
checked when it is assumed to be valid; clashes are reported either way. -/
def extend (s : Schema) (d : Document) (assumeValid : Bool := false) :
    Except (List Diagnostic) Schema :=
  let (extended, clashes) := s.applyDocument d
  match (if assumeValid then [] else s.documentProblems d) ++ clashes with
  | [] => .ok extended
  | problems => .error (Diagnostic.sorted problems)

/-- The schema that a document defines. -/
def build (d : Document) : Except (List Diagnostic) Schema :=
  empty.extend d

end Schema

end Federation
