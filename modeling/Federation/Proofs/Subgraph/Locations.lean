import Federation.Proofs.Document.Locations
import Federation.Proofs.Subgraph.Ranks
import Federation.Subgraph.Checks
/-!
# Subgraphs — locations

A service whose document is at other locations declares the same at
these locations, and the same is wrong with it there
(`Subgraph.problems_relocate`, `Subgraph.checkProblems_relocate`). So
what services declare at other locations and in another order is what
they declare, under other ranks and at these locations
(`Subgraphs.exists_relabel_collect`).
-/

namespace Federation

variable (τ : Location → Location)

/-! ## Root types -/

namespace RootRename

variable (rs : List RootRename)

theorem field_relocate (f : Field) : field rs (f.relocate τ) = (field rs f).relocate τ := by
  simp only [field, Field.relocate, List.map_map]
  rfl

theorem definition_relocate (d : TypeDefinition) :
    definition rs (d.relocate τ) = (definition rs d).relocate τ := by
  have hfields : ∀ fs : List Field, (fs.map (Field.relocate τ)).map (field rs) =
      (fs.map (field rs)).map (Field.relocate τ) := by
    intro fs
    rw [List.map_map, List.map_map]
    exact List.map_congr_left fun f _ => field_relocate τ rs f
  have hmembers : members rs (d.body.relocate τ) = (members rs d.body).relocate τ := by
    cases d.body with
    | scalar => rfl
    | object b => simp only [TypeBody.relocate, members, hfields]
    | interface b => simp only [TypeBody.relocate, members, hfields]
    | union names => rfl
    | enum values => rfl
    | inputObject fields =>
      simp only [TypeBody.relocate, members, List.map_map]
      rfl
  simp only [definition, TypeDefinition.relocate, hmembers]

theorem directive_relocate (d : DirectiveDefinition) :
    directive rs (d.relocate τ) = (directive rs d).relocate τ := by
  simp only [directive, DirectiveDefinition.relocate, List.map_map]
  rfl

end RootRename

namespace Document

variable (d : Document)

theorem rootRenames_relocate : (d.relocate τ).rootRenames = d.rootRenames := by
  rw [rootRenames, schemaDefinitions_relocate, List.flatMap_map]
  rfl

theorem shadowingTypes_relocate :
    (d.relocate τ).shadowingTypes = d.shadowingTypes.map (TypeDefinition.relocate τ) := by
  rw [shadowingTypes, rootRenames_relocate, typeDefinitions_relocate, List.filter_map]
  rfl

/-- **Root types are renamed where they are.** -/
theorem withConventionalRoots_relocate :
    (d.relocate τ).withConventionalRoots = d.withConventionalRoots.relocate τ := by
  rw [withConventionalRoots, rootRenames_relocate, withConventionalRoots]
  split
  · rfl
  · rename_i rs _
    simp only [visit, Id.run_bind, Id.run_pure, Transform.visitDefinitions_eq_filterMap, relocate,
      List.filterMap_map, List.map_filterMap]
    congr 1
    refine List.filterMap_congr fun x _ => ?_
    cases x with
    | schema x =>
      simp only [Function.comp, Definition.relocate, Transform.visitDefinition_schema]
      rfl
    | directive x =>
      simp only [Function.comp, Definition.relocate, Transform.visitDefinition_directive,
        RootRename.directive_relocate]
      rfl
    | type x =>
      have hname : (x.relocate τ).name = x.name := rfl
      simp only [Function.comp, Definition.relocate, Transform.visitDefinition_type, hname,
        RootRename.definition_relocate]
      split <;> rfl

end Document

/-! ## Declarations -/

namespace FieldDeclaration

/-- The declaration of the field at another location. -/
def relocate (f : FieldDeclaration) : FieldDeclaration :=
  { f with node := f.node.relocate τ }

end FieldDeclaration

namespace Declaration

/-- The declaration of the type at another location. -/
def relocate (d : Declaration) : Declaration :=
  { d with node := d.node.relocate τ, fields := d.fields.map (FieldDeclaration.relocate τ) }

@[simp] theorem relocate_id : relocate id = id := by
  funext d
  have hfields : FieldDeclaration.relocate id = id := by
    funext f
    simp [FieldDeclaration.relocate]
  simp [relocate, hfields]

theorem ofDefinition_relocate (d : TypeDefinition) :
    ofDefinition (d.relocate τ) = (ofDefinition d).relocate τ := by
  simp only [ofDefinition, relocate, TypeDefinition.fields_relocate, List.map_map]
  rfl

end Declaration

theorem Directive.malformed_relocate (coordinate : Coordinate) (location : Location)
    (ds : List Directive) :
    malformed coordinate (τ location) ds =
      (malformed coordinate location ds).map (Diagnostic.relocate τ) := by
  rw [malformed, malformed, List.map_filterMap]
  refine List.filterMap_congr fun d _ => ?_
  cases FederationDirective.interpret d <;> rfl

theorem Declaration.problems_relocate (d : TypeDefinition) :
    problems (d.relocate τ) = (problems d).map (Diagnostic.relocate τ) := by
  rw [problems, problems, List.map_append, List.map_flatMap, TypeDefinition.fields_relocate,
    List.flatMap_map]
  congr 1
  · exact Directive.malformed_relocate τ _ _ _
  · exact List.flatMap_congr fun f _ => Directive.malformed_relocate τ _ _ _

/-! ## Sites -/

namespace Site

/-- The site at another location. -/
def relocate (x : Site) : Site :=
  { x with location := τ x.location }

theorem listAt_relocate (place : DirectiveLocation) (coordinate : Coordinate) (location : Location)
    (ds : List Directive) :
    listAt place coordinate (τ location) ds =
      (listAt place coordinate location ds).map (relocate τ) := by
  rw [listAt, listAt, List.map_map]
  rfl

theorem ofField_relocate (typeName : String) (f : Field) :
    ofField typeName (f.relocate τ) = (ofField typeName f).map (relocate τ) := by
  have harguments : (f.relocate τ).arguments = f.arguments.map (InputValue.relocate τ) := rfl
  rw [ofField, ofField, List.map_append, List.map_flatMap, harguments, List.flatMap_map]
  congr 1
  · exact listAt_relocate τ _ _ _ _
  · exact List.flatMap_congr fun a _ => listAt_relocate τ _ _ _ _

theorem ofType_relocate (d : TypeDefinition) :
    ofType (d.relocate τ) = (ofType d).map (relocate τ) := by
  rw [ofType, ofType, List.map_append, TypeDefinition.kind_relocate]
  congr 1
  · exact listAt_relocate τ _ _ _ _
  · have hbody : (d.relocate τ).body = d.body.relocate τ := rfl
    rw [hbody]
    cases d.body with
    | scalar => rfl
    | object b =>
      simp only [TypeBody.relocate, List.flatMap_map, List.map_flatMap]
      exact List.flatMap_congr fun f _ => ofField_relocate τ _ f
    | interface b =>
      simp only [TypeBody.relocate, List.flatMap_map, List.map_flatMap]
      exact List.flatMap_congr fun f _ => ofField_relocate τ _ f
    | union members => rfl
    | enum values =>
      simp only [TypeBody.relocate, List.flatMap_map, List.map_flatMap]
      exact List.flatMap_congr fun v _ => listAt_relocate τ _ _ _ _
    | inputObject fields =>
      simp only [TypeBody.relocate, List.flatMap_map, List.map_flatMap]
      exact List.flatMap_congr fun v _ => listAt_relocate τ _ _ _ _

/-- **A site is checked by a definition wherever the two are.** -/
theorem problems_relocate {lookup lookup' : String → Option DirectiveDefinition}
    (hlookup : ∀ name, lookup' name = (lookup name).map (DirectiveDefinition.relocate τ))
    (x : Site) :
    (x.relocate τ).problems lookup' = (x.problems lookup).map (Diagnostic.relocate τ) := by
  have hdirective : (x.relocate τ).directive = x.directive := rfl
  rw [problems, problems, hdirective, hlookup]
  cases lookup x.directive.name with
  | none => rfl
  | some d =>
    have hunknown : ∀ name : String, (d.relocate τ).arguments.any (·.name == name) =
        d.arguments.any (·.name == name) := fun name => List.any_map
    have hrequired : (d.relocate τ).requiredArguments =
        d.requiredArguments.map (InputValue.relocate τ) := List.filter_map ..
    have harguments : (x.relocate τ).argumentProblems (d.relocate τ) =
        (x.argumentProblems d).map (Diagnostic.relocate τ) := by
      simp only [argumentProblems, hunknown, hrequired, List.filter_map, List.map_append,
        List.map_map]
      rfl
    simp only [Option.map_some, List.map_append, harguments]
    congr 1
    · have hlocations : (d.relocate τ).locations = d.locations := rfl
      have hplace : (x.relocate τ).place = x.place := rfl
      rw [hlocations, hplace]
      split <;> rfl
    · split <;> rfl

end Site

namespace DirectiveDefinition

variable {τ}

/-- Built-in definitions are nowhere. -/
theorem builtIn?_relocate (hτ : τ Location.none = Location.none) (name : String) :
    (builtIn? name).map (relocate τ) = builtIn? name := by
  have hall : builtIn.map (relocate τ) = builtIn := by
    simp [builtIn, plain, required, relocate, InputValue.relocate, hτ]
  have hfind : (builtIn.map (relocate τ)).find? (·.name == name) =
      (builtIn.find? (·.name == name)).map (relocate τ) := List.find?_map ..
  rw [builtIn?, ← hfind, hall]

end DirectiveDefinition

/-! ## Services -/

namespace Subgraph

/-- The service with its document at other locations. -/
def relocate (g : Subgraph) : Subgraph :=
  { g with content := g.content.map (Document.relocate τ) }

@[simp] theorem relocate_id : relocate id = id := by
  funext g
  cases g with
  | mk name url content => cases content <;> simp [relocate, Except.map]

variable (g : Subgraph)

theorem document_relocate : (g.relocate τ).document = g.document.relocate τ := by
  rw [document, relocate, document]
  cases g.content with
  | error e => rfl
  | ok d => exact d.withConventionalRoots_relocate τ

theorem directiveDefinitions_relocate : (g.relocate τ).document.directiveDefinitions =
    g.document.directiveDefinitions.map (DirectiveDefinition.relocate τ) := by
  rw [document_relocate, Document.directiveDefinitions_relocate]

theorem typeDefinitions_relocate :
    (g.relocate τ).typeDefinitions = g.typeDefinitions.map (TypeDefinition.relocate τ) := by
  rw [typeDefinitions, document_relocate, Document.typeDefinitions_relocate, List.filter_map]
  rfl

theorem declarations_relocate :
    (g.relocate τ).declarations = g.declarations.map (Declaration.relocate τ) := by
  rw [declarations, typeDefinitions_relocate, List.map_map, declarations, List.map_map]
  exact List.map_congr_left fun d _ => Declaration.ofDefinition_relocate τ d

/-- Reports keep their service. -/
theorem map_inService_relocate (service : String) (ds : List Diagnostic) :
    (ds.map (Diagnostic.relocate τ)).map (·.inService service) =
      (ds.map (·.inService service)).map (Diagnostic.relocate τ) := by
  rw [List.map_map, List.map_map]
  rfl

/-- **What is wrong with a service is wrong with it at other locations.** -/
theorem problems_relocate :
    (g.relocate τ).problems = g.problems.map (Diagnostic.relocate τ) := by
  have hname : (g.relocate τ).name = g.name := rfl
  have hdeclared : (g.relocate τ).typeDefinitions.flatMap Declaration.problems =
      (g.typeDefinitions.flatMap Declaration.problems).map (Diagnostic.relocate τ) := by
    rw [typeDefinitions_relocate, List.flatMap_map, List.map_flatMap]
    exact List.flatMap_congr fun d _ => Declaration.problems_relocate τ d
  rw [problems, problems, ← map_inService_relocate, hname, hdeclared]
  congr 1
  have hcontent : (g.relocate τ).content = g.content.map (Document.relocate τ) := rfl
  rw [hcontent]
  cases g.content with
  | error e => rfl
  | ok d =>
    simp only [Except.map, Document.shadowingTypes_relocate, List.map_append, List.map_map]
    rfl

/-! ### Checks -/

theorem reservedFieldProblems_relocate (ds : List Declaration) :
    reservedFieldProblems (ds.map (Declaration.relocate τ)) =
      (reservedFieldProblems ds).map (Diagnostic.relocate τ) := by
  simp only [reservedFieldProblems, List.filter_map, List.flatMap_map, List.map_flatMap,
    Declaration.relocate, List.map_map]
  rfl

theorem baseFieldProblems_relocate (ds : List Declaration) :
    baseFieldProblems (ds.map (Declaration.relocate τ)) =
      (baseFieldProblems ds).map (Diagnostic.relocate τ) := by
  simp only [baseFieldProblems, List.filter_map, List.flatMap_map, List.map_flatMap,
    Declaration.relocate, List.map_append]
  refine List.flatMap_congr fun d _ => List.flatMap_congr fun f _ => ?_
  have hexternal : (f.relocate τ).isExternal = f.isExternal := rfl
  have hrequires : (f.relocate τ).requires = f.requires := rfl
  rw [hexternal, hrequires]
  congr 1 <;> split <;> rfl

theorem extensionKeyProblems_relocate (ds : List Declaration) :
    extensionKeyProblems (ds.map (Declaration.relocate τ)) =
      (extensionKeyProblems ds).map (Diagnostic.relocate τ) := by
  simp only [extensionKeyProblems, List.filter_map, List.flatMap_map, List.map_flatMap,
    Declaration.relocate, List.map_map]
  rfl

variable {τ} (hτ : τ Location.none = Location.none)
include hτ

theorem siteProblems_relocate :
    (g.relocate τ).siteProblems = g.siteProblems.map (Diagnostic.relocate τ) := by
  have hlookup : ∀ name, (g.relocate τ).lookupDirective name =
      (g.lookupDirective name).map (DirectiveDefinition.relocate τ) := by
    intro name
    rw [lookupDirective, directiveDefinitions_relocate, List.find?_map, lookupDirective,
      ← DirectiveDefinition.builtIn?_relocate hτ]
    have hfind : g.document.directiveDefinitions.find?
        ((fun d => d.name == name) ∘ DirectiveDefinition.relocate τ) =
          g.document.directiveDefinitions.find? (·.name == name) := rfl
    rw [hfind]
    cases g.document.directiveDefinitions.find? (·.name == name) with
    | none => simp [DirectiveDefinition.builtIn?_relocate hτ]
    | some d => rfl
  have hschema : (g.relocate τ).schemaSites = g.schemaSites.map (Site.relocate τ) := by
    rw [schemaSites, document_relocate, Document.schemaDefinitions_relocate, List.flatMap_map,
      schemaSites, List.map_flatMap]
    exact List.flatMap_congr fun d _ => Site.listAt_relocate τ _ _ _ _
  have htypes : (g.relocate τ).typeDefinitions.flatMap Site.ofType =
      (g.typeDefinitions.flatMap Site.ofType).map (Site.relocate τ) := by
    rw [typeDefinitions_relocate, List.flatMap_map, List.map_flatMap]
    exact List.flatMap_congr fun d _ => Site.ofType_relocate τ d
  rw [siteProblems, hschema, htypes, ← List.map_append, List.flatMap_map, siteProblems,
    List.map_flatMap]
  exact List.flatMap_congr fun x _ => Site.problems_relocate τ hlookup x

/-- **A service is checked alike at other locations.** -/
theorem checkProblems_relocate :
    (g.relocate τ).checkProblems = g.checkProblems.map (Diagnostic.relocate τ) := by
  rw [checkProblems, checkProblems, ← map_inService_relocate, declarations_relocate,
    siteProblems_relocate g hτ, reservedFieldProblems_relocate, baseFieldProblems_relocate,
    extensionKeyProblems_relocate]
  simp only [List.map_append]
  rfl

end Subgraph

/-! ## Lists of services -/

namespace Declared

variable {α β : Type}

/-- A declaration of another node by a service that has another rank. -/
def relabel (ρ : Nat → Nat) (e : α → β) (d : Declared α) : Declared β :=
  (d.map e).rerank ρ

variable (ρ : Nat → Nat) (e : α → β) (d : Declared α)

@[simp] theorem relabel_rank : (d.relabel ρ e).rank = ρ d.rank := rfl

@[simp] theorem relabel_service : (d.relabel ρ e).service = d.service := rfl

@[simp] theorem relabel_node : (d.relabel ρ e).node = e d.node := rfl

end Declared

namespace Subgraphs

/-- The services with their documents at other locations. -/
def relocate (s : Subgraphs) : Subgraphs where
  services := s.services.map (Subgraph.relocate τ)
  nodup := by
    rw [List.map_map]
    exact s.nodup

variable (s : Subgraphs)

theorem services_relocate :
    (s.relocate τ).services = s.services.map (Subgraph.relocate τ) := rfl

theorem byName_relocate :
    (s.relocate τ).byName = s.byName.map fun p => (p.1.relocate τ, p.2) :=
  byName_map (fun _ => rfl) (s.services_relocate τ)

theorem problems_relocate :
    (s.relocate τ).problems = s.problems.map (Diagnostic.relocate τ) := by
  rw [problems, services_relocate, List.flatMap_map, problems, List.map_flatMap]
  exact List.flatMap_congr fun g _ => g.problems_relocate τ

variable {τ} in
theorem checkProblems_relocate (hτ : τ Location.none = Location.none) :
    (s.relocate τ).checkProblems = s.checkProblems.map (Diagnostic.relocate τ) := by
  rw [checkProblems, services_relocate, List.flatMap_map, checkProblems, List.map_flatMap]
  exact List.flatMap_congr fun g _ => g.checkProblems_relocate hτ

/-- What relocated services declare, if each declares the same under another form. -/
theorem collect_relocate {α : Type} {f : Subgraph → List α} {e : α → α}
    (h : ∀ g, f (g.relocate τ) = (f g).map e) :
    (s.relocate τ).collect f = (s.collect f).map (Declared.map e) := by
  have hname : ∀ g : Subgraph, (g.relocate τ).name = g.name := fun _ => rfl
  rw [collect_map hname (s.services_relocate τ), collect_eq, collect_eq, List.map_flatMap]
  refine List.flatMap_congr fun p _ => ?_
  rw [h, List.map_map, List.map_map]
  rfl

variable {τ s} {s' : Subgraphs}

/-- **What services declare at other locations and in another order** is what they declare, under
other ranks and at these locations. -/
theorem exists_relabel_collect (h : (s.relocate τ).services.Perm s'.services) :
    ∃ ρ : Nat → Nat, Function.Injective ρ ∧ ∀ (α : Type) (f : Subgraph → List α) (e : α → α),
      (∀ g, f (g.relocate τ) = (f g).map e) →
        s'.collect f = (s.collect f).map (Declared.relabel ρ e) := by
  obtain ⟨ρ, hρ, hcollect⟩ := exists_rerank_collect h
  refine ⟨ρ, hρ, fun α f e hf => ?_⟩
  rw [hcollect, collect_relocate τ s hf, List.map_map]
  rfl

end Subgraphs

end Federation
