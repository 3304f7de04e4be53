import Federation.Proofs.Schema.Gathering
import Federation.Proofs.Schema.Locality
import Federation.Proofs.Schema.Turns
/-!
# Schema — what has been applied

A schema that combines another one and a document has the types of both,
each where it is first named, and each type gathers its definitions
(`Schema.Combines`). A step without a report combines one more definition
(`Combines.addInTurn`), and so a document that is applied without a report
is combined as a whole (`Combines.fold`). When a step has nothing to report
is a matter of the schema at the start and of what has been applied
(`Combines.addInTurn_eq_nil_iff`).
-/

namespace Federation

namespace Schema

/-! ## What has been applied -/

/-- All names that are given to one root operation are the same. -/
def RootsAgree (rs : List RootOperation) : Prop :=
  ∀ r ∈ rs, ∀ r' ∈ rs, r.operation = r'.operation → r.typeName = r'.typeName

/-- The definitions of a type: the one of the schema and those of a document. -/
def sources (s : Schema) (d : Document) (name : String) : List TypeDefinition :=
  (s.types ++ d.typeDefinitions).filter (·.name == name)

theorem sources_followedBy (s : Schema) (d : Document) (x : TypeDefinition) (name : String) :
    s.sources (d.followedBy (.type x)) name =
      s.sources d name ++ if x.name = name then [x] else [] := by
  rw [sources, sources, d.typeDefinitions_followedBy, ← List.append_assoc, List.filter_append,
    show Document.typeDefinitions ⟨[.type x]⟩ = [x] from rfl]
  by_cases hname : x.name = name <;> simp [hname]

/-- A schema combines another one and a document: it has the types of both, each where it is first
named, and each gathers its definitions. -/
structure Combines (t s : Schema) (d : Document) : Prop where
  typeNames : t.types.map (·.name) = distinct ((s.types ++ d.typeDefinitions).map (·.name))
  baseNames : ((s.types ++ d.baseDefinitions).map (·.name)).Nodup
  types : ∀ x ∈ t.types, x.Gathers (s.sources d x.name)
  directiveDefinitions : t.directiveDefinitions = s.directiveDefinitions ++ d.directiveDefinitions
  directiveNames : (t.directiveDefinitions.map (·.name)).Nodup
  roots : t.roots = firstsBy (·.operation) (s.roots ++ d.namedRoots)
  rootsAgree : RootsAgree (s.roots ++ d.namedRoots)
  directives : t.directives = firstsBy Directive.canonical (s.directives ++ d.schemaApplications)

namespace Combines

variable {t s : Schema} {d : Document} (h : t.Combines s d)
include h

theorem nodup_typeNames : (t.types.map (·.name)).Nodup :=
  h.typeNames ▸ nodup_distinct _

theorem not_mem_typeNames_iff {name : String} :
    name ∉ t.types.map (·.name) ↔ s.sources d name = [] := by
  rw [h.typeNames, mem_distinct, List.mem_map, sources, List.filter_eq_nil_iff]
  simp only [beq_iff_eq, not_exists, not_and]

/-- A type is found where it has definitions, and it gathers them. -/
theorem type?_cases (name : String) :
    t.type? name = none ∧ s.sources d name = [] ∨
      ∃ x, t.type? name = some x ∧ x.name = name ∧ x.Gathers (s.sources d name) ∧
        s.sources d name ≠ [] := by
  cases hfind : t.type? name with
  | none =>
    refine .inl ⟨rfl, h.not_mem_typeNames_iff.mp fun hmem => ?_⟩
    obtain ⟨x, hx, hname⟩ := List.mem_map.mp hmem
    exact List.find?_eq_none.mp hfind x hx (beq_iff_eq.mpr hname)
  | some x =>
    obtain ⟨hx, rfl⟩ := mem_of_type? hfind
    exact .inr ⟨x, rfl, rfl, h.types x hx,
      fun hnone => h.not_mem_typeNames_iff.mpr hnone (List.mem_map_of_mem hx)⟩

/-- What a schema combines is settled: it combines itself and nothing more. -/
theorem self : t.Combines t {} := by
  have hnames := h.nodup_typeNames
  refine
    { typeNames := ?_
      baseNames := ?_
      types := fun x hx => ?_
      directiveDefinitions := (List.append_nil _).symm
      directiveNames := h.directiveNames
      roots := ?_
      rootsAgree := ?_
      directives := ?_ }
  · exact (distinct_eq_self (by simpa [Document.typeDefinitions] using hnames)).symm ▸
      by simp [Document.typeDefinitions]
  · simpa [Document.baseDefinitions, Document.typeDefinitions] using hnames
  · have hself : t.sources {} x.name = [x] := by
      rw [sources, show (Document.typeDefinitions {}) = [] from rfl, List.append_nil,
        filter_eq_singleton hnames hx]
    rw [hself]
    exact (h.types x hx).self
  · rw [show Document.namedRoots {} = [] from rfl, List.append_nil, firstsBy_eq_self]
    rw [h.roots]
    exact nodup_map_firstsBy _ _
  · intro r hr r' hr' _
    rw [show Document.namedRoots {} = [] from rfl, List.append_nil, h.roots] at hr hr'
    have hmem := (firstsBy_sublist (·.operation) (s.roots ++ d.namedRoots)).subset
    exact h.rootsAgree r (hmem hr) r' (hmem hr') ‹_›
  · rw [show Document.schemaApplications {} = [] from rfl, List.append_nil, firstsBy_eq_self]
    rw [h.directives]
    exact nodup_map_firstsBy _ _

end Combines

/-! ### The schema itself and directives -/

theorem RootsAgree.of_append {rs rs' : List RootOperation} (h : RootsAgree (rs ++ rs')) :
    RootsAgree rs :=
  fun a ha b hb => h a (List.mem_append_left _ ha) b (List.mem_append_left _ hb)

theorem rootsAgree_concat_iff {rs : List RootOperation} {r : RootOperation} :
    RootsAgree (rs ++ [r]) ↔
      RootsAgree rs ∧ ∀ r' ∈ rs, r'.operation = r.operation → r'.typeName = r.typeName := by
  constructor
  · intro h
    exact ⟨h.of_append,
      fun a ha => h a (List.mem_append_left _ ha) r (List.mem_append_right _ (by simp))⟩
  · rintro ⟨hrs, hr⟩ a ha b hb heq
    rcases List.mem_append.mp ha with ha | ha <;> rcases List.mem_append.mp hb with hb | hb
    · exact hrs a ha b hb heq
    · rw [List.mem_singleton.mp hb] at heq ⊢
      exact hr a ha heq
    · rw [List.mem_singleton.mp ha] at heq ⊢
      exact (hr b hb heq.symm).symm
    · rw [List.mem_singleton.mp ha, List.mem_singleton.mp hb]

section

variable {t : Schema} {rs : List RootOperation} (location : Location)
variable (h : t.roots = firstsBy (·.operation) rs)
include h

/-- The root of an operation is the first one that is named. -/
theorem rootName?_cases (operation : OperationType) :
    t.rootName? operation = none ∧ operation ∉ rs.map (·.operation) ∨
      ∃ r ∈ rs, r.operation = operation ∧ t.rootName? operation = some r.typeName := by
  rw [rootName?, h]
  cases hfind : (firstsBy (·.operation) rs).find? (·.operation == operation) with
  | none =>
    refine .inl ⟨rfl, fun hmem => ?_⟩
    obtain ⟨r, hr, hoperation⟩ := List.mem_map.mp ((mem_map_firstsBy _).mpr hmem)
    exact List.find?_eq_none.mp hfind r hr (beq_iff_eq.mpr hoperation)
  | some r =>
    have hr := List.mem_of_find?_eq_some hfind
    have hoperation := List.find?_some hfind
    exact .inr ⟨r, (firstsBy_sublist _ _).subset hr, beq_iff_eq.mp hoperation, rfl⟩

theorem roots_addRoot_eq_firstsBy (r : RootOperation) :
    (t.addRoot location r).1.roots = firstsBy (·.operation) (rs ++ [r]) := by
  rw [addRoot]
  obtain ⟨hnone, hnew⟩ | ⟨r', hr', hoperation, hsome⟩ := rootName?_cases h r.operation
  · rw [hnone, firstsBy_concat_of_not_mem _ hnew, ← h]
  · rw [hsome, firstsBy_concat_of_mem _ (hoperation ▸ List.mem_map_of_mem hr'), ← h]
    dsimp only
    split <;> rfl

theorem addRoot_eq_nil_iff (hagree : RootsAgree rs) (r : RootOperation) :
    (t.addRoot location r).2 = [] ↔ RootsAgree (rs ++ [r]) := by
  rw [addRoot, rootsAgree_concat_iff]
  obtain ⟨hnone, hnew⟩ | ⟨r', hr', hoperation, hsome⟩ := rootName?_cases h r.operation
  · rw [hnone]
    refine ⟨fun _ => ⟨hagree, fun a ha hop => ?_⟩, fun _ => rfl⟩
    exact absurd (hop ▸ List.mem_map_of_mem ha) hnew
  · rw [hsome]
    dsimp only
    split
    · rename_i heq
      refine ⟨fun _ => ⟨hagree, fun a ha hop => ?_⟩, fun _ => rfl⟩
      rw [← heq]
      exact hagree a ha r' hr' (hop.trans hoperation.symm)
    · rename_i hne
      refine ⟨fun hnil => (List.cons_ne_nil _ _ hnil).elim, fun hall => ?_⟩
      exact absurd (hall.2 r' hr' hoperation) hne

/-- **Root operations are added where they are new.** -/
theorem roots_fold_eq_firstsBy (added : List RootOperation) :
    (Reported.fold (addRoot location) t added).1.roots =
      firstsBy (·.operation) (rs ++ added) := by
  induction added generalizing t rs with
  | nil => rwa [List.append_nil]
  | cons r added ih =>
    rw [Reported.fold_cons, List.append_cons rs r added]
    exact ih (roots_addRoot_eq_firstsBy location h r)

/-- **Root operations are reported exactly where they disagree.** -/
theorem fold_addRoot_eq_nil_iff (hagree : RootsAgree rs) (added : List RootOperation) :
    (Reported.fold (addRoot location) t added).2 = [] ↔ RootsAgree (rs ++ added) := by
  induction added generalizing t rs with
  | nil =>
    rw [List.append_nil]
    exact ⟨fun _ => hagree, fun _ => rfl⟩
  | cons r added ih =>
    rw [Reported.fold_cons, List.append_eq_nil_iff, addRoot_eq_nil_iff location h hagree,
      List.append_cons rs r added]
    constructor
    · rintro ⟨hr, hrest⟩
      exact (ih (roots_addRoot_eq_firstsBy location h r) hr).mp hrest
    · intro hall
      have hr : RootsAgree (rs ++ [r]) := hall.of_append
      exact ⟨hr, (ih (roots_addRoot_eq_firstsBy location h r) hr).mpr hall⟩

end

/-- Whether a directive may be repeated: by its definition in the schema or in the document, or else
by the built-in one. -/
def isRepeatableWith (s : Schema) (d : Document) (name : String) : Bool :=
  (((s.directiveDefinitions ++ d.directiveDefinitions).find? (·.name == name)) <|>
    DirectiveDefinition.builtIn? name).any (·.isRepeatable)

namespace Combines

variable {t s : Schema} {d : Document} (h : t.Combines s d)
include h

theorem isRepeatable_eq : t.isRepeatable = s.isRepeatableWith d := by
  funext name
  rw [Schema.isRepeatable, directiveDefinition?, h.directiveDefinitions]
  rfl

/-- The definition of a directive is applied without a report exactly when its name is new. -/
theorem addDirectiveDefinition_eq_nil_iff (e : DirectiveDefinition) :
    (t.addDirectiveDefinition e).2 = [] ↔
      e.name ∉ (s.directiveDefinitions ++ d.directiveDefinitions).map (·.name) := by
  rw [addDirectiveDefinition, ← h.directiveDefinitions]
  constructor
  · intro hsilent hmem
    obtain ⟨x, hx, hname⟩ := List.mem_map.mp hmem
    have hfound : (t.directiveDefinition? e.name).isSome = true :=
      List.find?_isSome.mpr ⟨x, hx, beq_iff_eq.mpr hname⟩
    rw [if_pos hfound] at hsilent
    cases hsilent
  · intro hnew
    rw [directiveDefinition?_eq_none hnew]
    rfl

theorem addDirectiveDefinition {e : DirectiveDefinition}
    (hsilent : (t.addDirectiveDefinition e).2 = []) :
    (t.addDirectiveDefinition e).1.Combines s (d.followedBy (.directive e)) := by
  have hnew := (h.addDirectiveDefinition_eq_nil_iff e).mp hsilent
  rw [← h.directiveDefinitions] at hnew
  have hstep : (t.addDirectiveDefinition e).1 =
      { t with directiveDefinitions := t.directiveDefinitions ++ [e] } := by
    rw [Schema.addDirectiveDefinition, directiveDefinition?_eq_none hnew]
    rfl
  have htypes : (d.followedBy (.directive e)).typeDefinitions = d.typeDefinitions :=
    (d.typeDefinitions_followedBy _).trans (List.append_nil _)
  have hschema : (d.followedBy (.directive e)).schemaDefinitions = d.schemaDefinitions :=
    (d.schemaDefinitions_followedBy _).trans (List.append_nil _)
  rw [hstep]
  refine
    { typeNames := ?_
      baseNames := ?_
      types := ?_
      directiveDefinitions := ?_
      directiveNames := nodup_map_concat_iff.mpr ⟨h.directiveNames, hnew⟩
      roots := ?_
      rootsAgree := ?_
      directives := ?_ }
  · rw [htypes]
    exact h.typeNames
  · rw [Document.baseDefinitions, htypes]
    exact h.baseNames
  · simp only [sources, htypes]
    exact h.types
  · rw [d.directiveDefinitions_followedBy, ← List.append_assoc, ← h.directiveDefinitions]
    rfl
  · rw [Document.namedRoots, hschema]
    exact h.roots
  · rw [Document.namedRoots, hschema]
    exact h.rootsAgree
  · rw [Document.schemaApplications, hschema]
    exact h.directives

/-- The definition of the schema is applied without a report exactly when its roots agree with those
before, and its applications join those before. -/
theorem addSchemaDefinition_eq_nil_iff (e : SchemaDefinition) :
    (t.addSchemaDefinition e).2 = [] ↔
      RootsAgree (s.roots ++ d.namedRoots ++ e.rootOperations) ∧
        Directive.JoinInTurn (s.isRepeatableWith d) (s.directives ++ d.schemaApplications)
          e.directives := by
  obtain ⟨roots, hroots⟩ := exists_fold_addRoot e.location t e.rootOperations
  have hrepeatable : ({ t with roots } : Schema).isRepeatable = s.isRepeatableWith d :=
    h.isRepeatable_eq
  rw [← fold_addRoot_eq_nil_iff e.location h.roots h.rootsAgree,
    ← Directive.conflicts_eq_nil_iff_join, ← h.directives, Schema.addSchemaDefinition]
  simp only [hroots, hrepeatable]
  rw [List.append_eq_nil_iff, Directive.conflictDiagnostics, List.map_eq_nil_iff]

theorem addSchemaDefinition {e : SchemaDefinition} (hsilent : (t.addSchemaDefinition e).2 = []) :
    (t.addSchemaDefinition e).1.Combines s (d.followedBy (.schema e)) := by
  obtain ⟨hagree, hjoin⟩ := (h.addSchemaDefinition_eq_nil_iff e).mp hsilent
  obtain ⟨roots, hroots⟩ := exists_fold_addRoot e.location t e.rootOperations
  have hrepeatable : ({ t with roots } : Schema).isRepeatable = s.isRepeatableWith d :=
    h.isRepeatable_eq
  have hstep : (t.addSchemaDefinition e).1 =
      { t with
        roots
        directives := firstsBy Directive.canonical
          (s.directives ++ d.schemaApplications ++ e.directives) } := by
    have hnone := Directive.conflicts_eq_nil_iff_join.mpr hjoin
    rw [Schema.addSchemaDefinition]
    simp only [hroots, hrepeatable]
    rw [h.directives, Directive.merge_firstsBy hnone]
  have hnamed : roots = firstsBy (·.operation) (s.roots ++ d.namedRoots ++ e.rootOperations) := by
    rw [← roots_fold_eq_firstsBy e.location h.roots, hroots]
  have htypes : (d.followedBy (.schema e)).typeDefinitions = d.typeDefinitions :=
    (d.typeDefinitions_followedBy _).trans (List.append_nil _)
  have hdirectives : (d.followedBy (.schema e)).directiveDefinitions = d.directiveDefinitions :=
    (d.directiveDefinitions_followedBy _).trans (List.append_nil _)
  have hroots' : s.roots ++ (d.followedBy (.schema e)).namedRoots =
      s.roots ++ d.namedRoots ++ e.rootOperations := by
    rw [d.namedRoots_followedBy, ← List.append_assoc]
    simp [Document.namedRoots, Document.schemaDefinitions]
  rw [hstep]
  refine
    { typeNames := ?_
      baseNames := ?_
      types := ?_
      directiveDefinitions := ?_
      directiveNames := h.directiveNames
      roots := ?_
      rootsAgree := ?_
      directives := ?_ }
  · rw [htypes]
    exact h.typeNames
  · rw [Document.baseDefinitions, htypes]
    exact h.baseNames
  · simp only [sources, htypes]
    exact h.types
  · rw [hdirectives]
    exact h.directiveDefinitions
  · rw [hnamed, hroots']
  · rw [hroots']
    exact hagree
  · rw [d.schemaApplications_followedBy, ← List.append_assoc]
    simp [Document.schemaApplications, Document.schemaDefinitions]

end Combines

/-! ### Types -/

/-- The type that a definition is applied to: the one with its name, or a new one. -/
def target (t : Schema) (x : TypeDefinition) : TypeDefinition :=
  (t.type? x.name).getD (typeForExtension x)

/-- The type that a definition is applied to, with what it gets. -/
def extended (t : Schema) (x : TypeDefinition) : Reported TypeDefinition :=
  (t.target x).absorb t.isRepeatable x

theorem name_target (t : Schema) (x : TypeDefinition) : (t.target x).name = x.name := by
  rw [target]
  cases hfind : t.type? x.name with
  | none => rfl
  | some y => exact (mem_of_type? hfind).2

/-- What is applied to a name that is not there makes a new type. -/
theorem addInTurn_of_none {t : Schema} {x : TypeDefinition} (h : t.type? x.name = none) :
    t.addInTurn (.type x) =
      ({ t with types := t.types ++ [(t.extended x).1] }, (t.extended x).2) := by
  have htarget : t.target x = typeForExtension x := by rw [target, h, Option.getD_none]
  cases hx : x.isExtension with
  | true => simp [addInTurn, hx, addTypeExtension, h, extended, htarget]
  | false =>
    simp [addInTurn, hx, addTypeDefinition, h, extended, htarget,
      TypeDefinition.shell_absorb hx]

/-- What is applied to a type that is there extends it, if it is an extension of its kind. -/
theorem addInTurn_of_some {t : Schema} {x y : TypeDefinition} (h : t.type? x.name = some y)
    (hx : x.isExtension = true) (hkind : y.kind = x.kind) :
    t.addInTurn (.type x) =
      ({ t with types := t.types.map fun z => if z.name = x.name then (t.extended x).1 else z },
        (t.extended x).2) := by
  have htarget : t.target x = y := by rw [target, h, Option.getD_some]
  simp [addInTurn, hx, addTypeExtension, h, extended, htarget, hkind]

/-- What is applied to a type that is there, and is no extension or of another kind, is
reported. -/
theorem addInTurn_ne_nil {t : Schema} {x y : TypeDefinition} (h : t.type? x.name = some y)
    (hx : x.isExtension = true → y.kind ≠ x.kind) : (t.addInTurn (.type x)).2 ≠ [] := by
  cases hext : x.isExtension with
  | true => simp [addInTurn, hext, addTypeExtension, h, hx hext]
  | false => simp [addInTurn, hext, addTypeDefinition, h]

namespace Combines

variable {t s : Schema} {d : Document} (h : t.Combines s d)
include h

theorem gathers_target (x : TypeDefinition) : (t.target x).Gathers (s.sources d x.name) := by
  rw [target]
  obtain ⟨hnone, hsources⟩ | ⟨y, hsome, -, hgathers, -⟩ := h.type?_cases x.name
  · rw [hnone, hsources]
    exact TypeDefinition.gathers_typeForExtension x
  · rw [hsome]
    exact hgathers

/-- **A definition of a type is applied without a report** exactly when it has a new name or is an
extension, has the kind of the type, and is absorbed by it without a report. -/
theorem addType_eq_nil_iff (x : TypeDefinition) :
    (t.addInTurn (.type x)).2 = [] ↔
      (x.isExtension = false → s.sources d x.name = []) ∧ (t.target x).kind = x.kind ∧
        (t.extended x).2 = [] := by
  obtain ⟨hnone, hsources⟩ | ⟨y, hsome, -, -, hsources⟩ := h.type?_cases x.name
  · have hkind : (t.target x).kind = x.kind := by
      rw [target, hnone]
      exact TypeBody.kind_empty _
    rw [addInTurn_of_none hnone]
    exact ⟨fun hsilent => ⟨fun _ => hsources, hkind, hsilent⟩, fun hall => hall.2.2⟩
  · have htarget : t.target x = y := by rw [target, hsome, Option.getD_some]
    rw [htarget]
    by_cases hx : x.isExtension = true ∧ y.kind = x.kind
    · rw [addInTurn_of_some hsome hx.1 hx.2]
      refine ⟨fun hsilent => ⟨fun hbase => ?_, hx.2, hsilent⟩, fun hall => hall.2.2⟩
      rw [hx.1] at hbase
      cases hbase
    · constructor
      · intro hsilent
        exact absurd hsilent (addInTurn_ne_nil hsome fun hext hkind => hx ⟨hext, hkind⟩)
      · rintro ⟨hbase, hkind, -⟩
        refine absurd ⟨?_, hkind⟩ hx
        by_contra hext
        exact hsources (hbase (Bool.eq_false_iff.mpr hext))

/-- The types after a step: the extended type is at its place, or at the end where it is new. -/
theorem types_addType {x : TypeDefinition} (hsilent : (t.addInTurn (.type x)).2 = []) :
    ∃ types, (t.addInTurn (.type x)).1 = { t with types } ∧
      types.map (·.name) = distinct ((s.types ++ d.typeDefinitions ++ [x]).map (·.name)) ∧
      ∀ y ∈ types, y = (t.extended x).1 ∨ y ∈ t.types ∧ y.name ≠ x.name := by
  have hname : (t.extended x).1.name = x.name := t.name_target x
  rw [List.map_append, List.map_singleton, distinct]
  obtain ⟨hnone, hsources⟩ | ⟨y, hsome, hy, -, -⟩ := h.type?_cases x.name
  · have hnew := h.not_mem_typeNames_iff.mpr hsources
    refine ⟨_, by rw [addInTurn_of_none hnone], ?_, fun y hy => ?_⟩
    · rw [List.map_append, List.map_singleton, hname, h.typeNames, distinct,
        firstsBy_concat_of_not_mem]
      rwa [h.typeNames, mem_distinct, ← List.map_id (List.map _ _)] at hnew
    · rcases List.mem_append.mp hy with hy | hy
      · exact .inr ⟨hy, fun heq => hnew (heq ▸ List.mem_map_of_mem hy)⟩
      · exact .inl (List.mem_singleton.mp hy)
  · have hthere : x.name ∈ t.types.map (·.name) := by
      obtain ⟨hmem, -⟩ := mem_of_type? hsome
      exact hy ▸ List.mem_map_of_mem hmem
    have hx : x.isExtension = true ∧ y.kind = x.kind := by
      by_contra hx
      exact addInTurn_ne_nil hsome (fun hext hkind => hx ⟨hext, hkind⟩) hsilent
    refine ⟨_, by rw [addInTurn_of_some hsome hx.1 hx.2], ?_, fun z hz => ?_⟩
    · rw [List.map_map, firstsBy_concat_of_mem]
      · rw [← distinct, ← h.typeNames]
        refine List.map_congr_left fun z _ => ?_
        by_cases hz : z.name = x.name <;> simp [hz, hname]
      · rwa [h.typeNames, mem_distinct, ← List.map_id (List.map _ _)] at hthere
    · obtain ⟨w, hw, rfl⟩ := List.mem_map.mp hz
      by_cases hwx : w.name = x.name
      · rw [if_pos hwx]
        exact .inl rfl
      · rw [if_neg hwx]
        exact .inr ⟨hw, hwx⟩

theorem addType {x : TypeDefinition} (hsilent : (t.addInTurn (.type x)).2 = []) :
    (t.addInTurn (.type x)).1.Combines s (d.followedBy (.type x)) := by
  obtain ⟨hbase, hkind, habsorb⟩ := (h.addType_eq_nil_iff x).mp hsilent
  obtain ⟨types, hstep, hnames, htypes⟩ := h.types_addType hsilent
  have hdefinitions : (d.followedBy (.type x)).typeDefinitions = d.typeDefinitions ++ [x] :=
    d.typeDefinitions_followedBy _
  have hdirectives : (d.followedBy (.type x)).directiveDefinitions = d.directiveDefinitions :=
    (d.directiveDefinitions_followedBy _).trans (List.append_nil _)
  have hschema : (d.followedBy (.type x)).schemaDefinitions = d.schemaDefinitions :=
    (d.schemaDefinitions_followedBy _).trans (List.append_nil _)
  rw [hstep]
  refine
    { typeNames := ?_
      baseNames := ?_
      types := fun y hy => ?_
      directiveDefinitions := ?_
      directiveNames := h.directiveNames
      roots := ?_
      rootsAgree := ?_
      directives := ?_ }
  · rw [hdefinitions, ← List.append_assoc]
    exact hnames
  · rw [d.baseDefinitions_followedBy, ← List.append_assoc]
    cases hx : x.isExtension with
    | true =>
      have hnone : Document.baseDefinitions ⟨[.type x]⟩ = [] := by
        simp [Document.baseDefinitions, Document.typeDefinitions, hx]
      rw [hnone, List.append_nil]
      exact h.baseNames
    | false =>
      have hone : Document.baseDefinitions ⟨[.type x]⟩ = [x] := by
        simp [Document.baseDefinitions, Document.typeDefinitions, hx]
      rw [hone]
      refine nodup_map_concat_iff.mpr ⟨h.baseNames, fun hmem => ?_⟩
      obtain ⟨y, hy, hname⟩ := List.mem_map.mp hmem
      have hall : y ∈ s.types ++ d.typeDefinitions :=
        (List.Sublist.append_left List.filter_sublist _).subset hy
      exact List.filter_eq_nil_iff.mp (hbase hx) y hall (beq_iff_eq.mpr hname)
  · rw [sources_followedBy]
    rcases htypes y hy with rfl | ⟨hy, hne⟩
    · rw [show (t.extended x).1.name = x.name from t.name_target x, if_pos rfl]
      exact (h.gathers_target x).absorb hkind.symm habsorb
    · rw [if_neg (Ne.symm hne), List.append_nil]
      exact h.types y hy
  · rw [hdirectives]
    exact h.directiveDefinitions
  · rw [Document.namedRoots, hschema]
    exact h.roots
  · rw [Document.namedRoots, hschema]
    exact h.rootsAgree
  · rw [Document.schemaApplications, hschema]
    exact h.directives

/-- **A step without a report combines one more definition.** -/
theorem addInTurn {x : Definition} (hsilent : (t.addInTurn x).2 = []) :
    (t.addInTurn x).1.Combines s (d.followedBy x) := by
  cases x with
  | directive e => exact h.addDirectiveDefinition hsilent
  | schema e => exact h.addSchemaDefinition hsilent
  | type x => exact h.addType hsilent

/-- **A document that is applied without a report is combined as a whole.** -/
theorem fold {xs : List Definition} (hsilent : (Reported.fold Schema.addInTurn t xs).2 = []) :
    (Reported.fold Schema.addInTurn t xs).1.Combines s ⟨d.definitions ++ xs⟩ := by
  induction xs generalizing t d with
  | nil =>
    rw [List.append_nil]
    exact h
  | cons x xs ih =>
    rw [Reported.fold_cons] at hsilent ⊢
    obtain ⟨hstep, hrest⟩ := List.append_eq_nil_iff.mp hsilent
    rw [List.append_cons]
    exact ih (h.addInTurn hstep) hrest

end Combines

/-! ## When there is nothing to report -/

/-- A schema and a document admit a definition of a type after them: it has a new name or is an
extension, it has the kind of the first definition, no member occurs twice, and its applications
may join those that are there. -/
structure AdmitsType (s : Schema) (d : Document) (x : TypeDefinition) : Prop where
  base : x.isExtension = false → s.sources d x.name = []
  kind : ∀ y ∈ (s.sources d x.name).head?, y.kind = x.kind
  members : TypeDefinition.MembersOnce (s.sources d x.name ++ [x])
  applications : Directive.JoinInTurn (s.isRepeatableWith d)
    ((s.sources d x.name).flatMap (·.directives)) x.directives

/-- A schema and a document admit a definition after them. -/
def Admits (s : Schema) (d : Document) : Definition → Prop
  | .directive e => e.name ∉ (s.directiveDefinitions ++ d.directiveDefinitions).map (·.name)
  | .schema e =>
    RootsAgree (s.roots ++ d.namedRoots ++ e.rootOperations) ∧
      Directive.JoinInTurn (s.isRepeatableWith d) (s.directives ++ d.schemaApplications)
        e.directives
  | .type x => s.AdmitsType d x

namespace Combines

variable {t s : Schema} {d : Document} (h : t.Combines s d)
include h

theorem kind_target_iff (x : TypeDefinition) :
    (t.target x).kind = x.kind ↔ ∀ y ∈ (s.sources d x.name).head?, y.kind = x.kind := by
  have hgathers := h.gathers_target x
  cases hsources : s.sources d x.name with
  | nil =>
    have hnone : t.type? x.name = none := type?_eq_none (h.not_mem_typeNames_iff.mpr hsources)
    rw [target, hnone]
    exact ⟨fun _ y hy => (Option.not_mem_none y hy).elim, fun _ => TypeBody.kind_empty _⟩
  | cons y ys =>
    rw [hsources] at hgathers
    have hy := hgathers.kind y List.mem_cons_self
    rw [← hy, List.head?_cons]
    exact ⟨fun hkind z hz => by rw [← Option.mem_some.mp hz, hkind], fun hall => hall y rfl⟩

/-- **A definition of a type is applied without a report exactly when it is admitted.** -/
theorem addType_eq_nil_iff_admits (x : TypeDefinition) :
    (t.addInTurn (.type x)).2 = [] ↔ s.AdmitsType d x := by
  have hgathers := h.gathers_target x
  have hextended (hkind : (t.target x).kind = x.kind) : (t.extended x).2 = [] ↔
      Directive.JoinInTurn (s.isRepeatableWith d) ((s.sources d x.name).flatMap (·.directives))
        x.directives ∧
      TypeDefinition.MembersOnce (s.sources d x.name ++ [x]) := by
    rw [extended, hgathers.absorb_eq_nil_iff hkind.symm, h.isRepeatable_eq, hgathers.directives,
      hgathers.fields, hgathers.enumValues, hgathers.inputFields,
      Directive.conflicts_eq_nil_iff_join, TypeDefinition.MembersOnce]
    simp only [List.flatMap_append, List.flatMap_singleton]
  rw [h.addType_eq_nil_iff]
  constructor
  · rintro ⟨hbase, hkind, hsilent⟩
    obtain ⟨happlications, hmembers⟩ := (hextended hkind).mp hsilent
    exact ⟨hbase, (h.kind_target_iff x).mp hkind, hmembers, happlications⟩
  · rintro ⟨hbase, hkind, hmembers, happlications⟩
    have hkind := (h.kind_target_iff x).mpr hkind
    exact ⟨hbase, hkind, (hextended hkind).mpr ⟨happlications, hmembers⟩⟩

/-- **A step has nothing to report exactly when its definition is admitted.** -/
theorem addInTurn_eq_nil_iff (x : Definition) :
    (t.addInTurn x).2 = [] ↔ s.Admits d x := by
  cases x with
  | directive e => exact h.addDirectiveDefinition_eq_nil_iff e
  | schema e => exact h.addSchemaDefinition_eq_nil_iff e
  | type x => exact h.addType_eq_nil_iff_admits x

end Combines

end Schema

end Federation
