import Federation.Proofs.Schema.Building
/-!
# Schema — definitions in turn

A document is applied in turn: its definitions first, then its extensions
of types (`Document.inTurn`). With one step for either, applying a
document is one fold over the document in turn (`applyDocument_eq_fold`).
-/

namespace Federation

/-! ## Definitions in turn -/

namespace Definition

/-- Whether a definition extends a type. -/
def isTypeExtension : Definition → Bool
  | type d => d.isExtension
  | schema _ | directive _ => false

end Definition

namespace Document

/-- The base definitions of types. -/
def baseDefinitions (d : Document) : List TypeDefinition :=
  d.typeDefinitions.filter (!·.isExtension)

/-- The extensions of types. -/
def typeExtensions (d : Document) : List TypeDefinition :=
  d.typeDefinitions.filter (·.isExtension)

/-- The root types that schema definitions and extensions name. -/
def namedRoots (d : Document) : List RootOperation :=
  d.schemaDefinitions.flatMap (·.rootOperations)

/-- The applications on the schema. -/
def schemaApplications (d : Document) : List Directive :=
  d.schemaDefinitions.flatMap (·.directives)

/-- The document with one more definition. -/
def followedBy (d : Document) (x : Definition) : Document :=
  ⟨d.definitions ++ [x]⟩

/-- The document in the order in which it is applied: the extensions of types come last. -/
def inTurn (d : Document) : Document :=
  ⟨d.definitions.filter (!·.isTypeExtension) ++ d.definitions.filter (·.isTypeExtension)⟩

variable (d : Document)

theorem typeDefinitions_followedBy (x : Definition) :
    (d.followedBy x).typeDefinitions = d.typeDefinitions ++ typeDefinitions ⟨[x]⟩ :=
  List.filterMap_append

theorem baseDefinitions_followedBy (x : Definition) :
    (d.followedBy x).baseDefinitions = d.baseDefinitions ++ baseDefinitions ⟨[x]⟩ := by
  rw [baseDefinitions, typeDefinitions_followedBy, List.filter_append]
  rfl

theorem typeExtensions_followedBy (x : Definition) :
    (d.followedBy x).typeExtensions = d.typeExtensions ++ typeExtensions ⟨[x]⟩ := by
  rw [typeExtensions, typeDefinitions_followedBy, List.filter_append]
  rfl

theorem directiveDefinitions_followedBy (x : Definition) :
    (d.followedBy x).directiveDefinitions =
      d.directiveDefinitions ++ directiveDefinitions ⟨[x]⟩ :=
  List.filterMap_append

theorem schemaDefinitions_followedBy (x : Definition) :
    (d.followedBy x).schemaDefinitions = d.schemaDefinitions ++ schemaDefinitions ⟨[x]⟩ :=
  List.filterMap_append

theorem namedRoots_followedBy (x : Definition) :
    (d.followedBy x).namedRoots = d.namedRoots ++ namedRoots ⟨[x]⟩ := by
  rw [namedRoots, schemaDefinitions_followedBy, List.flatMap_append]
  rfl

theorem schemaApplications_followedBy (x : Definition) :
    (d.followedBy x).schemaApplications = d.schemaApplications ++ schemaApplications ⟨[x]⟩ := by
  rw [schemaApplications, schemaDefinitions_followedBy, List.flatMap_append]
  rfl

/-- What extensions of types do not have is in the same order in turn. -/
theorem filterMap_inTurn {β : Type} {f : Definition → Option β}
    (hf : ∀ x, x.isTypeExtension = true → f x = none) :
    d.inTurn.definitions.filterMap f = d.definitions.filterMap f := by
  have hlast : (d.definitions.filter (·.isTypeExtension)).filterMap f = [] :=
    List.filterMap_eq_nil_iff.mpr fun x hx => hf x (List.mem_filter.mp hx).2
  rw [inTurn, List.filterMap_append, hlast, List.append_nil, List.filterMap_filter]
  refine List.filterMap_congr fun x _ => ?_
  cases hx : x.isTypeExtension with
  | false => rfl
  | true => rw [hf x hx]; rfl

theorem directiveDefinitions_inTurn :
    d.inTurn.directiveDefinitions = d.directiveDefinitions := by
  refine d.filterMap_inTurn fun x hx => ?_
  cases x with
  | type => rfl
  | schema | directive => cases hx

theorem schemaDefinitions_inTurn : d.inTurn.schemaDefinitions = d.schemaDefinitions := by
  refine d.filterMap_inTurn fun x hx => ?_
  cases x with
  | type => rfl
  | schema | directive => cases hx

theorem typeDefinitions_inTurn :
    d.inTurn.typeDefinitions = d.baseDefinitions ++ d.typeExtensions := by
  rw [baseDefinitions, typeExtensions, typeDefinitions, typeDefinitions, inTurn,
    List.filterMap_append, List.filterMap_filter, List.filterMap_filter, List.filter_filterMap,
    List.filter_filterMap]
  congr 1 <;>
  · refine List.filterMap_congr fun x _ => ?_
    cases x with
    | schema | directive => rfl
    | type t => cases h : t.isExtension <;> simp [Definition.isTypeExtension, Option.filter, h]

end Document

namespace Schema

/-! ## One step for each definition -/

/-- Applies a definition or an extension of a type when it is its turn. -/
def addInTurn (s : Schema) : Definition → Reported Schema
  | .directive d => s.addDirectiveDefinition d
  | .schema d => s.addSchemaDefinition d
  | .type d => if d.isExtension then s.addTypeExtension d else s.addTypeDefinition d

theorem fold_addDefinition (s : Schema) (xs : List Definition) :
    Reported.fold addDefinition s xs =
      Reported.fold addInTurn s (xs.filter (!·.isTypeExtension)) := by
  induction xs generalizing s with
  | nil => rfl
  | cons x xs ih =>
    rw [Reported.fold_cons]
    cases hx : x.isTypeExtension with
    | false =>
      have hstep : s.addDefinition x = s.addInTurn x := by
        cases x with
        | directive | schema => rfl
        | type t =>
          have ht : t.isExtension = false := hx
          simp [addDefinition, addInTurn, ht]
      rw [List.filter_cons_of_pos (by simp [hx]), Reported.fold_cons, ih, hstep]
    | true =>
      have hstep : s.addDefinition x = (s, []) := by
        cases x with
        | directive | schema => cases hx
        | type t =>
          have ht : t.isExtension = true := hx
          simp [addDefinition, ht]
      rw [List.filter_cons_of_neg (by simp [hx]), ih, hstep, List.nil_append]

theorem fold_addTypeExtension_eq (s : Schema) (xs : List Definition) :
    Reported.fold addTypeExtension s
        ((Document.mk xs).typeDefinitions.filter (·.isExtension)) =
      Reported.fold addInTurn s (xs.filter (·.isTypeExtension)) := by
  induction xs generalizing s with
  | nil => rfl
  | cons x xs ih =>
    cases x with
    | directive | schema => exact ih s
    | type t =>
      have hcons : (Document.mk (.type t :: xs)).typeDefinitions =
          t :: (Document.mk xs).typeDefinitions := rfl
      rw [hcons]
      cases ht : t.isExtension with
      | false =>
        rw [List.filter_cons_of_neg (by simp [ht]), ih,
          List.filter_cons_of_neg (by simp [Definition.isTypeExtension, ht])]
      | true =>
        have hstep : s.addInTurn (.type t) = s.addTypeExtension t := by
          simp [addInTurn, ht]
        rw [List.filter_cons_of_pos (by simp [ht]), Reported.fold_cons, ih,
          List.filter_cons_of_pos (by simp [Definition.isTypeExtension, ht]),
          Reported.fold_cons, hstep]

/-- **A document is applied in turn.** -/
theorem applyDocument_eq_fold (s : Schema) (d : Document) :
    s.applyDocument d = Reported.fold addInTurn s d.inTurn.definitions := by
  rw [applyDocument, Document.inTurn, Reported.fold_append, fold_addDefinition,
    ← fold_addTypeExtension_eq]

end Schema

end Federation
