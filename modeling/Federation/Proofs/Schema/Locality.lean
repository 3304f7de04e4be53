import Federation.Proofs.Schema.Building
import Federation.Proofs.Schema.TypeSafety
/-!
# Schema — what a definition reads and writes

A definition is about one element: the schema itself, a directive or a
type. Once it is settled which directives may be repeated, applying a
definition reads and writes what a schema holds about that element
(`Schema.restrict`), and nothing else. Steps of this kind may be
reordered as long as those about one element keep their order
(`Reported.Keyed.fold_reordered`).
-/

namespace Federation

/-! ## Steps under keys -/

namespace Reported

variable {α σ κ β : Type} [DecidableEq κ]

/-- The steps of a fold, each with its diagnostics. -/
def trace (step : σ → α → Reported σ) : σ → List α → List (α × List Diagnostic)
  | _, [] => []
  | s, a :: as => (a, (step s a).2) :: trace step (step s a).1 as

theorem fold_snd_eq_trace (step : σ → α → Reported σ) (s : σ) (as : List α) :
    (fold step s as).2 = (trace step s as).flatMap Prod.snd := by
  induction as generalizing s with
  | nil => rfl
  | cons a as ih => rw [fold_cons, trace, List.flatMap_cons, ih]

/-- What every step keeps, a fold keeps. -/
theorem fold_induction {step : σ → α → Reported σ} {P : σ → Prop} {as : List α}
    (hstep : ∀ s, ∀ a ∈ as, P s → P (step s a).1) {s : σ} (hs : P s) :
    P (fold step s as).1 := by
  induction as generalizing s with
  | nil => exact hs
  | cons a as ih =>
    rw [fold_cons]
    exact ih (fun s b hb => hstep s b (List.mem_cons_of_mem a hb))
      (hstep s a List.mem_cons_self hs)

/-- What one step reaches without a report, and every step keeps, a fold without a report
reaches. -/
theorem fold_reaches {step : σ → α → Reported σ} {P : σ → Prop} {as : List α} {a : α} (ha : a ∈ as)
    (hkeep : ∀ s b, P s → P (step s b).1) (hreach : ∀ s, (step s a).2 = [] → P (step s a).1)
    {s : σ} (hsilent : (fold step s as).2 = []) : P (fold step s as).1 := by
  induction as generalizing s with
  | nil => cases ha
  | cons b as ih =>
    rw [fold_cons] at hsilent ⊢
    obtain ⟨hb, hrest⟩ := List.append_eq_nil_iff.mp hsilent
    rcases List.mem_cons.mp ha with rfl | ha
    · exact fold_induction (fun s b _ => hkeep s b) (hreach s hb)
    · exact ih ha hrest

/-- States that look alike to every step look alike to a fold. -/
theorem fold_congr {step : σ → α → Reported σ} (view : σ → β)
    (hstep : ∀ s t a, view s = view t →
      view (step s a).1 = view (step t a).1 ∧ (step s a).2 = (step t a).2)
    {s t : σ} (hview : view s = view t) (as : List α) :
    view (fold step s as).1 = view (fold step t as).1 ∧
      (fold step s as).2 = (fold step t as).2 := by
  induction as generalizing s t with
  | nil => exact ⟨hview, rfl⟩
  | cons a as ih =>
    obtain ⟨hnext, hproblems⟩ := hstep s t a hview
    obtain ⟨hstate, hrest⟩ := ih hnext
    rw [fold_cons, fold_cons, hproblems, hrest]
    exact ⟨hstate, rfl⟩

/-- Steps that read and write what a state holds under the key of their element: what it holds under
other keys stays, and what it holds there decides what it holds afterwards, and the diagnostics. -/
structure Keyed (step : σ → α → Reported σ) (key : α → κ) (view : κ → σ → β) : Prop where
  frame : ∀ s a k, key a ≠ k → view k (step s a).1 = view k s
  congr : ∀ s t a, view (key a) s = view (key a) t →
    view (key a) (step s a).1 = view (key a) (step t a).1 ∧ (step s a).2 = (step t a).2

namespace Keyed

variable {step : σ → α → Reported σ} {key : α → κ} {view : κ → σ → β} (h : Keyed step key view)
include h

/-- **Under a key, a fold is the fold of the steps of that key.** -/
theorem view_fold_filter {k : κ} {s t : σ} (hview : view k s = view k t) (as : List α) :
    view k (fold step s as).1 = view k (fold step t (as.filter (key · = k))).1 ∧
      (trace step s as).filter (key ·.1 = k) = trace step t (as.filter (key · = k)) := by
  induction as generalizing s t with
  | nil => exact ⟨hview, rfl⟩
  | cons a as ih =>
    rw [fold_cons, trace]
    by_cases ha : key a = k
    · subst ha
      obtain ⟨hnext, hproblems⟩ := h.congr s t a hview
      obtain ⟨hstate, htrace⟩ := ih hnext
      rw [List.filter_cons_of_pos (by simp), List.filter_cons_of_pos (by simp), fold_cons, trace,
        hproblems, htrace]
      exact ⟨hstate, rfl⟩
    · have hkept : view k (step s a).1 = view k t := (h.frame s a k ha).trans hview
      rw [List.filter_cons_of_neg (by simp [ha]), List.filter_cons_of_neg (by simp [ha])]
      exact ih hkept

/-- **Steps may be reordered**, as long as those of one key keep their order. -/
theorem fold_reordered {s t : σ} (hview : ∀ k, view k s = view k t) {as bs : List α}
    (hsame : ∀ k, as.filter (key · = k) = bs.filter (key · = k)) :
    (∀ k, view k (fold step s as).1 = view k (fold step t bs).1) ∧
      (fold step s as).2.Perm (fold step t bs).2 := by
  constructor
  · intro k
    rw [(h.view_fold_filter (hview k) as).1, (h.view_fold_filter rfl bs).1, hsame k]
  · have htrace : (trace step s as).Perm (trace step t bs) := by
      refine perm_of_filter_eq (fun p => key p.1) fun k => ?_
      rw [(h.view_fold_filter (hview k) as).2, (h.view_fold_filter rfl bs).2, hsame k]
    rw [fold_snd_eq_trace, fold_snd_eq_trace]
    exact htrace.flatMap_right Prod.snd

end Keyed

end Reported

/-! ## Definitions with a settled answer to what may be repeated -/

/-- The element that a definition is about. -/
def Definition.coordinate : Definition → Coordinate
  | .schema _ => .schema
  | .type d => .type d.name
  | .directive d => .directive d.name

namespace Schema

/-- What a schema holds about an element. -/
def restrict : Coordinate → Schema → Schema
  | .schema, s => { s with types := [], directiveDefinitions := [] }
  | .type name, s => { types := (s.type? name).toList }
  | .directive name, s => { directiveDefinitions := (s.directiveDefinition? name).toList }
  | .member .., _ => {}

/-- Applies a schema definition, where it is settled which directives may be repeated. -/
def addSchemaDefinitionBy (isRepeatable : String → Bool) (s : Schema) (d : SchemaDefinition) :
    Reported Schema :=
  let (s, rootProblems) := Reported.fold (addRoot d.location) s d.rootOperations
  ({ s with directives := Directive.merge isRepeatable s.directives d.directives },
   rootProblems ++ Directive.conflictDiagnostics isRepeatable s.directives d.directives .schema)

/-- Applies the base definition of a type, where it is settled which directives may be repeated. -/
def addTypeDefinitionBy (isRepeatable : String → Bool) (s : Schema) (d : TypeDefinition) :
    Reported Schema :=
  if (s.type? d.name).isSome then
    (s, [{ cause := .repeatedType, coordinate := .type d.name, location := some d.location }])
  else
    let (type, problems) := d.shell.absorb isRepeatable d
    ({ s with types := s.types ++ [type] }, problems)

/-- Applies the extension of a type, where it is settled which directives may be repeated. -/
def addTypeExtensionBy (isRepeatable : String → Bool) (s : Schema) (e : TypeDefinition) :
    Reported Schema :=
  match s.type? e.name with
  | none =>
    let (type, problems) := (typeForExtension e).absorb isRepeatable e
    ({ s with types := s.types ++ [type] }, problems)
  | some target =>
    if target.kind ≠ e.kind then
      (s, [{ cause := .extensionKind e.kind target.kind, coordinate := .type e.name,
             location := some e.location }])
    else
      let (type, problems) := target.absorb isRepeatable e
      ({ s with types := s.types.map fun t => if t.name = e.name then type else t }, problems)

/-- Applies a definition, where it is settled which directives may be repeated. -/
def addDefinitionBy (isRepeatable : String → Bool) (s : Schema) : Definition → Reported Schema
  | .directive d => s.addDirectiveDefinition d
  | .schema d => s.addSchemaDefinitionBy isRepeatable d
  | .type d => if d.isExtension then (s, []) else s.addTypeDefinitionBy isRepeatable d

theorem addTypeExtension_eq (s : Schema) :
    s.addTypeExtension = s.addTypeExtensionBy s.isRepeatable := rfl

/-- Root operations leave everything but the roots as it is. -/
theorem exists_fold_addRoot (location : Location) (s : Schema) (rs : List RootOperation) :
    ∃ roots, (Reported.fold (addRoot location) s rs).1 = { s with roots } := by
  refine Reported.fold_induction (P := fun t => ∃ roots, t = { s with roots }) ?_ ⟨s.roots, rfl⟩
  rintro t r - ⟨roots, rfl⟩
  rw [addRoot]
  split
  · exact ⟨_, rfl⟩
  · split <;> exact ⟨roots, rfl⟩

/-- Root operations read nothing but the roots. -/
theorem fold_addRoot_congr {s t : Schema} (h : s.roots = t.roots) (location : Location)
    (rs : List RootOperation) :
    (Reported.fold (addRoot location) s rs).1.roots =
        (Reported.fold (addRoot location) t rs).1.roots ∧
      (Reported.fold (addRoot location) s rs).2 = (Reported.fold (addRoot location) t rs).2 := by
  refine Reported.fold_congr Schema.roots (fun a b r hab => ?_) h rs
  rw [addRoot, addRoot, rootName?, rootName?, hab]
  split
  · exact ⟨rfl, rfl⟩
  · split <;> exact ⟨hab, rfl⟩

theorem addDefinition_eq (s : Schema) : s.addDefinition = s.addDefinitionBy s.isRepeatable := by
  funext x
  cases x with
  | directive d => rfl
  | type d => rfl
  | schema d =>
    -- the roots that are added first say nothing about directives
    obtain ⟨roots, hroots⟩ := exists_fold_addRoot d.location s d.rootOperations
    have hrepeatable : (Reported.fold (addRoot d.location) s d.rootOperations).1.isRepeatable =
        s.isRepeatable := by
      rw [hroots]
      rfl
    simp only [addDefinition, addSchemaDefinition, addDefinitionBy, addSchemaDefinitionBy,
      hrepeatable]

/-! ### What is looked up -/

theorem directiveDefinition?_append (s : Schema) (d : DirectiveDefinition) (name : String) :
    ({ s with directiveDefinitions := s.directiveDefinitions ++ [d] } : Schema).directiveDefinition?
        name =
      ((s.directiveDefinition? name).or (if d.name = name then some d else none)) := by
  rw [directiveDefinition?, List.find?_append, List.find?_singleton]
  by_cases h : d.name = name <;> simp [h, directiveDefinition?]

theorem type?_append (s : Schema) (t : TypeDefinition) (name : String) :
    ({ s with types := s.types ++ [t] } : Schema).type? name =
      ((s.type? name).or (if t.name = name then some t else none)) := by
  rw [type?, List.find?_append, List.find?_singleton]
  by_cases h : t.name = name <;> simp [h, type?]

/-- A type takes the place of the one with its name. -/
theorem type?_replace (s : Schema) (t : TypeDefinition) (name : String) :
    ({ s with types := s.types.map fun x => if x.name = t.name then t else x } : Schema).type?
        name =
      if t.name = name then (s.type? name).map fun _ => t else s.type? name := by
  rw [type?, List.find?_map]
  have hname : ((fun x : TypeDefinition => x.name == name) ∘
      fun x => if x.name = t.name then t else x) = fun x => x.name == name := by
    funext x
    by_cases hx : x.name = t.name <;> simp [hx]
  rw [hname]
  cases hfind : s.types.find? (·.name == name) with
  | none => by_cases h : t.name = name <;> simp [h, type?, hfind]
  | some x =>
    have hx : x.name = name := by
      have hfound := List.find?_some hfind
      exact beq_iff_eq.mp hfound
    by_cases h : t.name = name
    · simp [h, type?, hfind, hx]
    · have hne : x.name ≠ t.name := fun heq => h (heq.symm.trans hx)
      simp [h, type?, hfind, hne]

/-- What is held about a type is the type that is found, and so for directives. -/
theorem restrict_type_iff {s t : Schema} {name : String} :
    restrict (.type name) s = restrict (.type name) t ↔ s.type? name = t.type? name := by
  constructor
  · intro h
    have hhead := congrArg (fun r : Schema => r.types.head?) h
    simpa [restrict] using hhead
  · intro h
    rw [restrict, restrict, h]

theorem restrict_directive_iff {s t : Schema} {name : String} :
    restrict (.directive name) s = restrict (.directive name) t ↔
      s.directiveDefinition? name = t.directiveDefinition? name := by
  constructor
  · intro h
    have hhead := congrArg (fun r : Schema => r.directiveDefinitions.head?) h
    simpa [restrict] using hhead
  · intro h
    rw [restrict, restrict, h]

theorem restrict_schema_iff {s t : Schema} :
    restrict .schema s = restrict .schema t ↔
      s.roots = t.roots ∧ s.directives = t.directives ∧ s.ownership = t.ownership := by
  simp [restrict]

/-! ### One step -/

/-- A step that changes types only, under one name, leaves the rest as it is. -/
theorem restrict_of_types {s : Schema} {types : List TypeDefinition} {name : String}
    (h : ∀ n, n ≠ name → ({ s with types } : Schema).type? n = s.type? n) {c : Coordinate}
    (hc : Coordinate.type name ≠ c) : restrict c { s with types } = restrict c s := by
  cases c with
  | schema => rfl
  | directive n => rfl
  | member n m => rfl
  | type n =>
    have hn : n ≠ name := fun heq => hc (congrArg Coordinate.type heq.symm)
    exact restrict_type_iff.mpr (h n hn)

variable (isRepeatable : String → Bool)

theorem name_absorb (target source : TypeDefinition) :
    (target.absorb isRepeatable source).1.name = target.name := rfl

theorem keyed_addDirectiveDefinition :
    Reported.Keyed addDirectiveDefinition (fun d => Coordinate.directive d.name) restrict where
  frame s d c hc := by
    rw [addDirectiveDefinition]
    split
    · rfl
    · cases c with
      | schema => rfl
      | type n => rfl
      | member n m => rfl
      | directive n =>
        have hn : d.name ≠ n := fun heq => hc (congrArg Coordinate.directive heq)
        rw [restrict_directive_iff, directiveDefinition?_append, if_neg hn, Option.or_none]
  congr s t d h := by
    have hfound := restrict_directive_iff.mp h
    simp only [addDirectiveDefinition, hfound]
    split
    · exact ⟨h, rfl⟩
    · refine ⟨restrict_directive_iff.mpr ?_, rfl⟩
      rw [directiveDefinition?_append, directiveDefinition?_append, hfound]

theorem keyed_addSchemaDefinitionBy :
    Reported.Keyed (addSchemaDefinitionBy isRepeatable) (fun _ => Coordinate.schema) restrict where
  frame s d c hc := by
    obtain ⟨roots, hroots⟩ := exists_fold_addRoot d.location s d.rootOperations
    rw [addSchemaDefinitionBy]
    simp only [hroots]
    cases c with
    | schema => exact absurd rfl hc
    | type n => rfl
    | directive n => rfl
    | member n m => rfl
  congr s t d h := by
    obtain ⟨hroots, hdirectives, hownership⟩ := restrict_schema_iff.mp h
    obtain ⟨hroots, hproblems⟩ := fold_addRoot_congr hroots d.location d.rootOperations
    obtain ⟨r, hr⟩ := exists_fold_addRoot d.location s d.rootOperations
    obtain ⟨r', hr'⟩ := exists_fold_addRoot d.location t d.rootOperations
    rw [hr, hr'] at hroots
    have hsame : r = r' := hroots
    rw [addSchemaDefinitionBy, addSchemaDefinitionBy]
    simp only [hr, hr', hproblems, hdirectives, hsame]
    exact ⟨restrict_schema_iff.mpr ⟨rfl, rfl, hownership⟩, trivial⟩

theorem keyed_addTypeDefinitionBy :
    Reported.Keyed (addTypeDefinitionBy isRepeatable) (fun d => Coordinate.type d.name)
      restrict where
  frame s d c hc := by
    rw [addTypeDefinitionBy]
    split
    · rfl
    · refine restrict_of_types (fun n hn => ?_) hc
      have hname : (d.shell.absorb isRepeatable d).1.name ≠ n := fun heq => hn heq.symm
      rw [type?_append, if_neg hname, Option.or_none]
  congr s t d h := by
    have hfound := restrict_type_iff.mp h
    simp only [addTypeDefinitionBy, hfound]
    split
    · exact ⟨h, rfl⟩
    · refine ⟨restrict_type_iff.mpr ?_, rfl⟩
      rw [type?_append, type?_append, hfound]

/-- **A definition is applied to what the schema holds about its element.** -/
theorem keyed_addDefinitionBy :
    Reported.Keyed (addDefinitionBy isRepeatable) Definition.coordinate restrict where
  frame s x c hc := by
    cases x with
    | directive d => exact keyed_addDirectiveDefinition.frame s d c hc
    | schema d => exact (keyed_addSchemaDefinitionBy isRepeatable).frame s d c hc
    | type d =>
      rw [addDefinitionBy]
      split
      · rfl
      · exact (keyed_addTypeDefinitionBy isRepeatable).frame s d c hc
  congr s t x h := by
    cases x with
    | directive d => exact keyed_addDirectiveDefinition.congr s t d h
    | schema d => exact (keyed_addSchemaDefinitionBy isRepeatable).congr s t d h
    | type d =>
      rw [addDefinitionBy, addDefinitionBy]
      split
      · exact ⟨h, rfl⟩
      · exact (keyed_addTypeDefinitionBy isRepeatable).congr s t d h

/-- **An extension is applied to the type that it extends.** -/
theorem keyed_addTypeExtensionBy :
    Reported.Keyed (addTypeExtensionBy isRepeatable) (fun e => Coordinate.type e.name)
      restrict where
  frame s e c hc := by
    rw [addTypeExtensionBy]
    split
    · refine restrict_of_types (fun n hn => ?_) hc
      have hname : ((typeForExtension e).absorb isRepeatable e).1.name ≠ n := fun heq => hn heq.symm
      rw [type?_append, if_neg hname, Option.or_none]
    · rename_i target htarget
      split
      · rfl
      · refine restrict_of_types (fun n hn => ?_) hc
        obtain ⟨-, hname⟩ := mem_of_type? htarget
        have hreplaced := type?_replace s (target.absorb isRepeatable e).1 n
        rw [name_absorb isRepeatable, hname, if_neg (fun heq => hn heq.symm)] at hreplaced
        exact hreplaced
  congr s t e h := by
    have hfound := restrict_type_iff.mp h
    simp only [addTypeExtensionBy, hfound]
    split
    · refine ⟨restrict_type_iff.mpr ?_, rfl⟩
      rw [type?_append, type?_append, hfound]
    · rename_i target htarget
      split
      · exact ⟨h, rfl⟩
      · refine ⟨restrict_type_iff.mpr ?_, rfl⟩
        obtain ⟨-, hname⟩ := mem_of_type? htarget
        have hreplaced := fun s => type?_replace s (target.absorb isRepeatable e).1 e.name
        rw [name_absorb isRepeatable, hname] at hreplaced
        rw [hreplaced, hreplaced, hfound]

end Schema

end Federation
