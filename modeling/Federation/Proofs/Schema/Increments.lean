import Federation.Proofs.Schema.DefinitionOrder
import Federation.Proofs.Schema.Extending
/-!
# Schema — one document after another

A schema that is extended by one document and then by another is extended
by both at once (`extend_append`). At once, the definitions of the second
document come before the extensions of the first. An extension of a type
and a definition after it are about different elements, so they may change
places (`addInTurn_comm`), and step by step all extensions move past all
definitions (`fold_append_comm`). On the way a directive may turn out to be
repeatable that nobody had defined, which does not matter where nothing was
reported; a built-in directive must not be defined anew.
-/

namespace Federation

namespace Schema

/-- What a schema holds about each element. -/
def elements (s : Schema) (c : Coordinate) : Schema :=
  restrict c s

theorem elements_eq_iff {s t : Schema} :
    s.elements = t.elements ↔ ∀ c, restrict c s = restrict c t :=
  funext_iff

/-! ## One step, where it is settled what may be repeated -/

/-- Applies a definition or an extension of a type when it is its turn, where it is settled which
directives may be repeated. -/
def addInTurnBy (isRepeatable : String → Bool) (s : Schema) (x : Definition) : Reported Schema :=
  match x with
  | .type d =>
    if d.isExtension then s.addTypeExtensionBy isRepeatable d
    else s.addTypeDefinitionBy isRepeatable d
  | .schema _ | .directive _ => s.addDefinitionBy isRepeatable x

theorem addInTurn_eq (s : Schema) : s.addInTurn = s.addInTurnBy s.isRepeatable := by
  funext x
  cases x with
  | type d => rfl
  | directive d => rfl
  | schema d => exact congrFun s.addDefinition_eq (.schema d)

/-- **A definition or an extension is applied to what the schema holds about its element.** -/
theorem keyed_addInTurnBy (isRepeatable : String → Bool) :
    Reported.Keyed (addInTurnBy isRepeatable) Definition.coordinate restrict where
  frame s x c hc := by
    cases x with
    | directive d => exact (keyed_addDefinitionBy isRepeatable).frame s (.directive d) c hc
    | schema d => exact (keyed_addDefinitionBy isRepeatable).frame s (.schema d) c hc
    | type d =>
      rw [addInTurnBy]
      split
      · exact (keyed_addTypeExtensionBy isRepeatable).frame s d c hc
      · exact (keyed_addTypeDefinitionBy isRepeatable).frame s d c hc
  congr s t x h := by
    cases x with
    | directive d => exact (keyed_addDefinitionBy isRepeatable).congr s t (.directive d) h
    | schema d => exact (keyed_addDefinitionBy isRepeatable).congr s t (.schema d) h
    | type d =>
      rw [addInTurnBy, addInTurnBy]
      split
      · exact (keyed_addTypeExtensionBy isRepeatable).congr s t d h
      · exact (keyed_addTypeDefinitionBy isRepeatable).congr s t d h

/-! ## What may be repeated -/

/-- What may be repeated is read off the directive definitions. -/
theorem isRepeatable_congr {s t : Schema}
    (h : ∀ name, restrict (.directive name) s = restrict (.directive name) t) :
    s.isRepeatable = t.isRepeatable := by
  funext name
  rw [isRepeatable, isRepeatable, restrict_directive_iff.mp (h name)]

/-- A definition that is not about directives does not tell what may be repeated. -/
theorem isRepeatable_addInTurn {s : Schema} {x : Definition}
    (h : ∀ name, x.coordinate ≠ .directive name) :
    (s.addInTurn x).1.isRepeatable = s.isRepeatable := by
  rw [addInTurn_eq]
  exact isRepeatable_congr fun name => (keyed_addInTurnBy _).frame s x _ (h name)

/-- What may be repeated stays so, unless a built-in directive is defined anew. -/
theorem isRepeatable_addInTurn_of_isRepeatable {s : Schema} {x : Definition}
    (hnew : ∀ d, x = .directive d → DirectiveDefinition.builtIn? d.name = none) {name : String}
    (h : s.isRepeatable name = true) : (s.addInTurn x).1.isRepeatable name = true := by
  cases x with
  | schema d => rwa [isRepeatable_addInTurn fun _ => by simp [Definition.coordinate]]
  | type d => rwa [isRepeatable_addInTurn fun _ => by simp [Definition.coordinate]]
  | directive d =>
    rw [addInTurn, addDirectiveDefinition]
    split
    · exact h
    · rename_i hnone
      rw [Bool.not_eq_true, Option.isSome_eq_false_iff, Option.isNone_iff_eq_none] at hnone
      -- nothing said before that the new directive may be repeated
      have hne : d.name ≠ name := by
        rintro rfl
        rw [isRepeatable, hnone, hnew d rfl] at h
        cases h
      rw [isRepeatable, directiveDefinition?_append, if_neg hne, Option.or_none]
      exact h

/-- **An extension that is applied without a report** is applied alike where more directives may be
repeated. -/
theorem addTypeExtensionBy_of_le {isRepeatable allowed : String → Bool}
    (hle : ∀ name, isRepeatable name = true → allowed name = true) {s : Schema}
    {e : TypeDefinition} (h : (s.addTypeExtensionBy isRepeatable e).2 = []) :
    s.addTypeExtensionBy allowed e = s.addTypeExtensionBy isRepeatable e := by
  have habsorb : ∀ target : TypeDefinition, (target.absorb isRepeatable e).2 = [] →
      target.absorb allowed e = target.absorb isRepeatable e := by
    intro target hsilent
    rw [TypeDefinition.absorb] at hsilent
    obtain ⟨hconflicts, -⟩ := List.append_eq_nil_iff.mp hsilent
    rw [Directive.conflictDiagnostics, List.map_eq_nil_iff] at hconflicts
    obtain ⟨hmerge, hnone⟩ := Directive.merge_of_le hle hconflicts
    rw [TypeDefinition.absorb, TypeDefinition.absorb, hmerge, Directive.conflictDiagnostics,
      Directive.conflictDiagnostics, hnone, hconflicts]
  rw [addTypeExtensionBy] at h ⊢
  rw [addTypeExtensionBy]
  cases hfind : s.type? e.name with
  | none =>
    rw [hfind] at h
    simp only [habsorb _ h]
  | some target =>
    rw [hfind] at h
    dsimp only at h ⊢
    split
    · rfl
    · rename_i hkind
      rw [if_neg hkind] at h
      simp only [habsorb target h]

/-! ## Changing places -/

/-- After an extension there is a type that goes by its name. -/
theorem isSome_type?_addTypeExtension (s : Schema) (e : TypeDefinition) :
    ((s.addTypeExtension e).1.type? e.name).isSome = true := by
  rw [addTypeExtension]
  split
  · have hname : ((typeForExtension e).absorb s.isRepeatable e).1.name = e.name := rfl
    rw [type?_append, if_pos hname, Option.isSome_or, Option.isSome_some, Bool.or_true]
  · rename_i target htarget
    split
    · rw [htarget]
      rfl
    · have hname : (target.absorb s.isRepeatable e).1.name = e.name := (mem_of_type? htarget).2
      have hreplaced := type?_replace s (target.absorb s.isRepeatable e).1 e.name
      rw [hname, if_pos rfl, htarget] at hreplaced
      exact Option.isSome_iff_exists.mpr ⟨_, hreplaced⟩

/-- A definition that follows an extension without a report is about another element. -/
theorem coordinate_ne_of_silent {s : Schema} {e x : Definition} (he : e.isTypeExtension = true)
    (hx : x.isTypeExtension = false) (h : ((s.addInTurn e).1.addInTurn x).2 = []) :
    e.coordinate ≠ x.coordinate := by
  cases e with
  | schema d => cases he
  | directive d => cases he
  | type e =>
    cases x with
    | schema d => exact Coordinate.noConfusion
    | directive d => exact Coordinate.noConfusion
    | type d =>
      have hext : e.isExtension = true := he
      have hbase : d.isExtension = false := hx
      intro heq
      have hname : e.name = d.name := Coordinate.type.inj heq
      have hthere := isSome_type?_addTypeExtension s e
      simp only [addInTurn, hext, hbase, if_true, Bool.false_eq_true, if_false] at h
      rw [addTypeDefinition, ← hname, if_pos hthere] at h
      cases h

/-- **An extension and a definition after it may change places.** -/
theorem addInTurn_comm {s : Schema} {e x : Definition} (he : e.isTypeExtension = true)
    (hx : x.isTypeExtension = false)
    (hnew : ∀ d, x = .directive d → DirectiveDefinition.builtIn? d.name = none)
    (hsilent : (s.addInTurn e).2 = []) (hthen : ((s.addInTurn e).1.addInTurn x).2 = []) :
    (s.addInTurn x).2 = [] ∧ ((s.addInTurn x).1.addInTurn e).2 = [] ∧
      ((s.addInTurn x).1.addInTurn e).1.elements =
        ((s.addInTurn e).1.addInTurn x).1.elements := by
  obtain ⟨e, rfl⟩ : ∃ d, e = .type d := by
    cases e with
    | type d => exact ⟨d, rfl⟩
    | schema | directive => cases he
  have hext : e.isExtension = true := he
  have hne := coordinate_ne_of_silent he hx hthen
  have hkeyed := keyed_addInTurnBy s.isRepeatable
  -- the extension tells nothing about directives
  have hrepeatable : (s.addInTurn (.type e)).1.isRepeatable = s.isRepeatable :=
    isRepeatable_addInTurn fun _ => by simp [Definition.coordinate]
  rw [addInTurn_eq (s.addInTurn (.type e)).1, hrepeatable] at hthen ⊢
  rw [addInTurn_eq s] at hsilent hthen ⊢
  -- the definition meets what it met after the extension
  obtain ⟨hstate, hproblems⟩ := hkeyed.congr _ s x (hkeyed.frame s (.type e) _ hne)
  rw [hthen] at hproblems
  -- the extension meets what it met before the definition, and more may be repeated
  obtain ⟨hstate', hproblems'⟩ := hkeyed.congr _ s (.type e) (hkeyed.frame s x _ hne.symm)
  rw [hsilent] at hproblems'
  have hmore : ∀ name, s.isRepeatable name = true →
      (s.addInTurnBy s.isRepeatable x).1.isRepeatable name = true := by
    rw [← addInTurn_eq]
    exact fun _ => isRepeatable_addInTurn_of_isRepeatable hnew
  have hlater : (s.addInTurnBy s.isRepeatable x).1.addInTurn (.type e) =
      (s.addInTurnBy s.isRepeatable x).1.addInTurnBy s.isRepeatable (.type e) := by
    rw [addInTurn_eq]
    simp only [addInTurnBy, hext, if_true] at hproblems' ⊢
    exact addTypeExtensionBy_of_le hmore hproblems'
  rw [hlater]
  refine ⟨hproblems.symm, hproblems', elements_eq_iff.mpr fun c => ?_⟩
  by_cases hc : (Definition.type e).coordinate = c
  · subst hc
    rw [hstate', hkeyed.frame _ x _ hne.symm]
  · rw [hkeyed.frame _ (.type e) c hc]
    by_cases hcx : x.coordinate = c
    · subst hcx
      exact hstate.symm
    · rw [hkeyed.frame s x c hcx, hkeyed.frame _ x c hcx, hkeyed.frame s (.type e) c hc]

/-- Schemas that hold the same are extended alike. -/
theorem addInTurn_congr {s t : Schema} (x : Definition) (h : s.elements = t.elements) :
    (s.addInTurn x).1.elements = (t.addInTurn x).1.elements ∧
      (s.addInTurn x).2 = (t.addInTurn x).2 := by
  have hsame := elements_eq_iff.mp h
  have hrepeatable : s.isRepeatable = t.isRepeatable := isRepeatable_congr fun _ => hsame _
  have hkeyed := keyed_addInTurnBy t.isRepeatable
  rw [addInTurn_eq s, addInTurn_eq t, hrepeatable]
  obtain ⟨hstate, hproblems⟩ := hkeyed.congr s t x (hsame _)
  refine ⟨elements_eq_iff.mpr fun c => ?_, hproblems⟩
  by_cases hc : x.coordinate = c
  · exact hc ▸ hstate
  · rw [hkeyed.frame s x c hc, hkeyed.frame t x c hc, hsame c]

theorem fold_addInTurn_congr {s t : Schema} (xs : List Definition) (h : s.elements = t.elements) :
    (Reported.fold addInTurn s xs).1.elements = (Reported.fold addInTurn t xs).1.elements ∧
      (Reported.fold addInTurn s xs).2 = (Reported.fold addInTurn t xs).2 :=
  Reported.fold_congr elements (fun _ _ x => addInTurn_congr x) h xs

/-! ## Moving past -/

section

variable {xs : List Definition} (hxs : ∀ x ∈ xs, x.isTypeExtension = false)
variable (hnew : ∀ d, .directive d ∈ xs → DirectiveDefinition.builtIn? d.name = none)
include hxs hnew

/-- One extension moves past definitions. -/
theorem fold_concat_comm {s : Schema} {e : Definition} (he : e.isTypeExtension = true)
    (h : (Reported.fold addInTurn s (e :: xs)).2 = []) :
    (Reported.fold addInTurn s (xs ++ [e])).2 = [] ∧
      (Reported.fold addInTurn s (xs ++ [e])).1.elements =
        (Reported.fold addInTurn s (e :: xs)).1.elements := by
  induction xs generalizing s with
  | nil => exact ⟨h, rfl⟩
  | cons x xs ih =>
    rw [Reported.fold_cons, Reported.fold_cons] at h
    obtain ⟨hsilent, hthen, hrest⟩ : _ ∧ _ ∧ _ := by simpa only [List.append_eq_nil_iff] using h
    obtain ⟨hx, hxe, hstate⟩ := addInTurn_comm he (hxs x List.mem_cons_self)
      (fun d hd => hnew d (hd ▸ List.mem_cons_self)) hsilent hthen
    -- the rest meets the same schema in either order
    obtain ⟨hfold, hproblems⟩ := fold_addInTurn_congr xs hstate
    have hmoved : (Reported.fold addInTurn (s.addInTurn x).1 (e :: xs)).2 = [] := by
      rw [Reported.fold_cons, hxe, hproblems, hrest]
      rfl
    obtain ⟨hlast, hlastState⟩ := ih (fun y hy => hxs y (List.mem_cons_of_mem x hy))
      (fun d hd => hnew d (List.mem_cons_of_mem x hd)) hmoved
    rw [List.cons_append, Reported.fold_cons, hx, hlast]
    refine ⟨rfl, hlastState.trans ?_⟩
    rw [Reported.fold_cons, Reported.fold_cons, Reported.fold_cons]
    exact hfold

/-- **Extensions move past definitions.** -/
theorem fold_append_comm {s : Schema} {es : List Definition}
    (hes : ∀ e ∈ es, e.isTypeExtension = true)
    (h : (Reported.fold addInTurn s (es ++ xs)).2 = []) :
    (Reported.fold addInTurn s (xs ++ es)).2 = [] ∧
      (Reported.fold addInTurn s (xs ++ es)).1.elements =
        (Reported.fold addInTurn s (es ++ xs)).1.elements := by
  induction es generalizing s with
  | nil =>
    rw [List.append_nil]
    exact ⟨h, rfl⟩
  | cons e es ih =>
    rw [List.cons_append, Reported.fold_cons] at h ⊢
    obtain ⟨hsilent, hrest⟩ := List.append_eq_nil_iff.mp h
    obtain ⟨hmoved, hstate⟩ := ih (fun y hy => hes y (List.mem_cons_of_mem e hy)) hrest
    -- the others have moved; now the first one does
    rw [Reported.fold_append, List.append_eq_nil_iff] at hmoved
    have hfirst : (Reported.fold addInTurn s (e :: xs)).2 = [] := by
      rw [Reported.fold_cons, hsilent, hmoved.1]
      rfl
    obtain ⟨hlast, hlastState⟩ := fold_concat_comm hxs hnew (hes e List.mem_cons_self) hfirst
    obtain ⟨hfold, hproblems⟩ := fold_addInTurn_congr es hlastState
    rw [Reported.fold_cons] at hfold hproblems
    rw [List.append_cons, Reported.fold_append, hlast, hproblems, hmoved.2]
    refine ⟨rfl, hfold.trans (Eq.trans ?_ hstate)⟩
    rw [Reported.fold_append]

end

/-! ## Two documents -/

/-- **Two documents in turn**, one after the other, are applied as both of them in turn: where nothing
is reported, the same is held about every element. -/
theorem fold_inTurn_append {s : Schema} {d₁ d₂ : Document}
    (hnew : ∀ e ∈ d₂.directiveDefinitions, DirectiveDefinition.builtIn? e.name = none)
    (h : (Reported.fold addInTurn s (d₁.inTurn.definitions ++ d₂.inTurn.definitions)).2 = []) :
    let both := (Document.mk (d₁.definitions ++ d₂.definitions)).inTurn.definitions
    (Reported.fold addInTurn s both).2 = [] ∧
      (Reported.fold addInTurn s both).1.elements =
        (Reported.fold addInTurn s (d₁.inTurn.definitions ++ d₂.inTurn.definitions)).1.elements := by
  intro both
  have hboth : both = d₁.definitions.filter (!·.isTypeExtension) ++
      (d₂.definitions.filter (!·.isTypeExtension) ++
        d₁.definitions.filter (·.isTypeExtension)) ++
      d₂.definitions.filter (·.isTypeExtension) := by
    simp only [both, Document.inTurn, List.filter_append, List.append_assoc]
  have hturns : d₁.inTurn.definitions ++ d₂.inTurn.definitions =
      d₁.definitions.filter (!·.isTypeExtension) ++
      (d₁.definitions.filter (·.isTypeExtension) ++
        d₂.definitions.filter (!·.isTypeExtension)) ++
      d₂.definitions.filter (·.isTypeExtension) := by
    simp only [Document.inTurn, List.append_assoc]
  rw [hturns, Reported.fold_append, Reported.fold_append] at h ⊢
  rw [hboth, Reported.fold_append, Reported.fold_append s]
  obtain ⟨hfirst, hlast⟩ := List.append_eq_nil_iff.mp h
  obtain ⟨hbase, hmiddle⟩ := List.append_eq_nil_iff.mp hfirst
  -- the extensions of the first document move past the definitions of the second
  obtain ⟨hmoved, hstate⟩ := fold_append_comm
    (fun x hx => by simpa using (List.mem_filter.mp hx).2)
    (fun e he => hnew e (Document.mem_directiveDefinitions.mpr (List.mem_filter.mp he).1))
    (fun e he => (List.mem_filter.mp he).2) hmiddle
  obtain ⟨hrest, hproblems⟩ :=
    fold_addInTurn_congr (d₂.definitions.filter (·.isTypeExtension)) hstate
  refine ⟨?_, hrest⟩
  rw [hbase, hmoved, hproblems, hlast]
  rfl

/-- The names in a schema that extensions reach are distinct. -/
theorem Reachable.hasDistinctNames {s : Schema} (h : s.Reachable) : s.HasDistinctNames :=
  ⟨h.combines.nodup_typeNames, h.combines.directiveNames⟩

/-- **To extend a schema by one document and then by another is to extend it by both at once**, as
long as the second one defines no built-in directive anew: where the two extensions succeed, the one
does, and gives the same types, directive definitions and roots. -/
theorem extend_append {s s₁ s₂ : Schema} {d₁ d₂ : Document} (h : s.Reachable)
    (hnew : ∀ e ∈ d₂.directiveDefinitions, DirectiveDefinition.builtIn? e.name = none)
    (h₁ : s.extend d₁ true = .ok s₁) (h₂ : s₁.extend d₂ true = .ok s₂) :
    ∃ s', s.extend ⟨d₁.definitions ++ d₂.definitions⟩ true = .ok s' ∧ s'.Matches s₂ := by
  have hreachable₂ : s₂.Reachable := .extend (.extend h h₁) h₂
  have hturns : Reported.fold addInTurn s (d₁.inTurn.definitions ++ d₂.inTurn.definitions) =
      (s₂, []) := by
    rw [Reported.fold_append, (extend_eq_ok_iff.mp h₁).2, (extend_eq_ok_iff.mp h₂).2]
    rfl
  obtain ⟨hsilent, hstate⟩ := fold_inTurn_append hnew (congrArg Prod.snd hturns)
  rw [hturns] at hstate
  have hs' : s.extend ⟨d₁.definitions ++ d₂.definitions⟩ true = .ok _ :=
    extend_eq_ok_iff.mpr
      ⟨fun hvalid => (Bool.true_eq_false.mp hvalid).elim, Prod.ext rfl hsilent⟩
  have hreachable' : Reachable _ := .extend h hs'
  exact ⟨_, hs', matches_of_restrict hreachable'.hasDistinctNames hreachable₂.hasDistinctNames
    (elements_eq_iff.mp hstate)⟩

/-- A type that is extended only, with an application of a directive that nobody has defined yet. -/
def taggedSize : Document :=
  ⟨[.type
      { name := "Size", isExtension := true
        directives := [{ name := "tagged", arguments := [⟨"as", .int 1⟩] }]
        body := .enum [{ name := "SMALL" }] }]⟩

/-- A document that applies the directive once more, and defines it as one that may be repeated, and
a type after that. -/
def taggedWing : Document :=
  ⟨[.type
      { name := "Size", isExtension := true
        directives := [{ name := "tagged", arguments := [⟨"as", .int 2⟩] }]
        body := .enum [{ name := "MEDIUM" }] },
    .directive tagDefinition,
    .type { name := "Wing", body := .object { fields := [{ name := "size", type := .named "Size" }] } }]⟩

/-- The types are the same in another order: at once, what is only extended comes last. -/
theorem taggedSize_append_taggedWing :
    ∃ s s₁ s₂ s', empty.extend shelves = .ok s ∧ s.extend taggedSize true = .ok s₁ ∧
      s₁.extend taggedWing true = .ok s₂ ∧
      s.extend ⟨taggedSize.definitions ++ taggedWing.definitions⟩ true = .ok s' ∧
      s'.Matches s₂ ∧
      s₂.types.map (fun t => (t.name, t.directives.length)) =
        [("Query", 0), ("Shelf", 0), ("Size", 2), ("Wing", 0)] ∧
      s'.types.map (fun t => (t.name, t.directives.length)) =
        [("Query", 0), ("Shelf", 0), ("Wing", 0), ("Size", 2)] := by
  obtain ⟨s, s₁, s₂, t, hs, h₁, h₂, ht, hinTurn, hatOnce⟩ : ∃ s s₁ s₂ t,
      empty.extend shelves = .ok s ∧ s.extend taggedSize true = .ok s₁ ∧
      s₁.extend taggedWing true = .ok s₂ ∧
      s.extend ⟨taggedSize.definitions ++ taggedWing.definitions⟩ true = .ok t ∧
      s₂.types.map (fun t => (t.name, t.directives.length)) =
        [("Query", 0), ("Shelf", 0), ("Size", 2), ("Wing", 0)] ∧
      t.types.map (fun t => (t.name, t.directives.length)) =
        [("Query", 0), ("Shelf", 0), ("Wing", 0), ("Size", 2)] :=
    ⟨_, _, _, _, by cbv, by cbv, by cbv, by cbv, rfl, rfl⟩
  have hnew : ∀ e ∈ taggedWing.directiveDefinitions,
      DirectiveDefinition.builtIn? e.name = none := by decide
  obtain ⟨s', hs', hmatches⟩ := extend_append (.extend .empty hs) hnew h₁ h₂
  obtain rfl : t = s' := Except.ok.inj (ht.symm.trans hs')
  exact ⟨s, s₁, s₂, t, hs, h₁, h₂, hs', hmatches, hinTurn, hatOnce⟩

end Schema

end Federation
