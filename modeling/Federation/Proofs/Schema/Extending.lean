import Federation.Proofs.Schema.Combining
import Mathlib.Data.List.Permutation
/-!
# Schema — extending

Every schema that extensions reach from the empty one combines itself
(`Reachable.combines`), so an extension that succeeds combines it with the
document in turn (`Reachable.extend`). That makes extensions conservative
and complete (`extend_extends`): what there was stays where it was, what is
new comes after it, and every type gathers its definitions in the schema
and in the document.
-/

namespace Federation

/-- Lists that agree under two maps are related, element by element, where elements that agree
are. -/
theorem forall₂_of_map_eq {α β γ : Type} {f : α → γ} {g : β → γ} {R : α → β → Prop} {as : List α}
    {bs : List β} (h : as.map f = bs.map g) (hR : ∀ a ∈ as, ∀ b ∈ bs, f a = g b → R a b) :
    List.Forall₂ R as bs := by
  induction as generalizing bs with
  | nil =>
    rw [List.map_nil, eq_comm, List.map_eq_nil_iff] at h
    exact h ▸ .nil
  | cons a as ih =>
    cases bs with
    | nil => cases h
    | cons b bs =>
      rw [List.map_cons, List.map_cons, List.cons.injEq] at h
      exact .cons (hR a List.mem_cons_self b List.mem_cons_self h.1)
        (ih h.2 fun x hx y hy => hR x (List.mem_cons_of_mem a hx) y (List.mem_cons_of_mem b hy))

namespace Schema

/-- The schemas that extensions reach from the empty one. -/
inductive Reachable : Schema → Prop
  | empty : Reachable empty
  | extend {s s' : Schema} {d : Document} {assumeValid : Bool} (h : Reachable s)
      (hs : s.extend d assumeValid = .ok s') : Reachable s'

/-- A schema is extended when nothing is wrong with the document, unless it is assumed to be valid,
and nothing in it clashes. -/
theorem extend_eq_ok_iff {s s' : Schema} {d : Document} {assumeValid : Bool} :
    s.extend d assumeValid = .ok s' ↔
      (assumeValid = false → s.documentProblems d = []) ∧
        Reported.fold addInTurn s d.inTurn.definitions = (s', []) := by
  rw [← applyDocument_eq_fold]
  have hproblems : (if assumeValid then [] else s.documentProblems d) = [] ↔
      (assumeValid = false → s.documentProblems d = []) := by
    cases assumeValid <;> simp
  simp only [extend]
  split
  · rename_i hnone
    obtain ⟨hvalid, hclashes⟩ := List.append_eq_nil_iff.mp hnone
    rw [Except.ok.injEq, Prod.ext_iff]
    exact ⟨fun h => ⟨hproblems.mp hvalid, h, hclashes⟩, fun h => h.2.1⟩
  · rename_i hsome
    constructor
    · intro h
      cases h
    · rintro ⟨hvalid, happlied⟩
      refine (hsome ?_).elim
      rw [hproblems.mpr hvalid, happlied]
      rfl

theorem combines_empty : empty.Combines empty {} where
  typeNames := rfl
  baseNames := List.nodup_nil
  types := fun x hx => by cases hx
  directiveDefinitions := rfl
  directiveNames := List.nodup_nil
  roots := rfl
  rootsAgree := fun r hr => by cases hr
  directives := rfl

variable {s s' : Schema} {d : Document} {assumeValid : Bool}

namespace Reachable

/-- Where a schema combines itself, an extension that succeeds combines it with the document in
turn. -/
theorem combines_of_extend (h : s.Combines s {}) (hs : s.extend d assumeValid = .ok s') :
    s'.Combines s d.inTurn := by
  obtain ⟨-, hfold⟩ := extend_eq_ok_iff.mp hs
  have hsilent : (Reported.fold addInTurn s d.inTurn.definitions).2 = [] := by rw [hfold]
  have hcombines := h.fold hsilent
  rwa [hfold] at hcombines

/-- A reachable schema combines itself and nothing more. -/
theorem combines (h : s.Reachable) : s.Combines s {} := by
  induction h with
  | empty => exact combines_empty
  | extend _ hs ih => exact (combines_of_extend ih hs).self

/-- **An extension that succeeds combines the schema with the document in turn.** -/
theorem combines_extend (h : s.Reachable) (hs : s.extend d assumeValid = .ok s') :
    s'.Combines s d.inTurn :=
  combines_of_extend h.combines hs

end Reachable

/-! ## What an extension keeps and adds -/

/-- A schema extends another one by a document. -/
structure Extends (s' s : Schema) (d : Document) : Prop where
  /-- The types are those of the schema, in order, with what they had, and then new ones: the base
  definitions and then the types that are only extended. -/
  types : ∃ kept new, s'.types = kept ++ new ∧ List.Forall₂ TypeDefinition.Keeps kept s.types ∧
    new.map (·.name) = d.baseDefinitions.map (·.name) ++
      (distinct (d.typeExtensions.map (·.name))).filter
        fun n => n ∉ (s.types ++ d.baseDefinitions).map (·.name)
  /-- No two types share a name. -/
  typeNames : (s'.types.map (·.name)).Nodup
  /-- Every type gathers its definitions: the one in the schema, the base definition and the
  extensions. -/
  gathers : ∀ t ∈ s'.types,
    t.Gathers ((s.types ++ d.baseDefinitions ++ d.typeExtensions).filter (·.name == t.name))
  /-- The directive definitions are those of the schema and then those of the document. -/
  directiveDefinitions : s'.directiveDefinitions = s.directiveDefinitions ++ d.directiveDefinitions
  /-- No two directive definitions share a name. -/
  directiveNames : (s'.directiveDefinitions.map (·.name)).Nodup
  /-- The directives of the schema stay and are followed by new ones. -/
  directives : s.directives <+: s'.directives
  /-- They are the first occurrences of all that are applied on the schema. -/
  schemaApplications : s'.directives =
    firstsBy Directive.canonical (s.directives ++ d.schemaDefinitions.flatMap (·.directives))

theorem sources_inTurn (s : Schema) (d : Document) (name : String) :
    s.sources d.inTurn name =
      (s.types ++ d.baseDefinitions ++ d.typeExtensions).filter (·.name == name) := by
  rw [sources, d.typeDefinitions_inTurn, List.append_assoc]

theorem baseDefinitions_inTurn (d : Document) : d.inTurn.baseDefinitions = d.baseDefinitions := by
  have hextensions : d.typeExtensions.filter (!·.isExtension) = [] :=
    List.filter_eq_nil_iff.mpr fun x hx => by simp [(List.mem_filter.mp hx).2]
  rw [Document.baseDefinitions, d.typeDefinitions_inTurn, List.filter_append, hextensions,
    List.append_nil, Document.baseDefinitions, List.filter_filter]
  simp only [Bool.and_self]

namespace Combines

variable (h : s'.Combines s d.inTurn)
include h

theorem typeNames_inTurn :
    s'.types.map (·.name) = s.types.map (·.name) ++ (d.baseDefinitions.map (·.name) ++
      (distinct (d.typeExtensions.map (·.name))).filter
        fun n => n ∉ (s.types ++ d.baseDefinitions).map (·.name)) := by
  have hbase := h.baseNames
  rw [baseDefinitions_inTurn] at hbase
  rw [h.typeNames, d.typeDefinitions_inTurn, ← List.append_assoc, List.map_append, distinct,
    firstsBy_append, ← distinct, distinct_eq_self hbase, List.map_id, List.map_append,
    List.append_assoc]
  rfl

/-- A type of the schema is kept by the one that goes by its name. -/
theorem keeps_of_name_eq (hs : s.Combines s {}) {t' t : TypeDefinition} (ht' : t' ∈ s'.types)
    (ht : t ∈ s.types) (hname : t'.name = t.name) : t'.Keeps t := by
  have hgathers := h.types t' ht'
  rw [sources, List.filter_append, hname, filter_eq_singleton hs.nodup_typeNames ht] at hgathers
  have hself : t.Gathers [t] := (hs.types t ht).self
  exact hself.keeps hgathers hname (List.cons_ne_nil t [])

theorem extends_of_combines (hs : s.Combines s {}) : s'.Extends s d where
  types := by
    obtain ⟨kept, new, htypes, hkept, hnew⟩ := List.map_eq_append_iff.mp h.typeNames_inTurn
    refine ⟨kept, new, htypes, forall₂_of_map_eq hkept fun t' ht' t ht hname => ?_, hnew⟩
    exact h.keeps_of_name_eq hs (htypes ▸ List.mem_append_left new ht') ht hname
  typeNames := h.nodup_typeNames
  gathers := fun t ht => sources_inTurn s d t.name ▸ h.types t ht
  directiveDefinitions := d.directiveDefinitions_inTurn ▸ h.directiveDefinitions
  directiveNames := h.directiveNames
  directives := by
    rw [h.directives]
    have hs := hs.directives
    rw [show Document.schemaApplications {} = [] from rfl, List.append_nil] at hs
    nth_rewrite 1 [hs]
    exact firstsBy_prefix _ _ _
  schemaApplications := by
    rw [h.directives, Document.schemaApplications, d.schemaDefinitions_inTurn]

end Combines

/-- **An extension that succeeds is conservative and complete.** -/
theorem extend_extends (h : s.Reachable) (hs : s.extend d assumeValid = .ok s') :
    s'.Extends s d :=
  (h.combines_extend hs).extends_of_combines h.combines

/-- A document with two types. -/
def shelves : Document :=
  ⟨[.type
      { name := "Query"
        body := .object { fields := [{ name := "shelf", type := .named "Shelf" }] } },
    .type
      { name := "Shelf"
        body := .object { fields := [{ name := "label", type := .named "ID" }] } }]⟩

/-- A document that extends one of the types, defines a type and extends one that is nowhere
defined. -/
def moreShelves : Document :=
  ⟨[.type
      { name := "Shelf", isExtension := true, description := some "Holds books."
        body := .object { fields := [{ name := "books", type := .list (.named "Book") }] } },
    .type { name := "Size", isExtension := true, body := .enum [{ name := "SMALL" }] },
    .type
      { name := "Book"
        body := .object { fields := [{ name := "title", type := .named "String" }] } },
    .type { name := "Size", isExtension := true, body := .enum [{ name := "LARGE" }] }]⟩

/-- Types are extended in place, and new ones come after them. -/
theorem moreShelves_extends_shelves :
    ∃ s s', empty.extend shelves = .ok s ∧ s.extend moreShelves = .ok s' ∧
      s'.Extends s moreShelves ∧
      s'.types.map (fun t => (t.name, t.fields.map (·.name), t.body.enumValues.map (·.name))) =
        [("Query", ["shelf"], []), ("Shelf", ["label", "books"], []), ("Book", ["title"], []),
          ("Size", [], ["SMALL", "LARGE"])] := by
  obtain ⟨s, s', hs, hs', htypes⟩ : ∃ s s', empty.extend shelves = .ok s ∧
      s.extend moreShelves = .ok s' ∧
      s'.types.map (fun t => (t.name, t.fields.map (·.name), t.body.enumValues.map (·.name))) =
        [("Query", ["shelf"], []), ("Shelf", ["label", "books"], []), ("Book", ["title"], []),
          ("Size", [], ["SMALL", "LARGE"])] := ⟨_, _, by cbv, by cbv, rfl⟩
  exact ⟨s, s', hs, hs', extend_extends (.extend .empty hs) hs', htypes⟩

end Schema

end Federation
