import Federation.Proofs.DiagnosticOrder
import Federation.Proofs.Schema.Locality
import Mathlib
/-!
# Schema — the order of definitions

Definitions of a document may be reordered, as long as those about one
element keep their order: what is built holds the same types and
directive definitions, or the same is reported (`build_reordered`). This
asks that where directives are applied on the schema or on the base
definition of a type, the definitions before already tell which of them
may be repeated (`Document.KnowsRepeatable`). The builder looks there and
no further, so a definition that comes too late does not count
(`definedLate_not_reordered`).
-/

namespace Federation

/-! ## What may be repeated -/

namespace Directive

variable {isRepeatable isRepeatable' : String → Bool} {ds : List Directive}

/-- A merge asks about the directives that it adds. -/
theorem merge_congr (h : ∀ d ∈ ds, isRepeatable d.name = isRepeatable' d.name)
    (merged : List Directive) : merge isRepeatable merged ds = merge isRepeatable' merged ds := by
  induction ds generalizing merged with
  | nil => rfl
  | cons d ds ih =>
    rw [merge_cons, merge_cons, h d List.mem_cons_self,
      ih fun x hx => h x (List.mem_cons_of_mem d hx)]

theorem conflicts_congr (h : ∀ d ∈ ds, isRepeatable d.name = isRepeatable' d.name)
    (merged : List Directive) :
    conflicts isRepeatable merged ds = conflicts isRepeatable' merged ds := by
  induction ds generalizing merged with
  | nil => rfl
  | cons d ds ih =>
    rw [conflicts, conflicts, h d List.mem_cons_self,
      ih fun x hx => h x (List.mem_cons_of_mem d hx)]

end Directive

/-- The applications that are merged when a definition has its turn. -/
def Definition.applied : Definition → List Directive
  | .schema d => d.directives
  | .type d => if d.isExtension then [] else d.directives
  | .directive _ => []

namespace Document

/-- Whether a directive may be applied more than once: by its first definition in a document, or
else by the built-in one. -/
def isRepeatable (d : Document) (name : String) : Bool :=
  (d.directiveDefinitions.find? (·.name == name) <|> DirectiveDefinition.builtIn? name).any
    (·.isRepeatable)

/-- Where directives are applied on the schema or on the base definition of a type, the definitions
before tell which of them may be repeated. -/
def KnowsRepeatable (d : Document) : Prop :=
  ∀ i (h : i < d.definitions.length), ∀ a ∈ d.definitions[i].applied,
    isRepeatable ⟨d.definitions.take i⟩ a.name = d.isRepeatable a.name

instance (d : Document) : Decidable d.KnowsRepeatable :=
  inferInstanceAs (Decidable (∀ i (h : i < d.definitions.length), ∀ a ∈ d.definitions[i].applied,
    isRepeatable ⟨d.definitions.take i⟩ a.name = d.isRepeatable a.name))

theorem KnowsRepeatable.of_split {d : Document} (h : d.KnowsRepeatable)
    {before after : List Definition} {x : Definition} (hd : d.definitions = before ++ x :: after) :
    ∀ a ∈ x.applied, isRepeatable ⟨before⟩ a.name = d.isRepeatable a.name := by
  have hlt : before.length < d.definitions.length := by
    rw [hd, List.length_append, List.length_cons]
    omega
  have hx : d.definitions[before.length] = x := by
    simp [hd]
  have htake : d.definitions.take before.length = before := by
    simp [hd]
  have hknown := h before.length hlt
  rwa [hx, htake] at hknown

end Document

namespace Schema

variable {isRepeatable isRepeatable' : String → Bool}

theorem absorb_congr {target source : TypeDefinition}
    (h : ∀ a ∈ source.directives, isRepeatable a.name = isRepeatable' a.name) :
    target.absorb isRepeatable source = target.absorb isRepeatable' source := by
  rw [TypeDefinition.absorb, TypeDefinition.absorb, Directive.merge_congr h,
    Directive.conflictDiagnostics, Directive.conflictDiagnostics, Directive.conflicts_congr h]

/-- A definition asks about the directives that it applies. -/
theorem addDefinitionBy_congr {x : Definition}
    (h : ∀ a ∈ x.applied, isRepeatable a.name = isRepeatable' a.name) (s : Schema) :
    s.addDefinitionBy isRepeatable x = s.addDefinitionBy isRepeatable' x := by
  cases x with
  | directive d => rfl
  | schema d =>
    have hd : ∀ a ∈ d.directives, isRepeatable a.name = isRepeatable' a.name := h
    rw [addDefinitionBy, addDefinitionBy, addSchemaDefinitionBy, addSchemaDefinitionBy]
    simp only [Directive.conflictDiagnostics, Directive.merge_congr hd,
      Directive.conflicts_congr hd]
  | type d =>
    rw [addDefinitionBy, addDefinitionBy]
    by_cases hextension : d.isExtension = true
    · rw [if_pos hextension, if_pos hextension]
    · rw [Definition.applied, if_neg hextension] at h
      rw [if_neg hextension, if_neg hextension, addTypeDefinitionBy, addTypeDefinitionBy,
        absorb_congr h]

/-- A schema finds the first definition of a directive that was applied. -/
theorem directiveDefinition?_fold (isRepeatable : String → Bool) (s : Schema)
    (ds : List Definition) (name : String) :
    (Reported.fold (addDefinitionBy isRepeatable) s ds).1.directiveDefinition? name =
      ((s.directiveDefinition? name).or
        ((Document.mk ds).directiveDefinitions.find? (·.name == name))) := by
  induction ds generalizing s with
  | nil => exact (Option.or_none).symm
  | cons x ds ih =>
    rw [Reported.fold_cons, ih]
    cases x with
    | schema d =>
      obtain ⟨roots, hroots⟩ := exists_fold_addRoot d.location s d.rootOperations
      rw [addDefinitionBy, addSchemaDefinitionBy]
      simp only [hroots]
      rfl
    | type d =>
      have hkept : (s.addDefinitionBy isRepeatable (.type d)).1.directiveDefinitions =
          s.directiveDefinitions := by
        rw [addDefinitionBy]
        split
        · rfl
        · rw [addTypeDefinitionBy]
          split <;> rfl
      rw [directiveDefinition?, hkept]
      rfl
    | directive d =>
      have hdefinitions : (Document.mk (.directive d :: ds)).directiveDefinitions =
          d :: (Document.mk ds).directiveDefinitions := rfl
      rw [addDefinitionBy, addDirectiveDefinition, hdefinitions, List.find?_cons]
      by_cases hname : d.name = name
      · subst hname
        cases hfound : s.directiveDefinition? d.name with
        | none =>
          rw [Option.isSome_none, if_neg Bool.false_ne_true, directiveDefinition?_append, hfound]
          simp
        | some e =>
          rw [Option.isSome_some, if_pos rfl, hfound]
          simp
      · have hne : (d.name == name) = false := beq_eq_false_iff_ne.mpr hname
        rw [hne]
        split
        · rfl
        · rw [directiveDefinition?_append, if_neg hname, Option.or_none]

/-- **Where a document tells in time what may be repeated, it might have told at once.** -/
theorem fold_addDefinition_of_split {ds : List Definition}
    (h : ∀ before x after, ds = before ++ x :: after →
      ∀ a ∈ x.applied, (Document.mk before).isRepeatable a.name = isRepeatable a.name) :
    Reported.fold addDefinition empty ds =
      Reported.fold (addDefinitionBy isRepeatable) empty ds := by
  -- the state that a definition meets is that of all definitions before it
  induction ds using List.reverseRecOn with
  | nil => rfl
  | append_singleton ds x ih =>
    have hbefore := ih fun before y after hds a ha =>
      h before y (after ++ [x]) (by rw [hds, List.append_assoc, List.cons_append]) a ha
    have hlast := h ds x [] rfl
    have hasks : ∀ a ∈ x.applied,
        (Reported.fold (addDefinitionBy isRepeatable) empty ds).1.isRepeatable a.name =
          isRepeatable a.name := by
      intro a ha
      rw [← hlast a ha, Schema.isRepeatable, directiveDefinition?_fold]
      rfl
    rw [Reported.fold_append, Reported.fold_append, hbefore]
    simp only [Reported.fold_cons, Reported.fold_nil, addDefinition_eq,
      addDefinitionBy_congr hasks]

/-- Extensions define no directive. -/
theorem fold_addTypeExtension (s : Schema) (es : List TypeDefinition) :
    Reported.fold addTypeExtension s es =
      Reported.fold (addTypeExtensionBy s.isRepeatable) s es := by
  induction es generalizing s with
  | nil => rfl
  | cons e es ih =>
    have hkept : (s.addTypeExtension e).1.isRepeatable = s.isRepeatable := by
      have hdefinitions : (s.addTypeExtension e).1.directiveDefinitions =
          s.directiveDefinitions := by
        rw [addTypeExtension]
        split
        · rfl
        · split <;> rfl
      funext name
      rw [Schema.isRepeatable, directiveDefinition?, hdefinitions]
      rfl
    rw [Reported.fold_cons, Reported.fold_cons, ih, hkept, addTypeExtension_eq]

/-- **A document that tells in time what may be repeated is applied by what it tells.** -/
theorem applyDocument_of_knowsRepeatable {d : Document} (h : d.KnowsRepeatable) :
    let base := Reported.fold (addDefinitionBy d.isRepeatable) empty d.definitions
    let extended := Reported.fold (addTypeExtensionBy d.isRepeatable) base.1
      (d.typeDefinitions.filter (·.isExtension))
    empty.applyDocument d = (extended.1, base.2 ++ extended.2) := by
  intro base extended
  have hbase : Reported.fold addDefinition empty d.definitions = base :=
    fold_addDefinition_of_split fun before x after hd => h.of_split hd
  have hrepeatable : base.1.isRepeatable = d.isRepeatable := by
    funext name
    rw [Schema.isRepeatable, directiveDefinition?_fold]
    rfl
  rw [applyDocument, hbase]
  simp only [fold_addTypeExtension, hrepeatable]
  rfl

end Schema

/-! ## Reordered documents -/

namespace Document

/-- Two documents have the same definitions, and those of one element in the same order: of the
schema, of a directive, of a type. -/
def Reorders (d d' : Document) : Prop :=
  ∀ c, d.definitions.filter (·.coordinate = c) = d'.definitions.filter (·.coordinate = c)

theorem filter_typeDefinitions (d : Document) (c : Coordinate) :
    d.typeDefinitions.filter (Coordinate.type ·.name = c) =
      (Document.mk (d.definitions.filter (·.coordinate = c))).typeDefinitions := by
  rw [typeDefinitions, typeDefinitions, List.filter_filterMap, List.filterMap_filter]
  refine List.filterMap_congr fun x _ => ?_
  cases x with
  | schema => simp
  | directive => simp
  | type t => by_cases hc : Coordinate.type t.name = c <;> simp [Definition.coordinate, hc]

theorem filter_directiveDefinitions (d : Document) (name : String) :
    d.directiveDefinitions.filter (·.name == name) =
      (Document.mk (d.definitions.filter
        (·.coordinate = .directive name))).directiveDefinitions := by
  rw [directiveDefinitions, directiveDefinitions, List.filter_filterMap, List.filterMap_filter]
  refine List.filterMap_congr fun x _ => ?_
  cases x with
  | schema => simp
  | type => simp
  | directive t => by_cases hc : t.name = name <;> simp [Definition.coordinate, hc]

/-- Only the elements that the documents are about have to be looked at. -/
theorem reorders_iff {d d' : Document} :
    d.Reorders d' ↔ ∀ x ∈ d.definitions ++ d'.definitions,
      d.definitions.filter (·.coordinate = x.coordinate) =
        d'.definitions.filter (·.coordinate = x.coordinate) := by
  constructor
  · exact fun h x _ => h x.coordinate
  · intro h c
    by_cases hc : ∃ x ∈ d.definitions ++ d'.definitions, x.coordinate = c
    · obtain ⟨x, hx, rfl⟩ := hc
      exact h x hx
    · have hnone : ∀ x ∈ d.definitions ++ d'.definitions, ¬decide (x.coordinate = c) = true :=
        fun x hx heq => hc ⟨x, hx, of_decide_eq_true heq⟩
      rw [List.filter_eq_nil_iff.mpr fun x hx => hnone x (List.mem_append_left _ hx),
        List.filter_eq_nil_iff.mpr fun x hx => hnone x (List.mem_append_right _ hx)]

instance (d d' : Document) : Decidable (d.Reorders d') :=
  decidable_of_iff' _ reorders_iff

namespace Reorders

variable {d d' : Document} (h : d.Reorders d')
include h

theorem perm : d.definitions.Perm d'.definitions :=
  perm_of_filter_eq Definition.coordinate h

theorem find?_directiveDefinitions (name : String) :
    d.directiveDefinitions.find? (·.name == name) =
      d'.directiveDefinitions.find? (·.name == name) := by
  rw [← List.head?_filter, ← List.head?_filter, filter_directiveDefinitions,
    filter_directiveDefinitions, h]

theorem isRepeatable_eq : d.isRepeatable = d'.isRepeatable := by
  funext name
  rw [isRepeatable, isRepeatable, h.find?_directiveDefinitions]

theorem filter_extensions (c : Coordinate) :
    (d.typeDefinitions.filter (·.isExtension)).filter (Coordinate.type ·.name = c) =
      (d'.typeDefinitions.filter (·.isExtension)).filter (Coordinate.type ·.name = c) := by
  rw [List.filter_comm _ _ d.typeDefinitions, List.filter_comm _ _ d'.typeDefinitions,
    filter_typeDefinitions, filter_typeDefinitions, h]

end Reorders

end Document

/-! ## What is built -/

namespace Schema

/-- No two types and no two directive definitions share a name. -/
structure HasDistinctNames (s : Schema) : Prop where
  types : (s.types.map (·.name)).Nodup
  directiveDefinitions : (s.directiveDefinitions.map (·.name)).Nodup

/-- Two schemas hold the same types and the same directive definitions under the same names, and the
same roots, directives and records. -/
structure Matches (s t : Schema) : Prop where
  types : s.types.Perm t.types
  type? : s.type? = t.type?
  directiveDefinitions : s.directiveDefinitions.Perm t.directiveDefinitions
  directiveDefinition? : s.directiveDefinition? = t.directiveDefinition?
  roots : s.roots = t.roots
  directives : s.directives = t.directives
  ownership : s.ownership = t.ownership

/-- A list with distinct names is settled by what it finds, up to the order. -/
theorem perm_of_find?_eq {α : Type} {name : α → String} {as bs : List α}
    (has : (as.map name).Nodup) (hbs : (bs.map name).Nodup)
    (h : ∀ n, as.find? (name · == n) = bs.find? (name · == n)) : as.Perm bs := by
  have hmem : ∀ {cs : List α}, (cs.map name).Nodup → ∀ a, a ∈ cs ↔
      cs.find? (name · == name a) = some a := by
    intro cs hcs a
    constructor
    · intro ha
      rw [← List.head?_filter, filter_eq_singleton hcs ha, List.head?_cons]
    · exact List.mem_of_find?_eq_some
  rw [List.perm_ext_iff_of_nodup (List.Nodup.of_map name has) (List.Nodup.of_map name hbs)]
  intro a
  rw [hmem has, hmem hbs, h]

/-- **Schemas that hold the same about every element match.** -/
theorem matches_of_restrict {s t : Schema} (hs : s.HasDistinctNames) (ht : t.HasDistinctNames)
    (h : ∀ c, restrict c s = restrict c t) : s.Matches t := by
  obtain ⟨hroots, hdirectives, hownership⟩ := restrict_schema_iff.mp (h .schema)
  have htypes : ∀ n, s.type? n = t.type? n := fun n => restrict_type_iff.mp (h (.type n))
  have hdefinitions : ∀ n, s.directiveDefinition? n = t.directiveDefinition? n :=
    fun n => restrict_directive_iff.mp (h (.directive n))
  exact
    { types := perm_of_find?_eq hs.types ht.types htypes
      type? := funext htypes
      directiveDefinitions :=
        perm_of_find?_eq hs.directiveDefinitions ht.directiveDefinitions hdefinitions
      directiveDefinition? := funext hdefinitions
      roots := hroots
      directives := hdirectives
      ownership := hownership }

/-- A name that finds nothing is new. -/
theorem nodup_append_of_find?_eq_none {α : Type} {name : α → String} {as : List α} {a : α}
    (has : (as.map name).Nodup) (h : as.find? (name · == name a) = none) :
    ((as ++ [a]).map name).Nodup := by
  rw [List.map_append, List.map_singleton, List.nodup_append]
  refine ⟨has, List.nodup_singleton _, ?_⟩
  intro n hn m hm heq
  obtain ⟨b, hb, hname⟩ := List.mem_map.mp hn
  rw [List.mem_singleton.mp hm] at heq
  exact List.find?_eq_none.mp h b hb (beq_iff_eq.mpr (hname.trans heq))

variable {isRepeatable : String → Bool}

theorem HasDistinctNames.addDefinitionBy {s : Schema} (h : s.HasDistinctNames) (x : Definition) :
    (s.addDefinitionBy isRepeatable x).1.HasDistinctNames := by
  cases x with
  | schema d =>
    obtain ⟨roots, hroots⟩ := exists_fold_addRoot d.location s d.rootOperations
    rw [Schema.addDefinitionBy, addSchemaDefinitionBy]
    simp only [hroots]
    exact ⟨h.types, h.directiveDefinitions⟩
  | directive d =>
    rw [Schema.addDefinitionBy, addDirectiveDefinition]
    cases hfind : s.directiveDefinition? d.name with
    | some e => exact h
    | none => exact ⟨h.types, nodup_append_of_find?_eq_none h.directiveDefinitions hfind⟩
  | type d =>
    rw [Schema.addDefinitionBy]
    split
    · exact h
    · rw [addTypeDefinitionBy]
      cases hfind : s.type? d.name with
      | some e => exact h
      | none => exact ⟨nodup_append_of_find?_eq_none h.types hfind, h.directiveDefinitions⟩

theorem HasDistinctNames.addTypeExtensionBy {s : Schema} (h : s.HasDistinctNames)
    (e : TypeDefinition) : (s.addTypeExtensionBy isRepeatable e).1.HasDistinctNames := by
  rw [Schema.addTypeExtensionBy]
  split
  · rename_i hfind
    exact ⟨nodup_append_of_find?_eq_none h.types hfind, h.directiveDefinitions⟩
  · rename_i target htarget
    split
    · exact h
    · -- the extended type keeps its name
      obtain ⟨-, hname⟩ := mem_of_type? htarget
      refine ⟨?_, h.directiveDefinitions⟩
      have hnames : (s.types.map fun t =>
          if t.name = e.name then (target.absorb isRepeatable e).1 else t).map (·.name) =
            s.types.map (·.name) := by
        rw [List.map_map]
        refine List.map_congr_left fun t _ => ?_
        by_cases ht : t.name = e.name
        · simp [ht, name_absorb, hname]
        · simp [ht]
      exact hnames ▸ h.types

/-- **Reordered documents are applied to schemas that match**, with the same clashes. -/
theorem applyDocument_reordered {d d' : Document} (h : d.Reorders d') (hd : d.KnowsRepeatable)
    (hd' : d'.KnowsRepeatable) :
    (empty.applyDocument d).1.Matches (empty.applyDocument d').1 ∧
      (empty.applyDocument d).2.Perm (empty.applyDocument d').2 := by
  obtain ⟨hbase, hclashes⟩ :=
    (keyed_addDefinitionBy d.isRepeatable).fold_reordered (s := empty) (fun _ => rfl) h
  obtain ⟨hextended, hclashes'⟩ :=
    (keyed_addTypeExtensionBy d.isRepeatable).fold_reordered hbase h.filter_extensions
  rw [applyDocument_of_knowsRepeatable hd, applyDocument_of_knowsRepeatable hd',
    ← h.isRepeatable_eq]
  have hdistinct : ∀ ds es, (Reported.fold (addTypeExtensionBy d.isRepeatable)
      (Reported.fold (addDefinitionBy d.isRepeatable) empty ds).1 es).1.HasDistinctNames := by
    intro ds es
    refine Reported.fold_induction (fun s e _ hs => hs.addTypeExtensionBy e) ?_
    refine Reported.fold_induction (fun s x _ hs => hs.addDefinitionBy x) ?_
    exact ⟨List.nodup_nil, List.nodup_nil⟩
  exact ⟨matches_of_restrict (hdistinct _ _) (hdistinct _ _) hextended,
    hclashes.append hclashes'⟩

/-- The checks of a document do not look at the order of its definitions. -/
theorem documentProblems_reordered {d d' : Document} (h : d.Reorders d') :
    (empty.documentProblems d).Perm (empty.documentProblems d') := by
  have htypes : d.typeDefinitions.Perm d'.typeDefinitions := h.perm.filterMap _
  have hschema : d.schemaDefinitions.Perm d'.schemaDefinitions := h.perm.filterMap _
  have hlookup : empty.lookupDirective d = empty.lookupDirective d' := by
    funext name
    rw [lookupDirective, lookupDirective, h.find?_directiveDefinitions]
  have hknown : (fun name => empty.isKnownType name || d.typeDefinitions.any (·.name == name)) =
      fun name => empty.isKnownType name || d'.typeDefinitions.any (·.name == name) := by
    funext name
    rw [htypes.any_eq]
  rw [documentProblems, documentProblems, hlookup, hknown]
  exact (((hschema.flatMap_right _).append (htypes.flatMap_right _)).flatMap_right _).append
    (htypes.flatMap_right _)

/-- **The order of definitions does not matter to the builder**, where documents tell in time what
may be repeated. -/
theorem build_reordered {d d' : Document} (h : d.Reorders d') (hd : d.KnowsRepeatable)
    (hd' : d'.KnowsRepeatable) :
    (∃ s s', build d = .ok s ∧ build d' = .ok s' ∧ s.Matches s') ∨
      ∃ ps ps', build d = .error ps ∧ build d' = .error ps' ∧ ps.Perm ps' := by
  obtain ⟨hmatches, hclashes⟩ := applyDocument_reordered h hd hd'
  have hproblems := (documentProblems_reordered h).append hclashes
  rw [build, build, extend, extend]
  simp only [Bool.false_eq_true, if_false]
  cases hfound : empty.documentProblems d ++ (empty.applyDocument d).2 with
  | nil =>
    rw [hfound] at hproblems
    rw [hproblems.nil_eq.symm]
    exact .inl ⟨_, _, rfl, rfl, hmatches⟩
  | cons p ps =>
    rw [hfound] at hproblems
    have hne : empty.documentProblems d' ++ (empty.applyDocument d').2 ≠ [] := by
      intro hnil
      rw [hnil] at hproblems
      exact List.cons_ne_nil p ps hproblems.eq_nil
    obtain ⟨q, qs, hcons⟩ := List.exists_cons_of_ne_nil hne
    rw [hcons] at hproblems ⊢
    refine .inr ⟨_, _, rfl, rfl, ?_⟩
    exact (Diagnostic.sorted_perm _).trans (hproblems.trans (Diagnostic.sorted_perm _).symm)

/-- A directive that may be repeated. -/
def tagDefinition : DirectiveDefinition :=
  { name := "tagged", arguments := [{ name := "as", type := .named "Int" }], isRepeatable := true,
    locations := [.object] }

/-- A root type with two applications of the directive. -/
def taggedQuery : TypeDefinition :=
  { name := "Query"
    directives :=
      [{ name := "tagged", arguments := [⟨"as", .int 1⟩] },
       { name := "tagged", arguments := [⟨"as", .int 2⟩] }]
    body := .object { fields := [{ name := "page", type := .named "Page" }] } }

/-- The type that the root type refers to. -/
def pageScalar : TypeDefinition :=
  { name := "Page", body := .scalar }

/-- A document that defines everything before it is used. -/
def usedLast : Document :=
  ⟨[.type pageScalar, .directive tagDefinition, .type taggedQuery,
    .schema { rootOperations := [⟨.query, "Query"⟩] }]⟩

/-- The same document with types after what refers to them. -/
def usedFirst : Document :=
  ⟨[.schema { rootOperations := [⟨.query, "Query"⟩] }, .directive tagDefinition,
    .type taggedQuery, .type pageScalar]⟩

/-- The same document with the directive after the type that it is applied on. -/
def definedLate : Document :=
  ⟨[.schema { rootOperations := [⟨.query, "Query"⟩] }, .type taggedQuery, .type pageScalar,
    .directive tagDefinition]⟩

/-- Types may be defined after what refers to them. -/
theorem usedFirst_reordered :
    usedLast.Reorders usedFirst ∧ usedLast.KnowsRepeatable ∧ usedFirst.KnowsRepeatable ∧
      ∃ s s', build usedLast = .ok s ∧ build usedFirst = .ok s' ∧ s.Matches s' ∧
        s.types ≠ s'.types := by
  have hreorders : usedLast.Reorders usedFirst := by decide
  have hlast : usedLast.KnowsRepeatable := by decide
  have hfirst : usedFirst.KnowsRepeatable := by decide
  refine ⟨hreorders, hlast, hfirst, ?_⟩
  obtain ⟨t, ht, htypes⟩ : ∃ t, build usedLast = .ok t ∧ t.types.map (·.name) = ["Page", "Query"] :=
    ⟨_, by cbv, rfl⟩
  obtain ⟨t', ht', htypes'⟩ : ∃ t, build usedFirst = .ok t ∧
      t.types.map (·.name) = ["Query", "Page"] := ⟨_, by cbv, rfl⟩
  obtain ⟨s, s', hs, hs', hmatches⟩ | ⟨ps, -, hps, -⟩ := build_reordered hreorders hlast hfirst
  · obtain rfl : t = s := Except.ok.inj (ht.symm.trans hs)
    obtain rfl : t' = s' := Except.ok.inj (ht'.symm.trans hs')
    refine ⟨t, t', hs, hs', hmatches, fun heq => ?_⟩
    rw [heq, htypes'] at htypes
    exact absurd htypes (by decide)
  · rw [ht] at hps
    cases hps

/-- The order matters where a directive is defined after it is applied: applications that may be
repeated are taken for a conflict. -/
theorem definedLate_not_reordered :
    usedFirst.Reorders definedLate ∧ (∃ s, build usedFirst = .ok s) ∧
      ∃ ps, build definedLate = .error ps ∧
        ps.map (fun p => (p.kind, p.coordinate)) = [(.conflictingDirective, .type "Query")] := by
  refine ⟨by decide, ⟨_, by cbv⟩, _, by cbv, rfl⟩

end Schema

end Federation
