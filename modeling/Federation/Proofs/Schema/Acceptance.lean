import Federation.Proofs.Schema.Extending
import Mathlib.Data.List.Induction
/-!
# Schema — what is accepted

What a schema accepts can be told without applying anything: a document in
turn is accepted when no name is defined twice, roots agree, extensions
have the kind of what they extend, members are named once, and every
application may join those that are there when its turn comes
(`Schema.Accepts`). A document is accepted when each definition is
admitted after those before it (`accepts_followedBy_iff`), and the builder
extends a schema exactly when it accepts the document
(`extend_iff_accepts`).
-/

namespace Federation

/-- What holds at every split of a list with one more element holds at every split of the list, and
at the last element. -/
theorem forall_split_concat_iff {α : Type} {P : List α → α → Prop} {as : List α} {a : α} :
    (∀ before x after, as ++ [a] = before ++ x :: after → P before x) ↔
      (∀ before x after, as = before ++ x :: after → P before x) ∧ P as a := by
  constructor
  · intro h
    refine ⟨?_, h as a [] rfl⟩
    rintro before x after rfl
    exact h before x (after ++ [a]) (by simp)
  · rintro ⟨hsplit, hlast⟩ before x after heq
    rcases List.eq_nil_or_concat after with rfl | ⟨after, b, rfl⟩
    · obtain ⟨rfl, hx⟩ := List.append_inj' heq rfl
      obtain ⟨rfl, -⟩ := List.cons.inj hx
      exact hlast
    · rw [List.concat_eq_append, ← List.cons_append, ← List.append_assoc] at heq
      exact hsplit before x after (List.append_inj' heq rfl).1

/-- The applications on the element of a definition. -/
def Definition.applications : Definition → List Directive
  | schema d => d.directives
  | type d => d.directives
  | directive _ => []

namespace Schema

/-- The applications that are there on the element of a definition, in a schema and a document. -/
def applicationsFor (s : Schema) (d : Document) : Definition → List Directive
  | .schema _ => s.directives ++ d.schemaApplications
  | .type x => (s.sources d x.name).flatMap (·.directives)
  | .directive _ => []

/-- A schema accepts a document that is in turn. -/
structure Accepts (s : Schema) (d : Document) : Prop where
  /-- No directive is defined twice. -/
  directiveNames : ((s.directiveDefinitions ++ d.directiveDefinitions).map (·.name)).Nodup
  /-- No type is defined twice. -/
  typeNames : ((s.types ++ d.baseDefinitions).map (·.name)).Nodup
  /-- All names that are given to one root operation are the same. -/
  roots : RootsAgree (s.roots ++ d.namedRoots)
  /-- An extension has the kind of the type that it extends: the one in the schema, or else the base
  definition, or else the first extension. -/
  kinds : ∀ e ∈ d.typeExtensions, ∀ t ∈ (s.sources d e.name).head?, t.kind = e.kind
  /-- No field, value or input field of a type is named twice. -/
  members : ∀ name, TypeDefinition.MembersOnce (s.sources d name)
  /-- Every application may join those that are there on its element when its turn comes, where a
  directive may be repeated by what is defined by then. -/
  applications : ∀ before x after, d.definitions = before ++ x :: after →
    Directive.JoinInTurn (s.isRepeatableWith ⟨before⟩) (s.applicationsFor ⟨before⟩ x)
      x.applications

variable {s : Schema} {d : Document}

/-- A settled schema accepts the document that holds nothing. -/
theorem Combines.accepts (h : s.Combines s {}) : s.Accepts {} where
  directiveNames := by
    rw [show Document.directiveDefinitions {} = [] from rfl, List.append_nil]
    exact h.directiveNames
  typeNames := h.baseNames
  roots := h.rootsAgree
  kinds := fun e he => by cases he
  members := fun name => by
    obtain ⟨-, hnone⟩ | ⟨x, -, -, hgathers, -⟩ := h.type?_cases name
    · rw [hnone]
      exact ⟨List.nodup_nil, List.nodup_nil, List.nodup_nil⟩
    · exact hgathers.membersOnce
  applications := fun before x after heq => by
    cases before <;> cases heq

/-! ## One more definition -/

theorem applications_followedBy_iff (x : Definition) :
    (∀ before y after, (d.followedBy x).definitions = before ++ y :: after →
      Directive.JoinInTurn (s.isRepeatableWith ⟨before⟩) (s.applicationsFor ⟨before⟩ y)
        y.applications) ↔
    (∀ before y after, d.definitions = before ++ y :: after →
      Directive.JoinInTurn (s.isRepeatableWith ⟨before⟩) (s.applicationsFor ⟨before⟩ y)
        y.applications) ∧
      Directive.JoinInTurn (s.isRepeatableWith d) (s.applicationsFor d x) x.applications :=
  forall_split_concat_iff (P := fun before y =>
    Directive.JoinInTurn (s.isRepeatableWith ⟨before⟩) (s.applicationsFor ⟨before⟩ y)
      y.applications)

theorem accepts_followedBy_directive_iff (e : DirectiveDefinition) :
    s.Accepts (d.followedBy (.directive e)) ↔ s.Accepts d ∧ s.Admits d (.directive e) := by
  have htypes : (d.followedBy (.directive e)).typeDefinitions = d.typeDefinitions :=
    (d.typeDefinitions_followedBy _).trans (List.append_nil _)
  have hschema : (d.followedBy (.directive e)).schemaDefinitions = d.schemaDefinitions :=
    (d.schemaDefinitions_followedBy _).trans (List.append_nil _)
  have hnames : ((s.directiveDefinitions ++
      (d.followedBy (.directive e)).directiveDefinitions).map (·.name)).Nodup ↔
        ((s.directiveDefinitions ++ d.directiveDefinitions).map (·.name)).Nodup ∧
          s.Admits d (.directive e) := by
    rw [d.directiveDefinitions_followedBy, ← List.append_assoc]
    exact nodup_map_concat_iff
  have hnothing : Directive.JoinInTurn (s.isRepeatableWith d) [] [] := fun as _ _ heq => by
    cases as <;> cases heq
  constructor
  · rintro ⟨hdirectives, htypeNames, hroots, hkinds, hmembers, happlications⟩
    obtain ⟨hdirectives, hadmits⟩ := hnames.mp hdirectives
    rw [Document.baseDefinitions, htypes] at htypeNames
    rw [Document.namedRoots, hschema] at hroots
    simp only [Document.typeExtensions, sources, htypes] at hkinds hmembers
    exact ⟨⟨hdirectives, htypeNames, hroots, hkinds, hmembers,
      ((applications_followedBy_iff _).mp happlications).1⟩, hadmits⟩
  · rintro ⟨⟨hdirectives, htypeNames, hroots, hkinds, hmembers, happlications⟩, hadmits⟩
    refine ⟨hnames.mpr ⟨hdirectives, hadmits⟩, ?_, ?_, ?_, ?_,
      (applications_followedBy_iff _).mpr ⟨happlications, hnothing⟩⟩
    · rwa [Document.baseDefinitions, htypes]
    · rwa [Document.namedRoots, hschema]
    · simpa only [Document.typeExtensions, sources, htypes] using hkinds
    · simpa only [sources, htypes] using hmembers

theorem accepts_followedBy_schema_iff (e : SchemaDefinition) :
    s.Accepts (d.followedBy (.schema e)) ↔ s.Accepts d ∧ s.Admits d (.schema e) := by
  have htypes : (d.followedBy (.schema e)).typeDefinitions = d.typeDefinitions :=
    (d.typeDefinitions_followedBy _).trans (List.append_nil _)
  have hdefinitions : (d.followedBy (.schema e)).directiveDefinitions = d.directiveDefinitions :=
    (d.directiveDefinitions_followedBy _).trans (List.append_nil _)
  have hnamed : s.roots ++ (d.followedBy (.schema e)).namedRoots =
      s.roots ++ d.namedRoots ++ e.rootOperations := by
    rw [d.namedRoots_followedBy, ← List.append_assoc]
    simp [Document.namedRoots, Document.schemaDefinitions]
  constructor
  · rintro ⟨hdirectives, htypeNames, hroots, hkinds, hmembers, happlications⟩
    obtain ⟨happlications, hjoin⟩ := (applications_followedBy_iff _).mp happlications
    rw [hdefinitions] at hdirectives
    rw [Document.baseDefinitions, htypes] at htypeNames
    rw [hnamed] at hroots
    simp only [Document.typeExtensions, sources, htypes] at hkinds hmembers
    exact ⟨⟨hdirectives, htypeNames, hroots.of_append, hkinds, hmembers, happlications⟩,
      hroots, hjoin⟩
  · rintro ⟨⟨hdirectives, htypeNames, -, hkinds, hmembers, happlications⟩, hroots, hjoin⟩
    refine ⟨?_, ?_, hnamed ▸ hroots, ?_, ?_,
      (applications_followedBy_iff _).mpr ⟨happlications, hjoin⟩⟩
    · rwa [hdefinitions]
    · rwa [Document.baseDefinitions, htypes]
    · simpa only [Document.typeExtensions, sources, htypes] using hkinds
    · simpa only [sources, htypes] using hmembers

section

variable {x : TypeDefinition}

/-- A name has no definitions yet exactly when no definition goes by it. -/
theorem sources_eq_nil_iff {name : String} :
    s.sources d name = [] ↔ name ∉ (s.types ++ d.typeDefinitions).map (·.name) := by
  rw [sources, List.filter_eq_nil_iff, List.mem_map]
  simp only [beq_iff_eq, not_exists, not_and]

/-- Base definitions come first, so the name of one more is new where it has no definitions. -/
theorem typeNames_followedBy_iff (hturn : x.isExtension = false → d.typeExtensions = []) :
    ((s.types ++ (d.followedBy (.type x)).baseDefinitions).map (·.name)).Nodup ↔
      ((s.types ++ d.baseDefinitions).map (·.name)).Nodup ∧
        (x.isExtension = false → s.sources d x.name = []) := by
  rw [d.baseDefinitions_followedBy, ← List.append_assoc]
  cases hx : x.isExtension with
  | true =>
    have hnone : Document.baseDefinitions ⟨[.type x]⟩ = [] := by
      simp [Document.baseDefinitions, Document.typeDefinitions, hx]
    rw [hnone, List.append_nil]
    exact ⟨fun h => ⟨h, fun hbase => by cases hbase⟩, fun h => h.1⟩
  | false =>
    have hone : Document.baseDefinitions ⟨[.type x]⟩ = [x] := by
      simp [Document.baseDefinitions, Document.typeDefinitions, hx]
    have hall : d.baseDefinitions = d.typeDefinitions := by
      have hnone := List.filter_eq_nil_iff.mp (hturn hx)
      exact List.filter_eq_self.mpr fun y hy => by simpa using hnone y hy
    rw [hone, nodup_map_concat_iff, sources_eq_nil_iff, hall]
    exact and_congr_right fun _ => ⟨fun hnew _ => hnew, fun hnew => hnew rfl⟩

/-- One more definition does not change which one is the first of an extended type. -/
theorem kinds_followedBy_iff :
    (∀ e ∈ (d.followedBy (.type x)).typeExtensions,
      ∀ t ∈ (s.sources (d.followedBy (.type x)) e.name).head?, t.kind = e.kind) ↔
    (∀ e ∈ d.typeExtensions, ∀ t ∈ (s.sources d e.name).head?, t.kind = e.kind) ∧
      (x.isExtension = true → ∀ t ∈ (s.sources d x.name).head?, t.kind = x.kind) := by
  have hhead : ∀ e ∈ d.typeExtensions,
      (s.sources (d.followedBy (.type x)) e.name).head? = (s.sources d e.name).head? := by
    intro e he
    have hmem : e ∈ s.sources d e.name :=
      List.mem_filter.mpr ⟨List.mem_append_right _ (List.mem_filter.mp he).1, beq_self_eq_true _⟩
    rw [sources_followedBy, List.head?_append_of_ne_nil _ (List.ne_nil_of_mem hmem)]
  have hlast : (∀ t ∈ (s.sources (d.followedBy (.type x)) x.name).head?, t.kind = x.kind) ↔
      ∀ t ∈ (s.sources d x.name).head?, t.kind = x.kind := by
    rw [sources_followedBy, if_pos rfl]
    cases s.sources d x.name with
    | nil => simp
    | cons y ys => rfl
  have hextensions : (d.followedBy (.type x)).typeExtensions =
      d.typeExtensions ++ if x.isExtension = true then [x] else [] := by
    rw [d.typeExtensions_followedBy]
    congr 1
    cases hx : x.isExtension <;> simp [Document.typeExtensions, Document.typeDefinitions, hx]
  rw [hextensions]
  simp only [List.forall_mem_append]
  refine and_congr (forall₂_congr fun e he => by rw [hhead e he]) ?_
  by_cases hx : x.isExtension = true
  · simp only [if_pos hx, List.forall_mem_singleton, hlast]
    exact ⟨fun h _ => h, fun h => h hx⟩
  · simp [hx]

theorem members_followedBy_iff :
    (∀ name, TypeDefinition.MembersOnce (s.sources (d.followedBy (.type x)) name)) ↔
      (∀ name, TypeDefinition.MembersOnce (s.sources d name)) ∧
        TypeDefinition.MembersOnce (s.sources d x.name ++ [x]) := by
  simp only [sources_followedBy]
  constructor
  · intro h
    refine ⟨fun name => (h name).of_append, ?_⟩
    simpa using h x.name
  · rintro ⟨h, hx⟩ name
    by_cases hname : x.name = name
    · rwa [← hname, if_pos rfl]
    · rw [if_neg hname, List.append_nil]
      exact h name

theorem accepts_followedBy_type_iff (hturn : x.isExtension = false → d.typeExtensions = []) :
    s.Accepts (d.followedBy (.type x)) ↔ s.Accepts d ∧ s.Admits d (.type x) := by
  have hdefinitions : (d.followedBy (.type x)).directiveDefinitions = d.directiveDefinitions :=
    (d.directiveDefinitions_followedBy _).trans (List.append_nil _)
  have hschema : (d.followedBy (.type x)).schemaDefinitions = d.schemaDefinitions :=
    (d.schemaDefinitions_followedBy _).trans (List.append_nil _)
  constructor
  · rintro ⟨hdirectives, htypeNames, hroots, hkinds, hmembers, happlications⟩
    obtain ⟨htypeNames, hbase⟩ := (typeNames_followedBy_iff hturn).mp htypeNames
    obtain ⟨hkinds, hkind⟩ := kinds_followedBy_iff.mp hkinds
    obtain ⟨hmembers, honce⟩ := members_followedBy_iff.mp hmembers
    obtain ⟨happlications, hjoin⟩ := (applications_followedBy_iff _).mp happlications
    rw [hdefinitions] at hdirectives
    rw [Document.namedRoots, hschema] at hroots
    refine ⟨⟨hdirectives, htypeNames, hroots, hkinds, hmembers, happlications⟩,
      hbase, ?_, honce, hjoin⟩
    cases hx : x.isExtension with
    | true => exact hkind hx
    | false =>
      rw [hbase hx]
      exact fun y hy => (Option.not_mem_none y hy).elim
  · rintro ⟨⟨hdirectives, htypeNames, hroots, hkinds, hmembers, happlications⟩, hadmits⟩
    refine ⟨?_, (typeNames_followedBy_iff hturn).mpr ⟨htypeNames, hadmits.base⟩, ?_,
      kinds_followedBy_iff.mpr ⟨hkinds, fun _ => hadmits.kind⟩,
      members_followedBy_iff.mpr ⟨hmembers, hadmits.members⟩,
      (applications_followedBy_iff _).mpr ⟨happlications, hadmits.applications⟩⟩
    · rwa [hdefinitions]
    · rwa [Document.namedRoots, hschema]

end

/-- **A document is accepted with one more definition** exactly when it is accepted and the
definition is admitted after it. -/
theorem accepts_followedBy_iff {x : Definition}
    (hturn : x.isTypeExtension = false → d.typeExtensions = []) :
    s.Accepts (d.followedBy x) ↔ s.Accepts d ∧ s.Admits d x := by
  cases x with
  | directive e => exact accepts_followedBy_directive_iff e
  | schema e => exact accepts_followedBy_schema_iff e
  | type x => exact accepts_followedBy_type_iff hturn

/-! ## A whole document -/

/-- **Definitions in turn are applied without a report exactly when they are accepted.** -/
theorem Combines.fold_eq_nil_iff (h : s.Combines s {}) {xs : List Definition}
    (hturn : xs.Pairwise fun x y => x.isTypeExtension = true → y.isTypeExtension = true) :
    (Reported.fold Schema.addInTurn s xs).2 = [] ↔ s.Accepts ⟨xs⟩ := by
  induction xs using List.reverseRecOn with
  | nil => exact ⟨fun _ => h.accepts, fun _ => rfl⟩
  | append_singleton xs x ih =>
    obtain ⟨hbefore, -, hlast⟩ := List.pairwise_append.mp hturn
    have hnone : x.isTypeExtension = false → (Document.mk xs).typeExtensions = [] := by
      intro hx
      refine List.filter_eq_nil_iff.mpr fun e he hext => ?_
      have hmem : Definition.type e ∈ xs := Document.mem_typeDefinitions.mp he
      have hlater := hlast _ hmem x List.mem_cons_self hext
      rw [hx] at hlater
      cases hlater
    have hsnoc : s.Accepts ⟨xs ++ [x]⟩ ↔ s.Accepts ⟨xs⟩ ∧ s.Admits ⟨xs⟩ x :=
      accepts_followedBy_iff (d := ⟨xs⟩) hnone
    rw [Reported.fold_append, List.append_eq_nil_iff, hsnoc, ← ih hbefore]
    refine and_congr_right fun hsilent => ?_
    rw [Reported.fold_cons, Reported.fold_nil, List.append_nil]
    exact (h.fold hsilent).addInTurn_eq_nil_iff x

/-- In turn, no definition follows an extension of a type. -/
theorem pairwise_inTurn (d : Document) :
    d.inTurn.definitions.Pairwise fun x y =>
      x.isTypeExtension = true → y.isTypeExtension = true := by
  refine List.pairwise_append.mpr ⟨?_, ?_, fun x _ y hy _ => (List.mem_filter.mp hy).2⟩
  · refine List.pairwise_of_forall_mem_list fun x hx y _ hext => ?_
    have hbase := (List.mem_filter.mp hx).2
    rw [hext] at hbase
    cases hbase
  · exact List.pairwise_of_forall_mem_list fun x _ y hy _ => (List.mem_filter.mp hy).2

/-- **The builder extends a schema exactly when it accepts the document** in turn. -/
theorem extend_iff_accepts (h : s.Reachable) (d : Document) :
    (∃ s', s.extend d true = .ok s') ↔ s.Accepts d.inTurn := by
  rw [← h.combines.fold_eq_nil_iff (pairwise_inTurn d)]
  constructor
  · rintro ⟨s', hs⟩
    rw [(extend_eq_ok_iff.mp hs).2]
  · intro hsilent
    have happlied : Reported.fold addInTurn s d.inTurn.definitions = (_, []) :=
      Prod.ext rfl hsilent
    exact ⟨_, extend_eq_ok_iff.mpr ⟨fun hvalid => (Bool.true_eq_false.mp hvalid).elim, happlied⟩⟩

/-- A schema accepts extensions of its types and new types, but not its own types a second time. -/
theorem shelves_accepts_moreShelves :
    ∃ s, empty.extend shelves = .ok s ∧ s.Accepts moreShelves.inTurn ∧
      ¬s.Accepts shelves.inTurn := by
  obtain ⟨s, s', ps, hs, hmore, hagain⟩ : ∃ s s' ps, empty.extend shelves = .ok s ∧
      s.extend moreShelves true = .ok s' ∧ s.extend shelves true = .error ps :=
    ⟨_, _, _, by cbv, by cbv, by cbv⟩
  have hreachable : s.Reachable := .extend .empty hs
  refine ⟨s, hs, (extend_iff_accepts hreachable moreShelves).mp ⟨s', hmore⟩, fun haccepts => ?_⟩
  obtain ⟨t, ht⟩ := (extend_iff_accepts hreachable shelves).mpr haccepts
  rw [hagain] at ht
  cases ht

end Schema

end Federation
