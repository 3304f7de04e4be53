import Federation.Proofs.Directives.Joining
import Federation.Proofs.Schema.Building
/-!
# Schema — what a type gathers

A type gathers definitions of its kind: it has the first description of
them, the concatenation of their fields, values and input fields, and
the first occurrences of their applications, interfaces and union
members (`TypeDefinition.Gathers`). A type that absorbs one more
definition without a report gathers that one too (`Gathers.absorb`),
and there is no report exactly when no member repeats and every
application may join (`Gathers.absorb_eq_nil_iff`).
-/

namespace Federation

section

variable {α : Type} (name : α → String)

/-- Adding members keeps first occurrences. -/
theorem addMembers_firstsBy (as bs : List α) :
    addMembers name (firstsBy name as) bs = firstsBy name (as ++ bs) := by
  induction bs generalizing as with
  | nil => rw [List.append_nil]; rfl
  | cons b bs ih =>
    have htaken : (firstsBy name as).any (name · == name b) = true ↔ name b ∈ as.map name := by
      rw [← mem_map_firstsBy name, List.mem_map, List.any_eq_true]
      simp only [beq_iff_eq]
    rw [addMembers_cons, List.append_cons as b bs, ← ih]
    split
    · rename_i hany
      rw [firstsBy_concat_of_mem name (htaken.mp hany)]
    · rename_i hany
      rw [firstsBy_concat_of_not_mem name fun hmem => hany (htaken.mpr hmem)]

/-- No member is left out exactly when no name repeats. -/
theorem repeatedMembers_eq_nil_iff {target source : List α} (h : (target.map name).Nodup) :
    repeatedMembers name target source = [] ↔ ((target ++ source).map name).Nodup := by
  refine ⟨fun hnone => ?_, repeatedMembers_of_nodup name target source⟩
  induction source generalizing target with
  | nil => rwa [List.append_nil]
  | cons m source ih =>
    rw [repeatedMembers] at hnone
    split at hnone
    · cases hnone
    · rename_i hany
      rw [List.append_cons]
      refine ih (nodup_map_concat_iff.mpr ⟨h, fun hmem => hany ?_⟩) hnone
      obtain ⟨b, hb, hname⟩ := List.mem_map.mp hmem
      exact List.any_eq_true.mpr ⟨b, hb, beq_iff_eq.mpr hname⟩

end

/-! ## Bodies of one kind -/

namespace TypeBody

variable {b c : TypeBody}

/-- No field, value or input field of a list of bodies repeats. -/
structure DistinctNames (fields : List Field) (enumValues : List EnumValue)
    (inputFields : List InputValue) : Prop where
  fields : (fields.map Field.name).Nodup
  enumValues : (enumValues.map EnumValue.name).Nodup
  inputFields : (inputFields.map InputValue.name).Nodup

variable (h : b.kind = c.kind)
include h

theorem kind_addMembers : (b.addMembers c).kind = b.kind := by
  cases b <;> cases c <;> cases h <;> rfl

theorem implements_addMembers :
    (b.addMembers c).implements = Federation.addMembers id b.implements c.implements := by
  cases b <;> cases c <;> cases h <;> rfl

theorem members_addMembers :
    (b.addMembers c).members = Federation.addMembers id b.members c.members := by
  cases b <;> cases c <;> cases h <;> rfl

theorem fields_addMembers :
    (b.addMembers c).fields = Federation.addMembers Field.name b.fields c.fields := by
  cases b <;> cases c <;> cases h <;> rfl

theorem enumValues_addMembers :
    (b.addMembers c).enumValues =
      Federation.addMembers EnumValue.name b.enumValues c.enumValues := by
  cases b <;> cases c <;> cases h <;> rfl

theorem inputFields_addMembers :
    (b.addMembers c).inputFields =
      Federation.addMembers InputValue.name b.inputFields c.inputFields := by
  cases b <;> cases c <;> cases h <;> rfl

theorem distinctMembers_addMembers (hb : b.DistinctMembers) :
    (b.addMembers c).DistinctMembers := by
  have hlisted : ∀ {as bs : List String}, as.Nodup → (Federation.addMembers id as bs).Nodup := by
    intro as bs has
    have hids : (as.map id).Nodup := by rwa [List.map_id]
    simpa using nodup_addMembers id hids
  cases b <;> cases c <;> cases h
  case scalar.scalar => trivial
  case object.object | interface.interface =>
    exact ⟨hlisted hb.1, nodup_addMembers Field.name hb.2⟩
  case union.union => exact hlisted hb
  case enum.enum => exact nodup_addMembers EnumValue.name hb
  case inputObject.inputObject => exact nodup_addMembers InputValue.name hb

theorem repeatedMembers_eq_nil_iff (hb : b.DistinctMembers) :
    b.repeatedMembers c = [] ↔
      DistinctNames (b.fields ++ c.fields) (b.enumValues ++ c.enumValues)
        (b.inputFields ++ c.inputFields) := by
  have hempty : b.repeatedMembers c = [] ↔
      Federation.repeatedMembers Field.name b.fields c.fields = [] ∧
      Federation.repeatedMembers EnumValue.name b.enumValues c.enumValues = [] ∧
      Federation.repeatedMembers InputValue.name b.inputFields c.inputFields = [] := by
    cases b <;> cases c <;> cases h
    case scalar.scalar | union.union => exact ⟨fun _ => ⟨rfl, rfl, rfl⟩, fun _ => rfl⟩
    case object.object | interface.interface =>
      exact List.map_eq_nil_iff.trans ⟨fun hf => ⟨hf, rfl, rfl⟩, fun hall => hall.1⟩
    case enum.enum =>
      exact List.map_eq_nil_iff.trans ⟨fun hv => ⟨rfl, hv, rfl⟩, fun hall => hall.2.1⟩
    case inputObject.inputObject =>
      exact List.map_eq_nil_iff.trans ⟨fun hi => ⟨rfl, rfl, hi⟩, fun hall => hall.2.2⟩
  rw [hempty, Federation.repeatedMembers_eq_nil_iff _ hb.fields,
    Federation.repeatedMembers_eq_nil_iff _ hb.enumValues,
    Federation.repeatedMembers_eq_nil_iff _ hb.inputFields]
  exact ⟨fun ⟨hf, hv, hi⟩ => ⟨hf, hv, hi⟩, fun ⟨hf, hv, hi⟩ => ⟨hf, hv, hi⟩⟩

end TypeBody

namespace TypeDefinition

variable {isRepeatable : String → Bool} {t x : TypeDefinition} {sources : List TypeDefinition}

/-- A type gathers definitions: it is of their kind, has the first description, and holds what they
hold, in order. Applications, interfaces and union members are kept where they first occur; of
fields, values and input fields no name occurs twice. -/
structure Gathers (t : TypeDefinition) (sources : List TypeDefinition) : Prop where
  kind : ∀ x ∈ sources, x.kind = t.kind
  description : t.description = sources.findSome? (·.description)
  directives : t.directives = firstsBy Directive.canonical (sources.flatMap (·.directives))
  implements : t.implements = distinct (sources.flatMap (·.implements))
  members : t.body.members = distinct (sources.flatMap (·.body.members))
  fields : t.fields = sources.flatMap (·.fields)
  enumValues : t.body.enumValues = sources.flatMap (·.body.enumValues)
  inputFields : t.body.inputFields = sources.flatMap (·.body.inputFields)
  distinctMembers : t.body.DistinctMembers

/-- No field, value or input field occurs twice in a list of definitions. -/
def MembersOnce (ts : List TypeDefinition) : Prop :=
  TypeBody.DistinctNames (ts.flatMap (·.fields)) (ts.flatMap (·.body.enumValues))
    (ts.flatMap (·.body.inputFields))

theorem MembersOnce.of_append {ts us : List TypeDefinition} (h : MembersOnce (ts ++ us)) :
    MembersOnce ts := by
  rw [MembersOnce, List.flatMap_append, List.flatMap_append, List.flatMap_append] at h
  exact
    { fields := h.fields.sublist ((List.sublist_append_left _ _).map _)
      enumValues := h.enumValues.sublist ((List.sublist_append_left _ _).map _)
      inputFields := h.inputFields.sublist ((List.sublist_append_left _ _).map _) }

/-- A type keeps another one: it goes by its name, is of its kind, has its description if there is
one, and starts with what that one holds. -/
structure Keeps (t' t : TypeDefinition) : Prop where
  name : t'.name = t.name
  kind : t'.kind = t.kind
  description : t.description.isSome = true → t'.description = t.description
  directives : t.directives <+: t'.directives
  implements : t.implements <+: t'.implements
  members : t.body.members <+: t'.body.members
  fields : t.fields <+: t'.fields
  enumValues : t.body.enumValues <+: t'.body.enumValues
  inputFields : t.body.inputFields <+: t'.body.inputFields

/-- The type that an extension starts from gathers nothing. -/
theorem gathers_typeForExtension (e : TypeDefinition) :
    (Schema.typeForExtension e).Gathers [] := by
  refine ⟨by simp, rfl, rfl, ?_, ?_, ?_, ?_, ?_, ?_⟩ <;>
    cases hkind : e.kind <;>
    simp [Schema.typeForExtension, TypeDefinition.implements, TypeDefinition.fields, hkind,
      TypeBody.empty, TypeBody.implements, TypeBody.members, TypeBody.fields,
      TypeBody.enumValues, TypeBody.inputFields, TypeBody.DistinctMembers, distinct]

/-- A base definition is applied as the extension of a type that is not there. -/
theorem shell_absorb (h : x.isExtension = false) :
    x.shell.absorb isRepeatable x = (Schema.typeForExtension x).absorb isRepeatable x := by
  cases x with
  | mk name description directives isExtension body location =>
    cases h
    cases description <;> rfl

namespace Gathers

variable (h : t.Gathers sources)
include h

theorem membersOnce : MembersOnce sources := by
  rw [MembersOnce, ← h.fields, ← h.enumValues, ← h.inputFields]
  exact ⟨h.distinctMembers.fields, h.distinctMembers.enumValues, h.distinctMembers.inputFields⟩

/-- The problems of absorbing a definition are conflicts and repeated members. -/
theorem absorb_eq_nil_iff (hkind : x.kind = t.kind) :
    (t.absorb isRepeatable x).2 = [] ↔
      Directive.conflicts isRepeatable t.directives x.directives = [] ∧
        TypeBody.DistinctNames (t.fields ++ x.fields) (t.body.enumValues ++ x.body.enumValues)
          (t.body.inputFields ++ x.body.inputFields) := by
  have hbody : t.body.kind = x.body.kind := hkind.symm
  rw [TypeDefinition.absorb, List.append_eq_nil_iff, Directive.conflictDiagnostics,
    List.map_eq_nil_iff, List.map_eq_nil_iff,
    TypeBody.repeatedMembers_eq_nil_iff hbody h.distinctMembers]
  rfl

/-- **What a type absorbs without a report it gathers.** -/
theorem absorb (hkind : x.kind = t.kind) (hsilent : (t.absorb isRepeatable x).2 = []) :
    (t.absorb isRepeatable x).1.Gathers (sources ++ [x]) := by
  obtain ⟨hconflicts, hnames⟩ := (h.absorb_eq_nil_iff hkind).mp hsilent
  have hbody : t.body.kind = x.body.kind := hkind.symm
  have hdirectives : Directive.merge isRepeatable t.directives x.directives =
      firstsBy Directive.canonical ((sources ++ [x]).flatMap (·.directives)) := by
    rw [h.directives] at hconflicts ⊢
    rw [Directive.merge_firstsBy hconflicts, List.flatMap_append, List.flatMap_singleton]
  have himplements : (t.body.addMembers x.body).implements =
      distinct ((sources ++ [x]).flatMap (·.implements)) := by
    rw [TypeBody.implements_addMembers hbody, show t.body.implements = _ from h.implements,
      distinct, addMembers_firstsBy, List.flatMap_append, List.flatMap_singleton]
    rfl
  have hmembers : (t.body.addMembers x.body).members =
      distinct ((sources ++ [x]).flatMap (·.body.members)) := by
    rw [TypeBody.members_addMembers hbody, h.members, distinct, addMembers_firstsBy,
      List.flatMap_append, List.flatMap_singleton]
    rfl
  have hfields : (t.body.addMembers x.body).fields = t.fields ++ x.fields := by
    rw [TypeBody.fields_addMembers hbody]
    exact addMembers_of_nodup _ _ _ hnames.fields
  have hvalues : (t.body.addMembers x.body).enumValues =
      t.body.enumValues ++ x.body.enumValues := by
    rw [TypeBody.enumValues_addMembers hbody, addMembers_of_nodup _ _ _ hnames.enumValues]
  have hinputs : (t.body.addMembers x.body).inputFields =
      t.body.inputFields ++ x.body.inputFields := by
    rw [TypeBody.inputFields_addMembers hbody, addMembers_of_nodup _ _ _ hnames.inputFields]
  refine
    { kind := fun y hy => ?_
      description := ?_
      directives := hdirectives
      implements := himplements
      members := hmembers
      fields := ?_
      enumValues := ?_
      inputFields := ?_
      distinctMembers := TypeBody.distinctMembers_addMembers hbody h.distinctMembers }
  · have hkept : (t.absorb isRepeatable x).1.kind = t.kind := TypeBody.kind_addMembers hbody
    rw [hkept]
    rcases List.mem_append.mp hy with hy | hy
    · exact h.kind y hy
    · rw [List.mem_singleton.mp hy, hkind]
  · rw [List.findSome?_append, ← h.description, List.findSome?_singleton]
    change (t.description <|> x.description) = _
    cases t.description <;> rfl
  · rw [List.flatMap_append, List.flatMap_singleton, ← h.fields]
    exact hfields
  · rw [List.flatMap_append, List.flatMap_singleton, ← h.enumValues]
    exact hvalues
  · rw [List.flatMap_append, List.flatMap_singleton, ← h.inputFields]
    exact hinputs

/-- What a type gathers is settled: the type gathers itself. -/
theorem self : t.Gathers [t] := by
  refine
    { kind := fun x hx => by rw [List.mem_singleton.mp hx]
      description := List.findSome?_singleton.symm
      directives := ?_
      implements := ?_
      members := ?_
      fields := (List.flatMap_singleton ..).symm
      enumValues := (List.flatMap_singleton ..).symm
      inputFields := (List.flatMap_singleton ..).symm
      distinctMembers := h.distinctMembers }
  · rw [List.flatMap_singleton, firstsBy_eq_self]
    rw [h.directives]
    exact nodup_map_firstsBy Directive.canonical _
  · rw [List.flatMap_singleton, distinct_eq_self]
    exact h.distinctMembers.implements
  · rw [List.flatMap_singleton, distinct_eq_self]
    exact h.distinctMembers.members

/-- **A type that gathers more keeps what there was**, and adds to it at the end. -/
theorem keeps {t' : TypeDefinition} {more : List TypeDefinition} (h' : t'.Gathers (sources ++ more))
    (hname : t'.name = t.name) (hne : sources ≠ []) : t'.Keeps t := by
  have hprefix : ∀ {β : Type} (f : TypeDefinition → List β),
      sources.flatMap f <+: (sources ++ more).flatMap f := fun f => by
    rw [List.flatMap_append]
    exact List.prefix_append _ _
  have hfirsts : ∀ {β κ : Type} [DecidableEq κ] (key : β → κ) (f : TypeDefinition → List β),
      firstsBy key (sources.flatMap f) <+: firstsBy key ((sources ++ more).flatMap f) :=
    fun key f => by
      rw [List.flatMap_append]
      exact firstsBy_prefix key _ _
  refine
    { name := hname
      kind := ?_
      description := fun hsome => ?_
      directives := h.directives ▸ h'.directives ▸ hfirsts _ _
      implements := h.implements ▸ h'.implements ▸ hfirsts _ _
      members := h.members ▸ h'.members ▸ hfirsts _ _
      fields := h.fields ▸ h'.fields ▸ hprefix _
      enumValues := h.enumValues ▸ h'.enumValues ▸ hprefix _
      inputFields := h.inputFields ▸ h'.inputFields ▸ hprefix _ }
  · obtain ⟨x, hx⟩ := List.exists_mem_of_ne_nil sources hne
    rw [← h.kind x hx, ← h'.kind x (List.mem_append_left _ hx)]
  · rw [h'.description, List.findSome?_append, ← h.description, Option.or_of_isSome hsome]

end Gathers

end TypeDefinition

end Federation
