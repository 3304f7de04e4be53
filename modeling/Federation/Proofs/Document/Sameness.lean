import Federation.Document.Structure
import Federation.Proofs.Document.Legible
/-!
# Document — what is the same is written the same

The written form of a node shows its structure: no locations, and of
the numbers only the two zeros are one in the structure and two in the
text. A legible node has no numbers of that kind, so a node with the
same structure is written as the same pieces.
-/

namespace Federation

variable {α β γ : Type}

/-- Lists that a function maps to the same list are mapped to the same list by a function that the
first one determines. -/
theorem map_eq_of_map_eq {f : α → β} {g : α → γ} {as bs : List α}
    (h : ∀ b ∈ bs, ∀ a, f a = f b → g a = g b) (he : as.map f = bs.map f) :
    as.map g = bs.map g := by
  induction as generalizing bs with
  | nil =>
    cases bs with
    | nil => rfl
    | cons b bs => cases he
  | cons a as ih =>
    cases bs with
    | nil => cases he
    | cons b bs =>
      obtain ⟨hb, hbs⟩ := List.forall_mem_cons.mp h
      obtain ⟨hhead, htail⟩ := List.cons.inj he
      rw [List.map_cons, List.map_cons, hb a hhead, ih hbs htail]

theorem eq_of_map_eq {f : α → β} {as bs : List α} (h : ∀ b ∈ bs, ∀ a, f a = f b → a = b)
    (he : as.map f = bs.map f) : as = bs := by
  have hid := map_eq_of_map_eq (g := id) h he
  rwa [List.map_id, List.map_id] at hid

namespace Value

mutual

/-- A legible value has no other value of its structure. -/
theorem eq_of_canonical_eq : ∀ {a b : Value}, b.Legible → a.canonical = b.canonical → a = b
  -- zero has two signs and one structure, so floating point numbers have to be left out
  | a, float x, h, _ => (h (float x) (mem_parts_self _)).elim
  | a, list bs, h, he => by
    cases a with
    | list as =>
      rw [canonical, canonical, list.injEq] at he
      rw [eq_of_canonicalList_eq (legible_list.mp h) he]
    | _ => simp [canonical] at he
  | a, object bs, h, he => by
    cases a with
    | object as =>
      rw [canonical, canonical, object.injEq] at he
      rw [eq_of_canonicalFields_eq (fun f hf => (legible_object.mp h f hf).2) he]
    | _ => simp [canonical] at he
  | a, null, _, he => by cases a <;> simp_all [canonical]
  | a, int n, _, he => by cases a <;> simp_all [canonical]
  | a, string s, _, he => by cases a <;> simp_all [canonical]
  | a, boolean b, _, he => by cases a <;> simp_all [canonical]
  | a, enum name, _, he => by cases a <;> simp_all [canonical]

theorem eq_of_canonicalList_eq : ∀ {as bs : List Value}, (∀ b ∈ bs, b.Legible) →
    canonicalList as = canonicalList bs → as = bs
  | [], [], _, _ => rfl
  | a :: as, b :: bs, h, he => by
    obtain ⟨hb, hbs⟩ := List.forall_mem_cons.mp h
    rw [canonicalList, canonicalList, List.cons.injEq] at he
    rw [eq_of_canonical_eq hb he.1, eq_of_canonicalList_eq hbs he.2]
  | [], b :: bs, _, he => by simp [canonicalList] at he
  | a :: as, [], _, he => by simp [canonicalList] at he

theorem eq_of_canonicalFields_eq : ∀ {as bs : List (String × Value)},
    (∀ b ∈ bs, b.2.Legible) → canonicalFields as = canonicalFields bs → as = bs
  | [], [], _, _ => rfl
  | (m, a) :: as, (n, b) :: bs, h, he => by
    obtain ⟨hb, hbs⟩ := List.forall_mem_cons.mp h
    rw [canonicalFields, canonicalFields, List.cons.injEq, Prod.mk.injEq] at he
    rw [he.1.1, eq_of_canonical_eq hb he.1.2, eq_of_canonicalFields_eq hbs he.2]
  | [], b :: bs, _, he => by simp [canonicalFields] at he
  | a :: as, [], _, he => by simp [canonicalFields] at he

end

end Value

theorem Argument.eq_of_canonical_eq {a b : Argument} (hb : b.value.Legible)
    (he : a.canonical = b.canonical) : a = b := by
  rw [canonical, canonical, mk.injEq] at he
  obtain ⟨hn, hv⟩ := he
  have hv := Value.eq_of_canonical_eq hb hv
  cases a
  cases b
  dsimp only at hn hv
  rw [hn, hv]

theorem Directive.eq_of_canonical_eq {a b : Directive} (hb : b.Legible)
    (he : a.canonical = b.canonical) : a = b := by
  rw [canonical, canonical, mk.injEq] at he
  obtain ⟨hn, ha⟩ := he
  have ha := eq_of_map_eq
    (fun x hx _ hxy => Argument.eq_of_canonical_eq (hb.arguments x hx).2 hxy) ha
  cases a
  cases b
  dsimp only at hn ha
  rw [hn, ha]

theorem directives_eq {as bs : List Directive} (hb : ∀ b ∈ bs, b.Legible)
    (he : as.map Directive.canonical = bs.map Directive.canonical) : as = bs :=
  eq_of_map_eq (fun b h _ hab => Directive.eq_of_canonical_eq (hb b h) hab) he

/-! ## Members -/

namespace InputValue

variable {a b : InputValue}

theorem default_eq (hb : ∀ x ∈ b.default, x.Legible)
    (he : a.default.map Value.canonical = b.default.map Value.canonical) :
    a.default = b.default := by
  cases ha : a.default with
  | none =>
    rw [ha] at he
    exact (Option.map_eq_none_iff.mp he.symm).symm
  | some x =>
    rw [ha, Option.map_some] at he
    obtain ⟨y, hy, hxy⟩ := Option.map_eq_some_iff.mp he.symm
    rw [hy, Value.eq_of_canonical_eq (hb y hy) hxy.symm]

theorem pieces_eq (hb : b.Legible) (he : a.canonical = b.canonical) : a.pieces = b.pieces := by
  rw [canonical, canonical, mk.injEq] at he
  obtain ⟨hn, -, ht, hx, hds, -⟩ := he
  rw [pieces, pieces, hn, ht, default_eq hb.default hx, directives_eq hb.directives hds]

theorem description_eq (he : a.canonical = b.canonical) : a.description = b.description := by
  rw [canonical, canonical, mk.injEq] at he
  exact he.2.1

theorem argumentPieces_eq (hb : b.Legible) (he : a.canonical = b.canonical) :
    a.argumentPieces = b.argumentPieces := by
  have hs := description_eq he
  rw [argumentPieces, argumentPieces, hs, pieces_eq hb he]

/-- An argument or input field as a member of a block. -/
theorem member_eq (hb : b.Legible) (he : a.canonical = b.canonical) :
    (a.description, a.pieces) = (b.description, b.pieces) :=
  Prod.ext (description_eq he) (pieces_eq hb he)

theorem listPieces_eq {as bs : List InputValue} (hb : ∀ b ∈ bs, b.Legible)
    (he : as.map canonical = bs.map canonical) : listPieces as = listPieces bs := by
  have hrows := map_eq_of_map_eq (fun b h a hab => argumentPieces_eq (hb b h) hab) he
  have hnil : as = [] ↔ bs = [] := by
    rw [← List.map_eq_nil_iff (f := canonical), he, List.map_eq_nil_iff]
  rw [listPieces, listPieces, hrows]
  simp only [hnil]

end InputValue

theorem Field.member_eq {a b : Field} (hb : b.Legible) (he : a.canonical = b.canonical) :
    (a.description, a.pieces) = (b.description, b.pieces) := by
  rw [canonical, canonical, mk.injEq] at he
  obtain ⟨hn, hs, has, ht, hds, -⟩ := he
  rw [pieces, pieces, hs, hn, ht, InputValue.listPieces_eq hb.arguments has,
    directives_eq hb.directives hds]

theorem EnumValue.member_eq {a b : EnumValue} (hb : b.Legible) (he : a.canonical = b.canonical) :
    (a.description, a.pieces) = (b.description, b.pieces) := by
  rw [canonical, canonical, mk.injEq] at he
  obtain ⟨hn, hs, hds, -⟩ := he
  rw [pieces, pieces, hs, hn, directives_eq hb.directives hds]

/-! ## Definitions -/

namespace TypeBody

theorem implements_canonical (b : TypeBody) : b.canonical.implements = b.implements := by
  cases b <;> rfl

theorem members_canonical (b : TypeBody) : b.canonical.members = b.members := by
  cases b <;> rfl

theorem fields_canonical (b : TypeBody) : b.canonical.fields = b.fields.map Field.canonical := by
  cases b <;> rfl

theorem enumValues_canonical (b : TypeBody) :
    b.canonical.enumValues = b.enumValues.map EnumValue.canonical := by
  cases b <;> rfl

theorem inputFields_canonical (b : TypeBody) :
    b.canonical.inputFields = b.inputFields.map InputValue.canonical := by
  cases b <;> rfl

/-- The pieces of a body by its kind and its members. -/
theorem pieces_eq_of_kind (b : TypeBody) : b.pieces =
    match b.kind with
    | .scalar => []
    | .object | .interface => blockPieces (b.fields.map fun f => (f.description, f.pieces))
    | .union =>
      if b.members = [] then []
      else .space :: .punctuator .equals :: .space :: namePieces .pipe b.members
    | .enum => blockPieces (b.enumValues.map fun v => (v.description, v.pieces))
    | .inputObject => blockPieces (b.inputFields.map fun v => (v.description, v.pieces)) := by
  cases b <;> rfl

theorem pieces_eq {a b : TypeBody} (hb : b.Legible) (he : a.canonical = b.canonical) :
    a.pieces = b.pieces := by
  have hk : a.kind = b.kind := by
    rw [← kind_canonical a, he, kind_canonical]
  have hm : a.members = b.members := by
    rw [← members_canonical a, he, members_canonical]
  have hf : a.fields.map Field.canonical = b.fields.map Field.canonical := by
    rw [← fields_canonical, he, fields_canonical]
  have hv : a.enumValues.map EnumValue.canonical = b.enumValues.map EnumValue.canonical := by
    rw [← enumValues_canonical, he, enumValues_canonical]
  have hi : a.inputFields.map InputValue.canonical = b.inputFields.map InputValue.canonical := by
    rw [← inputFields_canonical, he, inputFields_canonical]
  have hfields := map_eq_of_map_eq (fun f h _ hab => Field.member_eq (hb.fields f h) hab) hf
  have hvalues := map_eq_of_map_eq (fun v h _ hab => EnumValue.member_eq (hb.enumValues v h) hab) hv
  have hinputs :=
    map_eq_of_map_eq (fun v h _ hab => InputValue.member_eq (hb.inputFields v h) hab) hi
  rw [pieces_eq_of_kind a, pieces_eq_of_kind b, hk, hm, hfields, hvalues, hinputs]

end TypeBody

theorem TypeDefinition.pieces_eq {a b : TypeDefinition} (hb : b.Legible)
    (he : a.canonical = b.canonical) : a.pieces = b.pieces := by
  rw [canonical, canonical, mk.injEq] at he
  obtain ⟨hn, hs, hds, hx, hbody, -⟩ := he
  have hk : a.kind = b.kind := by
    rw [kind, kind, ← TypeBody.kind_canonical a.body, hbody, TypeBody.kind_canonical]
  have hi : a.implements = b.implements := by
    rw [implements, implements, ← TypeBody.implements_canonical a.body, hbody,
      TypeBody.implements_canonical]
  rw [pieces, pieces, hs, hx, hn, hk, hi, directives_eq hb.directives hds,
    TypeBody.pieces_eq hb.body hbody]

theorem SchemaDefinition.pieces_eq {a b : SchemaDefinition} (hb : b.Legible)
    (he : a.canonical = b.canonical) : a.pieces = b.pieces := by
  rw [canonical, canonical, mk.injEq] at he
  obtain ⟨hs, hds, hr, hx, -⟩ := he
  rw [pieces, pieces, hs, hx, hr, directives_eq hb.directives hds]

theorem DirectiveDefinition.pieces_eq {a b : DirectiveDefinition} (hb : b.Legible)
    (he : a.canonical = b.canonical) : a.pieces = b.pieces := by
  rw [canonical, canonical, mk.injEq] at he
  obtain ⟨hn, hs, has, hx, hl, -⟩ := he
  rw [pieces, pieces, hs, hn, hx, hl, InputValue.listPieces_eq hb.arguments has]

theorem Definition.pieces_eq {a b : Definition} (hb : b.Legible)
    (he : a.canonical = b.canonical) : a.pieces = b.pieces := by
  cases b with
  | schema b =>
    cases a with
    | schema a => exact SchemaDefinition.pieces_eq hb (schema.inj he)
    | type a => cases he
    | directive a => cases he
  | type b =>
    cases a with
    | schema a => cases he
    | type a => exact TypeDefinition.pieces_eq hb (type.inj he)
    | directive a => cases he
  | directive b =>
    cases a with
    | schema a => cases he
    | type a => cases he
    | directive a => exact DirectiveDefinition.pieces_eq hb (directive.inj he)

/-- **A document that is the same as a legible one is written the same.** -/
theorem Document.text_eq_of_same {a b : Document} (hb : b.Legible) (h : a.same b = true) :
    a.text = b.text := by
  have he := same_iff.mp h
  rw [canonical, canonical, mk.injEq] at he
  have hrows := map_eq_of_map_eq
    (fun x hx _ hxy => Definition.pieces_eq (hb.definitions x hx) hxy) he
  rw [text, text, pieces, pieces, hrows]

end Federation
