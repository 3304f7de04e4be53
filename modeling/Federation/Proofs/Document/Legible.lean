import Federation.Document.Grammar
import Federation.Document.Parser
import Federation.Proofs.Document.Lexing
/-!
# Document — legible documents

A document is legible when its written form reads back as the same
document: names are names, type references exclude null once at each
level, the types of root operations stand in order, strings lie in the
basic plane. Every document that is read is legible in all that the
grammar decides. What the grammar leaves open is what `Plain` asks for:
no floating point values, no characters beyond the basic plane and no
unusual white space in descriptions.
-/

namespace Federation

/-! ## What a document holds -/

namespace Value

mutual

/-- A value and the values inside it. -/
def parts : Value → List Value
  | null => [null]
  | int n => [int n]
  | float x => [float x]
  | string s => [string s]
  | boolean b => [boolean b]
  | enum name => [enum name]
  | list items => list items :: itemParts items
  | object fields => object fields :: fieldParts fields

/-- The items of a list and the values inside them. -/
def itemParts : List Value → List Value
  | [] => []
  | v :: vs => v.parts ++ itemParts vs

/-- The values of an object and the values inside them. -/
def fieldParts : List (String × Value) → List Value
  | [] => []
  | (_, v) :: fs => v.parts ++ fieldParts fs

end

theorem itemParts_eq (vs : List Value) : itemParts vs = vs.flatMap parts := by
  induction vs with
  | nil => simp [itemParts]
  | cons v vs ih => simp [itemParts, ih]

theorem fieldParts_eq (fs : List (String × Value)) : fieldParts fs = fs.flatMap (·.2.parts) := by
  induction fs with
  | nil => simp [fieldParts]
  | cons f fs ih => simp [fieldParts, ih]

theorem mem_parts_self (v : Value) : v ∈ v.parts := by
  cases v <;> simp [parts]

end Value

/-- The values in the arguments of an application. -/
def Directive.values (d : Directive) : List Value :=
  d.arguments.flatMap (·.value.parts)

namespace InputValue

/-- The values in the default and in the applications on an input value. -/
def values (v : InputValue) : List Value :=
  v.default.toList.flatMap Value.parts ++ v.directives.flatMap Directive.values

/-- The description of an input value. -/
def descriptions (v : InputValue) : List String :=
  v.description.toList

end InputValue

namespace Field

/-- The values in the arguments of a field and in the applications on it. -/
def values (f : Field) : List Value :=
  f.arguments.flatMap InputValue.values ++ f.directives.flatMap Directive.values

/-- The descriptions of a field and of its arguments. -/
def descriptions (f : Field) : List String :=
  f.description.toList ++ f.arguments.flatMap InputValue.descriptions

end Field

namespace EnumValue

/-- The values in the applications on a value of an enumeration. -/
def values (v : EnumValue) : List Value :=
  v.directives.flatMap Directive.values

/-- The description of a value of an enumeration. -/
def descriptions (v : EnumValue) : List String :=
  v.description.toList

end EnumValue

namespace TypeBody

/-- The values in the members of a body. -/
def values (b : TypeBody) : List Value :=
  b.fields.flatMap Field.values ++ b.enumValues.flatMap EnumValue.values ++
    b.inputFields.flatMap InputValue.values

/-- The descriptions of the members of a body. -/
def descriptions (b : TypeBody) : List String :=
  b.fields.flatMap Field.descriptions ++ b.enumValues.flatMap EnumValue.descriptions ++
    b.inputFields.flatMap InputValue.descriptions

end TypeBody

namespace Definition

/-- The values in a definition. -/
def values : Definition → List Value
  | schema d => d.directives.flatMap Directive.values
  | type d => d.directives.flatMap Directive.values ++ d.body.values
  | directive d => d.arguments.flatMap InputValue.values

/-- The descriptions in a definition. -/
def descriptions : Definition → List String
  | schema d => d.description.toList
  | type d => d.description.toList ++ d.body.descriptions
  | directive d => d.description.toList ++ d.arguments.flatMap InputValue.descriptions

end Definition

namespace Document

/-- The values in a document: arguments of applications, defaults, and the values inside them. -/
def values (d : Document) : List Value :=
  d.definitions.flatMap Definition.values

/-- The descriptions in a document. -/
def descriptions (d : Document) : List String :=
  d.definitions.flatMap Definition.descriptions

end Document

/-! ## What the grammar leaves open -/

/-- A string of characters up to U+FFFF. -/
def InBasicPlane (s : String) : Prop :=
  ∀ c ∈ s.toList, c.toNat ≤ 0xFFFF

instance : DecidablePred InBasicPlane :=
  fun s => List.decidableBAll (fun c : Char => c.toNat ≤ 0xFFFF) s.toList

/-- A value that is no floating point number and no string with characters above U+FFFF. The values
inside it are not looked at. -/
def Value.IsPlain : Value → Prop
  | float _ => False
  | string s => InBasicPlane s
  | null | int _ | boolean _ | enum _ | list _ | object _ => True

instance : DecidablePred Value.IsPlain
  | .float _ => inferInstanceAs (Decidable False)
  | .string s => inferInstanceAs (Decidable (InBasicPlane s))
  | .null | .int _ | .boolean _ | .enum _ | .list _ | .object _ => inferInstanceAs (Decidable True)

/-- A description without characters above U+FFFF and without white space other than space, tab
and line ends. -/
def IsPlainDescription (s : String) : Prop :=
  InBasicPlane s ∧ Text.Block.KnownSpace s.toList

instance : DecidablePred IsPlainDescription :=
  fun s => inferInstanceAs (Decidable (InBasicPlane s ∧ Text.Block.KnownSpace s.toList))

/-- Plain values and plain descriptions. -/
structure Plain (values : List Value) (descriptions : List String) : Prop where
  values : ∀ v ∈ values, v.IsPlain
  descriptions : ∀ s ∈ descriptions, IsPlainDescription s

instance (values : List Value) (descriptions : List String) :
    Decidable (Plain values descriptions) :=
  decidable_of_iff ((∀ v ∈ values, v.IsPlain) ∧ ∀ s ∈ descriptions, IsPlainDescription s)
    ⟨fun h => ⟨h.1, h.2⟩, fun h => ⟨h.1, h.2⟩⟩

/-- A document whose values and descriptions are plain. -/
def Document.IsPlain (d : Document) : Prop :=
  Plain d.values d.descriptions

instance : DecidablePred Document.IsPlain :=
  fun d => inferInstanceAs (Decidable (Plain d.values d.descriptions))

/-! ## Legible nodes -/

namespace Value

/-- The names that are values of their own. -/
def words : List String := ["true", "false", "null"]

/-- A value that reads back, if the values inside it do. -/
def IsLegible : Value → Prop
  | float _ => False
  | string s => InBasicPlane s
  | enum name => isName name = true ∧ name ∉ words
  | object fields => ∀ f ∈ fields, isName f.1 = true
  | null | int _ | boolean _ | list _ => True

instance : DecidablePred IsLegible
  | float _ => inferInstanceAs (Decidable False)
  | string s => inferInstanceAs (Decidable (InBasicPlane s))
  | enum name => inferInstanceAs (Decidable (isName name = true ∧ name ∉ words))
  | object fields => inferInstanceAs (Decidable (∀ f ∈ fields, isName f.1 = true))
  | null | int _ | boolean _ | list _ => inferInstanceAs (Decidable True)

/-- A value that reads back. -/
def Legible (v : Value) : Prop :=
  ∀ x ∈ v.parts, x.IsLegible

instance : DecidablePred Legible :=
  fun v => inferInstanceAs (Decidable (∀ x ∈ v.parts, x.IsLegible))

theorem legible_list {items : List Value} :
    (list items).Legible ↔ ∀ v ∈ items, v.Legible := by
  simp only [Legible, parts, itemParts_eq, List.forall_mem_cons, List.mem_flatMap]
  constructor
  · rintro ⟨-, h⟩ v hv x hx
    exact h x ⟨v, hv, hx⟩
  · intro h
    refine ⟨trivial, ?_⟩
    rintro x ⟨v, hv, hx⟩
    exact h v hv x hx

theorem legible_object {fields : List (String × Value)} :
    (object fields).Legible ↔ ∀ f ∈ fields, isName f.1 = true ∧ f.2.Legible := by
  simp only [Legible, parts, fieldParts_eq, List.forall_mem_cons, List.mem_flatMap]
  constructor
  · rintro ⟨hn, h⟩ f hf
    exact ⟨hn f hf, fun x hx => h x ⟨f, hf, hx⟩⟩
  · intro h
    refine ⟨fun f hf => (h f hf).1, ?_⟩
    rintro x ⟨f, hf, hx⟩
    exact (h f hf).2 x hx

end Value

/-- An application that reads back. -/
structure Directive.Legible (d : Directive) : Prop where
  name : isName d.name = true
  arguments : ∀ a ∈ d.arguments, isName a.name = true ∧ a.value.Legible

instance : DecidablePred Directive.Legible := fun d =>
  decidable_of_iff
    (isName d.name = true ∧ ∀ a ∈ d.arguments, isName a.name = true ∧ a.value.Legible)
    ⟨fun h => ⟨h.1, h.2⟩, fun h => ⟨h.1, h.2⟩⟩

/-- A type reference that reads back: null is excluded once at each level. -/
def TypeRef.Legible : TypeRef → Prop
  | named name => isName name = true
  | list item => item.Legible
  | nonNull nullable => nullable.Legible ∧ nullable.isNonNull = false

/-- Whether a type reference reads back. -/
def TypeRef.decLegible : (t : TypeRef) → Decidable t.Legible
  | named name => inferInstanceAs (Decidable (isName name = true))
  | list item => item.decLegible
  | nonNull nullable =>
    have := nullable.decLegible
    inferInstanceAs (Decidable (nullable.Legible ∧ nullable.isNonNull = false))

instance : DecidablePred TypeRef.Legible := TypeRef.decLegible

/-- A description that reads back. -/
def LegibleDescription (description : Option String) : Prop :=
  ∀ s ∈ description, IsPlainDescription s

instance : DecidablePred LegibleDescription :=
  fun description => inferInstanceAs (Decidable (∀ s ∈ description, IsPlainDescription s))

/-- An argument or input field that reads back. -/
structure InputValue.Legible (v : InputValue) : Prop where
  name : isName v.name = true
  description : LegibleDescription v.description
  type : v.type.Legible
  default : ∀ x ∈ v.default, x.Legible
  directives : ∀ d ∈ v.directives, d.Legible

instance : DecidablePred InputValue.Legible := fun v =>
  decidable_of_iff
    (isName v.name = true ∧ LegibleDescription v.description ∧ v.type.Legible ∧
      (∀ x ∈ v.default, x.Legible) ∧ ∀ d ∈ v.directives, d.Legible)
    ⟨fun ⟨hn, hd, ht, hx, hds⟩ => ⟨hn, hd, ht, hx, hds⟩,
      fun ⟨hn, hd, ht, hx, hds⟩ => ⟨hn, hd, ht, hx, hds⟩⟩

/-- A field that reads back. -/
structure Field.Legible (f : Field) : Prop where
  name : isName f.name = true
  description : LegibleDescription f.description
  arguments : ∀ a ∈ f.arguments, a.Legible
  type : f.type.Legible
  directives : ∀ d ∈ f.directives, d.Legible

instance : DecidablePred Field.Legible := fun f =>
  decidable_of_iff
    (isName f.name = true ∧ LegibleDescription f.description ∧
      (∀ a ∈ f.arguments, a.Legible) ∧ f.type.Legible ∧ ∀ d ∈ f.directives, d.Legible)
    ⟨fun ⟨hn, hd, ha, ht, hds⟩ => ⟨hn, hd, ha, ht, hds⟩,
      fun ⟨hn, hd, ha, ht, hds⟩ => ⟨hn, hd, ha, ht, hds⟩⟩

/-- A value of an enumeration that reads back. -/
structure EnumValue.Legible (v : EnumValue) : Prop where
  name : isName v.name = true ∧ v.name ∉ Value.words
  description : LegibleDescription v.description
  directives : ∀ d ∈ v.directives, d.Legible

instance : DecidablePred EnumValue.Legible := fun v =>
  decidable_of_iff
    ((isName v.name = true ∧ v.name ∉ Value.words) ∧ LegibleDescription v.description ∧
      ∀ d ∈ v.directives, d.Legible)
    ⟨fun ⟨hn, hd, hds⟩ => ⟨hn, hd, hds⟩, fun ⟨hn, hd, hds⟩ => ⟨hn, hd, hds⟩⟩

/-- What a type holds, when it reads back. -/
structure TypeBody.Legible (b : TypeBody) : Prop where
  implements : ∀ name ∈ b.implements, isName name = true
  members : ∀ name ∈ b.members, isName name = true
  fields : ∀ f ∈ b.fields, f.Legible
  enumValues : ∀ v ∈ b.enumValues, v.Legible
  inputFields : ∀ v ∈ b.inputFields, v.Legible

instance : DecidablePred TypeBody.Legible := fun b =>
  decidable_of_iff
    ((∀ name ∈ b.implements, isName name = true) ∧ (∀ name ∈ b.members, isName name = true) ∧
      (∀ f ∈ b.fields, f.Legible) ∧ (∀ v ∈ b.enumValues, v.Legible) ∧
      ∀ v ∈ b.inputFields, v.Legible)
    ⟨fun ⟨hi, hm, hf, hv, hvs⟩ => ⟨hi, hm, hf, hv, hvs⟩,
      fun ⟨hi, hm, hf, hv, hvs⟩ => ⟨hi, hm, hf, hv, hvs⟩⟩

/-- A type definition that reads back. -/
structure TypeDefinition.Legible (d : TypeDefinition) : Prop where
  name : isName d.name = true
  description : LegibleDescription d.description
  directives : ∀ x ∈ d.directives, x.Legible
  body : d.body.Legible

instance : DecidablePred TypeDefinition.Legible := fun d =>
  decidable_of_iff
    (isName d.name = true ∧ LegibleDescription d.description ∧
      (∀ x ∈ d.directives, x.Legible) ∧ d.body.Legible)
    ⟨fun ⟨hn, hd, hds, hb⟩ => ⟨hn, hd, hds, hb⟩, fun ⟨hn, hd, hds, hb⟩ => ⟨hn, hd, hds, hb⟩⟩

/-- A schema definition that reads back, if it has root operations or is an extension. -/
structure SchemaDefinition.Legible (d : SchemaDefinition) : Prop where
  description : LegibleDescription d.description
  directives : ∀ x ∈ d.directives, x.Legible
  rootOperations : ∀ r ∈ d.rootOperations, isName r.typeName = true
  inOrder : Grammar.firstRoots d.rootOperations = d.rootOperations

/-- A directive definition that reads back. -/
structure DirectiveDefinition.Legible (d : DirectiveDefinition) : Prop where
  name : isName d.name = true
  description : LegibleDescription d.description
  arguments : ∀ a ∈ d.arguments, a.Legible
  locations : d.locations ≠ []

instance : DecidablePred DirectiveDefinition.Legible := fun d =>
  decidable_of_iff
    (isName d.name = true ∧ LegibleDescription d.description ∧
      (∀ a ∈ d.arguments, a.Legible) ∧ d.locations ≠ [])
    ⟨fun ⟨hn, hd, ha, hl⟩ => ⟨hn, hd, ha, hl⟩, fun ⟨hn, hd, ha, hl⟩ => ⟨hn, hd, ha, hl⟩⟩

/-- A definition that reads back, but for schema definitions that would need an empty block. -/
def Definition.Legible : Definition → Prop
  | schema d => d.Legible
  | type d => d.Legible
  | directive d => d.Legible

namespace Document

/-- A document that reads back, but for schema definitions that would need an empty block. -/
structure Legible (d : Document) : Prop where
  ne_nil : d.definitions ≠ []
  definitions : ∀ x ∈ d.definitions, x.Legible

variable {d : Document}

theorem Legible.typeDefinitions (h : d.Legible) {t : TypeDefinition}
    (ht : t ∈ d.typeDefinitions) : t.Legible :=
  h.definitions _ (mem_typeDefinitions.mp ht)

theorem Legible.directiveDefinitions (h : d.Legible) {t : DirectiveDefinition}
    (ht : t ∈ d.directiveDefinitions) : t.Legible :=
  h.definitions _ (mem_directiveDefinitions.mp ht)

end Document

end Federation
