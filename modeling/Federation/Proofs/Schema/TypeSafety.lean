import Federation.Proofs.Sequence
import Federation.Schema.Checks
/-!
# Schema — type safety

What the checks of a composed schema guarantee, said without the checks:
every name that a type refers to is known (`Schema.Knows`), and a type
that implements an interface can stand in for it (`Schema.Implements`).
The two relations between types that this needs, between names
(`Schema.StandsFor`) and between references (`Schema.Refines`), are what
the checks decide (`isSubtype_iff`, `isImplementationType_iff`).
`typeSafe_of_problems` is the result for a whole schema.
-/

namespace Federation

/-! ## Types that stand for others -/

namespace Schema

/-- A name of a type of the schema, or of a scalar that every schema knows. -/
def Knows (s : Schema) (name : String) : Prop :=
  name ∈ ["ID", "String", "Int", "Float", "Boolean"] ∨ ∃ t ∈ s.types, t.name = name

/-- A value of one type may stand where another is expected: it is the type itself, a member of the
union or a type that implements the interface. -/
inductive StandsFor (s : Schema) : (concrete abstract : String) → Prop
  | self (name : String) : s.StandsFor name name
  | member {union : TypeDefinition} {members : List String} {name : String}
      (hu : union ∈ s.types) (hbody : union.body = .union members) (hname : name ∈ members) :
      s.StandsFor name union.name
  | implementer {d interface : TypeDefinition} (hi : interface ∈ s.types)
      (hkind : interface.kind = .interface) (hd : d ∈ s.types)
      (himplements : interface.name ∈ d.implements) : s.StandsFor d.name interface.name

/-- A type reference is as specific as another: it may exclude null where the other does not, and it
names a type that stands for the other, with lists in the same places. -/
inductive Refines (s : Schema) : (specific general : TypeRef) → Prop
  | named {m n : String} (h : s.StandsFor m n) : s.Refines (.named m) (.named n)
  | list {a b : TypeRef} (h : s.Refines a b) : s.Refines (.list a) (.list b)
  | nonNull {a b : TypeRef} (h : s.Refines a b) : s.Refines (.nonNull a) (.nonNull b)
  | excludesNull {a b : TypeRef} (h : s.Refines a b) (hb : b.isNonNull = false) :
      s.Refines (.nonNull a) b

variable {s : Schema}

theorem isKnownType_iff {name : String} : s.isKnownType name = true ↔ s.Knows name := by
  simp [isKnownType, builtInScalars, Knows, type?]

/-- Where no two types share a name, a type is what its name finds. -/
theorem type?_of_mem (hn : (s.types.map (·.name)).Nodup) {t : TypeDefinition} (ht : t ∈ s.types) :
    s.type? t.name = some t := by
  rw [type?, ← List.head?_filter, filter_eq_singleton hn ht, List.head?_cons]

theorem mem_of_type? {name : String} {t : TypeDefinition} (h : s.type? name = some t) :
    t ∈ s.types ∧ t.name = name := by
  rw [type?] at h
  exact ⟨List.mem_of_find?_eq_some h, by simpa using List.find?_some h⟩

variable (hn : (s.types.map (·.name)).Nodup)
include hn

/-- **The check of names decides which types stand for others.** -/
theorem isSubtype_iff {abstract concrete : String} :
    s.isSubtype abstract concrete = true ↔ s.StandsFor concrete abstract := by
  rw [isSubtype, Bool.or_eq_true, beq_iff_eq]
  constructor
  · rintro (rfl | h)
    · exact .self _
    · split at h
      · rename_i members hfound
        obtain ⟨union, hunion, hbody⟩ := Option.map_eq_some_iff.mp hfound
        obtain ⟨hmem, rfl⟩ := mem_of_type? hunion
        exact .member hmem hbody (List.contains_iff_mem.mp h)
      · rename_i body hfound
        obtain ⟨interface, hinterface, hbody⟩ := Option.map_eq_some_iff.mp hfound
        obtain ⟨hmem, rfl⟩ := mem_of_type? hinterface
        have hkind : interface.kind = .interface := by
          rw [TypeDefinition.kind, hbody]
          rfl
        cases hd : s.type? concrete with
        | none => simp [hd] at h
        | some d =>
          obtain ⟨hdmem, rfl⟩ := mem_of_type? hd
          rw [hd, Option.any_some] at h
          exact .implementer hmem hkind hdmem (List.contains_iff_mem.mp h)
      · cases h
  · intro h
    cases h with
    | self => exact .inl rfl
    | member hu hbody hname =>
      right
      rw [type?_of_mem hn hu, Option.map_some, hbody]
      exact List.contains_iff_mem.mpr hname
    | @implementer d interface hi hkind hd himplements =>
      right
      have hbody : ∃ body, interface.body = .interface body := by
        rw [TypeDefinition.kind] at hkind
        cases h : interface.body <;> simp_all [TypeBody.kind]
      obtain ⟨body, hbody⟩ := hbody
      rw [type?_of_mem hn hi, type?_of_mem hn hd, Option.map_some, hbody]
      exact List.contains_iff_mem.mpr himplements

/-- **The check of type references decides which are as specific as others.** -/
theorem isImplementationType_iff {a b : TypeRef} :
    s.isImplementationType a b = true ↔ s.Refines a b := by
  constructor
  · intro h
    fun_induction isImplementationType s a b with
    | case1 a b ih => exact .nonNull (ih h)
    | case2 a b hb ih =>
      have hnullable : b.isNonNull = false := by
        cases b with
        | nonNull b => exact (hb b rfl).elim
        | _ => rfl
      exact .excludesNull (ih h) hnullable
    | case3 a b ih => exact .list (ih h)
    | case4 m n => exact .named ((isSubtype_iff hn).mp h)
    | case5 => cases h
  · intro h
    induction h with
    | named h => exact (isSubtype_iff hn).mpr h
    | list _ ih => exact ih
    | nonNull _ ih => exact ih
    | @excludesNull a b _ hb ih =>
      cases b with
      | nonNull b => cases hb
      | _ => exact ih

end Schema

/-! ## Implementing an interface -/

/-- A field takes the arguments of another, with the same types, and asks for no further one. -/
structure Field.TakesArguments (f expected : Field) : Prop where
  accepted : ∀ e ∈ expected.arguments, ∃ a ∈ f.arguments, a.name = e.name ∧ a.type = e.type
  optional : ∀ a ∈ f.arguments, a.name ∉ expected.arguments.map (·.name) →
    a.type.isNonNull = false ∨ a.default.isSome = true

/-- A type does what an interface promises: it implements the interfaces of the interface, and it
has every field of the interface, of a type that is as specific, with the same arguments. -/
structure Schema.Implements (s : Schema) (d interface : TypeDefinition) : Prop where
  kind : interface.kind = .interface
  interfaces : ∀ name ∈ interface.implements, name ∈ d.implements
  fields : ∀ expected ∈ interface.fields, ∃ f ∈ d.fields,
    f.name = expected.name ∧ s.Refines f.type expected.type ∧ f.TakesArguments expected

/-- Every name that a type refers to is known, and every type does what the interfaces promise that
it implements. -/
structure Schema.TypeSafe (s : Schema) : Prop where
  fields : ∀ t ∈ s.types, ∀ f ∈ t.fields, s.Knows f.type.name
  arguments : ∀ t ∈ s.types, ∀ f ∈ t.fields, ∀ a ∈ f.arguments, s.Knows a.type.name
  inputFields : ∀ t ∈ s.types, ∀ v ∈ t.body.inputFields, s.Knows v.type.name
  members : ∀ t ∈ s.types, ∀ name ∈ t.body.members, s.Knows name
  interfaces : ∀ t ∈ s.types, ∀ name ∈ t.implements, s.Knows name
  implementations : ∀ d ∈ s.types, ∀ interface ∈ s.types, interface.name ∈ d.implements →
    s.Implements d interface

/-! ## What the checks guarantee -/

namespace TypeDefinition

variable {t : TypeDefinition}

/-- The type of a field and the types of its arguments are referred to. -/
theorem mem_references_field {f : Field} (hf : f ∈ t.fields) {type : TypeRef}
    (h : type = f.type ∨ ∃ a ∈ f.arguments, type = a.type) :
    (Coordinate.member t.name f.name, type.name) ∈ t.references := by
  have hmem : (Coordinate.member t.name f.name, type.name) ∈
      (Coordinate.member t.name f.name, f.type.name) ::
        f.arguments.map fun a => (Coordinate.member t.name f.name, a.type.name) := by
    rcases h with rfl | ⟨a, ha, rfl⟩
    · exact List.mem_cons_self
    · exact List.mem_cons_of_mem _ (List.mem_map.mpr ⟨a, ha, rfl⟩)
  rw [fields] at hf
  rw [references]
  refine List.mem_append_right _ ?_
  cases hb : t.body with
  | object body =>
    rw [hb] at hf
    exact List.mem_flatMap.mpr ⟨f, hf, hmem⟩
  | interface body =>
    rw [hb] at hf
    exact List.mem_flatMap.mpr ⟨f, hf, hmem⟩
  | _ =>
    rw [hb] at hf
    cases hf

theorem mem_references_inputField {v : InputValue} (hv : v ∈ t.body.inputFields) :
    (Coordinate.member t.name v.name, v.type.name) ∈ t.references := by
  rw [references]
  refine List.mem_append_right _ ?_
  cases hb : t.body with
  | inputObject fields =>
    rw [hb] at hv
    exact List.mem_map.mpr ⟨v, hv, rfl⟩
  | _ =>
    rw [hb] at hv
    cases hv

theorem mem_references_member {name : String} (h : name ∈ t.body.members) :
    (Coordinate.type t.name, name) ∈ t.references := by
  rw [references]
  refine List.mem_append_right _ ?_
  cases hb : t.body with
  | union members =>
    rw [hb] at h
    exact List.mem_map.mpr ⟨name, h, rfl⟩
  | _ =>
    rw [hb] at h
    cases h

theorem mem_references_implements {name : String} (h : name ∈ t.implements) :
    (Coordinate.type t.name, name) ∈ t.references :=
  List.mem_append_left _ (List.mem_map.mpr ⟨name, h, rfl⟩)

end TypeDefinition

namespace Schema

variable {s : Schema}

/-- A field whose arguments are checked takes the arguments of the other. -/
theorem takesArguments_of_argumentCauses {f expected : Field} {interface : String}
    (h : argumentCauses f expected interface = []) : f.TakesArguments expected := by
  rw [argumentCauses, List.append_eq_nil_iff, List.filterMap_eq_nil_iff, List.map_eq_nil_iff,
    List.filter_eq_nil_iff] at h
  obtain ⟨haccepted, hoptional⟩ := h
  constructor
  · intro e he
    have hcause := haccepted e he
    cases ha : f.argument? e.name with
    | none => simp [ha] at hcause
    | some a =>
      have hname : a.name = e.name := by simpa using List.find?_some ha
      have htype : a.type = e.type := by simpa [ha] using hcause
      exact ⟨a, List.mem_of_find?_eq_some ha, hname, htype⟩
  · intro a ha hnew
    have hnone : expected.argument? a.name = none := by
      rw [Field.argument?, List.find?_eq_none]
      intro e he heq
      exact hnew (beq_iff_eq.mp heq ▸ List.mem_map_of_mem he)
    have hcause := hoptional a ha
    simp only [hnone, Option.isNone_none, Bool.true_and, Bool.and_eq_true, not_and,
      Option.isNone_iff_eq_none] at hcause
    by_cases hnull : a.type.isNonNull = true
    · exact .inr (Option.isSome_iff_ne_none.mpr (hcause hnull))
    · exact .inl (Bool.not_eq_true _ ▸ hnull)

/-- A type whose implementation of an interface is checked implements it. -/
theorem implements_of_interfaceNameProblems (hn : (s.types.map (·.name)).Nodup)
    {d interface : TypeDefinition} (hi : interface ∈ s.types)
    (h : s.interfaceNameProblems d interface.name = []) : s.Implements d interface := by
  rw [interfaceNameProblems, type?_of_mem hn hi] at h
  dsimp only at h
  split at h
  · rename_i hkind
    rw [implementationProblems, List.append_eq_nil_iff, List.map_eq_nil_iff,
      List.filter_eq_nil_iff, List.flatMap_eq_nil_iff] at h
    obtain ⟨hinterfaces, hfields⟩ := h
    refine ⟨hkind, fun name hname => by simpa using hinterfaces name hname, fun expected he => ?_⟩
    have hcauses := List.map_eq_nil_iff.mp (hfields expected he)
    rw [fieldCauses] at hcauses
    split at hcauses
    · cases hcauses
    · rename_i f hf
      obtain ⟨htype, harguments⟩ := List.append_eq_nil_iff.mp hcauses
      refine ⟨f, List.mem_of_find?_eq_some hf, by simpa using List.find?_some hf, ?_,
        takesArguments_of_argumentCauses harguments⟩
      rw [← isImplementationType_iff hn]
      by_contra hne
      rw [if_neg hne] at htype
      cases htype
  · cases h

theorem knows_of_referenceProblems (h : s.referenceProblems = []) {t : TypeDefinition}
    (ht : t ∈ s.types) {r : Coordinate × String} (hr : r ∈ t.references) : s.Knows r.2 := by
  have hunknown := List.flatMap_eq_nil_iff.mp h t ht
  rw [TypeDefinition.unknownReferences, List.map_eq_nil_iff, List.filter_eq_nil_iff] at hunknown
  rw [← isKnownType_iff]
  simpa using hunknown r hr

/-- **A schema whose checks find nothing is type safe.** -/
theorem typeSafe_of_problems (hn : (s.types.map (·.name)).Nodup) (h : s.problems = []) :
    s.TypeSafe := by
  simp only [problems, List.append_eq_nil_iff] at h
  obtain ⟨⟨⟨-, hinterfaces⟩, -⟩, hreferences⟩ := h
  refine { fields := ?_, arguments := ?_, inputFields := ?_, members := ?_, interfaces := ?_,
           implementations := ?_ }
  · intro t ht f hf
    exact knows_of_referenceProblems hreferences ht
      (TypeDefinition.mem_references_field hf (.inl rfl))
  · intro t ht f hf a ha
    exact knows_of_referenceProblems hreferences ht
      (TypeDefinition.mem_references_field hf (.inr ⟨a, ha, rfl⟩))
  · intro t ht v hv
    exact knows_of_referenceProblems hreferences ht (TypeDefinition.mem_references_inputField hv)
  · intro t ht name hname
    exact knows_of_referenceProblems hreferences ht (TypeDefinition.mem_references_member hname)
  · intro t ht name hname
    exact knows_of_referenceProblems hreferences ht (TypeDefinition.mem_references_implements hname)
  · intro d hd interface hi himplements
    have hproblems := List.flatMap_eq_nil_iff.mp hinterfaces d hd
    exact implements_of_interfaceNameProblems hn hi
      (List.flatMap_eq_nil_iff.mp hproblems _ himplements)

end Schema

end Federation
