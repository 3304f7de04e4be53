import Mathlib.Data.List.Basic
import Federation.Proofs.Document.Inversion
import Federation.Proofs.Document.Legible
/-!
# Document — what is read is legible

A rule yields a property when every result of it on lexemes that were
read has the property (`Yields`). The calculus follows the way rules
are put together, so that the result for a node is the sequence of what
its rule reads. `legible_of_parse` is the result for a whole text: a
document that is read is legible if it is plain.
-/

namespace Federation

namespace Grammar

variable {α β : Type} {P : α → Prop} {Q : β → Prop}

/-- Lexemes whose names are names. Those of a text are (`named_ofText`). -/
def Named (ls : List Lexeme) : Prop :=
  ∀ l ∈ ls, ∀ s, l.token = .name s → isName s = true

/-- Every result of a rule has a property. -/
def Yields (rule : Grammar α) (P : α → Prop) : Prop :=
  ∀ ls a rest, Named ls → rule ls = .ok (a, rest) → P a ∧ Named rest

/-! ## Rules one after the other -/

theorem Yields.bind {rule : Grammar α} {f : α → Grammar β} (h : Yields rule P)
    (hf : ∀ a, P a → Yields (f a) Q) : Yields (rule >>= f) Q := by
  intro ls b rest hls hb
  obtain ⟨a, middle, hr, hb⟩ := bind_eq_ok.mp hb
  obtain ⟨ha, hm⟩ := h ls a middle hls hr
  exact hf a ha middle b rest hm hb

theorem Yields.pure {a : α} (h : P a) : Yields (pure a) P := by
  rintro ls b rest hls ⟨⟩
  exact ⟨h, hls⟩

theorem Yields.mono {R : α → Prop} {rule : Grammar α} (h : Yields rule P) (hR : ∀ a, P a → R a) :
    Yields rule R := by
  intro ls a rest hls hr
  obtain ⟨ha, hrest⟩ := h ls a rest hls hr
  exact ⟨hR a ha, hrest⟩

theorem Yields.map {rule : Grammar α} {f : α → β} (h : Yields rule P) (hf : ∀ a, P a → Q (f a)) :
    Yields (f <$> rule) Q := by
  rw [map_eq_pure_bind]
  exact h.bind fun a ha => .pure (hf a ha)

theorem yields_refuse : Yields refuse P := by
  intro ls a rest _ hr
  exact absurd hr not_refuse_eq_ok

theorem yields_next? : Yields next? fun t => ∀ s, t = some (.name s) → isName s = true := by
  rintro ls t rest hls ⟨⟩
  refine ⟨?_, hls⟩
  intro s hs
  obtain ⟨l, hl, ht⟩ := Option.map_eq_some_iff.mp hs
  exact hls l (List.mem_of_head? hl) s ht

theorem yields_here : Yields here fun _ => True := by
  rintro ls l rest hls ⟨⟩
  exact ⟨trivial, hls⟩

theorem yields_advance : Yields advance fun _ => True := by
  rintro ls u rest hls ⟨⟩
  exact ⟨trivial, fun l hl => hls l (List.mem_of_mem_tail hl)⟩

theorem yields_skip? (t : Token) : Yields (skip? t) fun _ => True := by
  unfold skip?
  refine yields_next?.bind fun next _ => ?_
  split
  · exact yields_advance.bind fun _ _ => .pure trivial
  · exact .pure trivial

theorem yields_expect (t : Token) : Yields (expect t) fun _ => True := by
  unfold expect
  refine yields_next?.bind fun next _ => ?_
  split
  · exact yields_advance
  · exact yields_refuse

theorem yields_name : Yields name fun s => isName s = true := by
  unfold name
  refine yields_next?.bind fun next hn => ?_
  split
  · exact yields_advance.bind fun _ _ => .pure (hn _ rfl)
  · exact yields_refuse

theorem yields_failBefore (mayFollow : Option Token → Bool) (e : SyntaxError) :
    Yields (failBefore mayFollow e) P := by
  unfold failBefore
  refine yields_next?.bind fun next _ => ?_
  split
  · intro ls a rest _ hr
    cases hr
  · exact yields_refuse

/-! ## Repetition -/

theorem yields_manyWithin {starts : Option Token → Bool} {item : Grammar α} (h : Yields item P)
    (allowance : List Lexeme) :
    Yields (manyWithin starts item allowance) fun as => ∀ a ∈ as, P a := by
  induction allowance with
  | nil => exact .pure (by simp)
  | cons _ allowance ih =>
    unfold manyWithin
    refine yields_next?.bind fun next _ => ?_
    split
    · refine h.bind fun a ha => ih.bind fun as has => .pure ?_
      exact List.forall_mem_cons.mpr ⟨ha, has⟩
    · exact .pure (by simp)

theorem yields_many {starts : Option Token → Bool} {item : Grammar α} (h : Yields item P) :
    Yields (many starts item) fun as => ∀ a ∈ as, P a :=
  fun ls as rest hls hr => yields_manyWithin h ls ls as rest hls hr

theorem yields_manyBefore (close : Punctuator) {item : Grammar α} (h : Yields item P) :
    Yields (manyBefore close item) fun as => ∀ a ∈ as, P a := by
  unfold manyBefore
  refine (yields_many h).bind fun as has => ?_
  exact (yields_expect _).bind fun _ _ => .pure has

theorem yields_someBefore (close : Punctuator) {item : Grammar α} (h : Yields item P) :
    Yields (someBefore close item) fun as => as ≠ [] ∧ ∀ a ∈ as, P a := by
  unfold someBefore
  refine h.bind fun a ha => (yields_manyBefore close h).bind fun as has => .pure ?_
  exact ⟨List.cons_ne_nil a as, List.forall_mem_cons.mpr ⟨ha, has⟩⟩

theorem yields_separatedBy (p : Punctuator) {item : Grammar α} (h : Yields item P) :
    Yields (separatedBy p item) fun as => as ≠ [] ∧ ∀ a ∈ as, P a := by
  unfold separatedBy
  refine (yields_skip? _).bind fun _ _ => h.bind fun a ha => ?_
  refine (yields_many (yields_advance.bind fun _ _ => h)).bind fun as has => .pure ?_
  exact ⟨List.cons_ne_nil a as, List.forall_mem_cons.mpr ⟨ha, has⟩⟩

theorem yields_block {item : Grammar α} (h : Yields item P) :
    Yields (block item) fun as => ∀ a ∈ as, P a := by
  unfold block
  refine (yields_skip? _).bind fun found _ => ?_
  split
  · exact (yields_someBefore _ h).mono fun _ has => has.2
  · exact .pure (by simp)

/-! ## Values, types and applications -/

theorem yields_decodeString (raw : List Char) : Yields (decodeString raw) fun _ => True := by
  unfold decodeString
  split
  · exact .pure trivial
  · exact yields_failBefore _ _

theorem yields_string? : Yields string? fun _ => True := by
  unfold string?
  refine yields_next?.bind fun next _ => ?_
  split
  · exact yields_advance.bind fun _ _ => (yields_decodeString _).bind fun _ _ => .pure trivial
  · exact yields_advance.bind fun _ _ => .pure trivial
  · exact .pure trivial

/-- A value whose plain parts are legible. -/
def PlainLegible (v : Value) : Prop :=
  ∀ x ∈ v.parts, x.IsPlain → x.IsLegible

theorem plainLegible_list {items : List Value} (h : ∀ v ∈ items, PlainLegible v) :
    PlainLegible (.list items) := by
  intro x hx
  simp only [Value.parts, Value.itemParts_eq, List.mem_cons, List.mem_flatMap] at hx
  obtain rfl | ⟨v, hv, hx⟩ := hx
  · exact fun _ => trivial
  · exact h v hv x hx

theorem plainLegible_object {fields : List (String × Value)}
    (h : ∀ f ∈ fields, isName f.1 = true ∧ PlainLegible f.2) : PlainLegible (.object fields) := by
  intro x hx
  simp only [Value.parts, Value.fieldParts_eq, List.mem_cons, List.mem_flatMap] at hx
  obtain rfl | ⟨f, hf, hx⟩ := hx
  · exact fun _ f hf => (h f hf).1
  · exact (h f hf).2 x hx

/-- The plain parts of a value that is read are legible. The induction is on the depth that is
allowed. -/
theorem yields_valueWithin (allowance : List Lexeme) :
    Yields (valueWithin allowance) PlainLegible := by
  -- values without parts are legible by what the grammar checks of them alone
  have leaf : ∀ v : Value, v.parts = [v] → (v.IsPlain → v.IsLegible) → PlainLegible v := by
    intro v hv h x hx
    rw [hv, List.mem_singleton] at hx
    rw [hx]
    exact h
  induction allowance with
  | nil => exact yields_refuse
  | cons _ allowance ih =>
    unfold valueWithin
    refine yields_next?.bind fun next hn => ?_
    split
    · exact yields_advance.bind fun _ _ => .pure (leaf _ rfl id)
    · exact yields_advance.bind fun _ _ => .pure (leaf _ rfl id)
    · refine yields_advance.bind fun _ _ => (yields_decodeString _).bind fun s _ => ?_
      exact .pure (leaf _ rfl id)
    · exact yields_advance.bind fun _ _ => .pure (leaf _ rfl id)
    · rename_i text
      refine yields_advance.bind fun _ _ => ?_
      split
      · exact .pure (leaf _ rfl id)
      split
      · exact .pure (leaf _ rfl id)
      split
      · exact .pure (leaf _ rfl id)
      · refine .pure (leaf _ rfl fun _ => ⟨hn text rfl, ?_⟩)
        simp_all [Value.words]
    · refine yields_advance.bind fun _ _ => (yields_manyBefore _ ih).bind fun items hi => ?_
      exact .pure (plainLegible_list hi)
    · have hfield := yields_name.bind (f := fun field => do
          expectPunctuator .colon
          return (field, ← valueWithin allowance))
        (Q := fun f : String × Value => isName f.1 = true ∧ PlainLegible f.2) fun field hf =>
        (yields_expect _).bind fun _ _ => ih.bind fun v hv => .pure ⟨hf, hv⟩
      refine yields_advance.bind fun _ _ => (yields_manyBefore _ hfield).bind fun fields hfs => ?_
      exact .pure (plainLegible_object hfs)
    · refine yields_advance.bind fun _ _ => yields_name.bind fun _ _ => ?_
      exact yields_failBefore _ _
    · exact yields_refuse

theorem yields_value : Yields value PlainLegible :=
  fun ls v rest hls hr => yields_valueWithin ls ls v rest hls hr

theorem wrap_legible {type : TypeRef} (h : type.Legible) (p : Punctuator) :
    (wrap type p).Legible := by
  unfold wrap
  split
  · exact h
  · rename_i hne
    refine ⟨h, ?_⟩
    cases type with
    | nonNull nullable => exact absurd rfl (hne nullable)
    | _ => rfl
  · exact h

theorem yields_typeRef : Yields typeRef TypeRef.Legible := by
  have hwrapper : Yields wrapper fun _ => True := by
    unfold wrapper
    refine yields_next?.bind fun next _ => ?_
    split
    · exact yields_advance.bind fun _ _ => .pure trivial
    · exact yields_refuse
  unfold typeRef
  refine (yields_many yields_advance).bind fun _ _ => yields_name.bind fun innermost hn => ?_
  refine (yields_many hwrapper).bind fun wrappers _ => .pure ?_
  have hfold : ∀ (ps : List Punctuator) (type : TypeRef), type.Legible →
      (ps.foldl wrap type).Legible := by
    intro ps
    induction ps with
    | nil => exact fun _ h => h
    | cons p ps ih => exact fun type h => ih _ (wrap_legible h p)
  exact hfold wrappers _ hn

theorem yields_argument :
    Yields argument fun a => isName a.name = true ∧ PlainLegible a.value := by
  unfold argument
  refine yields_name.bind fun argumentName hn => (yields_expect _).bind fun _ _ => ?_
  exact yields_value.bind fun v hv => .pure ⟨hn, hv⟩

theorem yields_directive :
    Yields directive fun d => (∀ v ∈ d.values, v.IsPlain) → d.Legible := by
  unfold directive
  refine (yields_expect _).bind fun _ _ => yields_name.bind fun directiveName hn => ?_
  refine (yields_skip? _).bind fun hasArguments _ => ?_
  have hd : ∀ arguments : List Argument,
      (∀ a ∈ arguments, isName a.name = true ∧ PlainLegible a.value) →
      (∀ v ∈ (Directive.mk directiveName arguments).values, v.IsPlain) →
      (Directive.mk directiveName arguments).Legible := by
    intro arguments ha hv
    refine ⟨hn, fun a hmem => ⟨(ha a hmem).1, fun x hx => ?_⟩⟩
    exact (ha a hmem).2 x hx (hv x (List.mem_flatMap.mpr ⟨a, hmem, hx⟩))
  dsimp only
  split
  · exact (yields_manyBefore _ yields_argument).bind fun arguments ha => .pure (hd arguments ha)
  · refine Yields.bind (P := (· = [])) (.pure rfl) fun arguments ha => ?_
    exact .pure (hd arguments (by simp [ha]))

theorem yields_directives :
    Yields directives fun ds => (∀ v ∈ ds.flatMap Directive.values, v.IsPlain) →
      ∀ d ∈ ds, d.Legible := by
  refine (yields_many yields_directive).mono fun ds h hv d hd => h d hd fun v hmem => ?_
  exact hv v (List.mem_flatMap.mpr ⟨d, hd, hmem⟩)

/-! ## Definitions -/

theorem legibleDescription_of_plain {description : Option String}
    (h : ∀ s ∈ description.toList, IsPlainDescription s) : LegibleDescription description :=
  fun s hs => h s (Option.mem_toList.mpr hs)

/-- A list of nodes is plain when each node is. -/
theorem plain_flatMap {nodes : List α} {valuesOf : α → List Value}
    {descriptionsOf : α → List String}
    (hv : ∀ v ∈ nodes.flatMap valuesOf, v.IsPlain)
    (hd : ∀ s ∈ nodes.flatMap descriptionsOf, IsPlainDescription s) :
    ∀ a ∈ nodes, Plain (valuesOf a) (descriptionsOf a) := by
  intro a ha
  constructor
  · exact fun v hmem => hv v (List.mem_flatMap.mpr ⟨a, ha, hmem⟩)
  · exact fun s hmem => hd s (List.mem_flatMap.mpr ⟨a, ha, hmem⟩)

theorem yields_inputValue :
    Yields inputValue fun v => Plain v.values v.descriptions → v.Legible := by
  unfold inputValue
  refine yields_here.bind fun location _ => yields_string?.bind fun description _ => ?_
  refine yields_name.bind fun valueName hn => (yields_expect _).bind fun _ _ => ?_
  refine yields_typeRef.bind fun type ht => (yields_skip? _).bind fun hasDefault _ => ?_
  have hrest : ∀ default : Option Value, (∀ x ∈ default, PlainLegible x) →
      Yields (do
        let directives ← directives
        return { name := valueName, description, type, default, directives, location })
        fun v : InputValue => Plain v.values v.descriptions → v.Legible := by
    intro default hx
    refine yields_directives.bind fun ds hds => .pure fun hp => ?_
    obtain ⟨hv, hs⟩ := hp
    simp only [InputValue.values, List.forall_mem_append] at hv
    refine ⟨hn, legibleDescription_of_plain hs, ht, ?_, hds hv.2⟩
    intro x hmem y hy
    refine hx x hmem y hy (hv.1 y (List.mem_flatMap.mpr ⟨x, ?_, hy⟩))
    exact Option.mem_toList.mpr hmem
  dsimp only
  split
  · have hsome : Yields (some <$> value) fun default => ∀ x ∈ default, PlainLegible x :=
      yields_value.map fun v hv => by rintro x ⟨⟩; exact hv
    exact hsome.bind fun default hx => hrest default hx
  · exact Yields.bind (P := (· = none)) (.pure rfl) fun default hx => hrest default (by simp [hx])

theorem yields_argumentDefinitions :
    Yields argumentDefinitions fun vs => ∀ v ∈ vs, Plain v.values v.descriptions → v.Legible := by
  unfold argumentDefinitions
  refine (yields_skip? _).bind fun found _ => ?_
  split
  · exact (yields_someBefore _ yields_inputValue).mono fun _ has => has.2
  · exact .pure (by simp)

theorem yields_field : Yields field fun f => Plain f.values f.descriptions → f.Legible := by
  unfold field
  refine yields_here.bind fun location _ => yields_string?.bind fun description _ => ?_
  refine yields_name.bind fun fieldName hn => yields_argumentDefinitions.bind fun arguments ha => ?_
  refine (yields_expect _).bind fun _ _ => yields_typeRef.bind fun type ht => ?_
  refine yields_directives.bind fun ds hds => .pure fun hp => ?_
  obtain ⟨hv, hs⟩ := hp
  simp only [Field.values, Field.descriptions, List.forall_mem_append] at hv hs
  refine ⟨hn, legibleDescription_of_plain hs.1, ?_, ht, hds hv.2⟩
  exact fun a hmem => ha a hmem (plain_flatMap hv.1 hs.2 a hmem)

theorem yields_enumValueName :
    Yields enumValueName fun s => isName s = true ∧ s ∉ Value.words := by
  unfold enumValueName
  refine yields_next?.bind fun next hn => ?_
  split
  · rename_i text
    split
    · exact yields_refuse
    · rename_i hw
      refine yields_advance.bind fun _ _ => .pure ⟨hn text rfl, ?_⟩
      simpa [Value.words, or_assoc] using hw
  · exact yields_refuse

theorem yields_enumValue :
    Yields enumValue fun v => Plain v.values v.descriptions → v.Legible := by
  unfold enumValue
  refine yields_here.bind fun location _ => yields_string?.bind fun description _ => ?_
  refine yields_enumValueName.bind fun valueName hn => yields_directives.bind fun ds hds => ?_
  refine .pure fun hp => ?_
  exact ⟨hn, legibleDescription_of_plain hp.descriptions, hds hp.values⟩

theorem yields_implemented : Yields implemented fun names => ∀ s ∈ names, isName s = true := by
  unfold implemented
  refine (yields_skip? _).bind fun found _ => ?_
  split
  · exact (yields_separatedBy _ yields_name).mono fun names h => h.2
  · exact .pure (by simp)

/-- A body is legible when its names are names and its members are legible if they are plain. -/
theorem legible_body {body : TypeBody} (hi : ∀ s ∈ body.implements, isName s = true)
    (hm : ∀ s ∈ body.members, isName s = true)
    (hf : ∀ f ∈ body.fields, Plain f.values f.descriptions → f.Legible)
    (he : ∀ v ∈ body.enumValues, Plain v.values v.descriptions → v.Legible)
    (hv : ∀ v ∈ body.inputFields, Plain v.values v.descriptions → v.Legible)
    (hp : Plain body.values body.descriptions) : body.Legible := by
  obtain ⟨hvalues, hdescriptions⟩ := hp
  simp only [TypeBody.values, TypeBody.descriptions, List.forall_mem_append]
    at hvalues hdescriptions
  refine ⟨hi, hm, ?_, ?_, ?_⟩
  · exact fun f hmem => hf f hmem (plain_flatMap hvalues.1.1 hdescriptions.1.1 f hmem)
  · exact fun v hmem => he v hmem (plain_flatMap hvalues.1.2 hdescriptions.1.2 v hmem)
  · exact fun v hmem => hv v hmem (plain_flatMap hvalues.2 hdescriptions.2 v hmem)

/-- The body of a definition is legible if it is plain, and so are its applications. -/
theorem yields_typeBody (kind : TypeKind) : Yields (typeBody kind) fun result =>
    ((∀ v ∈ result.1.flatMap Directive.values, v.IsPlain) → ∀ d ∈ result.1, d.Legible) ∧
      (Plain result.2.values result.2.descriptions → result.2.Legible) := by
  unfold typeBody
  split
  · refine yields_directives.bind fun applied ha => .pure ⟨ha, ?_⟩
    exact legible_body nofun nofun nofun nofun nofun
  · refine yields_implemented.bind fun implements hi => yields_directives.bind fun applied ha => ?_
    refine (yields_block yields_field).bind fun fields hf => .pure ⟨ha, ?_⟩
    exact legible_body hi nofun hf nofun nofun
  · refine yields_implemented.bind fun implements hi => yields_directives.bind fun applied ha => ?_
    refine (yields_block yields_field).bind fun fields hf => .pure ⟨ha, ?_⟩
    exact legible_body hi nofun hf nofun nofun
  · refine yields_directives.bind fun applied ha => (yields_skip? _).bind fun hasMembers _ => ?_
    dsimp only
    split
    · refine (yields_separatedBy _ yields_name).bind fun members hm => .pure ⟨ha, ?_⟩
      exact legible_body nofun hm.2 nofun nofun nofun
    · refine Yields.bind (P := (· = [])) (.pure rfl) fun members hm => .pure ⟨ha, ?_⟩
      exact legible_body nofun (by simp [TypeBody.members, hm]) nofun nofun nofun
  · refine yields_directives.bind fun applied ha => ?_
    refine (yields_block yields_enumValue).bind fun enumValues he => .pure ⟨ha, ?_⟩
    exact legible_body nofun nofun nofun he nofun
  · refine yields_directives.bind fun applied ha => ?_
    refine (yields_block yields_inputValue).bind fun inputFields hv => .pure ⟨ha, ?_⟩
    exact legible_body nofun nofun nofun nofun hv

theorem yields_typeDefinition (description : Option String) (isExtension : Bool) (kind : TypeKind) :
    Yields (typeDefinition description isExtension kind) fun d =>
      Plain (Definition.type d).values (Definition.type d).descriptions → d.Legible := by
  unfold typeDefinition
  refine yields_here.bind fun location _ => yields_advance.bind fun _ _ => ?_
  refine yields_name.bind fun typeName hn => (yields_typeBody kind).bind fun result hr => ?_
  obtain ⟨applied, body⟩ := result
  refine .pure fun hp => ?_
  obtain ⟨hv, hs⟩ := hp
  simp only [Definition.values, Definition.descriptions, List.forall_mem_append] at hv hs
  exact ⟨hn, legibleDescription_of_plain hs.1, hr.1 hv.1, hr.2 ⟨hv.2, hs.2⟩⟩

theorem yields_rootOperation : Yields rootOperation fun r => isName r.typeName = true := by
  unfold rootOperation
  refine yields_next?.bind fun next _ => ?_
  split
  · split
    · refine yields_advance.bind fun _ _ => (yields_expect _).bind fun _ _ => ?_
      exact yields_name.bind fun typeName hn => .pure hn
    · exact yields_refuse
  · exact yields_refuse

theorem mem_of_mem_firstRoots {r : RootOperation} {roots : List RootOperation}
    (h : r ∈ firstRoots roots) : r ∈ roots := by
  obtain ⟨operation, -, hf⟩ := List.mem_filterMap.mp h
  exact List.mem_of_find?_eq_some hf

theorem operation_of_find? {roots : List RootOperation} {operation : OperationType}
    {r : RootOperation} (h : roots.find? (·.operation == operation) = some r) :
    r.operation = operation := by
  simpa using List.find?_some h

/-- Among the first types for some operations, the first type for one of them is the same. -/
theorem find?_filterMap_find? (roots : List RootOperation) {operations : List OperationType}
    {operation : OperationType} (hn : operations.Nodup) (ho : operation ∈ operations) :
    (operations.filterMap fun o => roots.find? (·.operation == o)).find?
        (·.operation == operation) =
      roots.find? (·.operation == operation) := by
  induction operations with
  | nil => cases ho
  | cons o operations ih =>
    obtain ⟨hnot, hn⟩ := List.nodup_cons.mp hn
    rw [List.filterMap_cons]
    -- the operations are distinct, so the type of one is not taken for that of another
    cases hf : roots.find? (·.operation == o) with
    | none =>
      obtain rfl | ho := List.mem_cons.mp ho
      · rw [hf, List.find?_eq_none]
        intro r hr
        obtain ⟨other, hother, hfind⟩ := List.mem_filterMap.mp hr
        rw [operation_of_find? hfind, beq_iff_eq]
        rintro rfl
        exact hnot hother
      · exact ih hn ho
    | some r =>
      have hr := operation_of_find? hf
      obtain rfl | ho := List.mem_cons.mp ho
      · rw [hf]
        exact List.find?_cons_of_pos (beq_iff_eq.mpr hr)
      · have hne : ¬(r.operation == operation) = true := by
          rw [hr, beq_iff_eq]
          rintro rfl
          exact hnot ho
        rw [← ih hn ho]
        exact List.find?_cons_of_neg hne

/-- The first type for each operation is found among the first types. -/
theorem firstRoots_firstRoots (roots : List RootOperation) :
    firstRoots (firstRoots roots) = firstRoots roots :=
  List.filterMap_congr fun _ ho => find?_filterMap_find? roots (by decide) ho

theorem yields_schemaDefinition (description : Option String) (isExtension : Bool) :
    Yields (schemaDefinition description isExtension) fun d =>
      Plain (Definition.schema d).values (Definition.schema d).descriptions → d.Legible := by
  unfold schemaDefinition
  refine yields_here.bind fun location _ => yields_advance.bind fun _ _ => ?_
  refine yields_directives.bind fun ds hds => (yields_skip? _).bind fun hasBlock _ => ?_
  have hd : ∀ roots : List RootOperation, (∀ r ∈ roots, isName r.typeName = true) →
      let d : SchemaDefinition :=
        { description, directives := ds, rootOperations := firstRoots roots, isExtension, location }
      Plain (Definition.schema d).values (Definition.schema d).descriptions → d.Legible := by
    rintro roots hr d ⟨hv, hs⟩
    refine ⟨legibleDescription_of_plain hs, hds hv, ?_, firstRoots_firstRoots roots⟩
    exact fun r hmem => hr r (mem_of_mem_firstRoots hmem)
  dsimp only
  split
  · exact (yields_manyBefore _ yields_rootOperation).bind fun roots hr => .pure (hd roots hr)
  split
  · exact Yields.bind (P := (· = [])) (.pure rfl) fun roots hr => .pure (hd roots (by simp [hr]))
  · exact Yields.bind (P := fun _ => False) yields_refuse fun roots hr => hr.elim

theorem yields_directiveLocation : Yields directiveLocation fun _ => True := by
  unfold directiveLocation
  refine yields_name.bind fun text _ => ?_
  split
  · exact .pure trivial
  · exact yields_failBefore _ _

theorem yields_directiveDefinition (description : Option String) :
    Yields (directiveDefinition description) fun d =>
      Plain (Definition.directive d).values (Definition.directive d).descriptions → d.Legible := by
  unfold directiveDefinition
  refine yields_here.bind fun location _ => yields_advance.bind fun _ _ => ?_
  refine (yields_expect _).bind fun _ _ => yields_name.bind fun directiveName hn => ?_
  refine yields_argumentDefinitions.bind fun arguments ha => (yields_skip? _).bind fun _ _ => ?_
  refine (yields_expect _).bind fun _ _ => ?_
  refine (yields_separatedBy _ yields_directiveLocation).bind fun locations hl => .pure fun hp => ?_
  obtain ⟨hv, hs⟩ := hp
  simp only [Definition.values, Definition.descriptions, List.forall_mem_append] at hv hs
  refine ⟨hn, legibleDescription_of_plain hs.1, ?_, hl.1⟩
  exact fun a hmem => ha a hmem (plain_flatMap hv hs.2 a hmem)

theorem yields_definition :
    Yields definition fun d => Plain d.values d.descriptions → d.Legible := by
  unfold definition
  refine yields_string?.bind fun description _ => (yields_skip? _).bind fun isExtension _ => ?_
  refine yields_next?.bind fun next _ => ?_
  split
  · split
    · exact (yields_schemaDefinition _ _).bind fun d hd => .pure hd
    split
    · exact (yields_directiveDefinition _).bind fun d hd => .pure hd
    split
    · exact (yields_typeDefinition _ _ _).bind fun d hd => .pure hd
    · exact yields_refuse
  · exact yields_refuse

theorem yields_document : Yields document fun d => d.IsPlain → d.Legible := by
  unfold document
  refine yields_definition.bind fun first hf => ?_
  refine (yields_many yields_definition).bind fun others ho => .pure fun hp => ?_
  have hall := List.forall_mem_cons.mpr ⟨hf, ho⟩
  obtain ⟨hv, hs⟩ := hp
  exact ⟨List.cons_ne_nil first others, fun d hd => hall d hd (plain_flatMap hv hs d hd)⟩

end Grammar

/-! ## Texts -/

namespace Token

theorem eq_of_readNumber {c : Char} {cs rest : List Char} {t : Token}
    (h : readNumber c cs = .ok (t, rest)) : ∃ text, t = integer text ∨ t = float text := by
  have hu : ∀ sign cs, readUnsigned sign cs = .ok (t, rest) →
      ∃ text, t = integer text ∨ t = float text := by
    intro sign cs h
    simp only [readUnsigned] at h
    split at h
    · cases h
    split at h
    · cases h
    split at h
    · cases h
    split at h
    · cases h
      exact ⟨_, .inl rfl⟩
    · cases h
      exact ⟨_, .inr rfl⟩
  unfold readNumber at h
  split at h
  · exact hu _ _ h
  · exact hu _ _ h

/-- A name that is read is a name. -/
theorem isName_of_read {cs rest : List Char} {s : String} (h : read cs = .ok (name s, rest)) :
    isName s = true := by
  cases cs with
  | nil => cases h
  | cons c cs =>
    simp only [read] at h
    split at h
    · rename_i hc
      cases h
      refine isName_iff.mpr ⟨c, cs.takeWhile isNameChar, String.toList_ofList, hc, ?_⟩
      exact List.all_eq_true.mp List.all_takeWhile
    split at h
    · obtain ⟨text, ht | ht⟩ := eq_of_readNumber h <;> cases ht
    split at h
    · unfold readString at h
      split at h <;> split at h <;> cases h
    split at h
    · unfold readPoints at h
      split at h
      · cases h
      · cases h
      · split at h <;> cases h
    split at h <;> cases h

end Token

namespace Lexeme

/-- The names among the lexemes of a text are names. -/
theorem named_scan (index : LineIndex) (offset : Nat) (cs : List Char) :
    Grammar.Named (scan index offset cs) := by
  fun_induction scan index offset cs with
  | case1 => exact nofun
  | case2 offset c rest hg ih => exact ih
  | case3 offset rest hg ih => exact ih
  | case4 offset c rest hg hc fault hread =>
    intro l hl s hs
    rw [List.mem_singleton] at hl
    rw [hl] at hs
    cases hs
  | case5 offset c rest hg hc t rest' hread ih =>
    refine List.forall_mem_cons.mpr ⟨?_, ih⟩
    rintro s hs
    subst hs
    exact Token.isName_of_read hread

end Lexeme

namespace Document

/-- **A plain document that is read is legible.** -/
theorem legible_of_parse {text : String} {d : Document} (h : parse text = .ok d)
    (hp : d.IsPlain) : d.Legible := by
  unfold parse at h
  split at h
  · cases h
  · unfold Grammar.run at h
    cases hr : Grammar.document (Lexeme.ofText text.toList) with
    | error e =>
      rw [StateT.run, hr] at h
      cases h
    | ok result =>
      rw [StateT.run, hr] at h
      cases h
      exact (Grammar.yields_document _ _ _ (Lexeme.named_scan _ _ _) hr).1 hp

end Document

end Federation
