import Federation.Proofs.Schema.Locality
/-!
# Schema — references of what is built

A schema refers to types in its types, in the arguments of its directive
definitions and in its root operations (`Schema.RefersTo`), and is
closed when it knows them all. A schema that is built is made from the
definitions of a document (`MadeFrom`), and where nothing clashes all of
them are there (`Holds`). The checks of a document follow the references
of types only. So the types of what is built refer to what is known,
and directive definitions and root operations to whatever the document
has them refer to (`closed_iff_of_build`).
-/

namespace Federation

/-! ## References -/

/-- A type refers to another by name. -/
inductive TypeDefinition.RefersTo (t : TypeDefinition) : String → Prop
  | field {f : Field} (hf : f ∈ t.fields) : t.RefersTo f.type.name
  | argument {f : Field} {a : InputValue} (hf : f ∈ t.fields) (ha : a ∈ f.arguments) :
      t.RefersTo a.type.name
  | inputField {v : InputValue} (hv : v ∈ t.body.inputFields) : t.RefersTo v.type.name
  | member {name : String} (hname : name ∈ t.body.members) : t.RefersTo name
  | interface {name : String} (hname : name ∈ t.implements) : t.RefersTo name

/-- A schema refers to a type by name: in a type, in an argument of a directive definition or in a
root operation. -/
inductive Schema.RefersTo (s : Schema) : String → Prop
  | type {t : TypeDefinition} {name : String} (ht : t ∈ s.types) (h : t.RefersTo name) :
      s.RefersTo name
  | directiveArgument {d : DirectiveDefinition} {a : InputValue} (hd : d ∈ s.directiveDefinitions)
      (ha : a ∈ d.arguments) : s.RefersTo a.type.name
  | root {r : RootOperation} (hr : r ∈ s.roots) : s.RefersTo r.typeName

/-- A schema knows every type that it refers to. -/
def Schema.Closed (s : Schema) : Prop :=
  ∀ name, s.RefersTo name → s.Knows name

/-- A document knows the types that it defines or extends, and the scalars that every schema
knows. -/
def Document.Knows (d : Document) (name : String) : Prop :=
  name ∈ ["ID", "String", "Int", "Float", "Boolean"] ∨ ∃ t ∈ d.typeDefinitions, t.name = name

/-- The list of references has every name that a type refers to. -/
theorem TypeDefinition.RefersTo.mem_references {t : TypeDefinition} {name : String}
    (h : t.RefersTo name) : ∃ r ∈ t.references, r.2 = name := by
  cases h with
  | field hf => exact ⟨_, mem_references_field hf (.inl rfl), rfl⟩
  | argument hf ha => exact ⟨_, mem_references_field hf (.inr ⟨_, ha, rfl⟩), rfl⟩
  | inputField hv => exact ⟨_, mem_references_inputField hv, rfl⟩
  | member hname => exact ⟨_, mem_references_member hname, rfl⟩
  | interface hname => exact ⟨_, mem_references_implements hname, rfl⟩

/-! ## One type -/

/-- Adding members makes none up. -/
theorem TypeBody.mem_addMembers_parts (a b : TypeBody) :
    (∀ f ∈ (a.addMembers b).fields, f ∈ a.fields ∨ f ∈ b.fields) ∧
    (∀ v ∈ (a.addMembers b).inputFields, v ∈ a.inputFields ∨ v ∈ b.inputFields) ∧
    (∀ n ∈ (a.addMembers b).members, n ∈ a.members ∨ n ∈ b.members) ∧
    ∀ n ∈ (a.addMembers b).implements, n ∈ a.implements ∨ n ∈ b.implements := by
  fun_cases addMembers a b with
  | case1 a b | case2 a b =>
    exact ⟨fun f => mem_addMembers _, List.forall_mem_nil _, List.forall_mem_nil _,
      fun n => Federation.mem_addMembers _⟩
  | case3 as bs =>
    exact ⟨List.forall_mem_nil _, List.forall_mem_nil _, fun n => Federation.mem_addMembers _,
      List.forall_mem_nil _⟩
  | case4 as bs =>
    exact ⟨List.forall_mem_nil _, List.forall_mem_nil _, List.forall_mem_nil _,
      List.forall_mem_nil _⟩
  | case5 as bs =>
    exact ⟨List.forall_mem_nil _, fun v => Federation.mem_addMembers _, List.forall_mem_nil _,
      List.forall_mem_nil _⟩
  | case6 =>
    exact ⟨fun _ => .inl, fun _ => .inl, fun _ => .inl, fun _ => .inl⟩

namespace TypeDefinition

/-- A type that absorbs another refers to what the two refer to. -/
theorem refersTo_absorb {isRepeatable : String → Bool} {target source : TypeDefinition}
    {name : String} (h : (target.absorb isRepeatable source).1.RefersTo name) :
    target.RefersTo name ∨ source.RefersTo name := by
  obtain ⟨hfields, hinputFields, hmembers, himplements⟩ :=
    target.body.mem_addMembers_parts source.body
  cases h with
  | field hf => exact (hfields _ hf).imp .field .field
  | argument hf ha => exact (hfields _ hf).imp (.argument · ha) (.argument · ha)
  | inputField hv => exact (hinputFields _ hv).imp .inputField .inputField
  | member hname => exact (hmembers _ hname).imp .member .member
  | interface hname => exact (himplements _ hname).imp .interface .interface

/-- A type without members refers to nothing. -/
theorem not_refersTo_of_empty {t : TypeDefinition} {kind : TypeKind} (h : t.body = .empty kind)
    {name : String} : ¬t.RefersTo name := by
  have hempty : (TypeBody.empty kind).fields = [] ∧ (TypeBody.empty kind).inputFields = [] ∧
      (TypeBody.empty kind).members = [] ∧ (TypeBody.empty kind).implements = [] := by
    cases kind <;> exact ⟨rfl, rfl, rfl, rfl⟩
  rw [← h] at hempty
  obtain ⟨hfields, hinputFields, hmembers, himplements⟩ := hempty
  intro hrefers
  cases hrefers with
  | field hmem | argument hmem =>
    rw [fields, hfields] at hmem
    cases hmem
  | inputField hmem =>
    rw [hinputFields] at hmem
    cases hmem
  | member hmem =>
    rw [hmembers] at hmem
    cases hmem
  | interface hmem =>
    rw [implements, himplements] at hmem
    cases hmem

/-- A type without members that absorbs another refers to what the other refers to. -/
theorem refersTo_of_absorb_empty {isRepeatable : String → Bool} {target source : TypeDefinition}
    {kind : TypeKind} (h : target.body = .empty kind) {name : String}
    (hrefers : (target.absorb isRepeatable source).1.RefersTo name) : source.RefersTo name :=
  (refersTo_absorb hrefers).resolve_left (not_refersTo_of_empty h)

end TypeDefinition

namespace Schema

variable {s : Schema}

/-! ## One step -/

/-- A schema takes a definition: it keeps the names of its types, its directive definitions and its
roots, and holds nothing else but what the definition says. -/
structure Takes (s : Schema) (x : Definition) (s' : Schema) : Prop where
  keepsTypes : ∀ t ∈ s.types, ∃ t' ∈ s'.types, t'.name = t.name
  keepsDirectives : s.directiveDefinitions ⊆ s'.directiveDefinitions
  keepsRoots : s.roots ⊆ s'.roots
  typeNames : ∀ t ∈ s'.types,
    (∃ u ∈ s.types, u.name = t.name) ∨ ∃ u, x = .type u ∧ u.name = t.name
  references : ∀ t ∈ s'.types, ∀ name, t.RefersTo name →
    (∃ u ∈ s.types, u.RefersTo name) ∨ ∃ u, x = .type u ∧ u.RefersTo name
  directives : ∀ d ∈ s'.directiveDefinitions, d ∈ s.directiveDefinitions ∨ x = .directive d
  roots : ∀ r ∈ s'.roots, r ∈ s.roots ∨ ∃ u, x = .schema u ∧ r ∈ u.rootOperations

/-- What is refused leaves the schema as it is. -/
theorem Takes.refused (s : Schema) (x : Definition) : s.Takes x s where
  keepsTypes t ht := ⟨t, ht, rfl⟩
  keepsDirectives := List.Subset.refl _
  keepsRoots := List.Subset.refl _
  typeNames t ht := .inl ⟨t, ht, rfl⟩
  references t ht _ hrefers := .inl ⟨t, ht, hrefers⟩
  directives _ := .inl
  roots _ := .inl

/-- A type that is made from a definition comes after the others. -/
theorem takes_append {t d : TypeDefinition} (hname : t.name = d.name)
    (hrefers : ∀ name, t.RefersTo name → d.RefersTo name) :
    s.Takes (.type d) { s with types := s.types ++ [t] } where
  keepsTypes u hu := ⟨u, List.mem_append_left _ hu, rfl⟩
  keepsDirectives := List.Subset.refl _
  keepsRoots := List.Subset.refl _
  typeNames u hu := by
    rcases List.mem_append.mp hu with hu | hu
    · exact .inl ⟨u, hu, rfl⟩
    · rw [List.mem_singleton.mp hu]
      exact .inr ⟨d, rfl, hname.symm⟩
  references u hu name h := by
    rcases List.mem_append.mp hu with hu | hu
    · exact .inl ⟨u, hu, h⟩
    · rw [List.mem_singleton.mp hu] at h
      exact .inr ⟨d, rfl, hrefers name h⟩
  directives _ := .inl
  roots _ := .inl

/-- A type that is made from one that is there and an extension takes its place. -/
theorem takes_replace {target t e : TypeDefinition} (htarget : target ∈ s.types)
    (hname : t.name = e.name)
    (hrefers : ∀ name, t.RefersTo name → target.RefersTo name ∨ e.RefersTo name) :
    s.Takes (.type e)
      { s with types := s.types.map fun u => if u.name = e.name then t else u } where
  keepsTypes u hu := by
    refine ⟨_, List.mem_map_of_mem hu, ?_⟩
    split
    · rename_i hextended
      rw [hname, hextended]
    · rfl
  keepsDirectives := List.Subset.refl _
  keepsRoots := List.Subset.refl _
  typeNames v hv := by
    obtain ⟨u, hu, rfl⟩ := List.mem_map.mp hv
    split
    · exact .inr ⟨e, rfl, hname.symm⟩
    · exact .inl ⟨u, hu, rfl⟩
  references v hv name h := by
    obtain ⟨u, hu, rfl⟩ := List.mem_map.mp hv
    split at h
    · rcases hrefers name h with h | h
      · exact .inl ⟨target, htarget, h⟩
      · exact .inr ⟨e, rfl, h⟩
    · exact .inl ⟨u, hu, h⟩
  directives _ := .inl
  roots _ := .inl

/-- Root operations that are applied keep those that are there, and add no others. -/
theorem roots_fold_addRoot (location : Location) (s : Schema) (rs : List RootOperation) :
    s.roots ⊆ (Reported.fold (addRoot location) s rs).1.roots ∧
      ∀ r ∈ (Reported.fold (addRoot location) s rs).1.roots, r ∈ s.roots ∨ r ∈ rs := by
  refine Reported.fold_induction
    (P := fun t : Schema => s.roots ⊆ t.roots ∧ ∀ r ∈ t.roots, r ∈ s.roots ∨ r ∈ rs) ?_
    ⟨List.Subset.refl _, fun r => .inl⟩
  rintro t r hr ⟨hkeeps, hroots⟩
  rw [addRoot]
  split
  · refine ⟨fun x hx => List.mem_append_left _ (hkeeps hx), fun x hx => ?_⟩
    rcases List.mem_append.mp hx with hx | hx
    · exact hroots x hx
    · exact .inr (List.mem_singleton.mp hx ▸ hr)
  · split <;> exact ⟨hkeeps, hroots⟩

/-- **A definition is taken**, if it is not refused. -/
theorem takes_addDefinition (s : Schema) (x : Definition) : s.Takes x (s.addDefinition x).1 := by
  cases x with
  | directive d =>
    rw [addDefinition, addDirectiveDefinition]
    split
    · exact .refused s _
    · exact
        { Takes.refused s (.directive d) with
          keepsDirectives := List.subset_append_left _ _
          directives := fun e he => (List.mem_append.mp he).imp_right fun he => by
            rw [List.mem_singleton.mp he] }
  | schema d =>
    obtain ⟨hkeeps, hroots⟩ := roots_fold_addRoot d.location s d.rootOperations
    obtain ⟨roots, hfold⟩ := exists_fold_addRoot d.location s d.rootOperations
    rw [hfold] at hkeeps hroots
    rw [addDefinition, addSchemaDefinition]
    simp only [hfold]
    exact
      { Takes.refused s (.schema d) with
        keepsRoots := hkeeps
        roots := fun r hr => (hroots r hr).imp_right fun hr => ⟨d, rfl, hr⟩ }
  | type d =>
    rw [addDefinition]
    split
    · exact .refused s _
    · rw [addTypeDefinition]
      split
      · exact .refused s _
      · exact takes_append rfl fun _ => TypeDefinition.refersTo_of_absorb_empty rfl

/-- An extension is taken, if it is not refused. -/
theorem takes_addTypeExtension (s : Schema) (e : TypeDefinition) :
    s.Takes (.type e) (s.addTypeExtension e).1 := by
  rw [addTypeExtension]
  split
  · exact takes_append rfl fun _ => TypeDefinition.refersTo_of_absorb_empty rfl
  · rename_i target htarget
    obtain ⟨hmem, hname⟩ := mem_of_type? htarget
    split
    · exact .refused s _
    · exact takes_replace hmem hname fun _ => TypeDefinition.refersTo_absorb

/-! ## A document -/

/-- A schema is made from a document: it holds nothing but what definitions of the document say. -/
structure MadeFrom (s : Schema) (d : Document) : Prop where
  typeNames : ∀ t ∈ s.types, ∃ u ∈ d.typeDefinitions, u.name = t.name
  references : ∀ t ∈ s.types, ∀ name, t.RefersTo name → ∃ u ∈ d.typeDefinitions, u.RefersTo name
  directives : ∀ x ∈ s.directiveDefinitions, x ∈ d.directiveDefinitions
  roots : ∀ r ∈ s.roots, ∃ x ∈ d.schemaDefinitions, r ∈ x.rootOperations

theorem madeFrom_empty (d : Document) : empty.MadeFrom d where
  typeNames := List.forall_mem_nil _
  references := List.forall_mem_nil _
  directives := List.forall_mem_nil _
  roots := List.forall_mem_nil _

/-- **A schema that takes a definition of a document is still made from it.** -/
theorem MadeFrom.takes {d : Document} {s s' : Schema} (h : s.MadeFrom d) {x : Definition}
    (hx : x ∈ d.definitions) (htakes : s.Takes x s') : s'.MadeFrom d where
  typeNames t ht := by
    rcases htakes.typeNames t ht with ⟨u, hu, hname⟩ | ⟨u, rfl, hname⟩
    · rw [← hname]
      exact h.typeNames u hu
    · exact ⟨u, Document.mem_typeDefinitions.mpr hx, hname⟩
  references t ht name hrefers := by
    rcases htakes.references t ht name hrefers with ⟨u, hu, hrefers⟩ | ⟨u, rfl, hrefers⟩
    · exact h.references u hu name hrefers
    · exact ⟨u, Document.mem_typeDefinitions.mpr hx, hrefers⟩
  directives y hy := by
    rcases htakes.directives y hy with hy | rfl
    · exact h.directives y hy
    · exact Document.mem_directiveDefinitions.mpr hx
  roots r hr := by
    rcases htakes.roots r hr with hr | ⟨u, rfl, hr⟩
    · exact h.roots r hr
    · exact ⟨u, Document.mem_schemaDefinitions.mpr hx, hr⟩

/-- **What a document makes is made from it.** -/
theorem madeFrom_applyDocument (d : Document) : (empty.applyDocument d).1.MadeFrom d := by
  have hdefinitions : (Reported.fold addDefinition empty d.definitions).1.MadeFrom d :=
    Reported.fold_induction (P := fun s : Schema => s.MadeFrom d)
      (fun s x hx hs => hs.takes hx (takes_addDefinition s x)) (madeFrom_empty d)
  refine Reported.fold_induction (P := fun s : Schema => s.MadeFrom d) (fun s e he hs => ?_)
    hdefinitions
  have hmem := Document.mem_typeDefinitions.mp (List.mem_filter.mp he).1
  exact hs.takes hmem (takes_addTypeExtension s e)

section

variable {d : Document} (hsilent : (empty.applyDocument d).2 = [])
include hsilent

/-- What a definition reaches, and no step undoes, a document without clashes reaches. -/
theorem applyDocument_reaches {P : Schema → Prop} {x : Definition} (hx : x ∈ d.definitions)
    (hkeep : ∀ s s' y, s.Takes y s' → P s → P s')
    (hreach : ∀ s : Schema, (s.addDefinition x).2 = [] → P (s.addDefinition x).1) :
    P (empty.applyDocument d).1 := by
  have hdefinitions : P (Reported.fold addDefinition empty d.definitions).1 :=
    Reported.fold_reaches hx (fun s y => hkeep _ _ _ (takes_addDefinition s y)) hreach
      (List.append_eq_nil_iff.mp hsilent).1
  exact Reported.fold_induction (P := P)
    (fun s e _ => hkeep _ _ _ (takes_addTypeExtension s e)) hdefinitions

/-- Every directive definition of a document without clashes is there. -/
theorem mem_directiveDefinitions_applyDocument {x : DirectiveDefinition}
    (hx : x ∈ d.directiveDefinitions) :
    x ∈ (empty.applyDocument d).1.directiveDefinitions := by
  refine applyDocument_reaches (P := fun s => x ∈ s.directiveDefinitions) hsilent
    (Document.mem_directiveDefinitions.mp hx) (fun s s' y htakes hs => htakes.keepsDirectives hs) ?_
  intro s hadded
  rw [addDefinition, addDirectiveDefinition] at hadded ⊢
  split at hadded
  · cases hadded
  · rename_i hnew
    rw [if_neg hnew]
    exact List.mem_append_right _ (List.mem_singleton_self x)

/-- Every root operation of a document without clashes is there. -/
theorem mem_roots_applyDocument {x : SchemaDefinition} (hx : x ∈ d.schemaDefinitions)
    {r : RootOperation} (hr : r ∈ x.rootOperations) : r ∈ (empty.applyDocument d).1.roots := by
  refine applyDocument_reaches (P := fun s => r ∈ s.roots) hsilent
    (Document.mem_schemaDefinitions.mp hx) (fun s s' y htakes hs => htakes.keepsRoots hs) ?_
  intro s hadded
  have hroots : (Reported.fold (addRoot x.location) s x.rootOperations).2 = [] :=
    (List.append_eq_nil_iff.mp hadded).1
  refine Reported.fold_reaches (P := fun s : Schema => r ∈ s.roots) hr ?_ ?_ hroots
  · intro s r' hs
    exact (roots_fold_addRoot x.location s [r']).1 hs
  · intro s hadded
    rw [addRoot] at hadded ⊢
    cases hname : s.rootName? r.operation with
    | none => exact List.mem_append_right _ (List.mem_singleton_self r)
    | some existing =>
      simp only [hname] at hadded ⊢
      split at hadded
      · -- the operation has a root of this name, which is the same root operation
        rename_i hsame
        obtain ⟨r', hfound, htypeName⟩ := Option.map_eq_some_iff.mp hname
        have hfind := List.find?_some hfound
        have hoperation : r'.operation = r.operation := beq_iff_eq.mp hfind
        obtain rfl : r' = r := by
          rw [show r' = ⟨r'.operation, r'.typeName⟩ from rfl, hoperation, htypeName, hsame]
        rw [if_pos hsame]
        exact List.mem_of_find?_eq_some hfound
      · cases hadded

omit hsilent in
/-- An extension has a type to extend afterwards, whether it is refused or not. -/
theorem exists_type_addTypeExtension (s : Schema) (e : TypeDefinition) :
    ∃ t ∈ (s.addTypeExtension e).1.types, t.name = e.name := by
  rw [addTypeExtension]
  split
  · exact ⟨_, List.mem_append_right _ (List.mem_singleton_self _), rfl⟩
  · rename_i target htarget
    obtain ⟨hmem, hname⟩ := mem_of_type? htarget
    split
    · exact ⟨target, hmem, hname⟩
    · refine ⟨_, List.mem_map_of_mem hmem, ?_⟩
      rw [if_pos hname]
      exact hname

/-- Every type that a document without clashes defines or extends is there. -/
theorem exists_type_applyDocument {t : TypeDefinition} (ht : t ∈ d.typeDefinitions) :
    ∃ t' ∈ (empty.applyDocument d).1.types, t'.name = t.name := by
  have hkeep : ∀ s s' : Schema, ∀ y, s.Takes y s' → (∃ t' ∈ s.types, t'.name = t.name) →
      ∃ t' ∈ s'.types, t'.name = t.name := by
    rintro s s' y htakes ⟨u, hu, hname⟩
    rw [← hname]
    exact htakes.keepsTypes u hu
  by_cases hextension : t.isExtension = true
  · exact Reported.fold_reaches (P := fun s : Schema => ∃ t' ∈ s.types, t'.name = t.name)
      (List.mem_filter.mpr ⟨ht, hextension⟩)
      (fun s e => hkeep _ _ _ (takes_addTypeExtension s e))
      (fun s _ => exists_type_addTypeExtension s t) (List.append_eq_nil_iff.mp hsilent).2
  · refine applyDocument_reaches (P := fun s => ∃ t' ∈ s.types, t'.name = t.name) hsilent
      (Document.mem_typeDefinitions.mp ht) hkeep fun s hadded => ?_
    rw [addDefinition, if_neg hextension, addTypeDefinition] at hadded ⊢
    split at hadded
    · cases hadded
    · rename_i hnew
      rw [if_neg hnew]
      exact ⟨_, List.mem_append_right _ (List.mem_singleton_self _), rfl⟩

end

/-! ## What is checked -/

/-- The types of a schema whose references are checked refer to what it knows. -/
theorem knows_of_refersTo (h : s.referenceProblems = []) {t : TypeDefinition} (ht : t ∈ s.types)
    {name : String} (hrefers : t.RefersTo name) : s.Knows name := by
  obtain ⟨r, hr, rfl⟩ := hrefers.mem_references
  exact knows_of_referenceProblems h ht hr

/-- Where types refer to what the schema knows, the rest is up to its directive definitions and its
root operations. -/
theorem closed_iff (htypes : ∀ t ∈ s.types, ∀ name, t.RefersTo name → s.Knows name) :
    s.Closed ↔ (∀ x ∈ s.directiveDefinitions, ∀ a ∈ x.arguments, s.Knows a.type.name) ∧
      ∀ r ∈ s.roots, s.Knows r.typeName := by
  constructor
  · intro hclosed
    exact ⟨fun x hx a ha => hclosed _ (.directiveArgument hx ha),
      fun r hr => hclosed _ (.root hr)⟩
  · rintro ⟨harguments, hroots⟩ name hrefers
    cases hrefers with
    | type ht hrefers => exact htypes _ ht name hrefers
    | directiveArgument hx ha => exact harguments _ hx _ ha
    | root hr => exact hroots _ hr

/-! ## What is built -/

/-- A schema that is built knows what its document knows. -/
theorem knows_iff_of_build {d : Document} {s : Schema} (h : build d = .ok s) {name : String} :
    s.Knows name ↔ d.Knows name := by
  obtain ⟨-, happlied⟩ := build_eq_ok_iff.mp h
  have hmade := madeFrom_applyDocument d
  have hthere := fun t => exists_type_applyDocument (t := t) (congrArg Prod.snd happlied)
  rw [happlied] at hmade hthere
  refine or_congr_right ⟨?_, ?_⟩
  · rintro ⟨t, ht, rfl⟩
    exact hmade.typeNames t ht
  · rintro ⟨t, ht, rfl⟩
    exact hthere t ht

/-- The types of a document without problems refer to what the document knows. -/
theorem knows_of_documentProblems {d : Document} (h : empty.documentProblems d = [])
    {t : TypeDefinition} (ht : t ∈ d.typeDefinitions) {name : String} (hrefers : t.RefersTo name) :
    d.Knows name := by
  have hunknown := List.flatMap_eq_nil_iff.mp (List.append_eq_nil_iff.mp h).2 t ht
  rw [TypeDefinition.unknownReferences, List.map_eq_nil_iff, List.filter_eq_nil_iff] at hunknown
  obtain ⟨r, hr, rfl⟩ := hrefers.mem_references
  have hknown := hunknown r hr
  rw [Bool.not_eq_true', Bool.not_eq_false, Bool.or_eq_true, isKnownType_iff, List.any_eq_true]
    at hknown
  rcases hknown with (hscalar | ⟨u, hu, -⟩) | ⟨u, hu, hname⟩
  · exact .inl hscalar
  · cases hu
  · exact .inr ⟨u, hu, beq_iff_eq.mp hname⟩

/-- **The types of a schema that is built refer to what it knows**, and the whole schema does
exactly when the directive definitions and the root operations of its document do. -/
theorem closed_iff_of_build {d : Document} {s : Schema} (h : build d = .ok s) :
    (∀ t ∈ s.types, ∀ name, t.RefersTo name → s.Knows name) ∧
    (s.Closed ↔
      (∀ x ∈ d.directiveDefinitions, ∀ a ∈ x.arguments, d.Knows a.type.name) ∧
        ∀ x ∈ d.schemaDefinitions, ∀ r ∈ x.rootOperations, d.Knows r.typeName) := by
  obtain ⟨hproblems, happlied⟩ := build_eq_ok_iff.mp h
  have hsilent : (empty.applyDocument d).2 = [] := congrArg Prod.snd happlied
  have hmade := madeFrom_applyDocument d
  have hdirectives := fun x => mem_directiveDefinitions_applyDocument (x := x) hsilent
  have hroots := fun x r => mem_roots_applyDocument (x := x) (r := r) hsilent
  rw [happlied] at hmade hdirectives hroots
  have htypes : ∀ t ∈ s.types, ∀ name, t.RefersTo name → s.Knows name := by
    intro t ht name hrefers
    obtain ⟨u, hu, hrefers⟩ := hmade.references t ht name hrefers
    exact (knows_iff_of_build h).mpr (knows_of_documentProblems hproblems hu hrefers)
  refine ⟨htypes, ?_⟩
  simp only [closed_iff htypes, knows_iff_of_build h]
  constructor
  · rintro ⟨harguments, hnamed⟩
    exact ⟨fun x hx => harguments x (hdirectives x hx),
      fun x hx r hr => hnamed r (hroots x r hx hr)⟩
  · rintro ⟨harguments, hnamed⟩
    refine ⟨fun x hx => harguments x (hmade.directives x hx), fun r hr => ?_⟩
    obtain ⟨x, hx, hr⟩ := hmade.roots r hr
    exact hnamed x hx r hr

end Schema

end Federation
