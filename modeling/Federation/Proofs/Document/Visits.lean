import Federation.Document.Visit
import Federation.Proofs.Sequence
/-!
# Document — what a visit leaves

A visit without effects that deletes no node is a map over the lists of a
document (`Transform.visitList_eq_map`). The visit that strips
applications of directives changes every list of applications in the
same way and nothing else, so it is `Document.mapApplications` at a
filter (`Document.stripDirectives_eq`).

Where applications stand is said without the visit: a `Slot` names a list
of applications by the indices of the nodes around it, and
`Document.applicationsAt` reads the list. A document is given by its
lists of applications and by what it is without them
(`Document.eq_of_applicationsAt`).
-/

namespace Federation

/-! ## Visits without effects -/

namespace Transform

/-- A visit that replaces every node is a map. -/
theorem visitList_eq_map {α : Type} (hook : α → Id (Action α)) (children : α → Id α) {g : α → α}
    (h : ∀ a, ∃ b, (hook a).run.resolve a = some b ∧ (children b).run = g a) (as : List α) :
    (visitList hook children as).run = as.map g := by
  induction as with
  | nil => rfl
  | cons a as ih =>
    obtain ⟨b, hb, hg⟩ := h a
    simp only [visitList, Id.run_bind, hb, hg, ih, List.map_cons, Id.run_pure]

theorem visitDefinitions_eq_filterMap {t : Transform Id} (ds : List Definition) :
    (t.visitDefinitions ds).run = ds.filterMap fun d => (t.visitDefinition d).run := by
  induction ds with
  | nil => rfl
  | cons d ds ih =>
    rw [visitDefinitions, Id.run_bind, List.filterMap_cons]
    cases (t.visitDefinition d).run with
    | none => exact ih
    | some d => simp only [Id.run_bind, ih, Id.run_pure]

end Transform

/-! ## A change to every list of applications -/

namespace InputValue

/-- The argument or input field with its applications changed by a function. -/
def mapApplications (f : List Directive → List Directive) (v : InputValue) : InputValue :=
  { v with directives := f v.directives }

end InputValue

namespace EnumValue

/-- The value with its applications changed by a function. -/
def mapApplications (f : List Directive → List Directive) (v : EnumValue) : EnumValue :=
  { v with directives := f v.directives }

end EnumValue

namespace Field

/-- The field with its applications, and those on its arguments, changed by a function. -/
def mapApplications (f : List Directive → List Directive) (x : Field) : Field :=
  { x with
    arguments := x.arguments.map (InputValue.mapApplications f)
    directives := f x.directives }

end Field

namespace TypeBody

/-- The body with the applications on its members changed by a function. -/
def mapApplications (f : List Directive → List Directive) : TypeBody → TypeBody
  | scalar => scalar
  | object b => object { b with fields := b.fields.map (Field.mapApplications f) }
  | interface b => interface { b with fields := b.fields.map (Field.mapApplications f) }
  | union members => union members
  | enum values => enum (values.map (EnumValue.mapApplications f))
  | inputObject fields => inputObject (fields.map (InputValue.mapApplications f))

end TypeBody

namespace Definition

/-- The definition with the applications on it and in it changed by a function. -/
def mapApplications (f : List Directive → List Directive) : Definition → Definition
  | schema d => schema { d with directives := f d.directives }
  | type d => type { d with directives := f d.directives, body := d.body.mapApplications f }
  | directive d => directive { d with arguments := d.arguments.map (InputValue.mapApplications f) }

end Definition

namespace Document

/-- The document with each of its lists of applications changed by a function. -/
def mapApplications (f : List Directive → List Directive) (d : Document) : Document :=
  ⟨d.definitions.map (Definition.mapApplications f)⟩

/-- What a document is without any application of a directive. -/
def withoutApplications (d : Document) : Document :=
  d.mapApplications fun _ => []

end Document

@[simp] theorem TypeBody.implements_mapApplications (f : List Directive → List Directive)
    (b : TypeBody) : (b.mapApplications f).implements = b.implements := by
  cases b <;> rfl

/-! Changes follow one another as functions do. -/

section Composition

variable (f g : List Directive → List Directive)

@[simp] theorem InputValue.mapApplications_mapApplications (v : InputValue) :
    (v.mapApplications g).mapApplications f = v.mapApplications (f ∘ g) := rfl

@[simp] theorem EnumValue.mapApplications_mapApplications (v : EnumValue) :
    (v.mapApplications g).mapApplications f = v.mapApplications (f ∘ g) := rfl

@[simp] theorem Field.mapApplications_mapApplications (x : Field) :
    (x.mapApplications g).mapApplications f = x.mapApplications (f ∘ g) := by
  simp [Field.mapApplications]

@[simp] theorem TypeBody.mapApplications_mapApplications (b : TypeBody) :
    (b.mapApplications g).mapApplications f = b.mapApplications (f ∘ g) := by
  cases b <;> simp [TypeBody.mapApplications]

@[simp] theorem Definition.mapApplications_mapApplications (d : Definition) :
    (d.mapApplications g).mapApplications f = d.mapApplications (f ∘ g) := by
  cases d <;> simp [Definition.mapApplications]

@[simp] theorem Document.mapApplications_mapApplications (d : Document) :
    (d.mapApplications g).mapApplications f = d.mapApplications (f ∘ g) := by
  simp [Document.mapApplications]

end Composition

/-! ## Where applications stand -/

namespace Definition

/-- The applications on a definition itself. Definitions of directives have none. -/
def applications? : Definition → Option (List Directive)
  | schema d => some d.directives
  | type d => some d.directives
  | directive _ => none

/-- The fields that a definition holds. -/
def fields : Definition → List Field
  | type d => d.fields
  | schema _ | directive _ => []

/-- The values that a definition holds. -/
def enumValues : Definition → List EnumValue
  | type d => d.body.enumValues
  | schema _ | directive _ => []

/-- The input fields that a definition holds. -/
def inputFields : Definition → List InputValue
  | type d => d.body.inputFields
  | schema _ | directive _ => []

/-- The arguments of a definition of a directive. -/
def arguments : Definition → List InputValue
  | directive d => d.arguments
  | schema _ | type _ => []

end Definition

/-- A place in a definition that holds a list of applications: on the definition itself or on a node
in it, by the indices of the nodes. So `argument j k` is on the `k`-th argument of the `j`-th
field. -/
inductive Slot
  | self
  | field (j : Nat)
  | argument (j k : Nat)
  | enumValue (j : Nat)
  | inputField (j : Nat)
  | directiveArgument (j : Nat)

namespace Definition

/-- The applications in a slot, if the definition has it. -/
def applicationsAt (d : Definition) : Slot → Option (List Directive)
  | .self => d.applications?
  | .field j => d.fields[j]?.map Field.directives
  | .argument j k => d.fields[j]?.bind fun f => f.arguments[k]?.map InputValue.directives
  | .enumValue j => d.enumValues[j]?.map EnumValue.directives
  | .inputField j => d.inputFields[j]?.map InputValue.directives
  | .directiveArgument j => d.arguments[j]?.map InputValue.directives

end Definition

namespace Document

/-- The applications in a slot of the `i`-th definition, if the document has it. -/
def applicationsAt (d : Document) (i : Nat) (slot : Slot) : Option (List Directive) :=
  d.definitions[i]?.bind fun x => x.applicationsAt slot

end Document

namespace Definition

variable (f : List Directive → List Directive) (d : Definition)

@[simp] theorem applications?_mapApplications :
    (d.mapApplications f).applications? = d.applications?.map f := by
  cases d <;> rfl

@[simp] theorem fields_mapApplications :
    (d.mapApplications f).fields = d.fields.map (Field.mapApplications f) := by
  cases d with
  | schema | directive => rfl
  | type d => obtain ⟨_, _, _, _, body, _⟩ := d; cases body <;> rfl

@[simp] theorem enumValues_mapApplications :
    (d.mapApplications f).enumValues = d.enumValues.map (EnumValue.mapApplications f) := by
  cases d with
  | schema | directive => rfl
  | type d => obtain ⟨_, _, _, _, body, _⟩ := d; cases body <;> rfl

@[simp] theorem inputFields_mapApplications :
    (d.mapApplications f).inputFields = d.inputFields.map (InputValue.mapApplications f) := by
  cases d with
  | schema | directive => rfl
  | type d => obtain ⟨_, _, _, _, body, _⟩ := d; cases body <;> rfl

@[simp] theorem arguments_mapApplications :
    (d.mapApplications f).arguments = d.arguments.map (InputValue.mapApplications f) := by
  cases d <;> rfl

theorem applicationsAt_mapApplications (slot : Slot) :
    (d.mapApplications f).applicationsAt slot = (d.applicationsAt slot).map f := by
  cases slot <;>
    simp [applicationsAt, Option.bind_map, Option.map_bind, Function.comp_def,
      Field.mapApplications, EnumValue.mapApplications, InputValue.mapApplications]

end Definition

namespace Document

/-- **Every slot stays**, and its list is changed. -/
theorem applicationsAt_mapApplications (f : List Directive → List Directive) (d : Document)
    (i : Nat) (slot : Slot) :
    (d.mapApplications f).applicationsAt i slot = (d.applicationsAt i slot).map f := by
  simp [applicationsAt, mapApplications, Option.bind_map, Option.map_bind, Function.comp_def,
    Definition.applicationsAt_mapApplications]

end Document

/-! ## A document from its lists of applications -/

/-- Lists are equal if a map takes them to one list and tells apart what stands at one index. -/
theorem eq_of_map_eq_of_index {α β : Type} {e : α → β} {as bs : List α} (h : as.map e = bs.map e)
    (hinj : ∀ (i : Nat) (a b : α), as[i]? = some a → bs[i]? = some b → e a = e b → a = b) :
    as = bs := by
  refine List.ext_getElem? fun i => ?_
  have hi : as[i]?.map e = bs[i]?.map e := by rw [← List.getElem?_map, h, List.getElem?_map]
  cases ha : as[i]? with
  | none =>
    rw [ha, Option.map_none, eq_comm, Option.map_eq_none_iff] at hi
    exact hi.symm
  | some a =>
    rw [ha, Option.map_some, eq_comm, Option.map_eq_some_iff] at hi
    obtain ⟨b, hb, he⟩ := hi
    rw [hb, hinj i a b ha hb he.symm]

/-- Arguments or input fields are what they are without applications, with their applications. -/
theorem InputValue.list_eq {vs ws : List InputValue}
    (h : vs.map (InputValue.mapApplications fun _ => []) =
      ws.map (InputValue.mapApplications fun _ => []))
    (hd : ∀ i : Nat, vs[i]?.map InputValue.directives = ws[i]?.map InputValue.directives) :
    vs = ws := by
  refine eq_of_map_eq_of_index h fun i v w hv hw he => ?_
  have hvw : v.directives = w.directives := by simpa [hv, hw] using hd i
  cases v
  cases w
  simp_all [InputValue.mapApplications]

/-- Values are what they are without applications, with their applications. -/
theorem EnumValue.list_eq {vs ws : List EnumValue}
    (h : vs.map (EnumValue.mapApplications fun _ => []) =
      ws.map (EnumValue.mapApplications fun _ => []))
    (hd : ∀ i : Nat, vs[i]?.map EnumValue.directives = ws[i]?.map EnumValue.directives) :
    vs = ws := by
  refine eq_of_map_eq_of_index h fun i v w hv hw he => ?_
  have hvw : v.directives = w.directives := by simpa [hv, hw] using hd i
  cases v
  cases w
  simp_all [EnumValue.mapApplications]

/-- Fields are what they are without applications, with the applications on them and on their
arguments. -/
theorem Field.list_eq {xs ys : List Field}
    (h : xs.map (Field.mapApplications fun _ => []) = ys.map (Field.mapApplications fun _ => []))
    (hd : ∀ j : Nat, xs[j]?.map Field.directives = ys[j]?.map Field.directives)
    (ha : ∀ j k : Nat, (xs[j]?.bind fun x => x.arguments[k]?.map InputValue.directives) =
      ys[j]?.bind fun y => y.arguments[k]?.map InputValue.directives) : xs = ys := by
  refine eq_of_map_eq_of_index h fun j x y hx hy he => ?_
  have hxy : x.directives = y.directives := by simpa [hx, hy] using hd j
  have harguments : x.arguments = y.arguments :=
    InputValue.list_eq (congrArg Field.arguments he) fun k => by simpa [hx, hy] using ha j k
  cases x
  cases y
  simp_all [Field.mapApplications]

/-- A body is what it is without applications, with its members. -/
theorem TypeBody.eq_of_members {b c : TypeBody}
    (h : b.mapApplications (fun _ => []) = c.mapApplications fun _ => [])
    (hfields : b.fields = c.fields) (hvalues : b.enumValues = c.enumValues)
    (hinputs : b.inputFields = c.inputFields) : b = c := by
  have himplements : b.implements = c.implements := by
    simpa using congrArg implements h
  have hobject (x y : ObjectBody) (hi : x.implements = y.implements) (hf : x.fields = y.fields) :
      x = y := by
    cases x
    cases y
    exact congrArg₂ ObjectBody.mk hi hf
  cases b with
  | object x =>
    cases c with
    | object y => exact congrArg object (hobject x y himplements hfields)
    | scalar | interface | union | enum | inputObject => simp [mapApplications] at h
  | interface x =>
    cases c with
    | interface y => exact congrArg interface (hobject x y himplements hfields)
    | scalar | object | union | enum | inputObject => simp [mapApplications] at h
  | scalar | union | enum | inputObject =>
    cases c <;> simp_all [mapApplications, enumValues, inputFields]

namespace Definition

/-- A definition is what it is without applications, with the applications in its slots. -/
theorem eq_of_applicationsAt {d e : Definition}
    (h : d.mapApplications (fun _ => []) = e.mapApplications fun _ => [])
    (hslots : ∀ slot, d.applicationsAt slot = e.applicationsAt slot) : d = e := by
  have hfields : d.fields = e.fields :=
    Field.list_eq (by simpa using congrArg fields h) (fun j => hslots (.field j))
      fun j k => hslots (.argument j k)
  have hvalues : d.enumValues = e.enumValues :=
    EnumValue.list_eq (by simpa using congrArg enumValues h) fun j => hslots (.enumValue j)
  have hinputs : d.inputFields = e.inputFields :=
    InputValue.list_eq (by simpa using congrArg inputFields h) fun j => hslots (.inputField j)
  have harguments : d.arguments = e.arguments :=
    InputValue.list_eq (by simpa using congrArg arguments h) fun j => hslots (.directiveArgument j)
  have hself : d.applications? = e.applications? := hslots .self
  cases d with
  | schema d =>
    cases e with
    | schema e =>
      cases d
      cases e
      simp_all [mapApplications, applications?]
    | type | directive => simp [mapApplications] at h
  | type d =>
    cases e with
    | type e =>
      have hbody : d.body = e.body :=
        TypeBody.eq_of_members (congrArg TypeDefinition.body (Definition.type.inj h)) hfields
          hvalues hinputs
      cases d
      cases e
      simp_all [mapApplications, applications?]
    | schema | directive => simp [mapApplications] at h
  | directive d =>
    cases e with
    | directive e =>
      cases d
      cases e
      simp_all [mapApplications, arguments]
    | schema | type => simp [mapApplications] at h

end Definition

namespace Document

/-- **A document is its lists of applications and what it is without them.** Two documents that
hold the same applications in every slot, and are the same without applications, are equal. -/
theorem eq_of_applicationsAt {d e : Document} (h : d.withoutApplications = e.withoutApplications)
    (hslots : ∀ i slot, d.applicationsAt i slot = e.applicationsAt i slot) : d = e := by
  refine congrArg Document.mk
    (eq_of_map_eq_of_index (congrArg definitions h) fun i x y hx hy he => ?_)
  refine Definition.eq_of_applicationsAt he fun slot => ?_
  simpa [applicationsAt, hx, hy] using hslots i slot

end Document

/-! ## The visit that strips -/

namespace Transform

variable (p : Directive → Bool)

theorem visitDirectives_strip (ds : List Directive) :
    ((strip p).visitDirectives ds).run = ds.filter (!p ·) := by
  induction ds with
  | nil => rfl
  | cons d ds ih =>
    cases hp : p d with
    | true =>
      have hhook : (strip p).directive d = Action.delete := if_pos hp
      rw [List.filter_cons_of_neg (by simp [hp]), ← ih, visitDirectives, visitList, hhook]
      rfl
    | false =>
      have hhook : (strip p).directive d = Action.keep := if_neg (by simp [hp])
      rw [List.filter_cons_of_pos (by simp [hp]), ← ih, visitDirectives, visitList, hhook]
      rfl

theorem visitInputValues_strip (vs : List InputValue) :
    ((strip p).visitInputValues vs).run =
      vs.map (InputValue.mapApplications (List.filter (!p ·))) := by
  refine visitList_eq_map _ _ (fun v => ⟨v, rfl, ?_⟩) vs
  simp only [Id.run_bind, Id.run_pure, visitDirectives_strip, InputValue.mapApplications]

theorem visitEnumValues_strip (vs : List EnumValue) :
    ((strip p).visitEnumValues vs).run =
      vs.map (EnumValue.mapApplications (List.filter (!p ·))) := by
  refine visitList_eq_map _ _ (fun v => ⟨v, rfl, ?_⟩) vs
  simp only [Id.run_bind, Id.run_pure, visitDirectives_strip, EnumValue.mapApplications]

theorem visitFields_strip (fs : List Field) :
    ((strip p).visitFields fs).run = fs.map (Field.mapApplications (List.filter (!p ·))) := by
  refine visitList_eq_map _ _ (fun f => ⟨f, rfl, ?_⟩) fs
  simp only [Id.run_bind, Id.run_pure, visitDirectives_strip, visitInputValues_strip,
    Field.mapApplications]

theorem visitBody_strip (b : TypeBody) :
    ((strip p).visitBody b).run = b.mapApplications (List.filter (!p ·)) := by
  cases b <;> simp [visitBody, TypeBody.mapApplications, visitFields_strip, visitEnumValues_strip,
    visitInputValues_strip]

/-- The visit that strips deletes no definition. -/
theorem visitDefinition_strip (d : Definition) :
    ((strip p).visitDefinition d).run = some (d.mapApplications (List.filter (!p ·))) := by
  cases d with
  | schema d =>
    rw [Definition.mapApplications, ← visitDirectives_strip]
    rfl
  | type d =>
    rw [Definition.mapApplications, ← visitDirectives_strip, ← visitBody_strip]
    rfl
  | directive d =>
    rw [Definition.mapApplications, ← visitInputValues_strip]
    rfl

end Transform

namespace Document

/-- **Stripping filters** every list of applications of a document. -/
theorem stripDirectives_eq (d : Document) (p : Directive → Bool) :
    d.stripDirectives p = d.mapApplications (List.filter (!p ·)) := by
  simp only [stripDirectives, visit, Id.run_bind, Id.run_pure,
    Transform.visitDefinitions_eq_filterMap, Transform.visitDefinition_strip, mapApplications,
    List.filterMap_eq_map']

/-- Stripping by one property after another is stripping by either. -/
theorem stripDirectives_stripDirectives (d : Document) (p q : Directive → Bool) :
    (d.stripDirectives q).stripDirectives p = d.stripDirectives fun a => p a || q a := by
  simp only [stripDirectives_eq, mapApplications_mapApplications, Function.comp_def,
    List.filter_filter, Bool.not_or]

/-- **Stripping deletes the applications with a property and nothing else.** The stripped document
is the one that has the slots of the document, in each of them the other applications in order,
and that is the document if applications are left out. Stripping twice is stripping once by either
property, so that stripping again changes nothing and the order does not matter. -/
theorem stripDirectives_spec (d : Document) (p q : Directive → Bool) :
    (∀ e : Document, e = d.stripDirectives p ↔
      (∀ i slot, e.applicationsAt i slot = (d.applicationsAt i slot).map (List.filter (!p ·))) ∧
      e.withoutApplications = d.withoutApplications) ∧
    (d.stripDirectives q).stripDirectives p = d.stripDirectives (fun a => p a || q a) ∧
    (d.stripDirectives p).stripDirectives p = d.stripDirectives p ∧
    (d.stripDirectives q).stripDirectives p = (d.stripDirectives p).stripDirectives q := by
  have hslots (i : Nat) (slot : Slot) : (d.stripDirectives p).applicationsAt i slot =
      (d.applicationsAt i slot).map (List.filter (!p ·)) := by
    rw [stripDirectives_eq, applicationsAt_mapApplications]
  have hrest : (d.stripDirectives p).withoutApplications = d.withoutApplications := by
    rw [stripDirectives_eq, withoutApplications, mapApplications_mapApplications]
    rfl
  refine ⟨fun e => ⟨?_, fun ⟨happlications, he⟩ => ?_⟩, stripDirectives_stripDirectives d p q,
    ?_, ?_⟩
  · rintro rfl
    exact ⟨hslots, hrest⟩
  · refine eq_of_applicationsAt (he.trans hrest.symm) fun i slot => ?_
    rw [happlications, hslots]
  · simp only [stripDirectives_stripDirectives, Bool.or_self]
  · simp only [stripDirectives_stripDirectives, Bool.or_comm]

end Document

end Federation
