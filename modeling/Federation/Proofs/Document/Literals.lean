import Federation.Proofs.Document.Reading
/-!
# Document — the strings of a document

A string stands in a document as the description of a definition, of a
member or of an argument, or as a value or part of one
(`Document.literals`, in the order in which they are written). The written
form of any document holds exactly these as strings, each followed by a
delimiter (`Document.holds_pieces`), so each can be found where it stands
(`Piece.Holds.exists_split`).
-/

namespace Federation

/-! ## Strings at their places -/

/-- Where a string is written: above a definition, above a member, or within a line. -/
inductive Place
  | definition
  | member
  | inline
  deriving DecidableEq, Repr

/-- A string of a document at its place. -/
structure Literal where
  place : Place
  text : String
  deriving DecidableEq, Repr

namespace Literal

/-- The written form of a string at its place. -/
def piece (l : Literal) : Piece :=
  match l.place with
  | .definition => descriptionPiece [] l.text
  | .member => descriptionPiece [' ', ' ', ' ', ' '] l.text
  | .inline => quotedPiece l.text

/-- A value that is a string. -/
def ofValue? : Value → Option Literal
  | .string s => some ⟨.inline, s⟩
  | .null | .int _ | .float _ | .boolean _ | .enum _ | .list _ | .object _ => none

/-- The description of an element at a place, and the other strings of the element. -/
def described (place : Place) (description : Option String) (ls : List Literal) : List Literal :=
  description.toList.map (⟨place, ·⟩) ++ ls

theorem described_append (place : Place) (description : Option String) (ls ms : List Literal) :
    described place description ls ++ ms = described place description (ls ++ ms) :=
  List.append_assoc _ _ _

end Literal

/-- The strings in a value. -/
def Value.literals (v : Value) : List Literal :=
  v.parts.filterMap Literal.ofValue?

/-- The strings in the arguments of an application. -/
def Directive.literals (d : Directive) : List Literal :=
  d.arguments.flatMap (·.value.literals)

namespace InputValue

/-- The strings in the default and in the applications on an input value. -/
def literals (v : InputValue) : List Literal :=
  v.default.toList.flatMap Value.literals ++ v.directives.flatMap Directive.literals

/-- The strings of an argument. -/
def argumentLiterals (v : InputValue) : List Literal :=
  Literal.described .inline v.description v.literals

end InputValue

/-- The strings in the arguments of a field and in the applications on it. -/
def Field.literals (f : Field) : List Literal :=
  f.arguments.flatMap InputValue.argumentLiterals ++ f.directives.flatMap Directive.literals

/-- The strings in the applications on a value of an enumeration. -/
def EnumValue.literals (v : EnumValue) : List Literal :=
  v.directives.flatMap Directive.literals

/-- The strings in the members of a body. -/
def TypeBody.literals (b : TypeBody) : List Literal :=
  (b.fields.flatMap fun f => Literal.described .member f.description f.literals) ++
    (b.enumValues.flatMap fun v => Literal.described .member v.description v.literals) ++
    b.inputFields.flatMap fun v => Literal.described .member v.description v.literals

/-- The strings in a definition. -/
def Definition.literals : Definition → List Literal
  | schema d => Literal.described .definition d.description (d.directives.flatMap Directive.literals)
  | type d =>
    Literal.described .definition d.description
      (d.directives.flatMap Directive.literals ++ d.body.literals)
  | directive d =>
    Literal.described .definition d.description (d.arguments.flatMap InputValue.argumentLiterals)

/-- The strings in a document, in the order in which they are written. -/
def Document.literals (d : Document) : List Literal :=
  d.definitions.flatMap Definition.literals

/-! ## Rows of pieces with strings -/

namespace Piece

/-- Whether a piece is a string. -/
def isString : Piece → Bool
  | token (.string _) | token (.block _) => true
  | token (.punctuator _) | token (.name _) | token (.integer _) | token (.float _)
  | token (.fault _) | gap _ => false

/-- A row of pieces holds strings: those are its strings, in order, and a delimiter follows each. -/
inductive Holds : List Piece → List Literal → Prop
  | nil : Holds [] []
  | other {p : Piece} {ps : List Piece} {ls : List Literal} (hp : p.isString = false)
      (h : Holds ps ls) : Holds (p :: ps) ls
  | literal {l : Literal} {ps : List Piece} {ls : List Literal}
      (hd : Lexeme.Delimits (ps.flatMap chars)) (h : Holds ps ls) : Holds (l.piece :: ps) (l :: ls)

/-- A row that holds strings and may follow any other. -/
structure Continues (ps : List Piece) (ls : List Literal) : Prop where
  holds : Holds ps ls
  delimits : Lexeme.Delimits (ps.flatMap chars)

variable {p : Piece} {ps qs : List Piece} {l : Literal} {ls ms : List Literal}

theorem delimits_append {cs ds : List Char} (hc : Lexeme.Delimits cs) (hd : Lexeme.Delimits ds) :
    Lexeme.Delimits (cs ++ ds) := by
  cases cs with
  | nil => exact hd
  | cons c cs => exact hc

theorem isString_piece (l : Literal) : l.piece.isString = true := by
  cases l with
  | mk place text =>
    cases place with
    | inline => rfl
    | definition | member =>
      rw [Literal.piece]
      dsimp only
      rw [descriptionPiece]
      split <;> rfl

/-- The strings of a row are what it holds. -/
theorem Holds.filter_eq (h : Holds ps ls) : ps.filter isString = ls.map Literal.piece := by
  induction h with
  | nil => rfl
  | other hp _ ih => rw [List.filter_cons_of_neg (by simp [hp]), ih]
  | literal _ _ ih =>
    rw [List.filter_cons_of_pos (isString_piece _), ih, List.map_cons]

theorem Holds.append (hp : Holds ps ls) (hq : Continues qs ms) : Holds (ps ++ qs) (ls ++ ms) := by
  induction hp with
  | nil => exact hq.holds
  | other hp _ ih => exact .other hp ih
  | @literal l ps ls hd _ ih =>
    refine .literal ?_ ih
    rw [List.append_eq, List.flatMap_append]
    exact delimits_append hd hq.delimits

theorem Continues.nil : Continues [] [] :=
  ⟨.nil, by simp [Lexeme.Delimits]⟩

theorem Continues.append (hp : Continues ps ls) (hq : Continues qs ms) :
    Continues (ps ++ qs) (ls ++ ms) := by
  refine ⟨hp.holds.append hq, ?_⟩
  rw [List.flatMap_append]
  exact delimits_append hp.delimits hq.delimits

theorem Holds.name (s : String) (h : Holds ps ls) : Holds (.name s :: ps) ls :=
  .other rfl h

theorem Holds.mark (p : Punctuator) (h : Holds ps ls) : Holds (.punctuator p :: ps) ls :=
  .other rfl h

theorem Holds.gap (cs : List Char) (h : Holds ps ls) : Holds (.gap cs :: ps) ls :=
  .other rfl h

theorem Holds.space (h : Holds ps ls) : Holds (.space :: ps) ls :=
  h.gap _

/-- A row may follow any other after a gap. -/
theorem Continues.gap {c : Char} {cs : List Char} (hc : Lexeme.isGap c = true) (h : Holds ps ls) :
    Continues (.gap (c :: cs) :: ps) ls :=
  ⟨h.gap _, fun x hx => by
    obtain rfl : c = x := by simpa [chars] using hx
    rw [Lexeme.isDelimiter, hc, Bool.true_or]⟩

theorem Continues.space (h : Holds ps ls) : Continues (.space :: ps) ls :=
  .gap (by decide) h

theorem Continues.newline (h : Holds ps ls) : Continues (.newline :: ps) ls :=
  .gap (by decide) h

theorem Continues.comma (h : Holds ps ls) : Continues (.comma :: ps) ls :=
  .gap (by decide) h

theorem Continues.indent (h : Holds ps ls) : Continues (.indent :: ps) ls :=
  .gap (by decide) h

theorem Continues.mark {p : Punctuator} (hp : p ∈ Punctuator.simple) (h : Holds ps ls) :
    Continues (.punctuator p :: ps) ls :=
  ⟨h.mark p, delimits_punctuator hp _⟩

/-- Rows with a separator between them hold what each of them holds. -/
theorem holds_separated {α : Type} {sep : List Piece}
    (hsep : ∀ qs ms, Holds qs ms → Continues (sep ++ qs) ms) {f : α → List Piece}
    {g : α → List Literal} {as : List α} (h : ∀ a ∈ as, Holds (f a) (g a)) :
    Holds (separated sep (as.map f)) (as.flatMap g) := by
  induction as with
  | nil => exact .nil
  | cons a as ih =>
    obtain ⟨ha, has⟩ := List.forall_mem_cons.mp h
    cases as with
    | nil =>
      rw [List.flatMap_singleton]
      exact ha
    | cons b bs =>
      rw [List.map_cons, List.map_cons, separated_cons_cons, List.flatMap_cons, List.append_assoc]
      exact ha.append (hsep _ _ (ih has))

end Piece

/-! ## What the written form of a node holds -/

open Piece

theorem TypeRef.holds_pieces (t : TypeRef) : Holds t.pieces [] := by
  induction t with
  | named name => exact .name name .nil
  | list item ih => exact .mark _ (ih.append (.mark (by decide) .nil))
  | nonNull nullable ih => exact ih.append (.mark (by decide) .nil)

namespace Value

theorem literals_list (items : List Value) :
    (list items).literals = items.flatMap literals := by
  rw [literals, parts, itemParts_eq, List.filterMap_cons_none rfl, List.filterMap_flatMap]
  rfl

theorem literals_object (fields : List (String × Value)) :
    (object fields).literals = fields.flatMap (·.2.literals) := by
  rw [literals, parts, fieldParts_eq, List.filterMap_cons_none rfl, List.filterMap_flatMap]
  rfl

mutual

theorem holds_pieces : ∀ v : Value, Holds v.pieces v.literals
  | null => .name _ .nil
  | int n => .other rfl .nil
  | float x => .other rfl .nil
  | string s => .literal (l := ⟨.inline, s⟩) (by simp [Lexeme.Delimits]) .nil
  | boolean b => .name _ .nil
  | enum name => .name _ .nil
  | list items => by
    rw [literals_list, ← List.append_nil (items.flatMap literals)]
    exact .mark _ ((holds_itemPieces items).append (.mark (by decide) .nil))
  | object fields => by
    rw [literals_object, ← List.append_nil (fields.flatMap _)]
    exact .mark _ ((holds_fieldPieces fields).append (.mark (by decide) .nil))

theorem holds_itemPieces : ∀ vs : List Value, Holds (itemPieces vs) (vs.flatMap literals)
  | [] => .nil
  | [v] => by
    rw [List.flatMap_singleton]
    exact holds_pieces v
  | v :: w :: vs => (holds_pieces v).append (.comma (holds_itemPieces (w :: vs)))

theorem holds_fieldPieces : ∀ fs : List (String × Value),
    Holds (fieldPieces fs) (fs.flatMap (·.2.literals))
  | [] => .nil
  | [(name, v)] => by
    rw [List.flatMap_singleton]
    exact .name _ (.mark _ (.gap _ (holds_pieces v)))
  | (name, v) :: f :: fs =>
    .name _ (.mark _ (.gap _ ((holds_pieces v).append (.comma (holds_fieldPieces (f :: fs))))))

end

end Value

namespace Directive

theorem holds_pieces (d : Directive) : Holds d.pieces d.literals := by
  unfold pieces literals
  refine .mark _ (.name _ ?_)
  split
  · rename_i hnone
    rw [hnone]
    exact .nil
  · have hrows : Holds (separated [.comma] (d.arguments.map Argument.pieces))
        (d.arguments.flatMap (·.value.literals)) :=
      holds_separated (fun _ _ hq => .comma hq) fun a _ =>
        .name _ (.mark _ (.gap _ a.value.holds_pieces))
    rw [← List.append_nil (d.arguments.flatMap _)]
    exact .mark _ (hrows.append (.mark (by decide) .nil))

theorem continues_trailing (ds : List Directive) :
    Continues (trailing ds) (ds.flatMap literals) := by
  induction ds with
  | nil => exact .nil
  | cons d ds ih => exact (Continues.space d.holds_pieces).append ih

end Directive

/-! ### Descriptions and blocks -/

theorem holds_definitionDescription (description : Option String) {ps : List Piece}
    {ls : List Literal} (h : Holds ps ls) :
    Holds (definitionDescription description ++ ps)
      (Literal.described .definition description ls) := by
  cases description with
  | none => exact h
  | some s => exact .literal (l := ⟨.definition, s⟩) (Continues.newline h).delimits (.gap _ h)

theorem holds_memberDescription (description : Option String) {ps : List Piece}
    {ls : List Literal} (h : Holds ps ls) :
    Holds (memberDescription description ++ ps) (Literal.described .member description ls) := by
  cases description with
  | none => exact h
  | some s =>
    exact .gap _ (.literal (l := ⟨.member, s⟩) (Continues.newline h).delimits (.gap _ h))

section

variable {α : Type} (as : List α) {f : α → Option String × List Piece} {g : α → List Literal}

/-- The lines of members, each after its description. -/
theorem holds_members (h : ∀ a ∈ as, Holds (f a).2 (g a)) :
    Holds ((as.map f).flatMap fun m => memberDescription m.1 ++ .indent :: m.2 ++ [.newline])
      (as.flatMap fun a => Literal.described .member (f a).1 (g a)) := by
  induction as with
  | nil => exact .nil
  | cons a as ih =>
    obtain ⟨ha, has⟩ := List.forall_mem_cons.mp h
    have hline := holds_memberDescription (f a).1 (Holds.gap [' ', ' ', ' ', ' '] ha)
    rw [List.map_cons, List.flatMap_cons, List.flatMap_cons, List.append_assoc]
    exact hline.append (.newline (ih has))

theorem continues_blockPieces (h : ∀ a ∈ as, Holds (f a).2 (g a)) :
    Continues (blockPieces (as.map f))
      (as.flatMap fun a => Literal.described .member (f a).1 (g a)) := by
  unfold blockPieces
  split
  · rename_i hnone
    rw [List.map_eq_nil_iff.mp hnone]
    exact .nil
  · have hclose : Continues [.punctuator .closeBrace] [] := .mark (by decide) .nil
    have hmembers := (holds_members as h).append hclose
    rw [List.append_nil] at hmembers
    exact .space (.mark _ (.gap _ hmembers))

end

/-! ### Members -/

namespace InputValue

theorem holds_pieces (v : InputValue) : Holds v.pieces v.literals := by
  unfold pieces literals
  have htype : Holds (.name v.name :: .punctuator .colon :: .space :: v.type.pieces) [] :=
    .name _ (.mark _ (.gap _ v.type.holds_pieces))
  refine Holds.append ?_ (Directive.continues_trailing v.directives)
  cases v.default with
  | none => exact htype.append .nil
  | some value =>
    rw [Option.toList_some, List.flatMap_singleton]
    exact htype.append (.space (.mark _ (.gap _ value.holds_pieces)))

theorem holds_argumentPieces (v : InputValue) : Holds v.argumentPieces v.argumentLiterals := by
  unfold argumentPieces argumentLiterals
  cases v.description with
  | none => exact v.holds_pieces
  | some s =>
    exact .literal (l := ⟨.inline, s⟩) (Continues.space v.holds_pieces).delimits
      (.gap _ v.holds_pieces)

theorem continues_listPieces (vs : List InputValue) :
    Continues (listPieces vs) (vs.flatMap argumentLiterals) := by
  unfold listPieces
  split
  · rename_i hnone
    rw [hnone]
    exact .nil
  · have hrows : Holds (separated [.comma] (vs.map argumentPieces))
        (vs.flatMap argumentLiterals) :=
      holds_separated (fun _ _ hq => .comma hq) fun v _ => v.holds_argumentPieces
    rw [← List.append_nil (vs.flatMap _)]
    exact .mark (by decide) (hrows.append (.mark (by decide) .nil))

end InputValue

theorem Field.holds_pieces (f : Field) : Holds f.pieces f.literals := by
  unfold Field.pieces Field.literals
  have htype : Continues (.punctuator .colon :: .space :: f.type.pieces) [] :=
    .mark (by decide) (.gap _ f.type.holds_pieces)
  have hname : Holds (.name f.name :: InputValue.listPieces f.arguments)
      (f.arguments.flatMap InputValue.argumentLiterals) :=
    .name _ (InputValue.continues_listPieces f.arguments).holds
  have hhead := hname.append htype
  rw [List.append_nil] at hhead
  exact hhead.append (Directive.continues_trailing f.directives)

theorem EnumValue.holds_pieces (v : EnumValue) : Holds v.pieces v.literals :=
  .name _ (Directive.continues_trailing v.directives).holds

/-! ### Definitions -/

theorem holds_namePieces (p : Punctuator) (names : List String) :
    Holds (namePieces p names) [] := by
  have hrows : Holds (namePieces p names) (names.flatMap fun _ => []) :=
    holds_separated (fun _ _ hq => .space (.mark p (.gap _ hq))) fun name _ => .name name .nil
  rwa [List.flatMap_eq_nil_iff.mpr fun _ _ => rfl] at hrows

theorem holds_extensionPieces (isExtension : Bool) {ps : List Piece} {ls : List Literal}
    (h : Holds ps ls) : Holds (extensionPieces isExtension ++ ps) ls := by
  cases isExtension with
  | false => exact h
  | true => exact .name _ (.gap _ h)

theorem TypeBody.continues_pieces (b : TypeBody) : Continues b.pieces b.literals := by
  cases b with
  | scalar => exact .nil
  | object body | interface body =>
    have hfields := continues_blockPieces body.fields
      (f := fun f => (f.description, f.pieces)) fun f _ => f.holds_pieces
    simpa [pieces, literals, fields, enumValues, inputFields] using hfields
  | union members =>
    rw [pieces]
    split
    · exact .nil
    · exact .space (.mark _ (.gap _ (holds_namePieces .pipe members)))
  | enum values =>
    have hvalues := continues_blockPieces values
      (f := fun v => (v.description, v.pieces)) fun v _ => v.holds_pieces
    simpa [pieces, literals, fields, enumValues, inputFields] using hvalues
  | inputObject fields =>
    have hfields := continues_blockPieces fields
      (f := fun v => (v.description, v.pieces)) fun v _ => v.holds_pieces
    simpa [pieces, literals, TypeBody.fields, enumValues, inputFields] using hfields

theorem TypeDefinition.holds_pieces (d : TypeDefinition) :
    Holds d.pieces (Definition.type d).literals := by
  unfold TypeDefinition.pieces Definition.literals
  have himplements : Holds (if d.implements = [] then []
      else .space :: .name "implements" :: .space :: namePieces .ampersand d.implements) [] := by
    split
    · exact .nil
    · exact .gap _ (.name _ (.gap _ (holds_namePieces .ampersand d.implements)))
  have hname := Holds.name d.kind.keyword (.space (.name d.name himplements))
  have hhead := holds_definitionDescription d.description
    (holds_extensionPieces d.isExtension hname)
  have hbody := (Directive.continues_trailing d.directives).append d.body.continues_pieces
  have hall := (hhead.append hbody).append (.newline .nil)
  rw [Literal.described_append, List.append_nil, List.nil_append] at hall
  simpa only [List.append_assoc] using hall

theorem SchemaDefinition.holds_pieces (d : SchemaDefinition) :
    Holds d.pieces (Definition.schema d).literals := by
  unfold SchemaDefinition.pieces Definition.literals
  have hroots := continues_blockPieces d.rootOperations
    (f := fun r =>
      (none, [.name r.operation.keyword, .punctuator .colon, .space, .name r.typeName]))
    (g := fun _ => []) fun r _ => .name _ (.mark _ (.gap _ (.name _ .nil)))
  have hnone : (d.rootOperations.flatMap fun _ => Literal.described .member none []) = [] :=
    List.flatMap_eq_nil_iff.mpr fun _ _ => rfl
  dsimp only at hroots
  rw [hnone] at hroots
  have hname := Holds.name "schema" (Directive.continues_trailing d.directives).holds
  have hhead := holds_definitionDescription d.description
    (holds_extensionPieces d.isExtension hname)
  have hall := (hhead.append hroots).append (.newline .nil)
  rw [List.append_nil, List.append_nil] at hall
  simpa only [List.append_assoc] using hall

theorem DirectiveDefinition.holds_pieces (d : DirectiveDefinition) :
    Holds d.pieces (Definition.directive d).literals := by
  unfold DirectiveDefinition.pieces Definition.literals
  have hrepeatable : Continues (if d.isRepeatable then [.space, .name "repeatable"] else []) [] := by
    split
    · exact .space (.name _ .nil)
    · exact .nil
  have hon : Continues (.space :: .name "on" :: .space ::
      namePieces .pipe (d.locations.map DirectiveLocation.text)) [] :=
    .space (.name _ (.gap _ (holds_namePieces .pipe _)))
  have hname := Holds.name "directive" (.space (.mark .atSign
    (.name d.name (InputValue.continues_listPieces d.arguments).holds)))
  have hhead := holds_definitionDescription d.description hname
  have hall := ((hhead.append hrepeatable).append hon).append (.newline .nil)
  simpa only [List.append_nil] using hall

theorem Definition.holds_pieces (d : Definition) : Holds d.pieces d.literals := by
  cases d with
  | schema d => exact d.holds_pieces
  | type d => exact d.holds_pieces
  | directive d => exact d.holds_pieces

/-- **The written form of a document holds its strings**, whatever the document. -/
theorem Document.holds_pieces (d : Document) : Holds d.pieces d.literals :=
  holds_separated (fun _ _ hq => .newline hq) fun x _ => x.holds_pieces

end Federation
