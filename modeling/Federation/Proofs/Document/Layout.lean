import Federation.Proofs.Document.Legible
/-!
# Document — the layout of legible nodes

In the written form of a legible node every token is followed by a
delimiter, so a legible document is a layout (`Document.layout_pieces`).
Where a node is joined to what comes before it, its first piece is a gap
or a punctuator (`Piece.Follows`).
-/

namespace Federation

open Piece

variable {ps : List Piece}

theorem TypeRef.Legible.layout {t : TypeRef} (h : t.Legible) : Layout t.pieces := by
  induction t with
  | named name => exact Layout.name h .nil
  | list item ih =>
    have hclose : Follows [.punctuator .closeBracket] := .mark (by decide) .nil
    exact .punctuator (by decide) ((ih h).append hclose)
  | nonNull nullable ih =>
    have hclose : Follows [.punctuator .exclamation] := .mark (by decide) .nil
    exact (ih h.1).append hclose

theorem layout_quotedPiece {s : String} (h : InBasicPlane s) (hp : Follows ps) :
    Layout (quotedPiece s :: ps) :=
  .word (Token.isWritten_string h) hp.opens hp.layout

namespace Value

mutual

theorem layout_pieces : ∀ v : Value, v.Legible → Layout v.pieces
  | null, _ => Layout.name (by decide) .nil
  | int n, _ => .word (Token.isWritten_integer n) .nil .nil
  | float x, h => (h (float x) (mem_parts_self _)).elim
  | string s, h => layout_quotedPiece (h (string s) (mem_parts_self _)) .nil
  | boolean b, _ => by
    rw [pieces]
    cases b <;> exact Layout.name (by decide) .nil
  | enum name, h => Layout.name (h (enum name) (mem_parts_self _)).1 .nil
  | list items, h => by
    have hclose : Follows [.punctuator .closeBracket] := .mark (by decide) .nil
    exact .punctuator (by decide) ((layout_itemPieces items (legible_list.mp h)).append hclose)
  | object fields, h => by
    have hclose : Follows [.punctuator .closeBrace] := .mark (by decide) .nil
    exact .punctuator (by decide) ((layout_fieldPieces fields (legible_object.mp h)).append hclose)

theorem layout_itemPieces : ∀ vs : List Value, (∀ v ∈ vs, v.Legible) → Layout (itemPieces vs)
  | [], _ => .nil
  | [v], h => layout_pieces v (h v List.mem_cons_self)
  | v :: w :: vs, h => by
    obtain ⟨hv, hvs⟩ := List.forall_mem_cons.mp h
    exact (layout_pieces v hv).append (layout_itemPieces (w :: vs) hvs).comma

theorem layout_fieldPieces : ∀ fs : List (String × Value),
    (∀ f ∈ fs, isName f.1 = true ∧ f.2.Legible) → Layout (fieldPieces fs)
  | [], _ => .nil
  | [(name, v)], h => by
    obtain ⟨hn, hv⟩ := h (name, v) List.mem_cons_self
    exact Layout.name hn (.mark (by decide) (layout_pieces v hv).space.layout)
  | (name, v) :: f :: fs, h => by
    obtain ⟨⟨hn, hv⟩, hfs⟩ := List.forall_mem_cons.mp h
    have hrest := (layout_pieces v hv).append (layout_fieldPieces (f :: fs) hfs).comma
    exact Layout.name hn (.mark (by decide) hrest.space.layout)

end

end Value

namespace Directive

theorem layout_arguments {arguments : List Argument}
    (h : ∀ a ∈ arguments, isName a.name = true ∧ a.value.Legible) :
    Layout (separated [.comma] (arguments.map Argument.pieces)) := by
  refine layout_separated (fun _ hq => hq.comma) fun row hrow => ?_
  obtain ⟨a, ha, rfl⟩ := List.mem_map.mp hrow
  obtain ⟨hn, hv⟩ := h a ha
  exact Layout.name hn (.mark (by decide) (Value.layout_pieces _ hv).space.layout)

theorem Legible.layout {d : Directive} (h : d.Legible) : Layout d.pieces := by
  unfold pieces
  have hclose : Follows [.punctuator .closeParen] := .mark (by decide) .nil
  refine .punctuator (by decide) (Layout.name h.name ?_)
  split
  · exact .nil
  · exact .mark (by decide) ((layout_arguments h.arguments).append hclose)

theorem follows_trailing {ds : List Directive} (h : ∀ d ∈ ds, d.Legible) :
    Follows (trailing ds) := by
  induction ds with
  | nil => exact .nil
  | cons d ds ih =>
    obtain ⟨hd, hds⟩ := List.forall_mem_cons.mp h
    exact hd.layout.space.append (ih hds)

end Directive

/-! ## Descriptions and blocks -/

theorem layout_descriptionPiece {s : String} (h : IsPlainDescription s) (n : Nat)
    (hp : Follows ps) :
    Layout (descriptionPiece (List.replicate n ' ') s :: ps) := by
  unfold descriptionPiece
  split
  · rename_i hw
    have hq := (Text.Block.isWritable_iff.mp hw).2.1
    exact .word (Token.isWritten_block hq n) hp.opens hp.layout
  · exact layout_quotedPiece h.1 hp

theorem layout_definitionDescription {description : Option String}
    (h : LegibleDescription description) (hp : Layout ps) :
    Layout (definitionDescription description ++ ps) := by
  cases description with
  | none => exact hp
  | some s => exact layout_descriptionPiece (h s rfl) 0 hp.newline

theorem layout_memberDescription {description : Option String}
    (h : LegibleDescription description) (hp : Follows ps) :
    Layout (memberDescription description ++ ps) := by
  cases description with
  | none => exact hp.layout
  | some s => exact (layout_descriptionPiece (h s rfl) 4 hp.layout.newline).indent.layout

/-- The lines of members, each after its description. -/
theorem layout_members {members : List (Option String × List Piece)}
    (h : ∀ m ∈ members, LegibleDescription m.1 ∧ Layout m.2) :
    Layout (members.flatMap fun m => memberDescription m.1 ++ .indent :: m.2 ++ [.newline]) := by
  induction members with
  | nil => exact .nil
  | cons m members ih =>
    obtain ⟨⟨hd, hm⟩, hms⟩ := List.forall_mem_cons.mp h
    have hline : Layout (memberDescription m.1 ++ .indent :: m.2) :=
      layout_memberDescription hd hm.indent
    rw [List.flatMap_cons, List.append_assoc]
    exact hline.append (ih hms).newline

theorem follows_blockPieces {α : Type} {as : List α} {f : α → Option String × List Piece}
    (h : ∀ a ∈ as, LegibleDescription (f a).1 ∧ Layout (f a).2) :
    Follows (blockPieces (as.map f)) := by
  have hmembers : ∀ m ∈ as.map f, LegibleDescription m.1 ∧ Layout m.2 := by
    intro m hm
    obtain ⟨a, ha, rfl⟩ := List.mem_map.mp hm
    exact h a ha
  unfold blockPieces
  split
  · exact .nil
  · have hclose : Follows [.punctuator .closeBrace] := .mark (by decide) .nil
    have hopen : Layout (.punctuator .openBrace :: .newline ::
        (as.map f).flatMap fun m => memberDescription m.1 ++ .indent :: m.2 ++ [.newline]) :=
      .punctuator (by decide) (layout_members hmembers).newline.layout
    exact (hopen.append hclose).space

/-! ## Members -/

namespace InputValue

theorem Legible.layout {v : InputValue} (h : v.Legible) : Layout v.pieces := by
  unfold pieces
  have htype : Layout (.name v.name :: .punctuator .colon :: .space :: v.type.pieces) :=
    .name h.name (.mark (by decide) h.type.layout.space.layout)
  refine (htype.append ?_).append (Directive.follows_trailing h.directives)
  cases hd : v.default with
  | none => exact .nil
  | some value =>
    have hvalue := value.layout_pieces (h.default value hd)
    exact (Layout.punctuator (by decide) hvalue.space.layout).space

theorem layout_argumentPieces {v : InputValue} (h : v.Legible) : Layout v.argumentPieces := by
  unfold argumentPieces
  cases hd : v.description with
  | none => exact h.layout
  | some s => exact layout_quotedPiece (h.description s hd).1 h.layout.space

theorem follows_listPieces {vs : List InputValue} (h : ∀ v ∈ vs, v.Legible) :
    Follows (listPieces vs) := by
  unfold listPieces
  split
  · exact .nil
  · have hrows : Layout (separated [.comma] (vs.map argumentPieces)) := by
      refine layout_separated (fun _ hq => hq.comma) fun row hrow => ?_
      obtain ⟨v, hv, rfl⟩ := List.mem_map.mp hrow
      exact layout_argumentPieces (h v hv)
    have hclose : Follows [.punctuator .closeParen] := .mark (by decide) .nil
    exact .mark (by decide) (hrows.append hclose)

end InputValue

theorem Field.Legible.layout {f : Field} (h : f.Legible) : Layout f.pieces := by
  unfold Field.pieces
  have htype : Follows (.punctuator .colon :: .space :: f.type.pieces) :=
    .mark (by decide) h.type.layout.space.layout
  have hname : Layout (.name f.name :: InputValue.listPieces f.arguments) :=
    .name h.name (InputValue.follows_listPieces h.arguments)
  exact (hname.append htype).append (Directive.follows_trailing h.directives)

theorem EnumValue.Legible.layout {v : EnumValue} (h : v.Legible) : Layout v.pieces :=
  .name h.name.1 (Directive.follows_trailing h.directives)

/-! ## Definitions -/

theorem layout_namePieces {p : Punctuator} (hp : p ∈ Punctuator.simple) {names : List String}
    (h : ∀ name ∈ names, isName name = true) : Layout (namePieces p names) := by
  refine layout_separated (fun _ hq => (Layout.punctuator hp hq.space.layout).space) ?_
  intro row hrow
  obtain ⟨name, hn, rfl⟩ := List.mem_map.mp hrow
  exact .name (h name hn) .nil

theorem layout_extensionPieces (isExtension : Bool) (h : Layout ps) :
    Layout (extensionPieces isExtension ++ ps) := by
  cases isExtension with
  | false => exact h
  | true => exact .name (by decide) h.space

theorem TypeBody.Legible.follows {b : TypeBody} (h : b.Legible) : Follows b.pieces := by
  have hfield : ∀ f ∈ b.fields, LegibleDescription f.description ∧ Layout f.pieces :=
    fun f hf => ⟨(h.fields f hf).description, (h.fields f hf).layout⟩
  cases b with
  | scalar => exact .nil
  | object body => exact follows_blockPieces hfield
  | interface body => exact follows_blockPieces hfield
  | union members =>
    rw [TypeBody.pieces]
    split
    · exact .nil
    · have hp : Punctuator.pipe ∈ Punctuator.simple := by decide
      have hnames := layout_namePieces hp h.members
      exact (Layout.punctuator (by decide) hnames.space.layout).space
  | enum values =>
    exact follows_blockPieces fun v hv =>
      ⟨(h.enumValues v hv).description, (h.enumValues v hv).layout⟩
  | inputObject fields =>
    exact follows_blockPieces fun v hv =>
      ⟨(h.inputFields v hv).description, (h.inputFields v hv).layout⟩

theorem TypeDefinition.Legible.layout {d : TypeDefinition} (h : d.Legible) : Layout d.pieces := by
  unfold TypeDefinition.pieces
  have hkeyword : isName d.kind.keyword = true := by
    cases d.kind <;> decide
  have himplements : Follows (if d.implements = [] then []
      else .space :: .name "implements" :: .space :: namePieces .ampersand d.implements) := by
    split
    · exact .nil
    · have hp : Punctuator.ampersand ∈ Punctuator.simple := by decide
      have hnames := layout_namePieces hp h.body.implements
      exact (Layout.name (by decide) hnames.space).space
  have hname := Layout.name hkeyword (Layout.name h.name himplements).space
  have hhead := layout_definitionDescription h.description
    (layout_extensionPieces d.isExtension hname)
  have hdirectives := Directive.follows_trailing h.directives
  rw [← List.append_assoc] at hhead
  exact ((hhead.append hdirectives).append h.body.follows).append Layout.nil.newline

theorem SchemaDefinition.Legible.layout {d : SchemaDefinition} (h : d.Legible) :
    Layout d.pieces := by
  unfold SchemaDefinition.pieces
  have hroots : ∀ r ∈ d.rootOperations, LegibleDescription none ∧
      Layout [.name r.operation.keyword, .punctuator .colon, .space, .name r.typeName] := by
    intro r hr
    have hkeyword : isName r.operation.keyword = true := by
      cases r.operation <;> decide
    have htype := Layout.name (h.rootOperations r hr) .nil
    exact ⟨nofun, .name hkeyword (.mark (by decide) htype.space.layout)⟩
  have hname : Layout (.name "schema" :: Directive.trailing d.directives) :=
    .name (by decide) (Directive.follows_trailing h.directives)
  have hhead := layout_definitionDescription h.description
    (layout_extensionPieces d.isExtension hname)
  rw [← List.append_assoc] at hhead
  exact (hhead.append (follows_blockPieces hroots)).append Layout.nil.newline

theorem DirectiveDefinition.Legible.layout {d : DirectiveDefinition} (h : d.Legible) :
    Layout d.pieces := by
  unfold DirectiveDefinition.pieces
  have hlocations : ∀ name ∈ d.locations.map DirectiveLocation.text, isName name = true := by
    intro name hn
    obtain ⟨location, -, rfl⟩ := List.mem_map.mp hn
    cases location <;> decide
  have hrepeatable : Follows (if d.isRepeatable then [.space, .name "repeatable"] else []) := by
    split
    · exact (Layout.name (by decide) .nil).space
    · exact .nil
  have hp : Punctuator.pipe ∈ Punctuator.simple := by decide
  have hon := (Layout.name (s := "on") (by decide) (layout_namePieces hp hlocations).space).space
  have hname := Layout.name h.name (InputValue.follows_listPieces h.arguments)
  have hhead := layout_definitionDescription h.description
    (Layout.name (s := "directive") (by decide)
      (Layout.punctuator (p := .atSign) (by decide) hname).space)
  exact ((hhead.append hrepeatable).append hon).append Layout.nil.newline

theorem Definition.Legible.layout {d : Definition} (h : d.Legible) : Layout d.pieces := by
  cases d with
  | schema d => exact SchemaDefinition.Legible.layout h
  | type d => exact TypeDefinition.Legible.layout h
  | directive d => exact DirectiveDefinition.Legible.layout h

/-- **A legible document is a layout.** -/
theorem Document.Legible.layout {d : Document} (h : d.Legible) : Layout d.pieces := by
  refine layout_separated (fun _ hq => hq.newline) fun row hrow => ?_
  obtain ⟨x, hx, rfl⟩ := List.mem_map.mp hrow
  exact Definition.Legible.layout (h.definitions x hx)

end Federation
