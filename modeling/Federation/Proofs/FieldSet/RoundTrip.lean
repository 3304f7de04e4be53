import Federation.Proofs.Document.Yield
import Federation.Proofs.FieldSet.Spelling
/-!
# Field sets — print and parse

A field set that is read selects something and holds names only, since
the tokens it is spelled with do (`FieldSet.legible_of_parse`). A field
set of that kind is written as its spelling without parentheses, and so
reads back as it is (`FieldSet.parse_text_of_legible`). The written form
of a field set that was read is then read as the same one
(`FieldSet.parse_text`), however the text was laid out that it was read
from.
-/

namespace Federation

open Piece

/-! ## The names of a field set -/

namespace FieldSelection

mutual

/-- The names of the selected fields, at all depths. -/
def names : FieldSelection → List String
  | select field nested => field :: listNames nested

/-- The names of the fields of selections, at all depths. -/
def listNames : List FieldSelection → List String
  | [] => []
  | s :: ss => s.names ++ listNames ss

end

theorem listNames_eq (ss : List FieldSelection) : listNames ss = ss.flatMap names := by
  induction ss with
  | nil => simp [listNames]
  | cons s ss ih => simp [listNames, ih]

/-- A selection of fields that have names. -/
def Legible (s : FieldSelection) : Prop :=
  ∀ n ∈ s.names, isName n = true

theorem legible_select {field : String} {nested : List FieldSelection} :
    (select field nested).Legible ↔ isName field = true ∧ ∀ s ∈ nested, s.Legible := by
  simp only [Legible, names, listNames_eq, List.forall_mem_cons, List.mem_flatMap]
  constructor
  · rintro ⟨hf, h⟩
    exact ⟨hf, fun s hs n hn => h n ⟨s, hs, hn⟩⟩
  · rintro ⟨hf, h⟩
    refine ⟨hf, ?_⟩
    rintro n ⟨s, hs, hn⟩
    exact h s hs n hn

end FieldSelection

/-- A field set that reads back: it selects something, and the fields have names. -/
structure FieldSet.Legible (s : FieldSet) : Prop where
  ne_nil : s.selections ≠ []
  selections : ∀ x ∈ s.selections, x.Legible

/-! ## What is read is legible -/

namespace Spelling

theorem mem_tokens_of_mem_nested {t : Token} {s : Spelling} {name : String} {hasParens : Bool}
    {nested : List Spelling} (hs : s ∈ nested) (ht : t ∈ s.tokens) :
    t ∈ (field name hasParens nested).tokens := by
  rw [tokens, nestedTokens_of_ne_nil (List.ne_nil_of_mem hs), braced]
  simp only [List.mem_cons, List.mem_append, List.mem_flatMap]
  exact .inr (.inr (.inr (.inl ⟨s, hs, ht⟩)))

/-- A field is legible when the names among the tokens of a spelling are names. -/
theorem legible_selection {s : Spelling} (h : ∀ n, .name n ∈ s.tokens → isName n = true) :
    s.selection.Legible := by
  induction s with
  | field name hasParens nested ih =>
    rw [selection_field]
    refine FieldSelection.legible_select.mpr ⟨h name (by simp [tokens]), fun x hx => ?_⟩
    obtain ⟨s, hs, rfl⟩ := List.mem_map.mp hx
    exact ih s hs fun n hn => h n (mem_tokens_of_mem_nested hs hn)

end Spelling

namespace FieldSet

/-- **A field set that is read is legible.** -/
theorem legible_of_parse {text : String} {s : FieldSet} (h : parse text = .ok s) : s.Legible := by
  obtain ⟨ss, hne, hmap, htokens⟩ := parse_eq_ok_iff_braced.mp h
  have hname : ∀ n, .name n ∈ Spelling.braced ss → isName n = true := by
    intro n hn
    rw [← htokens, Lexeme.tokens] at hn
    obtain ⟨l, hl, hn⟩ := List.mem_map.mp hn
    exact Lexeme.named_scan _ _ _ l hl n hn
  refine ⟨by rw [← hmap]; simpa using hne, fun x hx => ?_⟩
  rw [← hmap] at hx
  obtain ⟨spelling, hs, rfl⟩ := List.mem_map.mp hx
  refine Spelling.legible_selection fun n hn => hname n ?_
  refine List.mem_cons_of_mem _ (List.mem_append_left _ ?_)
  exact List.mem_flatMap.mpr ⟨spelling, hs, hn⟩

end FieldSet

/-! ## What is legible reads back -/

namespace FieldSelection

mutual

theorem layout_pieces : ∀ s : FieldSelection, s.Legible → Layout s.pieces
  | select field [], h => Layout.name (legible_select.mp h).1 .nil
  | select field (s :: ss), h => by
    obtain ⟨hn, hnested⟩ := legible_select.mp h
    have hclose : Follows [.space, .punctuator .closeBrace] :=
      (Layout.punctuator (by decide) .nil).space
    have hlist := ((layout_listPieces (s :: ss) hnested).append hclose).space
    rw [pieces]
    exact Layout.name hn (Layout.punctuator (by decide) hlist.layout).space

theorem layout_listPieces : ∀ ss : List FieldSelection, (∀ s ∈ ss, s.Legible) →
    Layout (listPieces ss)
  | [], _ => .nil
  | [s], h => layout_pieces s (h s List.mem_cons_self)
  | s :: s' :: ss, h => by
    obtain ⟨hs, hss⟩ := List.forall_mem_cons.mp h
    exact (layout_pieces s hs).append (layout_listPieces (s' :: ss) hss).space

end

theorem tokens_listPieces (ss : List FieldSelection) :
    tokens (listPieces ss) = ss.flatMap fun s => tokens s.pieces := by
  match ss with
  | [] => rfl
  | [s] => simp [listPieces]
  | s :: s' :: ss => simp [listPieces, tokens_listPieces (s' :: ss)]

theorem tokens_select (field : String) (s : FieldSelection) (ss : List FieldSelection) :
    tokens (select field (s :: ss)).pieces =
      .name field :: .punctuator .openBrace ::
        ((s :: ss).flatMap (fun s => tokens s.pieces) ++ [.punctuator .closeBrace]) := by
  rw [pieces]
  simp only [List.cons_append, tokens_cons_name, tokens_cons_space, tokens_cons_punctuator,
    tokens_append, tokens_listPieces, tokens_nil]

end FieldSelection

namespace Spelling

mutual

/-- The spelling of a selection without parentheses. -/
def bare : FieldSelection → Spelling
  | .select name nested => field name false (listBare nested)

/-- The spellings of selections without parentheses, one for each. -/
def listBare : List FieldSelection → List Spelling
  | [] => []
  | s :: ss => bare s :: listBare ss

end

theorem listBare_eq (ss : List FieldSelection) : listBare ss = ss.map bare := by
  induction ss with
  | nil => rfl
  | cons s ss ih => rw [listBare, ih, List.map_cons]

mutual

theorem selection_bare : ∀ s : FieldSelection, (bare s).selection = s
  | .select name nested => by rw [bare, selection, listSelections_listBare nested]

theorem listSelections_listBare : ∀ ss : List FieldSelection, listSelections (listBare ss) = ss
  | [] => rfl
  | s :: ss => by rw [listBare, listSelections, selection_bare s, listSelections_listBare ss]

end

mutual

/-- A selection is written as its spelling without parentheses. -/
theorem tokens_bare : ∀ s : FieldSelection, (bare s).tokens = Piece.tokens s.pieces
  | .select name [] => rfl
  | .select name (s :: ss) => by
    rw [bare, tokens, nestedTokens_of_ne_nil (by simp [listBare]), braced, ← listTokens_eq,
      listTokens_listBare (s :: ss), FieldSelection.tokens_select]
    rfl

theorem listTokens_listBare : ∀ ss : List FieldSelection,
    listTokens (listBare ss) = ss.flatMap fun s => Piece.tokens s.pieces
  | [] => rfl
  | s :: ss => by
    rw [listBare, listTokens, tokens_bare s, listTokens_listBare ss, List.flatMap_cons]

end

end Spelling

namespace FieldSet

/-- **A legible field set reads back from its written form.** -/
theorem parse_text_of_legible {s : FieldSet} (h : s.Legible) : parse s.text = .ok s := by
  have hlayout : Layout ([.punctuator .openBrace, .space] ++
      FieldSelection.listPieces s.selections ++ [.space, .punctuator .closeBrace]) := by
    have hclose : Follows [.space, .punctuator .closeBrace] :=
      (Layout.punctuator (by decide) .nil).space
    have hlist := (FieldSelection.layout_listPieces _ h.selections).append hclose
    rw [List.append_assoc]
    exact .punctuator (by decide) hlist.space.layout
  have hchars : '\x7b' :: ' ' :: s.text.toList ++ [' ', '\x7d'] =
      List.flatMap chars ([.punctuator .openBrace, .space] ++
        FieldSelection.listPieces s.selections ++ [.space, .punctuator .closeBrace]) := by
    rw [text, render, String.toList_ofList]
    simp only [List.flatMap_append]
    rfl
  refine parse_eq_ok_iff_braced.mpr ⟨Spelling.listBare s.selections, ?_, ?_, ?_⟩
  · rw [Spelling.listBare_eq]
    simpa using h.ne_nil
  · rw [← Spelling.listSelections_eq, Spelling.listSelections_listBare]
  · rw [hchars, Lexeme.tokens, Lexeme.ofText, map_token_scan hlayout, Spelling.braced,
      ← Spelling.listTokens_eq, Spelling.listTokens_listBare]
    simp [FieldSelection.tokens_listPieces]

/-- **A field set that is read reads back from its written form.** -/
theorem parse_text {text : String} {s : FieldSet} (h : parse text = .ok s) :
    parse s.text = .ok s :=
  parse_text_of_legible (legible_of_parse h)

end FieldSet

end Federation
