import Mathlib
import Federation.Proofs.Document.Layout
import Federation.Proofs.Document.Rereading
import Federation.Proofs.Document.Sameness
import Federation.Proofs.Document.Yield
/-!
# Document — print and parse

A plain document that was read is written as a text that reads back as
the same document and is written the same again, unless one of its
schema definitions is written without its block (`parse_text_iff`): a
schema definition that is no extension may be read with an empty block,
and empty blocks are left out.
-/

namespace Federation

namespace Document

open Piece

variable {d : Document}

/-- The lexemes of a written document are its tokens. -/
theorem map_token_ofText (h : d.Legible) :
    (Lexeme.ofText d.text.toList).map (·.token) = tokens d.pieces := by
  rw [text, render, String.toList_ofList]
  exact map_token_scan h.layout _ _

theorem exists_mem_chars {ps : List Piece} {t : Token} {c : Char} (ht : t ∈ tokens ps)
    (hc : c ∈ t.chars) : c ∈ ps.flatMap chars := by
  obtain ⟨p, hp, htoken⟩ := List.mem_filterMap.mp ht
  cases p with
  | gap cs => cases htoken
  | token t' =>
    cases htoken
    exact List.mem_flatMap.mpr ⟨.token t, hp, hc⟩

/-- A written definition holds its keyword, so more than white space. -/
theorem exists_mem_tokens (x : Definition) :
    ∃ t ∈ tokens x.pieces, ∃ c ∈ t.chars, Text.isWhiteSpace c = false := by
  cases x with
  | schema x =>
    refine ⟨.name "schema", ?_, 's', by decide, by decide⟩
    rw [Definition.pieces, Grammar.tokens_schemaDefinition]
    simp
  | type x =>
    refine ⟨.name x.kind.keyword, ?_, ?_⟩
    · rw [Definition.pieces, Grammar.tokens_typeDefinition]
      simp
    · cases x.kind <;> exact ⟨_, List.mem_cons_self, by decide⟩
  | directive x =>
    refine ⟨.name "directive", ?_, 'd', by decide, by decide⟩
    rw [Definition.pieces, Grammar.tokens_directiveDefinition]
    simp

theorem isBlank_text (h : d.Legible) : Text.isBlank d.text.toList = false := by
  obtain ⟨x, xs, hx⟩ := List.exists_cons_of_ne_nil h.ne_nil
  obtain ⟨t, ht, c, hc, hw⟩ := exists_mem_tokens x
  have hmem : t ∈ tokens d.pieces := by
    rw [Grammar.tokens_document, hx, List.flatMap_cons]
    exact List.mem_append_left _ ht
  rw [text, render, String.toList_ofList, Text.isBlank, List.all_eq_false]
  exact ⟨c, exists_mem_chars hmem hc, by simp [hw]⟩

theorem parse_eq {s : String} (h : Text.isBlank s.toList = false) :
    parse s = (Grammar.document (Lexeme.ofText s.toList)).map (·.1) := by
  rw [parse, h, if_neg Bool.false_ne_true, Grammar.run, StateT.run]

/-- **A legible document reads back from its written form**, if all its definitions do. -/
theorem exists_parse_text (h : d.Legible) (hb : ∀ x ∈ d.definitions, Grammar.ReadsBack x) :
    ∃ e, parse d.text = .ok e ∧ e.same d = true ∧ e.text = d.text := by
  obtain ⟨e, ls, he, -, hsame⟩ := Grammar.reads_document h hb _
    ((map_token_ofText h).trans (List.append_nil _).symm)
  have hsame := same_iff.mpr hsame
  refine ⟨e, ?_, hsame, text_eq_of_same h hsame⟩
  rw [parse_eq (isBlank_text h), he]
  rfl

/-- A legible document is refused in its written form if some definition does not read back. -/
theorem exists_parse_text_error (h : d.Legible)
    (hb : ∃ x ∈ d.definitions, ¬Grammar.ReadsBack x) : ∃ e, parse d.text = .error e := by
  obtain ⟨e, he⟩ := Grammar.fails_document h hb _ (map_token_ofText h)
  refine ⟨e, ?_⟩
  rw [parse_eq (isBlank_text h), he]
  rfl

theorem readsBack_iff : (∀ x ∈ d.definitions, Grammar.ReadsBack x) ↔
    ∀ x ∈ d.schemaDefinitions, x.isExtension = true ∨ x.rootOperations ≠ [] := by
  constructor
  · intro h x hx
    obtain ⟨y, hy, he⟩ := List.mem_filterMap.mp hx
    cases y with
    | schema y =>
      cases he
      exact h _ hy
    | type y => cases he
    | directive y => cases he
  · intro h x hx
    cases x with
    | schema x => exact h x (List.mem_filterMap.mpr ⟨_, hx, rfl⟩)
    | type x => trivial
    | directive x => trivial

end Document

end Federation
