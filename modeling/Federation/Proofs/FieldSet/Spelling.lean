import Federation.FieldSet.Parser
import Federation.Proofs.Document.Comments
import Federation.Proofs.Document.Inversion
import Federation.Proofs.Document.Reading
/-!
# Field sets — spellings

A field set may be spelled in more than one way, since the parentheses
of a list of arguments with nothing in it may follow the name of a
field. A `Spelling` is a field with that choice made at all depths, and
it has its tokens and the selection that it is a spelling of. A text is
read as a field set exactly when the text between the braces that are
put around it is spelled so (`FieldSet.parse_eq_ok_iff_braced`). The two
directions are `Grammar.reads_executableDocument`, that what is spelled
is read, and `Grammar.exists_spellings`, that nothing else is.
-/

namespace Federation

/-- A field as it may be spelled: its name, perhaps parentheses with nothing between them, and the
fields below it between braces, if there are any. -/
inductive Spelling
  | field (name : String) (hasParens : Bool) (nested : List Spelling)
  deriving Inhabited, Repr

namespace Spelling

mutual

/-- The selection that is spelled. -/
def selection : Spelling → FieldSelection
  | field name _ nested => .select name (listSelections nested)

/-- The selections that are spelled, one for each. -/
def listSelections : List Spelling → List FieldSelection
  | [] => []
  | s :: ss => s.selection :: listSelections ss

end

/-- The parentheses of an empty list of arguments, if there are any. -/
def parens : Bool → List Token
  | true => [.punctuator .openParen, .punctuator .closeParen]
  | false => []

mutual

/-- The tokens of a spelling. -/
def tokens : Spelling → List Token
  | field name hasParens nested => .name name :: (parens hasParens ++ nestedTokens nested)

/-- The tokens of the fields below a field, between braces if there are any. -/
def nestedTokens : List Spelling → List Token
  | [] => []
  | s :: ss =>
    .punctuator .openBrace :: (s.tokens ++ listTokens ss ++ [.punctuator .closeBrace])

/-- The tokens of spellings next to each other. -/
def listTokens : List Spelling → List Token
  | [] => []
  | s :: ss => s.tokens ++ listTokens ss

end

/-- What holds of a field when it holds of the fields below holds of every spelling. -/
@[induction_eliminator]
theorem induction {P : Spelling → Prop}
    (field : ∀ name hasParens nested, (∀ s ∈ nested, P s) → P (.field name hasParens nested)) :
    ∀ s, P s
  | .field name hasParens nested => field name hasParens nested fun s _ => induction field s

theorem listSelections_eq (ss : List Spelling) : listSelections ss = ss.map selection := by
  induction ss with
  | nil => rfl
  | cons s ss ih => rw [listSelections, ih, List.map_cons]

theorem listTokens_eq (ss : List Spelling) : listTokens ss = ss.flatMap tokens := by
  induction ss with
  | nil => rfl
  | cons s ss ih => rw [listTokens, ih, List.flatMap_cons]

theorem selection_field (name : String) (hasParens : Bool) (nested : List Spelling) :
    (field name hasParens nested).selection = .select name (nested.map selection) := by
  rw [selection, listSelections_eq]

/-- Fields between braces, of which there is at least one. -/
def braced (ss : List Spelling) : List Token :=
  .punctuator .openBrace :: (ss.flatMap tokens ++ [.punctuator .closeBrace])

theorem nestedTokens_of_ne_nil {ss : List Spelling} (h : ss ≠ []) :
    nestedTokens ss = braced ss := by
  obtain ⟨s, ss, rfl⟩ := List.exists_cons_of_ne_nil h
  rw [nestedTokens, listTokens_eq, braced, List.flatMap_cons]

end Spelling

/-! ## What is spelled is read -/

namespace FieldSelection

/-- Selections whose bare fields are known, one for each. -/
theorem ofSelections_of_map {ss : List Selection} {fs : List FieldSelection}
    (h : ss.map ofSelection = fs.map .ok) : ofSelections ss = .ok fs := by
  induction ss generalizing fs with
  | nil =>
    cases fs with
    | nil => rfl
    | cons f fs => cases h
  | cons s ss ih =>
    cases fs with
    | nil => cases h
    | cons f fs =>
      obtain ⟨hs, hss⟩ := List.cons.inj h
      rw [ofSelections, hs, ih hss]
      rfl

end FieldSelection

namespace Grammar

open Spelling

variable {rest : List Token}

/-- The bare fields that selections are, one for each spelling. -/
def Spelled (spellings : List Spelling) (ss : List Selection) : Prop :=
  ss.map FieldSelection.ofSelection = spellings.map fun s => .ok s.selection

theorem Spelled.ofSelections {spellings : List Spelling} {ss : List Selection}
    (h : Spelled spellings ss) :
    FieldSelection.ofSelections ss = .ok (spellings.map selection) :=
  FieldSelection.ofSelections_of_map (by rw [h, List.map_map]; rfl)

/-- What would make more of a name than a bare field: an alias, arguments, applications, and fields
below it. -/
def fieldMarks : List Punctuator :=
  [.colon, .openParen, .atSign, .openBrace]

/-- Parentheses with nothing between them are no arguments. -/
theorem reads_skippedArguments {hasParens : Bool}
    (h : Avoids [.openParen] rest.head?) :
    Reads skippedArguments (parens hasParens) rest (· = false) := by
  unfold skippedArguments
  cases hasParens with
  | false =>
    refine (reads_skip?_miss (h .openParen (by decide))).bind (u := []) fun found hf => ?_
    rw [hf]
    exact .pure rfl
  | true =>
    refine (reads_skip?_hit (.punctuator .openParen)).bind (u := [_]) fun found hf => ?_
    rw [hf, if_pos rfl]
    have hspell : ∀ a ∈ ([] : List Unit), Begins (· != some (.punctuator .closeParen))
        (fun _ => True) [.punctuator .closeParen] := by simp
    have hitem : ∀ a ∈ ([] : List Unit), ∀ u : List Token, Reads (do
        let _ ← name
        expectPunctuator .colon
        skippedValue) [.punctuator .closeParen] u (· = a) := by simp
    exact (reads_manyBefore_eq hspell hitem).last fun arguments ha => by rw [ha]; rfl

theorem reads_skippedDirectives_none (h : rest.head? ≠ some (.punctuator .atSign)) :
    Reads skippedDirectives [] rest (· = false) := by
  unfold skippedDirectives
  have hspell : ∀ a ∈ ([] : List Unit), Begins (· == some (.punctuator .atSign)) (fun _ => True)
      [.punctuator .atSign] := by simp
  have hitem : ∀ a ∈ ([] : List Unit), ∀ u : List Token, True → Reads (do
      advance
      let _ ← name
      let _ ← skippedArguments) [.punctuator .atSign] u fun b => id b = id a := by simp
  refine (reads_many hspell hitem trivial (by simpa using h)).last fun bs hbs => ?_
  rw [List.map_id, List.map_id] at hbs
  rw [hbs]
  rfl

theorem begins_spelling (s : Spelling) :
    Begins (· != some (.punctuator .closeBrace)) (Avoids fieldMarks) s.tokens := by
  obtain ⟨n, hasParens, nested⟩ := s
  rw [tokens]
  exact ⟨.name n, _, rfl, rfl, fun p _ => by simp⟩

/-- What comes after the name of a bare field, where `set` reads the fields below it. -/
theorem reads_afterName {set : Grammar (List Selection)} {field : String} {hasParens : Bool}
    {nested : List Spelling}
    (hset : nested ≠ [] → Reads set (nestedTokens nested) rest (Spelled nested))
    (hr : Avoids fieldMarks rest.head?) :
    Reads (do
      let hasArguments ← skippedArguments
      let hasDirectives ← skippedDirectives
      let selections ← if (← next?) = some (.punctuator .openBrace) then set else pure []
      return .field none field hasArguments hasDirectives selections)
      (parens hasParens ++ nestedTokens nested) rest
      fun x => FieldSelection.ofSelection x = .ok (.select field (nested.map selection)) := by
  have hresult : ∀ ss : List Selection, Spelled nested ss →
      FieldSelection.ofSelection (.field none field false false ss) =
        .ok (.select field (nested.map selection)) := by
    intro ss hss
    rw [FieldSelection.ofSelection, hss.ofSelections]
    rfl
  -- without fields below, nothing follows that belongs to the field
  have hnext : Avoids [.openParen, .atSign] (nestedTokens nested ++ rest).head? := by
    cases nested with
    | nil => exact hr.mono (by decide)
    | cons s ss => exact avoids_punctuator (by decide)
  have harguments : Reads skippedArguments (parens hasParens) (nestedTokens nested ++ rest)
      (· = false) := reads_skippedArguments (hnext.mono (by decide))
  have hdirectives := reads_skippedDirectives_none (hnext .atSign (by decide))
  refine harguments.bind (u := nestedTokens nested) fun hasArguments ha => ?_
  refine hdirectives.bind (u := nestedTokens nested) fun hasDirectives hd => ?_
  rw [ha, hd]
  refine .next ?_
  dsimp only
  cases nested with
  | nil =>
    have hnone : (nestedTokens [] ++ rest).head? ≠ some (.punctuator .openBrace) :=
      hr .openBrace (by decide)
    rw [if_neg hnone]
    exact Reads.last (P := (· = [])) (.pure rfl) fun ss hss => hresult ss (by rw [hss]; rfl)
  | cons s ss =>
    have hsome : (nestedTokens (s :: ss) ++ rest).head? = some (.punctuator .openBrace) := rfl
    rw [if_pos hsome]
    exact (hset (List.cons_ne_nil s ss)).last fun ss hss => hresult ss hss

/-- Fields between braces are read when each field is. -/
theorem reads_braced {allowance : List Lexeme} {ss : List Spelling} (hne : ss ≠ [])
    (h : ∀ s ∈ ss, ∀ u : List Token, Avoids fieldMarks u.head? →
      Reads (selectionWithin allowance) s.tokens u
        fun x => FieldSelection.ofSelection x = .ok s.selection) :
    Reads (do
      expectPunctuator .openBrace
      someBefore .closeBrace (selectionWithin allowance)) (braced ss) rest (Spelled ss) := by
  obtain ⟨s, ss, rfl⟩ := List.exists_cons_of_ne_nil hne
  refine (reads_expect (.punctuator .openBrace)).bind fun _ _ => ?_
  exact reads_someBefore (fun x _ => begins_spelling x) h (avoids_punctuator (by decide))

/-- A bare field is read from its spelling. The induction is on the allowance, of which each level
of depth takes one. -/
theorem reads_selectionWithin {s : Spelling} {allowance : List Lexeme}
    (hl : s.tokens.length ≤ allowance.length) (hr : Avoids fieldMarks rest.head?) :
    Reads (selectionWithin allowance) s.tokens rest
      fun x => FieldSelection.ofSelection x = .ok s.selection := by
  induction allowance generalizing s rest with
  | nil =>
    obtain ⟨t, tail, ht, -⟩ := begins_spelling s
    simp [ht] at hl
  | cons _ allowance ih =>
    obtain ⟨field, hasParens, nested⟩ := s
    rw [tokens] at hl ⊢
    have hset : nested ≠ [] → Reads (do
        expectPunctuator .openBrace
        someBefore .closeBrace (selectionWithin allowance)) (nestedTokens nested) rest
        (Spelled nested) := by
      intro hne
      rw [nestedTokens_of_ne_nil hne] at hl ⊢
      refine reads_braced hne fun x hx u hu => ih ?_ hu
      have hlen := length_le_of_mem tokens hx
      simp only [braced, List.length_cons, List.length_append] at hl
      omega
    have hnext : Avoids [.colon] (parens hasParens ++ nestedTokens nested ++ rest).head? := by
      cases hasParens with
      | true => exact avoids_punctuator (by decide)
      | false =>
        cases nested with
        | nil => exact hr.mono (by decide)
        | cons s ss => exact avoids_punctuator (by decide)
    rw [selection_field]
    unfold selectionWithin
    refine (reads_skip?_miss (by simp)).bind
      (u := .name field :: (parens hasParens ++ nestedTokens nested)) fun found hf => ?_
    rw [hf]
    dsimp only
    rw [if_neg Bool.false_ne_true]
    refine (reads_name field).bind (u := parens hasParens ++ nestedTokens nested)
      fun first hfirst => ?_
    refine (reads_skip?_miss (hnext .colon (by decide))).bind
      (u := parens hasParens ++ nestedTokens nested) fun hasAlias ha => ?_
    rw [ha, hfirst]
    exact reads_afterName hset hr

theorem reads_selectionSet {ss : List Spelling} (hne : ss ≠ []) :
    Reads selectionSet (braced ss) rest (Spelled ss) := by
  intro ls hls
  have hset : Reads (do
      expectPunctuator .openBrace
      someBefore .closeBrace (selectionWithin ls)) (braced ss) rest (Spelled ss) := by
    refine reads_braced hne fun x hx u hu => reads_selectionWithin ?_ hu
    have hl := congrArg List.length hls
    have hlen := length_le_of_mem tokens hx
    simp only [braced, List.length_map, List.length_append, List.length_cons] at hl
    omega
  exact hset ls hls

/-- Spellings between braces are an operation that selects what they spell. -/
theorem reads_executableDefinition {ss : List Spelling} (hne : ss ≠ []) (text : String) :
    Reads executableDefinition (braced ss) rest
      fun d => FieldSet.ofDefinitions text [d] = .ok ⟨ss.map selection⟩ := by
  unfold executableDefinition
  refine .next ?_
  exact (reads_selectionSet hne).last fun xs hxs => by
    rw [FieldSet.ofDefinitions, hxs.ofSelections]
    rfl

theorem reads_executableDocument {ss : List Spelling} (hne : ss ≠ []) (text : String) :
    Reads executableDocument (braced ss) []
      fun ds => FieldSet.ofDefinitions text ds = .ok ⟨ss.map selection⟩ := by
  have hread : ∀ x ∈ [ss], ∀ u : List Token, True → Reads executableDefinition (braced x) u
      fun d => FieldSet.ofDefinitions text [d] = .ok ⟨x.map selection⟩ := by
    intro x hx u _
    obtain rfl := List.mem_singleton.mp hx
    exact reads_executableDefinition hne text
  have hbegins : ∀ x ∈ [ss], Begins (·.isSome) (fun _ => True) (braced x) :=
    fun _ _ => ⟨_, _, rfl, rfl, trivial⟩
  have hmany : Reads (many (·.isSome) executableDefinition) ([ss].flatMap braced) []
      fun ds => ds.map (fun d => FieldSet.ofDefinitions text [d]) =
        [ss].map fun x => .ok ⟨x.map selection⟩ :=
    reads_many hbegins hread trivial rfl
  rw [List.flatMap_singleton] at hmany
  refine hmany.mono fun ds hds => ?_
  obtain ⟨d, hd, hone⟩ := List.map_eq_singleton_iff.mp hds
  rw [hd, hone]

end Grammar

/-! ## What is read is spelled -/

namespace FieldSelection

/-- A bare field has no alias, no arguments and no applications. -/
theorem ofSelection_field_eq_ok {responseKey : Option String} {name : String}
    {hasArguments hasDirectives : Bool} {selections : List Selection} {f : FieldSelection}
    (h : ofSelection (.field responseKey name hasArguments hasDirectives selections) = .ok f) :
    responseKey = none ∧ hasArguments = false ∧ hasDirectives = false ∧
      ∃ nested, ofSelections selections = .ok nested ∧ f = .select name nested := by
  rw [ofSelection] at h
  split at h
  · cases h
  rename_i hkey
  split at h
  · cases h
  rename_i harguments
  split at h
  · cases h
  rename_i hdirectives
  cases hnested : ofSelections selections with
  | error e =>
    rw [hnested] at h
    cases h
  | ok nested =>
    rw [hnested] at h
    cases h
    exact ⟨by simpa using hkey, by simpa using harguments, by simpa using hdirectives, nested,
      rfl, rfl⟩

theorem ofSelections_cons_eq_ok {x : Selection} {xs : List Selection} {fs : List FieldSelection}
    (h : ofSelections (x :: xs) = .ok fs) :
    ∃ f others, ofSelection x = .ok f ∧ ofSelections xs = .ok others ∧ fs = f :: others := by
  rw [ofSelections] at h
  cases hx : ofSelection x with
  | error e =>
    rw [hx] at h
    cases h
  | ok f =>
    rw [hx] at h
    cases hxs : ofSelections xs with
    | error e =>
      rw [hxs] at h
      cases h
    | ok others =>
      rw [hxs] at h
      cases h
      exact ⟨f, others, rfl, rfl, rfl⟩

end FieldSelection

namespace Grammar

open Spelling FieldSelection

variable {ls rest : List Lexeme} {item : Grammar Selection} {xs : List Selection}
  {fs : List FieldSelection}

/-- Where a rule reads a bare field, it has read a spelling of it. -/
def FindsSpelling (item : Grammar Selection) : Prop :=
  ∀ ls x rest f, item ls = .ok (x, rest) → ofSelection x = .ok f →
    ∃ s : Spelling, s.selection = f ∧ ls.map (·.token) = s.tokens ++ rest.map (·.token)

theorem exists_spellings_manyWithin (hitem : FindsSpelling item) {starts : Option Token → Bool}
    {allowance : List Lexeme} (h : manyWithin starts item allowance ls = .ok (xs, rest))
    (hfs : ofSelections xs = .ok fs) :
    ∃ ss : List Spelling, ss.map selection = fs ∧
      ls.map (·.token) = ss.flatMap tokens ++ rest.map (·.token) := by
  induction allowance generalizing ls xs fs with
  | nil =>
    obtain ⟨rfl, rfl⟩ := pure_eq_ok.mp h
    cases hfs
    exact ⟨[], rfl, rfl⟩
  | cons l allowance ih =>
    obtain ⟨x, others, middle, rfl, hx, hothers⟩ | ⟨rfl, rfl, -⟩ := manyWithin_cons_eq_ok h
    · obtain ⟨f, gs, hf, hgs, rfl⟩ := ofSelections_cons_eq_ok hfs
      obtain ⟨s, rfl, htokens⟩ := hitem ls x middle f hx hf
      obtain ⟨ss, rfl, hmiddle⟩ := ih hothers hgs
      refine ⟨s :: ss, rfl, ?_⟩
      rw [htokens, hmiddle, List.flatMap_cons, List.append_assoc]
    · cases hfs
      exact ⟨[], rfl, rfl⟩

theorem exists_spellings_braced (hitem : FindsSpelling item)
    (h : (do
      expectPunctuator .openBrace
      someBefore .closeBrace item) ls = .ok (xs, rest))
    (hfs : ofSelections xs = .ok fs) :
    ∃ ss : List Spelling, ss ≠ [] ∧ ss.map selection = fs ∧
      ls.map (·.token) = braced ss ++ rest.map (·.token) := by
  obtain ⟨u, ls₁, hopen, h⟩ := bind_eq_ok.mp h
  obtain ⟨x, ls₂, hx, h⟩ := bind_eq_ok.mp h
  obtain ⟨others, ls₃, hbefore, h⟩ := bind_eq_ok.mp h
  obtain ⟨rfl, rfl⟩ := pure_eq_ok.mp h
  obtain ⟨others', ls₄, hmany, h⟩ := bind_eq_ok.mp hbefore
  obtain ⟨u', ls₅, hclose, h⟩ := bind_eq_ok.mp h
  obtain ⟨rfl, rfl⟩ := pure_eq_ok.mp h
  obtain ⟨f, gs, hf, hgs, rfl⟩ := ofSelections_cons_eq_ok hfs
  obtain ⟨s, rfl, hs⟩ := hitem _ _ _ _ hx hf
  obtain ⟨ss, rfl, hss⟩ := exists_spellings_manyWithin hitem hmany hgs
  refine ⟨s :: ss, List.cons_ne_nil s ss, rfl, ?_⟩
  rw [expect_eq_ok hopen, hs, hss, expect_eq_ok hclose, braced, List.flatMap_cons]
  simp only [List.append_assoc, List.cons_append, List.nil_append]

theorem skippedArguments_eq_ok (h : skippedArguments ls = .ok (false, rest)) :
    ∃ hasParens, ls.map (·.token) = parens hasParens ++ rest.map (·.token) := by
  obtain ⟨found, ls₁, hfound, hlist⟩ := bind_eq_ok.mp h
  obtain ⟨rfl, hopen⟩ | ⟨rfl, rfl⟩ := skip?_eq_ok hfound
  · rw [if_pos rfl] at hlist
    obtain ⟨arguments, ls₂, hbefore, hend⟩ := bind_eq_ok.mp hlist
    obtain ⟨hnone, rfl⟩ := pure_eq_ok.mp hend
    obtain rfl : arguments = [] := by simpa using hnone
    obtain ⟨arguments, ls₃, hmany, hrest⟩ := bind_eq_ok.mp hbefore
    obtain ⟨u, ls₄, hclose, hend⟩ := bind_eq_ok.mp hrest
    obtain ⟨rfl, rfl⟩ := pure_eq_ok.mp hend
    obtain rfl := manyWithin_eq_ok_nil hmany
    refine ⟨true, ?_⟩
    rw [hopen, expect_eq_ok hclose]
    rfl
  · obtain ⟨-, rfl⟩ := pure_eq_ok.mp hlist
    exact ⟨false, rfl⟩

theorem skippedDirectives_eq_ok (h : skippedDirectives ls = .ok (false, rest)) : rest = ls := by
  obtain ⟨applications, ls₁, hmany, h⟩ := bind_eq_ok.mp h
  obtain ⟨hnone, rfl⟩ := pure_eq_ok.mp h
  obtain rfl : applications = [] := by simpa using hnone
  exact manyWithin_eq_ok_nil hmany

/-- What was read after the name of a bare field, where `set` reads the fields below it. -/
theorem exists_spelling_afterName {set : Grammar (List Selection)}
    (hset : ∀ {ls xs rest fs}, set ls = .ok (xs, rest) → ofSelections xs = .ok fs →
      ∃ ss : List Spelling, ss ≠ [] ∧ ss.map selection = fs ∧
        ls.map (·.token) = braced ss ++ rest.map (·.token))
    {responseKey : Option String} {field : String} {x : Selection} {f : FieldSelection}
    (h : (do
      let hasArguments ← skippedArguments
      let hasDirectives ← skippedDirectives
      let selections ← if (← next?) = some (.punctuator .openBrace) then set else pure []
      return .field responseKey field hasArguments hasDirectives selections : Grammar Selection)
      ls = .ok (x, rest))
    (hf : ofSelection x = .ok f) :
    responseKey = none ∧ ∃ hasParens nested, (Spelling.field field hasParens nested).selection = f ∧
      ls.map (·.token) = parens hasParens ++ nestedTokens nested ++ rest.map (·.token) := by
  obtain ⟨hasArguments, ls₁, harguments, h⟩ := bind_eq_ok.mp h
  obtain ⟨hasDirectives, ls₂, hdirectives, h⟩ := bind_eq_ok.mp h
  have hmarks : hasArguments = false → hasDirectives = false →
      ∃ hasParens, ls.map (·.token) = parens hasParens ++ ls₂.map (·.token) := by
    rintro rfl rfl
    obtain rfl := skippedDirectives_eq_ok hdirectives
    exact skippedArguments_eq_ok harguments
  rw [next?_bind_apply] at h
  split at h
  · obtain ⟨selections, ls₃, hselections, hend⟩ := bind_eq_ok.mp h
    obtain ⟨rfl, rfl⟩ := pure_eq_ok.mp hend
    obtain ⟨hkey, hnone, hnone', nested, hnested, rfl⟩ := ofSelection_field_eq_ok hf
    obtain ⟨ss, hne, rfl, hss⟩ := hset hselections hnested
    obtain ⟨hasParens, hparens⟩ := hmarks hnone hnone'
    refine ⟨hkey, hasParens, ss, selection_field _ _ _, ?_⟩
    rw [hparens, hss, nestedTokens_of_ne_nil hne, List.append_assoc]
  · obtain ⟨rfl, rfl⟩ := pure_eq_ok.mp h
    obtain ⟨hkey, hnone, hnone', nested, hnested, rfl⟩ := ofSelection_field_eq_ok hf
    cases hnested
    obtain ⟨hasParens, hparens⟩ := hmarks hnone hnone'
    exact ⟨hkey, hasParens, [], rfl, by rw [hparens, nestedTokens, List.append_nil]⟩

/-- The only bare fields that are read have been spelled. The induction is on the depth that is
allowed. -/
theorem findsSpelling_selectionWithin (allowance : List Lexeme) :
    FindsSpelling (selectionWithin allowance) := by
  induction allowance with
  | nil => exact fun ls x rest f h _ => absurd h not_refuse_eq_ok
  | cons _ allowance ih =>
    intro ls x rest f h hf
    rw [selectionWithin] at h
    obtain ⟨hasSpread, ls₁, hspread, hbody⟩ := bind_eq_ok.mp h
    obtain ⟨rfl, -⟩ | ⟨rfl, rfl⟩ := skip?_eq_ok hspread
    · -- what comes after a spread is a fragment, which is no bare field
      have hbare : ∀ rule : Grammar Selection, rule ls₁ = .ok (x, rest) →
          Gives rule (fun x => ofSelection x ≠ .ok f) → False :=
        fun rule hrule hgives => hgives ls₁ x rest hrule hf
      refine (hbare _ hbody ?_).elim
      rw [if_pos rfl]
      refine .bind fun hasType => ?_
      split
      · exact .bind fun _ => .bind fun _ => .bind fun _ => .pure nofun
      · refine .bind fun next => ?_
        split
        · exact .bind fun _ => .bind fun _ => .pure nofun
        · exact .bind fun _ => .bind fun _ => .pure nofun
    · obtain ⟨first, ls₂, hfirst, hafter⟩ := bind_eq_ok.mp hbody
      obtain ⟨hasAlias, ls₃, halias, hfield⟩ := bind_eq_ok.mp hafter
      obtain ⟨rfl, -⟩ | ⟨rfl, rfl⟩ := skip?_eq_ok halias
      · obtain ⟨fieldName, ls₄, hname, hset⟩ := bind_eq_ok.mp hfield
        obtain ⟨hkey, -⟩ := exists_spelling_afterName (exists_spellings_braced ih) hset hf
        cases hkey
      · obtain ⟨-, hasParens, nested, rfl, htokens⟩ :=
          exists_spelling_afterName (exists_spellings_braced ih) hfield hf
        refine ⟨.field first hasParens nested, rfl, ?_⟩
        rw [name_eq_ok hfirst, htokens, tokens]
        rfl

/-- What was read as the only definition, and as a field set, was spelled between braces, and
nothing is left. -/
theorem exists_spellings {text : String} {definitions : List ExecutableDefinition} {fs : FieldSet}
    (hopen : (ls.map (·.token)).head? = some (.punctuator .openBrace))
    (h : executableDocument ls = .ok (definitions, rest))
    (hfs : FieldSet.ofDefinitions text definitions = .ok fs) :
    ∃ ss : List Spelling, ss ≠ [] ∧ ss.map selection = fs.selections ∧
      ls.map (·.token) = braced ss := by
  unfold FieldSet.ofDefinitions at hfs
  split at hfs
  · rename_i selections
    cases hselections : ofSelections selections with
    | error e =>
      rw [hselections] at hfs
      cases hfs
    | ok fields =>
      rw [hselections] at hfs
      cases hfs
      obtain ⟨l, tail, rfl⟩ : ∃ l tail, ls = l :: tail := by
        cases ls with
        | nil => cases hopen
        | cons l tail => exact ⟨l, tail, rfl⟩
      rw [executableDocument, many_eq] at h
      obtain ⟨d, others, _, hone, hd, hothers⟩ | ⟨hnone, -, -⟩ := manyWithin_cons_eq_ok h
      · obtain ⟨rfl, rfl⟩ := List.cons.inj hone
        rw [executableDefinition, next?_bind_apply, hopen] at hd
        obtain ⟨xs, middle, hset, hend⟩ := bind_eq_ok.mp hd
        obtain ⟨hxs, rfl⟩ := pure_eq_ok.mp hend
        cases hxs
        obtain ⟨ss, hne, hmap, htokens⟩ :=
          exists_spellings_braced (findsSpelling_selectionWithin _) hset hselections
        -- the repetition has ended before the end of its allowance, so for want of lexemes
        have hrest : middle = [] := by
          cases tail with
          | nil =>
            have hlength := congrArg List.length htokens
            simp [braced] at hlength
          | cons l' tail =>
            obtain ⟨_, _, _, hcons, -, -⟩ | ⟨-, -, hstop⟩ := manyWithin_cons_eq_ok hothers
            · cases hcons
            · simpa using hstop
        exact ⟨ss, hne, hmap, by rw [htokens, hrest, List.map_nil, List.append_nil]⟩
      · cases hnone
  · cases hfs

end Grammar

namespace FieldSet

open Spelling

/-- **A text is a field set exactly when the text between braces is spelled as one.** -/
theorem parse_eq_ok_iff_braced {text : String} {fs : FieldSet} :
    parse text = .ok fs ↔ ∃ ss : List Spelling, ss ≠ [] ∧ ss.map selection = fs.selections ∧
      Lexeme.tokens ('\x7b' :: ' ' :: text.toList ++ [' ', '\x7d']) = braced ss := by
  have hopen : ((Lexeme.ofText ('\x7b' :: ' ' :: text.toList ++ [' ', '\x7d'])).map
      (·.token)).head? = some (.punctuator .openBrace) := by
    change (Lexeme.tokens ('\x7b' :: (' ' :: text.toList ++ [' ', '\x7d']))).head? = _
    rw [Lexeme.tokens_token rfl]
    rfl
  constructor
  · intro h
    unfold parse Grammar.run StateT.run at h
    cases hr : Grammar.executableDocument
        (Lexeme.ofText ('\x7b' :: ' ' :: text.toList ++ [' ', '\x7d'])) with
    | error e =>
      rw [hr] at h
      cases h
    | ok result =>
      rw [hr] at h
      obtain ⟨definitions, rest⟩ := result
      exact Grammar.exists_spellings hopen hr h
  · rintro ⟨ss, hne, hmap, htokens⟩
    obtain ⟨definitions, ls, hr, -, hfs⟩ :=
      Grammar.reads_executableDocument hne text _ (htokens.trans (List.append_nil _).symm)
    rw [parse, Grammar.run, StateT.run, hr]
    rw [hmap] at hfs
    exact hfs

end FieldSet

end Federation
