import Mathlib.Data.List.Basic
import Federation.Document.Parser
import Federation.Proofs.Document.Inversion
import Federation.Proofs.Document.Legible
/-!
# Document — reading what was written

A rule reads a row of tokens when it takes exactly these off the head of
the lexemes and gives a result with a property (`Reads`). Rules look one
token ahead, so what they read depends on the token that comes next:
values end by themselves, types and applications go on while certain
punctuators follow (`Avoids`). The first half of the module is the
calculus of the rules that others are made of. The second half reads
values, type references, applications and descriptions.
-/

namespace Federation

namespace Grammar

variable {α β γ : Type} {P : α → Prop} {Q : β → Prop} {rest u : List Token}

/-- A rule takes tokens off the head of the lexemes, leaves the rest, and has a result with a
property. -/
def Reads (rule : Grammar α) (ts rest : List Token) (P : α → Prop) : Prop :=
  ∀ ls : List Lexeme, ls.map (·.token) = ts ++ rest →
    ∃ a ls', rule ls = .ok (a, ls') ∧ ls'.map (·.token) = rest ∧ P a

/-! ## Rules one after the other -/

theorem Reads.bind {rule : Grammar α} {f : α → Grammar β} {ts : List Token}
    (h : Reads rule ts (u ++ rest) P) (hf : ∀ a, P a → Reads (f a) u rest Q) :
    Reads (rule >>= f) (ts ++ u) rest Q := by
  intro ls hls
  rw [List.append_assoc] at hls
  obtain ⟨a, middle, ha, hm, hp⟩ := h ls hls
  obtain ⟨b, ls', hb, hl, hq⟩ := hf a hp middle hm
  exact ⟨b, ls', bind_eq_ok.mpr ⟨a, middle, ha, hb⟩, hl, hq⟩

theorem Reads.pure {a : α} (h : P a) : Reads (pure a) [] rest P :=
  fun ls hls => ⟨a, ls, rfl, hls, h⟩

theorem Reads.mono {R : α → Prop} {rule : Grammar α} {ts : List Token} (h : Reads rule ts rest P)
    (hR : ∀ a, P a → R a) : Reads rule ts rest R := by
  intro ls hls
  obtain ⟨a, ls', ha, hl, hp⟩ := h ls hls
  exact ⟨a, ls', ha, hl, hR a hp⟩

/-- A rule whose result is only put into another form. -/
theorem Reads.last {rule : Grammar α} {f : α → β} {ts : List Token} (h : Reads rule ts rest P)
    (hf : ∀ a, P a → Q (f a)) : Reads (rule >>= fun a => Pure.pure (f a)) ts rest Q := by
  have hb := Reads.bind (u := []) (f := fun a => Pure.pure (f a)) h fun a ha => .pure (hf a ha)
  rwa [List.append_nil] at hb

theorem head?_token (ls : List Lexeme) :
    ls.head?.map (·.token) = (ls.map (·.token)).head? := by
  cases ls <;> rfl

theorem reads_next? : Reads next? [] rest (· = rest.head?) := by
  intro ls hls
  refine ⟨_, ls, rfl, hls, ?_⟩
  rw [head?_token, hls, List.nil_append]

theorem reads_here : Reads here [] rest fun _ => True :=
  fun ls hls => ⟨_, ls, rfl, hls, trivial⟩

theorem reads_advance (t : Token) : Reads advance [t] rest fun _ => True := by
  intro ls hls
  refine ⟨(), ls.tail, rfl, ?_, trivial⟩
  rw [List.map_tail, hls]
  rfl

/-- A rule that looks at the next token finds the first of those it has to read. -/
theorem Reads.next {f : Option Token → Grammar β} {ts : List Token}
    (h : Reads (f (ts ++ rest).head?) ts rest Q) : Reads (next? >>= f) ts rest Q := by
  refine Reads.bind (u := ts) reads_next? ?_
  rintro t rfl
  exact h

theorem reads_skip?_hit (t : Token) : Reads (skip? t) [t] rest (· = true) := by
  unfold skip?
  have ht : ([t] ++ rest).head? = some t := rfl
  refine .next ?_
  rw [if_pos ht]
  exact (reads_advance t).last fun _ _ => rfl

theorem reads_skip?_miss {t : Token} (h : rest.head? ≠ some t) :
    Reads (skip? t) [] rest (· = false) := by
  unfold skip?
  refine .next ?_
  rw [List.nil_append, if_neg h]
  exact .pure rfl

theorem reads_expect (t : Token) : Reads (expect t) [t] rest fun _ => True := by
  unfold expect
  have ht : ([t] ++ rest).head? = some t := rfl
  refine .next ?_
  rw [if_pos ht]
  exact reads_advance t

theorem reads_name (s : String) : Reads name [.name s] rest (· = s) := by
  unfold name
  refine .next ?_
  exact (reads_advance (.name s)).last fun _ _ => rfl

/-! ## Repetition -/

variable {item : Grammar α} {as : List β} {spell : β → List Token} {g : α → γ} {out : β → γ}
variable {starts : Option Token → Bool} {F : Option Token → Prop}

/-- The tokens of an item begin with a token at which a repetition goes on, and which may come
after another item. -/
def Begins (starts : Option Token → Bool) (F : Option Token → Prop) (ts : List Token) : Prop :=
  ∃ t tail, ts = t :: tail ∧ starts (some t) = true ∧ F (some t)

/-- What comes after an item is another item or the rest. -/
theorem follows_of_begins (hspell : ∀ a ∈ as, Begins starts F (spell a)) (hrest : F rest.head?) :
    F (as.flatMap spell ++ rest).head? := by
  cases as with
  | nil => exact hrest
  | cons a as =>
    obtain ⟨t, tail, ht, -, hf⟩ := hspell a List.mem_cons_self
    rw [List.flatMap_cons, ht]
    exact hf

theorem length_le_flatMap (hspell : ∀ a ∈ as, Begins starts F (spell a)) :
    as.length ≤ (as.flatMap spell).length := by
  induction as with
  | nil => simp
  | cons a as ih =>
    obtain ⟨ha, has⟩ := List.forall_mem_cons.mp hspell
    obtain ⟨t, tail, ht, -, -⟩ := ha
    have := ih has
    simp only [List.flatMap_cons, ht, List.length_append, List.length_cons]
    omega

theorem length_le_of_mem {a : β} (spell : β → List Token) (h : a ∈ as) :
    (spell a).length ≤ (as.flatMap spell).length := by
  rw [List.flatMap_def]
  exact (List.sublist_flatten_of_mem (List.mem_map_of_mem h)).length_le

/-- A repetition reads items one after the other, if it is allowed as many and ends before the
rest. -/
theorem reads_manyWithin {allowance : List Lexeme} (hspell : ∀ a ∈ as, Begins starts F (spell a))
    (hitem : ∀ a ∈ as, ∀ u, F u.head? → Reads item (spell a) u fun b => g b = out a)
    (hrest : F rest.head?) (hstop : starts rest.head? = false)
    (hl : as.length ≤ allowance.length) :
    Reads (manyWithin starts item allowance) (as.flatMap spell) rest
      fun bs => bs.map g = as.map out := by
  induction as generalizing allowance with
  | nil =>
    cases allowance with
    | nil => exact .pure rfl
    | cons _ allowance =>
      unfold manyWithin
      refine .next ?_
      rw [List.flatMap_nil, List.nil_append, hstop]
      exact .pure rfl
  | cons a as ih =>
    obtain ⟨ha, has⟩ := List.forall_mem_cons.mp hspell
    obtain ⟨hia, hias⟩ := List.forall_mem_cons.mp hitem
    cases allowance with
    | nil => simp at hl
    | cons _ allowance =>
      have hs : starts (spell a ++ as.flatMap spell ++ rest).head? = true := by
        obtain ⟨t, tail, ht, hs, -⟩ := ha
        rw [ht]
        exact hs
      unfold manyWithin
      refine .next ?_
      rw [List.flatMap_cons, hs, if_pos rfl]
      refine (hia _ (follows_of_begins has hrest)).bind fun b hb => ?_
      have hl : as.length ≤ allowance.length := by simpa using hl
      refine (ih has hias hl).last fun bs hbs => ?_
      rw [List.map_cons, List.map_cons, hb, hbs]

theorem reads_many (hspell : ∀ a ∈ as, Begins starts F (spell a))
    (hitem : ∀ a ∈ as, ∀ u, F u.head? → Reads item (spell a) u fun b => g b = out a)
    (hrest : F rest.head?) (hstop : starts rest.head? = false) :
    Reads (many starts item) (as.flatMap spell) rest fun bs => bs.map g = as.map out := by
  intro ls hls
  refine reads_manyWithin hspell hitem hrest hstop ?_ ls hls
  have hl := congrArg List.length hls
  have := length_le_flatMap hspell
  simp only [List.length_map, List.length_append] at hl
  omega

theorem reads_manyBefore {close : Punctuator}
    (hspell : ∀ a ∈ as, Begins (· != some (.punctuator close)) F (spell a))
    (hitem : ∀ a ∈ as, ∀ u, F u.head? → Reads item (spell a) u fun b => g b = out a)
    (hclose : F (some (.punctuator close))) :
    Reads (manyBefore close item) (as.flatMap spell ++ [.punctuator close]) rest
      fun bs => bs.map g = as.map out := by
  unfold manyBefore
  have hmany : Reads (many (· != some (.punctuator close)) item) (as.flatMap spell)
      (.punctuator close :: rest) fun bs => bs.map g = as.map out :=
    reads_many hspell hitem hclose (by simp)
  exact hmany.bind fun bs hbs => (reads_expect _).last fun _ _ => hbs

/-- The items of a list are read as they are, where any token may come after an item. -/
theorem reads_manyBefore_eq {as : List α} {spell : α → List Token} {close : Punctuator}
    (hspell : ∀ a ∈ as, Begins (· != some (.punctuator close)) (fun _ => True) (spell a))
    (hitem : ∀ a ∈ as, ∀ u, Reads item (spell a) u (· = a)) :
    Reads (manyBefore close item) (as.flatMap spell ++ [.punctuator close]) rest (· = as) := by
  have hread : ∀ a ∈ as, ∀ u : List Token, True →
      Reads item (spell a) u fun b => id b = id a :=
    fun a ha u _ => hitem a ha u
  refine (reads_manyBefore hspell hread trivial).mono fun bs hbs => ?_
  rwa [List.map_id, List.map_id] at hbs

theorem reads_someBefore {close : Punctuator} {a : β}
    (hspell : ∀ x ∈ a :: as, Begins (· != some (.punctuator close)) F (spell x))
    (hitem : ∀ x ∈ a :: as, ∀ u, F u.head? → Reads item (spell x) u fun b => g b = out x)
    (hclose : F (some (.punctuator close))) :
    Reads (someBefore close item) ((a :: as).flatMap spell ++ [.punctuator close]) rest
      fun bs => bs.map g = (a :: as).map out := by
  unfold someBefore
  obtain ⟨-, has⟩ := List.forall_mem_cons.mp hspell
  obtain ⟨hia, hias⟩ := List.forall_mem_cons.mp hitem
  have hnext : F (as.flatMap spell ++ [Token.punctuator close] ++ rest).head? := by
    rw [List.append_assoc]
    exact follows_of_begins has hclose
  rw [List.flatMap_cons, List.append_assoc]
  refine (hia _ hnext).bind fun b hb => (reads_manyBefore has hias hclose).last fun bs hbs => ?_
  rw [List.map_cons, List.map_cons, hb, hbs]

/-- Words with a punctuator between them. -/
theorem reads_separatedBy {as : List α} {p : Punctuator} {word : α → String} {a : α}
    (hitem : ∀ x ∈ a :: as, ∀ u, Reads item [.name (word x)] u (· = x))
    (hstop : rest.head? ≠ some (.punctuator p)) :
    Reads (separatedBy p item)
      (.name (word a) :: as.flatMap fun x => [.punctuator p, .name (word x)]) rest
      (· = a :: as) := by
  obtain ⟨hia, hias⟩ := List.forall_mem_cons.mp hitem
  have hbegins : ∀ x ∈ as, Begins (· == some (.punctuator p)) (fun _ => True)
      [.punctuator p, .name (word x)] :=
    fun x _ => ⟨_, _, rfl, by simp, trivial⟩
  have hrest : ∀ x ∈ as, ∀ u : List Token, True →
      Reads (do advance; item) [.punctuator p, .name (word x)] u fun b => id b = id x := by
    intro x hx u _
    exact (reads_advance (.punctuator p)).bind fun _ _ => hias x hx u
  unfold separatedBy
  refine Reads.bind (u := .name (word a) :: _) (reads_skip?_miss (by simp)) fun _ _ => ?_
  refine (hia _).bind fun b hb => ?_
  refine (reads_many hbegins hrest trivial (by simpa using hstop)).last fun bs hbs => ?_
  rw [hb, ← List.map_id as, ← hbs, List.map_id]

/-! ## Values -/

end Grammar

namespace Value

open Piece

theorem tokens_itemPieces (vs : List Value) :
    tokens (itemPieces vs) = vs.flatMap fun v => tokens v.pieces := by
  match vs with
  | [] => rfl
  | [v] => simp [itemPieces]
  | v :: w :: vs => simp [itemPieces, tokens_itemPieces (w :: vs)]

theorem tokens_fieldPieces (fs : List (String × Value)) :
    tokens (fieldPieces fs) =
      fs.flatMap fun f => .name f.1 :: .punctuator .colon :: tokens f.2.pieces := by
  match fs with
  | [] => rfl
  | [(name, v)] => simp [fieldPieces]
  | (name, v) :: f :: fs => simp [fieldPieces, tokens_fieldPieces (f :: fs)]

end Value

namespace Grammar

open Piece

theorem reads_decodeString (s : String) :
    Reads (decodeString (Text.Quoted.encode s.toList)) [] rest (· = s) := by
  unfold decodeString
  rw [Text.Quoted.decode_encode]
  exact .pure String.ofList_toList

/-- A value begins with a token that closes no list. -/
theorem begins_value (v : Value) :
    Begins (· != some (.punctuator .closeBracket)) (fun _ => True) (tokens v.pieces) := by
  cases v with
  | list items => exact ⟨.punctuator .openBracket, _, rfl, by decide, trivial⟩
  | object fields => exact ⟨.punctuator .openBrace, _, rfl, by decide, trivial⟩
  | _ => exact ⟨_, _, rfl, rfl, trivial⟩

theorem reads_items {item : Grammar Value} {items : List Value}
    (h : ∀ v ∈ items, ∀ u, Reads item (tokens v.pieces) u (· = v)) :
    Reads (manyBefore .closeBracket item)
      ((items.flatMap fun v => tokens v.pieces) ++ [.punctuator .closeBracket]) rest
      (· = items) :=
  reads_manyBefore_eq (fun v _ => begins_value v) h

theorem reads_fields {item : Grammar Value} {fields : List (String × Value)}
    (h : ∀ f ∈ fields, ∀ u, Reads item (tokens f.2.pieces) u (· = f.2)) :
    Reads
      (manyBefore .closeBrace do
        let field ← name
        expectPunctuator .colon
        return (field, ← item))
      ((fields.flatMap fun f => .name f.1 :: .punctuator .colon :: tokens f.2.pieces) ++
        [.punctuator .closeBrace]) rest (· = fields) := by
  have hbegins : ∀ f ∈ fields, Begins (· != some (.punctuator .closeBrace)) (fun _ => True)
      (.name f.1 :: .punctuator .colon :: tokens f.2.pieces) :=
    fun f _ => ⟨_, _, rfl, rfl, trivial⟩
  refine reads_manyBefore_eq hbegins fun f hf u => ?_
  refine (reads_name f.1).bind (u := .punctuator .colon :: _) fun name hn => ?_
  refine (reads_expect (.punctuator .colon)).bind (u := tokens f.2.pieces) fun _ _ => ?_
  exact (h f hf u).last fun v hv => by rw [hn, hv]

/-- A value is read from the tokens it is written as, whatever follows. The induction is on the
allowance, of which each level of depth takes one. -/
theorem reads_valueWithin {v : Value} {allowance : List Lexeme} (h : v.Legible)
    (hl : (tokens v.pieces).length ≤ allowance.length) :
    Reads (valueWithin allowance) (tokens v.pieces) rest (· = v) := by
  induction allowance generalizing v rest with
  | nil =>
    obtain ⟨t, tail, ht, -⟩ := begins_value v
    simp [ht] at hl
  | cons _ allowance ih =>
    have hself := h v v.mem_parts_self
    unfold valueWithin
    refine .next ?_
    cases v with
    | null => exact (reads_advance _).last fun _ _ => rfl
    | int n =>
      refine (reads_advance (.integer (Decimal.ofInt n))).last fun _ _ => ?_
      rw [Decimal.intValue_ofInt]
    | float x => exact hself.elim
    | string s =>
      refine (reads_advance (.string (Text.Quoted.encode s.toList))).bind (u := []) fun _ _ => ?_
      exact (reads_decodeString s).last fun _ hs => by rw [hs]
    | boolean b => cases b <;> exact (reads_advance _).last fun _ _ => rfl
    | enum name =>
      obtain ⟨-, hw⟩ := hself
      simp only [Value.words, List.mem_cons, List.not_mem_nil, or_false, not_or] at hw
      obtain ⟨htrue, hfalse, hnull⟩ := hw
      refine (reads_advance (.name name)).bind (u := []) fun _ _ => ?_
      rw [if_neg hnull, if_neg htrue, if_neg hfalse]
      exact .pure rfl
    | list items =>
      have hitems := Value.legible_list.mp h
      rw [Value.pieces] at hl ⊢
      simp only [List.cons_append, tokens_cons_punctuator, tokens_append, Value.tokens_itemPieces,
        tokens_nil, List.length_cons, List.length_append] at hl ⊢
      refine (reads_advance (.punctuator .openBracket)).bind fun _ _ => ?_
      refine (reads_items fun v hv u => ih (hitems v hv) ?_).last fun vs hvs => by rw [hvs]
      have hlen := length_le_of_mem (fun v => tokens v.pieces) hv
      omega
    | object fields =>
      have hfields := Value.legible_object.mp h
      rw [Value.pieces] at hl ⊢
      simp only [List.cons_append, tokens_cons_punctuator, tokens_append, Value.tokens_fieldPieces,
        tokens_nil, List.length_cons, List.length_append] at hl ⊢
      refine (reads_advance (.punctuator .openBrace)).bind fun _ _ => ?_
      refine (reads_fields fun f hf u => ih (hfields f hf).2 ?_).last fun fs hfs => by rw [hfs]
      have hlen := length_le_of_mem (fun f : String × Value =>
        Token.name f.1 :: .punctuator .colon :: tokens f.2.pieces) hf
      simp only [List.length_cons] at hlen
      omega

theorem reads_value {v : Value} (h : v.Legible) :
    Reads value (tokens v.pieces) rest (· = v) := by
  intro ls hls
  refine reads_valueWithin h ?_ ls hls
  have hl := congrArg List.length hls
  simp only [List.length_map, List.length_append] at hl
  omega

end Grammar

/-! ## Type references -/

namespace TypeRef

open Piece

/-- The lists that a type reference is wrapped in. -/
def depth : TypeRef → Nat
  | named _ => 0
  | list item => item.depth + 1
  | nonNull nullable => nullable.depth

/-- The punctuators after the name of a type reference. -/
def wrappers : TypeRef → List Punctuator
  | named _ => []
  | list item => item.wrappers ++ [.closeBracket]
  | nonNull nullable => nullable.wrappers ++ [.exclamation]

theorem tokens_pieces (t : TypeRef) :
    tokens t.pieces = List.replicate t.depth (.punctuator .openBracket) ++
      .name t.name :: t.wrappers.map .punctuator := by
  induction t with
  | named name => rfl
  | list item ih => simp [pieces, depth, wrappers, TypeRef.name, ih, List.replicate_succ]
  | nonNull nullable ih => simp [pieces, depth, wrappers, TypeRef.name, ih]

theorem mem_wrappers {t : TypeRef} {p : Punctuator} (h : p ∈ t.wrappers) :
    p = .exclamation ∨ p = .closeBracket := by
  induction t with
  | named name => cases h
  | list item ih =>
    obtain h | h := List.mem_append.mp h
    · exact ih h
    · exact .inr (List.mem_singleton.mp h)
  | nonNull nullable ih =>
    obtain h | h := List.mem_append.mp h
    · exact ih h
    · exact .inl (List.mem_singleton.mp h)

/-- The punctuators make the reference out of the name. -/
theorem foldl_wrap_wrappers {t : TypeRef} (h : t.Legible) :
    t.wrappers.foldl Grammar.wrap (.named t.name) = t := by
  induction t with
  | named name => rfl
  | list item ih =>
    rw [wrappers, List.foldl_append, TypeRef.name, ih h]
    rfl
  | nonNull nullable ih =>
    obtain ⟨hl, hn⟩ := h
    rw [wrappers, List.foldl_append, TypeRef.name, ih hl]
    cases nullable with
    | named name => rfl
    | list item => rfl
    | nonNull nullable => cases hn

end TypeRef

namespace Grammar

open Piece

/-- The next token is none of some punctuators. -/
def Avoids (ps : List Punctuator) (next : Option Token) : Prop :=
  ∀ p ∈ ps, next ≠ some (.punctuator p)

theorem avoids_punctuator {p : Punctuator} {ps : List Punctuator} (h : p ∉ ps) :
    Avoids ps (some (.punctuator p)) := by
  rintro q hq ⟨⟩
  exact h hq

theorem Avoids.mono {ps qs : List Punctuator} {next : Option Token} (h : Avoids qs next)
    (hsub : ∀ p ∈ ps, p ∈ qs) : Avoids ps next :=
  fun p hp => h p (hsub p hp)

theorem reads_wrapper (p : Punctuator) : Reads wrapper [.punctuator p] rest (· = p) := by
  unfold wrapper
  refine .next ?_
  exact (reads_advance (.punctuator p)).last fun _ _ => rfl

theorem reads_typeRef {t : TypeRef} (h : t.Legible)
    (hr : Avoids [.exclamation, .closeBracket] rest.head?) :
    Reads typeRef (tokens t.pieces) rest (· = t) := by
  -- brackets are counted when they open; what closes them makes the type, from the inside out
  have hopen : ∀ _u ∈ List.replicate t.depth (), Begins (· == some (.punctuator .openBracket))
      (fun _ => True) [.punctuator .openBracket] :=
    fun _ _ => ⟨_, _, rfl, by decide, trivial⟩
  have hopens : List.replicate t.depth (.punctuator .openBracket) =
      (List.replicate t.depth ()).flatMap fun _ => [Token.punctuator .openBracket] := by
    rw [← List.map_eq_flatMap, List.map_replicate]
  have hclose : ∀ p ∈ t.wrappers, Begins
      (fun t => t == some (.punctuator .exclamation) || t == some (.punctuator .closeBracket))
      (fun _ => True) [.punctuator p] := by
    intro p hp
    refine ⟨_, _, rfl, ?_, trivial⟩
    obtain rfl | rfl := TypeRef.mem_wrappers hp <;> rfl
  have hstop : (rest.head? == some (Token.punctuator .exclamation) ||
      rest.head? == some (Token.punctuator .closeBracket)) = false := by
    have he := hr .exclamation (by decide)
    have hb := hr .closeBracket (by decide)
    rw [Bool.or_eq_false_iff]
    exact ⟨beq_false_of_ne he, beq_false_of_ne hb⟩
  have hadvance : ∀ x ∈ List.replicate t.depth (), ∀ u : List Token, True →
      Reads advance [.punctuator .openBracket] u fun b => id b = id x :=
    fun x _ u _ => (reads_advance _).mono fun _ _ => rfl
  have hwrapper : ∀ p ∈ t.wrappers, ∀ u : List Token, True →
      Reads wrapper [.punctuator p] u fun b => id b = id p :=
    fun p _ u _ => reads_wrapper p
  unfold typeRef
  rw [TypeRef.tokens_pieces, hopens, List.map_eq_flatMap]
  refine (reads_many hopen hadvance trivial rfl).bind fun _ _ => ?_
  refine (reads_name t.name).bind (u := t.wrappers.flatMap _) fun innermost hn => ?_
  refine (reads_many hclose hwrapper trivial hstop).last fun wrappers hw => ?_
  rw [List.map_id, List.map_id] at hw
  rw [hn, hw]
  exact TypeRef.foldl_wrap_wrappers h

/-! ## Applications of directives -/

theorem reads_argument {a : Argument} (hv : a.value.Legible) :
    Reads argument (tokens a.pieces) rest (· = a) := by
  unfold argument
  refine (reads_name a.name).bind (u := .punctuator .colon :: _) fun argumentName hn => ?_
  refine (reads_expect (.punctuator .colon)).bind (u := tokens a.value.pieces) fun _ _ => ?_
  refine (reads_value hv).last fun v hv => ?_
  rw [hn, hv]

theorem tokens_directive (d : Directive) :
    tokens d.pieces = .punctuator .atSign :: .name d.name ::
      if d.arguments = [] then []
      else .punctuator .openParen :: d.arguments.flatMap (fun a => tokens a.pieces) ++
        [.punctuator .closeParen] := by
  unfold Directive.pieces
  rw [tokens_cons_punctuator, tokens_cons_name]
  split
  · rfl
  · rw [List.cons_append, tokens_cons_punctuator, tokens_append, tokens_separated_gaps rfl,
      List.flatMap_map]
    rfl

theorem reads_directive {d : Directive} (h : d.Legible) (hr : Avoids [.openParen] rest.head?) :
    Reads directive (tokens d.pieces) rest (· = d) := by
  have hbegins : ∀ a ∈ d.arguments, Begins (· != some (.punctuator .closeParen)) (fun _ => True)
      (tokens a.pieces) := fun a _ => ⟨_, _, rfl, rfl, trivial⟩
  have hargument : ∀ a ∈ d.arguments, ∀ u, Reads argument (tokens a.pieces) u (· = a) :=
    fun a ha u => reads_argument (h.arguments a ha).2
  unfold directive
  rw [tokens_directive]
  generalize hts : (if d.arguments = [] then [] else Token.punctuator .openParen ::
    d.arguments.flatMap (fun a => tokens a.pieces) ++ [.punctuator .closeParen]) = ts
  refine (reads_expect (.punctuator .atSign)).bind (u := .name d.name :: ts) fun _ _ => ?_
  refine (reads_name d.name).bind fun directiveName hn => ?_
  split at hts
  · rename_i he
    subst hts
    refine (reads_skip?_miss (hr .openParen (by decide))).bind (u := []) fun found hf => ?_
    rw [hf, hn]
    refine Reads.last (P := (· = [])) (.pure rfl) fun arguments ha => ?_
    rw [ha, ← he]
  · subst hts
    refine (reads_skip?_hit (.punctuator .openParen)).bind (u := _ ++ _) fun found hf => ?_
    rw [hf, hn]
    refine (reads_manyBefore_eq hbegins hargument).last fun arguments ha => ?_
    rw [ha]

theorem tokens_trailing (ds : List Directive) :
    tokens (Directive.trailing ds) = ds.flatMap fun d => tokens d.pieces := by
  rw [Directive.trailing, tokens_flatMap]
  rfl

/-- What follows a node is the first of its applications or the rest. -/
theorem avoids_trailing {ps : List Punctuator} (ds : List Directive) (hp : .atSign ∉ ps)
    (hr : Avoids ps rest.head?) : Avoids ps (tokens (Directive.trailing ds) ++ rest).head? := by
  cases ds with
  | nil => exact hr
  | cons d ds => exact avoids_punctuator hp

theorem reads_directives {ds : List Directive} (h : ∀ d ∈ ds, d.Legible)
    (hr : Avoids [.atSign, .openParen] rest.head?) :
    Reads directives (tokens (Directive.trailing ds)) rest (· = ds) := by
  have hbegins : ∀ d ∈ ds, Begins (· == some (.punctuator .atSign)) (Avoids [.openParen])
      (tokens d.pieces) := by
    intro d _
    exact ⟨_, _, rfl, rfl, avoids_punctuator (by decide)⟩
  have hdirective : ∀ d ∈ ds, ∀ u : List Token, Avoids [.openParen] u.head? →
      Reads directive (tokens d.pieces) u fun b => id b = id d :=
    fun d hd u hu => reads_directive (h d hd) hu
  have hstop := beq_false_of_ne (hr .atSign (by decide))
  unfold directives
  rw [tokens_trailing]
  refine (reads_many hbegins hdirective (hr.mono (by simp)) hstop).mono fun bs hbs => ?_
  rwa [List.map_id, List.map_id] at hbs

/-! ## Descriptions -/

theorem reads_string?_none (hr : ∃ s, rest.head? = some (.name s)) :
    Reads string? [] rest (· = none) := by
  obtain ⟨s, hs⟩ := hr
  unfold string?
  refine .next ?_
  rw [List.nil_append, hs]
  exact .pure rfl

theorem reads_quotedPiece (s : String) :
    Reads string? [.string (Text.Quoted.encode s.toList)] rest (· = some s) := by
  unfold string?
  refine .next ?_
  refine (reads_advance (.string (Text.Quoted.encode s.toList))).bind (u := []) fun _ _ => ?_
  refine (reads_decodeString s).last fun _ hs => ?_
  rw [hs]

/-- A description is read from a block or from a quoted string. -/
theorem reads_descriptionPiece {s : String} (h : IsPlainDescription s) (n : Nat) :
    Reads string? (tokens [descriptionPiece (List.replicate n ' ') s]) rest (· = some s) := by
  unfold descriptionPiece
  split
  · rename_i hw
    have hd := Text.Block.decode_encode hw h.2 n
    unfold string?
    refine .next ?_
    refine (reads_advance (.block _)).last fun _ _ => ?_
    rw [hd, String.ofList_toList]
  · exact reads_quotedPiece s

/-- A description is read from the tokens it is written as, if a name comes next. -/
theorem reads_definitionDescription {description : Option String}
    (h : LegibleDescription description) (hr : ∃ s, rest.head? = some (.name s)) :
    Reads string? (tokens (definitionDescription description)) rest (· = description) := by
  cases description with
  | none => exact reads_string?_none hr
  | some s => exact reads_descriptionPiece (h s rfl) 0

theorem reads_memberDescription {description : Option String}
    (h : LegibleDescription description) (hr : ∃ s, rest.head? = some (.name s)) :
    Reads string? (tokens (memberDescription description)) rest (· = description) := by
  cases description with
  | none => exact reads_string?_none hr
  | some s => exact reads_descriptionPiece (h s rfl) 4

end Grammar

end Federation
