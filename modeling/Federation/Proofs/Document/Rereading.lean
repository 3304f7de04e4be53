import Federation.Document.Structure
import Federation.Proofs.Document.Reading
/-!
# Document — legible nodes read back

Members and definitions are read from the tokens they are written as,
up to their locations. A member ends where no punctuator goes on with it
(`memberMarks`); a definition ends where another begins or the text is
over (`EndsDefinition`). A schema definition with an empty block is the
one node that is written and not read (`fails_schemaDefinition`).
-/

namespace Federation

namespace Grammar

open Piece

variable {α : Type} {rest : List Token}

/-! ## Members -/

/-- The punctuators that go on with a member. -/
def memberMarks : List Punctuator :=
  [.exclamation, .closeBracket, .equals, .atSign, .openParen]

/-- The tokens of a default. -/
def defaultTokens : Option Value → List Token
  | none => []
  | some value => .punctuator .equals :: tokens value.pieces

theorem tokens_inputValue (v : InputValue) :
    tokens v.pieces = .name v.name :: .punctuator .colon :: (tokens v.type.pieces ++
      (defaultTokens v.default ++ tokens (Directive.trailing v.directives))) := by
  unfold InputValue.pieces
  cases v.default <;> simp [defaultTokens]

theorem avoids_defaultTokens (default : Option Value) {ts : List Token}
    (h : Avoids [.exclamation, .closeBracket] ts.head?) :
    Avoids [.exclamation, .closeBracket] (defaultTokens default ++ ts).head? := by
  cases default with
  | none => exact h
  | some value => exact avoids_punctuator (by decide)

/-- A default is read, or the missing one, before a rule goes on with it. -/
theorem reads_default {β : Type} {default : Option Value} {k : Option Value → Grammar β}
    {u : List Token} {Q : β → Prop} (h : ∀ x ∈ default, x.Legible)
    (hu : (u ++ rest).head? ≠ some (.punctuator .equals)) (hk : Reads (k default) u rest Q) :
    Reads (skip? (.punctuator .equals) >>= fun hasDefault =>
      if hasDefault then some <$> value >>= k else pure none >>= k)
      (defaultTokens default ++ u) rest Q := by
  cases default with
  | none =>
    refine (reads_skip?_miss hu).bind (u := u) fun found hf => ?_
    rw [hf, if_neg Bool.false_ne_true, pure_bind]
    exact hk
  | some x =>
    refine (reads_skip?_hit (.punctuator .equals)).bind (u := tokens x.pieces ++ u)
      fun found hf => ?_
    rw [hf, if_pos rfl]
    have hvalue : Reads (some <$> value) (tokens x.pieces) (u ++ rest) (· = some x) := by
      rw [map_eq_pure_bind]
      exact (reads_value (h x rfl)).last fun y hy => by rw [hy]
    refine hvalue.bind fun read hread => ?_
    rw [hread]
    exact hk

/-- An argument or input field is read from the tokens of its description and its own. -/
theorem reads_inputValue {v : InputValue} (h : v.Legible) {ds : List Token}
    (hd : ∀ rest : List Token, (∃ s, rest.head? = some (.name s)) →
      Reads string? ds rest (· = v.description))
    (hr : Avoids memberMarks rest.head?) :
    Reads inputValue (ds ++ tokens v.pieces) rest fun w => w.canonical = v.canonical := by
  have hnext : Avoids [.exclamation, .closeBracket, .equals]
      (tokens (Directive.trailing v.directives) ++ rest).head? :=
    avoids_trailing v.directives (by decide) (hr.mono (by decide))
  have htype : Avoids [.exclamation, .closeBracket]
      (defaultTokens v.default ++ tokens (Directive.trailing v.directives) ++ rest).head? := by
    rw [List.append_assoc]
    exact avoids_defaultTokens v.default (hnext.mono (by decide))
  unfold inputValue
  refine Reads.bind (u := ds ++ _) reads_here fun location _ => ?_
  rw [tokens_inputValue]
  refine (hd _ ⟨v.name, rfl⟩).bind fun description hdesc => ?_
  refine (reads_name v.name).bind (u := .punctuator .colon :: _) fun valueName hn => ?_
  refine (reads_expect (.punctuator .colon)).bind (u := tokens v.type.pieces ++ _) fun _ _ => ?_
  refine (reads_typeRef h.type htype).bind fun type ht => ?_
  refine reads_default h.default (hnext .equals (by decide)) ?_
  refine (reads_directives h.directives (hr.mono (by decide))).last fun directives hds => ?_
  rw [hn, hdesc, ht, hds]
  rfl

/-- The tokens of a description in quotes. -/
def quotedTokens : Option String → List Token
  | none => []
  | some s => [.string (Text.Quoted.encode s.toList)]

theorem tokens_argumentPieces (v : InputValue) :
    tokens v.argumentPieces = quotedTokens v.description ++ tokens v.pieces := by
  unfold InputValue.argumentPieces
  cases v.description <;> rfl

/-- A member begins with its description or with its name. -/
theorem begins_quotedTokens (description : Option String) (s : String) (ts : List Token)
    (close : Punctuator) : Begins (· != some (.punctuator close)) (Avoids memberMarks)
      (quotedTokens description ++ .name s :: ts) := by
  cases description with
  | none => exact ⟨_, _, rfl, by simp, nofun⟩
  | some s => exact ⟨_, _, rfl, by simp, nofun⟩

theorem descriptionPiece_cases (indent : List Char) (s : String) : ∃ raw,
    descriptionPiece indent s = .token (.block raw) ∨
      descriptionPiece indent s = .token (.string raw) := by
  unfold descriptionPiece
  split
  · exact ⟨_, .inl rfl⟩
  · exact ⟨_, .inr rfl⟩

theorem begins_memberDescription (description : Option String) (s : String) (ts : List Token) :
    Begins (· != some (.punctuator .closeBrace)) (Avoids memberMarks)
      (tokens (memberDescription description) ++ .name s :: ts) := by
  cases description with
  | none => exact ⟨_, _, rfl, by simp, nofun⟩
  | some s =>
    obtain ⟨raw, hp | hp⟩ := descriptionPiece_cases [' ', ' ', ' ', ' '] s
    · rw [memberDescription, hp]
      exact ⟨.block raw, _, rfl, by simp, nofun⟩
    · rw [memberDescription, hp]
      exact ⟨.string raw, _, rfl, by simp, nofun⟩

theorem tokens_listPieces (vs : List InputValue) :
    tokens (InputValue.listPieces vs) = if vs = [] then [] else
      .punctuator .openParen :: (vs.flatMap (fun v => tokens v.argumentPieces) ++
        [.punctuator .closeParen]) := by
  unfold InputValue.listPieces
  split
  · rfl
  · rw [List.cons_append, tokens_cons_punctuator, tokens_append, tokens_separated_gaps rfl,
      List.flatMap_map]
    rfl

theorem reads_argumentDefinitions {vs : List InputValue} (h : ∀ v ∈ vs, v.Legible)
    (hr : rest.head? ≠ some (.punctuator .openParen)) :
    Reads argumentDefinitions (tokens (InputValue.listPieces vs)) rest
      fun ws => ws.map InputValue.canonical = vs.map InputValue.canonical := by
  rw [tokens_listPieces]
  unfold argumentDefinitions
  cases vs with
  | nil =>
    refine (reads_skip?_miss hr).bind (u := []) fun found hf => ?_
    rw [hf]
    exact .pure rfl
  | cons v vs =>
    have hbegins : ∀ w ∈ v :: vs, Begins (· != some (.punctuator .closeParen))
        (Avoids memberMarks) (tokens w.argumentPieces) := by
      intro w _
      rw [tokens_argumentPieces, tokens_inputValue]
      exact begins_quotedTokens _ _ _ _
    have hargument : ∀ w ∈ v :: vs, ∀ u : List Token, Avoids memberMarks u.head? →
        Reads inputValue (tokens w.argumentPieces) u fun x => x.canonical = w.canonical := by
      intro w hw u hu
      rw [tokens_argumentPieces]
      refine reads_inputValue (h w hw) (fun rest hrest => ?_) hu
      cases w.description with
      | none => exact reads_string?_none hrest
      | some s => exact reads_quotedPiece s
    rw [if_neg (List.cons_ne_nil v vs)]
    refine (reads_skip?_hit (.punctuator .openParen)).bind (u := _ ++ _) fun found hf => ?_
    rw [hf]
    exact reads_someBefore hbegins hargument (avoids_punctuator (by decide))

theorem reads_field {f : Field} (h : f.Legible) (hr : Avoids memberMarks rest.head?) :
    Reads field (tokens (memberDescription f.description) ++ tokens f.pieces) rest
      fun g => g.canonical = f.canonical := by
  have hnext : Avoids [.exclamation, .closeBracket]
      (tokens (Directive.trailing f.directives) ++ rest).head? :=
    avoids_trailing f.directives (by decide) (hr.mono (by decide))
  have hpieces : tokens f.pieces = .name f.name :: (tokens (InputValue.listPieces f.arguments) ++
      .punctuator .colon :: (tokens f.type.pieces ++
        tokens (Directive.trailing f.directives))) := by
    simp [Field.pieces]
  unfold field
  rw [hpieces]
  refine Reads.bind (u := _ ++ _) reads_here fun location _ => ?_
  refine (reads_memberDescription h.description ⟨f.name, rfl⟩).bind fun description hdesc => ?_
  refine (reads_name f.name).bind (u := _ ++ _) fun fieldName hn => ?_
  refine (reads_argumentDefinitions h.arguments (by simp)).bind fun arguments ha => ?_
  refine (reads_expect (.punctuator .colon)).bind (u := _ ++ _) fun _ _ => ?_
  refine (reads_typeRef h.type hnext).bind fun type ht => ?_
  refine (reads_directives h.directives (hr.mono (by decide))).last fun directives hds => ?_
  rw [Field.canonical, Field.canonical, hn, hdesc, ht, hds, ha]

theorem reads_enumValueName {s : String} (h : s ∉ Value.words) :
    Reads enumValueName [.name s] rest (· = s) := by
  simp only [Value.words, List.mem_cons, List.not_mem_nil, or_false, not_or] at h
  obtain ⟨htrue, hfalse, hnull⟩ := h
  unfold enumValueName
  refine .next ?_
  rw [List.cons_append, List.head?_cons]
  simp only [htrue, hfalse, hnull, decide_false, Bool.or_self, Bool.false_eq_true, if_false]
  exact (reads_advance (.name s)).last fun _ _ => rfl

theorem reads_enumValue {v : EnumValue} (h : v.Legible) (hr : Avoids memberMarks rest.head?) :
    Reads enumValue (tokens (memberDescription v.description) ++ tokens v.pieces) rest
      fun w => w.canonical = v.canonical := by
  unfold enumValue EnumValue.pieces
  refine Reads.bind (u := _ ++ _) reads_here fun location _ => ?_
  refine (reads_memberDescription h.description ⟨v.name, rfl⟩).bind fun description hdesc => ?_
  refine (reads_enumValueName h.name.2).bind fun valueName hn => ?_
  refine (reads_directives h.directives (hr.mono (by decide))).last fun directives hds => ?_
  rw [hn, hdesc, hds]
  rfl

/-! ## What a type holds -/

theorem tokens_blockPieces (members : List (Option String × List Piece)) :
    tokens (blockPieces members) = if members = [] then [] else
      .punctuator .openBrace :: (members.flatMap (fun m =>
        tokens (memberDescription m.1) ++ tokens m.2) ++ [.punctuator .closeBrace]) := by
  unfold blockPieces
  split
  · rfl
  · simp [tokens_flatMap]

/-- A block of members is read if each member is, and if no block follows an empty one. -/
theorem reads_block {γ : Type} {item : Grammar α} {as : List α} {g : α → γ}
    (member : α → Option String × List Piece) (name : α → String) (tail : α → List Token)
    (hname : ∀ a ∈ as, tokens (member a).2 = .name (name a) :: tail a)
    (hitem : ∀ a ∈ as, ∀ u : List Token, Avoids memberMarks u.head? →
      Reads item (tokens (memberDescription (member a).1) ++ tokens (member a).2) u
        fun b => g b = g a)
    (hr : rest.head? ≠ some (.punctuator .openBrace)) :
    Reads (block item) (tokens (blockPieces (as.map member))) rest
      fun bs => bs.map g = as.map g := by
  rw [tokens_blockPieces, List.flatMap_map]
  unfold block
  cases as with
  | nil =>
    refine (reads_skip?_miss hr).bind (u := []) fun found hf => ?_
    rw [hf]
    exact .pure rfl
  | cons a as =>
    have hbegins : ∀ x ∈ a :: as, Begins (· != some (.punctuator .closeBrace))
        (Avoids memberMarks) (tokens (memberDescription (member x).1) ++ tokens (member x).2) := by
      intro x hx
      rw [hname x hx]
      exact begins_memberDescription _ _ _
    rw [if_neg (by simp)]
    refine (reads_skip?_hit (.punctuator .openBrace)).bind (u := _ ++ _) fun found hf => ?_
    rw [hf]
    exact reads_someBefore hbegins hitem (avoids_punctuator (by decide))

theorem reads_fieldBlock {fs : List Field} (h : ∀ f ∈ fs, f.Legible)
    (hr : rest.head? ≠ some (.punctuator .openBrace)) :
    Reads (block field) (tokens (blockPieces (fs.map fun f => (f.description, f.pieces)))) rest
      fun gs => gs.map Field.canonical = fs.map Field.canonical :=
  reads_block _ Field.name _ (fun _ _ => rfl) (fun f hf _ hu => reads_field (h f hf) hu) hr

theorem reads_enumValueBlock {vs : List EnumValue} (h : ∀ v ∈ vs, v.Legible)
    (hr : rest.head? ≠ some (.punctuator .openBrace)) :
    Reads (block enumValue) (tokens (blockPieces (vs.map fun v => (v.description, v.pieces)))) rest
      fun ws => ws.map EnumValue.canonical = vs.map EnumValue.canonical :=
  reads_block _ EnumValue.name _ (fun _ _ => rfl) (fun v hv _ hu => reads_enumValue (h v hv) hu) hr

theorem reads_inputFieldBlock {vs : List InputValue} (h : ∀ v ∈ vs, v.Legible)
    (hr : rest.head? ≠ some (.punctuator .openBrace)) :
    Reads (block inputValue) (tokens (blockPieces (vs.map fun v => (v.description, v.pieces)))) rest
      fun ws => ws.map InputValue.canonical = vs.map InputValue.canonical := by
  refine reads_block _ InputValue.name _ (fun v _ => tokens_inputValue v) ?_ hr
  intro v hv u hu
  exact reads_inputValue (h v hv)
    (fun _ hrest => reads_memberDescription (h v hv).description hrest) hu

/-! ## Types -/

/-- Nothing goes on with a definition: there is no punctuator next, and no list of interfaces. -/
def EndsDefinition (next : Option Token) : Prop :=
  (∀ p, next ≠ some (.punctuator p)) ∧ next ≠ some (.name "implements")

theorem EndsDefinition.avoids {next : Option Token} (h : EndsDefinition next)
    (ps : List Punctuator) : Avoids ps next :=
  fun p _ => h.1 p

theorem next_blockPieces (members : List (Option String × List Piece)) (rest : List Token) :
    (tokens (blockPieces members) ++ rest).head? = some (.punctuator .openBrace) ∨
      (tokens (blockPieces members) ++ rest).head? = rest.head? := by
  cases members with
  | nil => exact .inr rfl
  | cons m members => exact .inl rfl

theorem avoids_blockPieces (members : List (Option String × List Piece))
    (hr : EndsDefinition rest.head?) :
    Avoids [.atSign, .openParen] (tokens (blockPieces members) ++ rest).head? := by
  obtain hn | hn := next_blockPieces members rest <;> rw [hn]
  · exact avoids_punctuator (by decide)
  · exact hr.avoids _

theorem next_trailing (ds : List Directive) (rest : List Token) :
    (tokens (Directive.trailing ds) ++ rest).head? = some (.punctuator .atSign) ∨
      (tokens (Directive.trailing ds) ++ rest).head? = rest.head? := by
  cases ds with
  | nil => exact .inr rfl
  | cons d ds => exact .inl rfl

theorem tokens_namePieces (p : Punctuator) (name : String) (names : List String) :
    tokens (namePieces p (name :: names)) =
      .name name :: names.flatMap fun name => [.punctuator p, .name name] := by
  rw [namePieces, List.map_cons, tokens_separated, List.flatMap_map]
  rfl

theorem reads_names {p : Punctuator} {names : List String} (hne : names ≠ [])
    (hr : rest.head? ≠ some (.punctuator p)) :
    Reads (separatedBy p name) (tokens (namePieces p names)) rest (· = names) := by
  obtain ⟨first, others, rfl⟩ := List.exists_cons_of_ne_nil hne
  rw [tokens_namePieces]
  exact reads_separatedBy (fun x _ u => reads_name x) hr

/-- The tokens of the interfaces that a type implements. -/
def implementsTokens (names : List String) : List Token :=
  if names = [] then [] else .name "implements" :: tokens (namePieces .ampersand names)

theorem reads_implemented {names : List String} (hr : rest.head? ≠ some (.name "implements"))
    (hp : rest.head? ≠ some (.punctuator .ampersand)) :
    Reads implemented (implementsTokens names) rest (· = names) := by
  unfold implemented implementsTokens
  split
  · rename_i hn
    refine (reads_skip?_miss hr).bind (u := []) fun found hf => ?_
    rw [hf, hn]
    exact .pure rfl
  · rename_i hn
    refine (reads_skip?_hit (.name "implements")).bind (u := tokens (namePieces .ampersand names))
      fun found hf => ?_
    rw [hf]
    exact reads_names hn hp

/-- What an object or interface holds: interfaces, applications and a block of fields. -/
theorem reads_objectBody {body : ObjectBody} {ds : List Directive} (make : ObjectBody → TypeBody)
    (hmake : ∀ a b : ObjectBody, a.canonical = b.canonical →
      (make a).canonical = (make b).canonical)
    (hf : ∀ f ∈ body.fields, f.Legible) (hds : ∀ d ∈ ds, d.Legible)
    (hr : EndsDefinition rest.head?) :
    Reads (do
        let implements ← implemented
        let applied ← directives
        return (applied, make { implements, fields := ← block field }))
      (implementsTokens body.implements ++ (tokens (Directive.trailing ds) ++
        tokens (blockPieces (body.fields.map fun f => (f.description, f.pieces))))) rest
      fun result => result.1 = ds ∧ result.2.canonical = (make body).canonical := by
  -- what comes after the interfaces is an application, the block or the next definition
  generalize hm : (body.fields.map fun f => (f.description, f.pieces)) = members
  have hnext : (tokens (Directive.trailing ds) ++ tokens (blockPieces members) ++ rest).head? ≠
        some (.name "implements") ∧
      (tokens (Directive.trailing ds) ++ tokens (blockPieces members) ++ rest).head? ≠
        some (.punctuator .ampersand) := by
    rw [List.append_assoc]
    obtain hn | hn := next_trailing ds (tokens (blockPieces members) ++ rest) <;> rw [hn]
    · exact ⟨nofun, nofun⟩
    · obtain hn | hn := next_blockPieces members rest <;> rw [hn]
      · exact ⟨nofun, nofun⟩
      · exact ⟨hr.2, hr.1 _⟩
  refine (reads_implemented hnext.1 hnext.2).bind fun implements hi => ?_
  refine (reads_directives hds (avoids_blockPieces members hr)).bind fun applied ha => ?_
  subst hm
  refine (reads_fieldBlock hf (hr.1 _)).last fun fields hfs => ⟨ha, ?_⟩
  refine hmake _ _ ?_
  rw [ObjectBody.canonical, ObjectBody.canonical, hi, hfs]

/-- The tokens of the members of a union. -/
def memberTokens (members : List String) : List Token :=
  if members = [] then [] else .punctuator .equals :: tokens (namePieces .pipe members)

theorem tokens_union (members : List String) :
    tokens (TypeBody.union members).pieces = memberTokens members := by
  rw [TypeBody.pieces, memberTokens]
  split <;> rfl

/-- What a union holds: applications and the names of its members. -/
theorem reads_unionBody {members : List String} {ds : List Directive}
    (hds : ∀ d ∈ ds, d.Legible) (hr : EndsDefinition rest.head?) :
    Reads (typeBody .union) (tokens (Directive.trailing ds) ++ memberTokens members) rest
      fun result => result.1 = ds ∧ result.2.canonical = (TypeBody.union members).canonical := by
  have hnext : Avoids [.atSign, .openParen] (memberTokens members ++ rest).head? := by
    rw [memberTokens]
    split
    · exact hr.avoids _
    · exact avoids_punctuator (by decide)
  refine (reads_directives hds hnext).bind fun applied ha => ?_
  rw [memberTokens]
  split
  · rename_i hm
    refine (reads_skip?_miss (hr.1 _)).bind (u := []) fun found hf => ?_
    rw [hf]
    refine Reads.last (P := (· = [])) (.pure rfl) fun names hn => ⟨ha, ?_⟩
    rw [hn, hm]
  · rename_i hm
    refine (reads_skip?_hit (.punctuator .equals)).bind (u := tokens (namePieces .pipe members))
      fun found hf => ?_
    rw [hf]
    refine (reads_names hm (hr.1 _)).last fun names hn => ⟨ha, ?_⟩
    rw [hn]

theorem reads_typeBody {body : TypeBody} (h : body.Legible) {ds : List Directive}
    (hds : ∀ d ∈ ds, d.Legible) (hr : EndsDefinition rest.head?) :
    Reads (typeBody body.kind) (implementsTokens body.implements ++
      (tokens (Directive.trailing ds) ++ tokens body.pieces)) rest
      fun result => result.1 = ds ∧ result.2.canonical = body.canonical := by
  cases body with
  | scalar =>
    refine (reads_directives hds (hr.avoids _)).bind (u := []) fun applied ha => ?_
    exact .pure ⟨ha, rfl⟩
  | object body =>
    exact reads_objectBody TypeBody.object
      (fun a b hab => congrArg TypeBody.object hab) h.fields hds hr
  | interface body =>
    exact reads_objectBody TypeBody.interface
      (fun a b hab => congrArg TypeBody.interface hab) h.fields hds hr
  | union members =>
    rw [tokens_union]
    exact reads_unionBody hds hr
  | enum values =>
    refine (reads_directives hds (avoids_blockPieces _ hr)).bind fun applied ha => ?_
    refine (reads_enumValueBlock h.enumValues (hr.1 _)).last fun values hvs => ⟨ha, ?_⟩
    exact congrArg TypeBody.enum hvs
  | inputObject fields =>
    refine (reads_directives hds (avoids_blockPieces _ hr)).bind fun applied ha => ?_
    refine (reads_inputFieldBlock h.inputFields (hr.1 _)).last fun fields hfs => ⟨ha, ?_⟩
    exact congrArg TypeBody.inputObject hfs

/-! ## Definitions -/

theorem kindOfKeyword?_keyword (kind : TypeKind) : kindOfKeyword? kind.keyword = some kind := by
  cases kind <;> rfl

theorem ofKeyword?_keyword (operation : OperationType) :
    OperationType.ofKeyword? operation.keyword = some operation := by
  cases operation <;> rfl

theorem reads_typeDefinition {d : TypeDefinition} (h : d.Legible) (description : Option String)
    (isExtension : Bool) (hr : EndsDefinition rest.head?) :
    Reads (typeDefinition description isExtension d.kind)
      (.name d.kind.keyword :: .name d.name :: (implementsTokens d.implements ++
        (tokens (Directive.trailing d.directives) ++ tokens d.body.pieces))) rest
      fun x => x.canonical = { d with description, isExtension }.canonical := by
  unfold typeDefinition
  refine Reads.bind (u := .name d.kind.keyword :: _) reads_here fun location _ => ?_
  refine (reads_advance (.name d.kind.keyword)).bind (u := .name d.name :: _) fun _ _ => ?_
  refine (reads_name d.name).bind (u := _ ++ _) fun typeName hn => ?_
  refine (reads_typeBody h.body h.directives hr).last fun result hresult => ?_
  obtain ⟨directives, body⟩ := result
  obtain ⟨hds, hb⟩ := hresult
  dsimp only at hds hb
  rw [TypeDefinition.canonical, TypeDefinition.canonical, hn, hds, hb]

theorem reads_rootOperation (r : RootOperation) :
    Reads rootOperation [.name r.operation.keyword, .punctuator .colon, .name r.typeName] rest
      (· = r) := by
  unfold rootOperation
  refine .next ?_
  rw [List.cons_append, List.head?_cons]
  dsimp only
  rw [ofKeyword?_keyword]
  refine (reads_advance (.name r.operation.keyword)).bind (u := .punctuator .colon :: _)
    fun _ _ => ?_
  refine (reads_expect (.punctuator .colon)).bind (u := [.name r.typeName]) fun _ _ => ?_
  refine (reads_name r.typeName).last fun typeName hn => ?_
  rw [hn]

/-- The tokens of the block of a schema definition. -/
def rootTokens (roots : List RootOperation) : List Token :=
  if roots = [] then [] else
    .punctuator .openBrace :: (roots.flatMap (fun r =>
      [.name r.operation.keyword, .punctuator .colon, .name r.typeName]) ++
      [.punctuator .closeBrace])

theorem tokens_rootPieces (roots : List RootOperation) :
    tokens (blockPieces (roots.map fun r =>
      (none, [.name r.operation.keyword, .punctuator .colon, .space, .name r.typeName]))) =
      rootTokens roots := by
  rw [tokens_blockPieces, List.flatMap_map, rootTokens]
  simp only [List.map_eq_nil_iff]
  rfl

/-- The root operations are read before a rule makes something of them. Only an extension has
none. -/
theorem reads_roots {β : Type} {roots : List RootOperation} {isExtension : Bool}
    {f : List RootOperation → β} {Q : β → Prop} (hb : isExtension = true ∨ roots ≠ [])
    (hr : rest.head? ≠ some (.punctuator .openBrace)) (hq : Q (f roots)) :
    Reads (skip? (.punctuator .openBrace) >>= fun hasBlock =>
      if hasBlock then manyBefore .closeBrace rootOperation >>= fun roots => pure (f roots)
      else if isExtension then pure [] >>= fun roots => pure (f roots)
      else refuse >>= fun roots => pure (f roots)) (rootTokens roots) rest Q := by
  by_cases hroots : roots = []
  · rw [rootTokens, if_pos hroots]
    have hextension : isExtension = true := hb.resolve_right (not_not_intro hroots)
    refine (reads_skip?_miss hr).bind (u := []) fun found hf => ?_
    rw [hf, if_neg Bool.false_ne_true, if_pos hextension, pure_bind, ← hroots]
    exact .pure hq
  · rw [rootTokens, if_neg hroots]
    have hbegins : ∀ r ∈ roots, Begins (· != some (.punctuator .closeBrace)) (fun _ => True)
        [.name r.operation.keyword, .punctuator .colon, .name r.typeName] :=
      fun r _ => ⟨_, _, rfl, rfl, trivial⟩
    refine (reads_skip?_hit (.punctuator .openBrace)).bind (u := _ ++ _) fun found hf => ?_
    rw [hf, if_pos rfl]
    refine (reads_manyBefore_eq hbegins fun r _ u => reads_rootOperation r).last
      fun read hread => ?_
    rw [hread]
    exact hq

theorem reads_schemaDefinition {d : SchemaDefinition} (h : d.Legible)
    (description : Option String) (hb : d.isExtension = true ∨ d.rootOperations ≠ [])
    (hr : EndsDefinition rest.head?) :
    Reads (schemaDefinition description d.isExtension)
      (.name "schema" :: (tokens (Directive.trailing d.directives) ++ rootTokens d.rootOperations))
      rest fun x => x.canonical = { d with description }.canonical := by
  have hnext : Avoids [.atSign, .openParen] (rootTokens d.rootOperations ++ rest).head? := by
    rw [rootTokens]
    split
    · exact hr.avoids _
    · exact avoids_punctuator (by decide)
  unfold schemaDefinition
  refine Reads.bind (u := .name "schema" :: _) reads_here fun location _ => ?_
  refine (reads_advance (.name "schema")).bind (u := _ ++ _) fun _ _ => ?_
  refine (reads_directives h.directives hnext).bind fun directives hds => ?_
  refine reads_roots hb (hr.1 _) ?_
  rw [SchemaDefinition.canonical, SchemaDefinition.canonical, hds, h.inOrder]

theorem reads_directiveLocation (location : DirectiveLocation) :
    Reads directiveLocation [.name location.text] rest (· = location) := by
  unfold directiveLocation
  refine (reads_name location.text).bind (u := []) fun text ht => ?_
  rw [ht, DirectiveLocation.ofText?_text]
  exact .pure rfl

theorem reads_directiveDefinition {d : DirectiveDefinition} (h : d.Legible)
    (hr : EndsDefinition rest.head?) :
    Reads (directiveDefinition d.description)
      (.name "directive" :: .punctuator .atSign :: .name d.name ::
        (tokens (InputValue.listPieces d.arguments) ++
          ((if d.isRepeatable then [Token.name "repeatable"] else []) ++
            .name "on" :: tokens (namePieces .pipe (d.locations.map DirectiveLocation.text)))))
      rest fun x => x.canonical = d.canonical := by
  have hnext : ((if d.isRepeatable then [Token.name "repeatable"] else []) ++
      .name "on" :: tokens (namePieces .pipe (d.locations.map DirectiveLocation.text)) ++
      rest).head? ≠ some (.punctuator .openParen) := by
    cases d.isRepeatable <;> exact nofun
  have hrepeatable : ∀ u : List Token, u.head? ≠ some (.name "repeatable") →
      Reads (skip? (.name "repeatable"))
        (if d.isRepeatable then [Token.name "repeatable"] else []) u (· = d.isRepeatable) := by
    intro u hu
    cases d.isRepeatable with
    | false => exact reads_skip?_miss hu
    | true => exact reads_skip?_hit (.name "repeatable")
  have hlocations : Reads (separatedBy .pipe directiveLocation)
      (tokens (namePieces .pipe (d.locations.map DirectiveLocation.text))) rest
      (· = d.locations) := by
    obtain ⟨first, others, hl⟩ := List.exists_cons_of_ne_nil h.locations
    rw [hl, List.map_cons, tokens_namePieces, List.flatMap_map]
    exact reads_separatedBy (fun x _ u => reads_directiveLocation x) (hr.1 _)
  unfold directiveDefinition
  refine Reads.bind (u := .name "directive" :: _) reads_here fun location _ => ?_
  refine (reads_advance (.name "directive")).bind (u := .punctuator .atSign :: _) fun _ _ => ?_
  refine (reads_expect (.punctuator .atSign)).bind (u := .name d.name :: _) fun _ _ => ?_
  refine (reads_name d.name).bind (u := _ ++ _) fun directiveName hn => ?_
  refine (reads_argumentDefinitions h.arguments hnext).bind fun arguments ha => ?_
  refine (hrepeatable _ (by simp)).bind fun isRepeatable hi => ?_
  refine (reads_expect (.name "on")).bind (u := tokens _) fun _ _ => ?_
  refine hlocations.last fun locations hl => ?_
  rw [DirectiveDefinition.canonical, DirectiveDefinition.canonical, hn, ha, hi, hl]

/-! ## Failures -/

/-- A rule fails on tokens. -/
def Fails (rule : Grammar α) (ts : List Token) : Prop :=
  ∀ ls : List Lexeme, ls.map (·.token) = ts → ∃ e, rule ls = .error e

theorem Fails.bind {β : Type} {rule : Grammar α} {f : α → Grammar β} {ts : List Token}
    (h : Fails rule ts) : Fails (rule >>= f) ts := by
  intro ls hls
  obtain ⟨e, he⟩ := h ls hls
  refine ⟨e, ?_⟩
  rw [bind_apply, he]
  rfl

/-- A rule fails when what comes after a rule that reads fails. -/
theorem Reads.fails {β : Type} {rule : Grammar α} {f : α → Grammar β} {P : α → Prop}
    {t : List Token} (h : Reads rule t rest P) (hf : ∀ a, P a → Fails (f a) rest) :
    Fails (rule >>= f) (t ++ rest) := by
  intro ls hls
  obtain ⟨a, ls', ha, hl, hp⟩ := h ls hls
  obtain ⟨e, he⟩ := hf a hp ls' hl
  refine ⟨e, ?_⟩
  rw [bind_apply, ha]
  exact he

theorem Fails.next {f : Option Token → Grammar α} {ts : List Token} (h : Fails (f ts.head?) ts) :
    Fails (next? >>= f) ts := by
  refine Reads.fails (t := []) reads_next? ?_
  rintro t rfl
  exact h

theorem fails_refuse (ts : List Token) : Fails (refuse : Grammar α) ts := by
  rintro ls rfl
  cases ls with
  | nil => exact ⟨_, rfl⟩
  | cons l ls => exact ⟨_, rfl⟩

/-- A schema definition that is no extension is not read without a block. -/
theorem fails_schemaDefinition {ds : List Directive} (h : ∀ d ∈ ds, d.Legible)
    (description : Option String) (hr : EndsDefinition rest.head?) :
    Fails (schemaDefinition description false)
      (.name "schema" :: (tokens (Directive.trailing ds) ++ rest)) := by
  unfold schemaDefinition
  refine Reads.fails (t := []) reads_here fun location _ => ?_
  refine (reads_advance (.name "schema")).fails fun _ _ => ?_
  refine (reads_directives h (hr.avoids _)).fails fun directives _ => ?_
  refine Reads.fails (t := []) (reads_skip?_miss (hr.1 _)) fun found hf => ?_
  rw [hf]
  exact (fails_refuse _).bind

/-! ## A whole document -/

/-- Whether a definition is read back: all but schema definitions with an empty block, unless they
are extensions. -/
def ReadsBack : Definition → Prop
  | .schema d => d.isExtension = true ∨ d.rootOperations ≠ []
  | .type _ | .directive _ => True

theorem reads_extensionPieces (isExtension : Bool)
    (hr : rest.head? ≠ some (.name "extend")) :
    Reads (skip? (.name "extend")) (tokens (extensionPieces isExtension)) rest
      (· = isExtension) := by
  cases isExtension with
  | false => exact reads_skip?_miss hr
  | true => exact reads_skip?_hit (.name "extend")

theorem tokens_schemaDefinition (d : SchemaDefinition) :
    tokens d.pieces = tokens (definitionDescription d.description) ++
      (tokens (extensionPieces d.isExtension) ++ .name "schema" ::
        (tokens (Directive.trailing d.directives) ++ rootTokens d.rootOperations)) := by
  rw [← tokens_rootPieces]
  simp [SchemaDefinition.pieces]

theorem tokens_typeDefinition (d : TypeDefinition) :
    tokens d.pieces = tokens (definitionDescription d.description) ++
      (tokens (extensionPieces d.isExtension) ++ .name d.kind.keyword :: .name d.name ::
        (implementsTokens d.implements ++
          (tokens (Directive.trailing d.directives) ++ tokens d.body.pieces))) := by
  unfold TypeDefinition.pieces implementsTokens
  split <;> simp

theorem tokens_directiveDefinition (d : DirectiveDefinition) :
    tokens d.pieces = tokens (definitionDescription d.description) ++
      .name "directive" :: .punctuator .atSign :: .name d.name ::
        (tokens (InputValue.listPieces d.arguments) ++
          ((if d.isRepeatable then [Token.name "repeatable"] else []) ++
            .name "on" :: tokens (namePieces .pipe (d.locations.map DirectiveLocation.text)))) := by
  unfold DirectiveDefinition.pieces
  cases d.isRepeatable <;> simp

theorem head?_extensionPieces (isExtension : Bool) (word : String) (ts rest : List Token) :
    ∃ s, (tokens (extensionPieces isExtension) ++ .name word :: ts ++ rest).head? =
      some (.name s) := by
  cases isExtension with
  | false => exact ⟨word, rfl⟩
  | true => exact ⟨"extend", rfl⟩

theorem reads_definition {d : Definition} (h : d.Legible) (hb : ReadsBack d)
    (hr : EndsDefinition rest.head?) :
    Reads definition (tokens d.pieces) rest fun x => x.canonical = d.canonical := by
  unfold definition
  cases d with
  | schema d =>
    rw [Definition.pieces, tokens_schemaDefinition]
    refine (reads_definitionDescription h.description (head?_extensionPieces _ _ _ _)).bind
      fun description hd => ?_
    refine (reads_extensionPieces d.isExtension (by simp)).bind fun isExtension hi => ?_
    refine .next ?_
    rw [hi]
    refine (reads_schemaDefinition h description hb hr).last fun x hx => ?_
    rw [hd] at hx
    exact congrArg Definition.schema hx
  | type d =>
    have hkeyword : d.kind.keyword ≠ "extend" ∧ d.kind.keyword ≠ "schema" ∧
        d.kind.keyword ≠ "directive" := by
      cases d.kind <;> decide
    obtain ⟨hextend, hschema, hdirective⟩ := hkeyword
    rw [Definition.pieces, tokens_typeDefinition]
    refine (reads_definitionDescription h.description (head?_extensionPieces _ _ _ _)).bind
      fun description hd => ?_
    refine (reads_extensionPieces d.isExtension (by simpa using hextend)).bind
      fun isExtension hi => ?_
    refine .next ?_
    rw [List.cons_append, List.head?_cons]
    dsimp only
    rw [if_neg hschema, if_neg (by simp [hdirective]), kindOfKeyword?_keyword]
    refine (reads_typeDefinition h description isExtension hr).last fun x hx => ?_
    rw [hd, hi] at hx
    exact congrArg Definition.type hx
  | directive d =>
    rw [Definition.pieces, tokens_directiveDefinition]
    refine (reads_definitionDescription h.description ⟨_, rfl⟩).bind fun description hd => ?_
    refine (reads_skip?_miss (by simp)).bind (u := .name "directive" :: _) fun isExtension hi => ?_
    refine .next ?_
    rw [hi, hd]
    refine (reads_directiveDefinition h hr).last fun x hx => ?_
    exact congrArg Definition.directive hx

/-- A schema definition that is not read back fails to be read. -/
theorem fails_definition {d : Definition} (h : d.Legible) (hb : ¬ReadsBack d)
    (hr : EndsDefinition rest.head?) : Fails definition (tokens d.pieces ++ rest) := by
  cases d with
  | schema d =>
    obtain ⟨hextension, hroots⟩ := not_or.mp hb
    have hroots : d.rootOperations = [] := not_not.mp hroots
    have hextension : d.isExtension = false := by simpa using hextension
    have hts : tokens (Definition.schema d).pieces ++ rest =
        tokens (definitionDescription d.description) ++
          .name "schema" :: (tokens (Directive.trailing d.directives) ++ rest) := by
      rw [Definition.pieces, tokens_schemaDefinition, hextension, hroots]
      simp [extensionPieces, rootTokens]
    unfold definition
    rw [hts]
    refine (reads_definitionDescription h.description ⟨_, rfl⟩).fails fun description _ => ?_
    refine Reads.fails (t := []) (reads_skip?_miss (by simp)) fun isExtension hi => ?_
    refine .next ?_
    rw [hi]
    exact (fails_schemaDefinition h.directives description hr).bind
  | type d => exact (hb trivial).elim
  | directive d => exact (hb trivial).elim

/-- A definition begins where another has ended. -/
theorem begins_definition (d : Definition) :
    Begins Option.isSome EndsDefinition (tokens d.pieces) := by
  have hword : ∀ (description : Option String) (isExtension : Bool) (word : String)
      (ts : List Token), word ≠ "implements" → Begins Option.isSome EndsDefinition
        (tokens (definitionDescription description) ++
          (tokens (extensionPieces isExtension) ++ .name word :: ts)) := by
    intro description isExtension word ts hw
    cases description with
    | none =>
      cases isExtension with
      | false => exact ⟨.name word, ts, rfl, rfl, nofun, by simpa using hw⟩
      | true => exact ⟨.name "extend", _, rfl, rfl, nofun, by simp⟩
    | some s =>
      obtain ⟨raw, hp | hp⟩ := descriptionPiece_cases [] s
      · rw [definitionDescription, hp]
        exact ⟨.block raw, _, rfl, rfl, nofun, nofun⟩
      · rw [definitionDescription, hp]
        exact ⟨.string raw, _, rfl, rfl, nofun, nofun⟩
  cases d with
  | schema d =>
    rw [Definition.pieces, tokens_schemaDefinition]
    exact hword _ _ _ _ (by decide)
  | type d =>
    have hkeyword : d.kind.keyword ≠ "implements" := by
      cases d.kind <;> decide
    rw [Definition.pieces, tokens_typeDefinition]
    exact hword _ _ _ _ hkeyword
  | directive d =>
    rw [Definition.pieces, tokens_directiveDefinition]
    exact hword _ false _ _ (by decide)

theorem endsDefinition_none : EndsDefinition none :=
  ⟨nofun, nofun⟩

/-- What comes after a definition is another one or the end. -/
theorem endsDefinition_flatMap (ds : List Definition) :
    EndsDefinition (ds.flatMap fun d => tokens d.pieces).head? := by
  cases ds with
  | nil => exact endsDefinition_none
  | cons d ds =>
    obtain ⟨t, tail, ht, -, he⟩ := begins_definition d
    rw [List.flatMap_cons, ht]
    exact he

theorem tokens_document (d : Document) :
    tokens d.pieces = d.definitions.flatMap fun x => tokens x.pieces := by
  rw [Document.pieces, tokens_separated_gaps rfl, List.flatMap_map]

/-- **A legible document is read from the tokens it is written as**, if all its definitions are read
back. -/
theorem reads_document {d : Document} (h : d.Legible) (hb : ∀ x ∈ d.definitions, ReadsBack x) :
    Reads document (tokens d.pieces) [] fun e => e.canonical = d.canonical := by
  obtain ⟨first, others, hd⟩ := List.exists_cons_of_ne_nil h.ne_nil
  have hl := h.definitions
  rw [hd] at hl hb
  obtain ⟨hlfirst, hlothers⟩ := List.forall_mem_cons.mp hl
  obtain ⟨hbfirst, hbothers⟩ := List.forall_mem_cons.mp hb
  have hothers : Reads (many Option.isSome definition)
      (others.flatMap fun x => tokens x.pieces) []
      fun xs => xs.map Definition.canonical = others.map Definition.canonical :=
    reads_many (fun x _ => begins_definition x)
      (fun x hx u hu => reads_definition (hlothers x hx) (hbothers x hx) hu)
      endsDefinition_none rfl
  have hnext :
      EndsDefinition ((others.flatMap fun x : Definition => tokens x.pieces) ++ []).head? := by
    rw [List.append_nil]
    exact endsDefinition_flatMap others
  unfold document
  rw [tokens_document, hd, List.flatMap_cons]
  refine (reads_definition hlfirst hbfirst hnext).bind fun x hx => hothers.last fun xs hxs => ?_
  rw [Document.canonical, Document.canonical, hd, List.map_cons, List.map_cons, hx, hxs]

/-- Definitions fail to be read from the first that is not read back. -/
theorem fails_manyWithin {ds : List Definition} {allowance : List Lexeme}
    (h : ∀ d ∈ ds, d.Legible) (hb : ∃ d ∈ ds, ¬ReadsBack d) (hl : ds.length ≤ allowance.length) :
    Fails (manyWithin Option.isSome definition allowance)
      (ds.flatMap fun d => tokens d.pieces) := by
  induction ds generalizing allowance with
  | nil =>
    obtain ⟨d, hd, -⟩ := hb
    cases hd
  | cons d ds ih =>
    obtain ⟨hd, hds⟩ := List.forall_mem_cons.mp h
    cases allowance with
    | nil => simp at hl
    | cons _ allowance =>
      have hl : ds.length ≤ allowance.length := by simpa using hl
      have hstarts :
          (tokens d.pieces ++ ds.flatMap fun d => tokens d.pieces).head?.isSome = true := by
        obtain ⟨t, tail, ht, -, -⟩ := begins_definition d
        rw [ht]
        rfl
      unfold manyWithin
      rw [List.flatMap_cons]
      refine .next ?_
      rw [hstarts, if_pos rfl]
      -- either this definition fails, or it is read and the failure lies further on
      by_cases hback : ReadsBack d
      · refine (reads_definition hd hback (endsDefinition_flatMap ds)).fails fun _ _ => ?_
        refine (ih hds ?_ hl).bind
        obtain ⟨bad, hmem, hbad⟩ := hb
        obtain rfl | hmem := List.mem_cons.mp hmem
        · exact absurd hback hbad
        · exact ⟨bad, hmem, hbad⟩
      · exact (fails_definition hd hback (endsDefinition_flatMap ds)).bind

/-- A legible document is not read from the tokens it is written as if some definition is not read
back. -/
theorem fails_document {d : Document} (h : d.Legible) (hb : ∃ x ∈ d.definitions, ¬ReadsBack x) :
    Fails document (tokens d.pieces) := by
  obtain ⟨first, others, hd⟩ := List.exists_cons_of_ne_nil h.ne_nil
  have hl := h.definitions
  rw [hd] at hl hb
  obtain ⟨hlfirst, hlothers⟩ := List.forall_mem_cons.mp hl
  unfold document
  rw [tokens_document, hd, List.flatMap_cons]
  by_cases hback : ReadsBack first
  · refine (reads_definition hlfirst hback (endsDefinition_flatMap others)).fails fun _ _ => ?_
    refine Fails.bind fun ls hls => ?_
    refine fails_manyWithin hlothers ?_ ?_ ls hls
    · obtain ⟨bad, hmem, hbad⟩ := hb
      obtain rfl | hmem := List.mem_cons.mp hmem
      · exact absurd hback hbad
      · exact ⟨bad, hmem, hbad⟩
    · have hlen := congrArg List.length hls
      have := length_le_flatMap fun (x : Definition) (_ : x ∈ others) => begins_definition x
      rw [List.length_map] at hlen
      omega
  · exact (fails_definition hlfirst hback (endsDefinition_flatMap others)).bind

end Grammar

end Federation
