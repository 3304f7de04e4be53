import Federation.Document.Grammar
/-!
# Document — what a rule has read

From the result of a rule and the lexemes that it has left, back to the
lexemes that it was given: a rule made of two rules ends when both do
(`bind_eq_ok`), and a rule that drops a token has found it at the head
(`skip?_eq_ok`, `expect_eq_ok`, `name_eq_ok`). What matters of a rule may
be its result alone (`Gives`).
-/

namespace Federation

namespace Grammar

variable {α β : Type} {ls rest : List Lexeme}

theorem bind_apply (rule : Grammar α) (f : α → Grammar β) (ls : List Lexeme) :
    (rule >>= f) ls = (rule ls).bind fun (a, rest) => f a rest := rfl

theorem bind_eq_ok {rule : Grammar α} {f : α → Grammar β} {b : β} :
    (rule >>= f) ls = .ok (b, rest) ↔
      ∃ a middle, rule ls = .ok (a, middle) ∧ f a middle = .ok (b, rest) := by
  constructor
  · intro h
    rw [bind_apply] at h
    cases hr : rule ls with
    | error e =>
      rw [hr] at h
      cases h
    | ok result =>
      rw [hr] at h
      exact ⟨result.1, result.2, rfl, h⟩
  · rintro ⟨a, middle, hr, h⟩
    rw [bind_apply, hr]
    exact h

theorem pure_eq_ok {a b : α} :
    (pure a : Grammar α) ls = .ok (b, rest) ↔ a = b ∧ ls = rest := by
  change Except.ok (a, ls) = Except.ok (b, rest) ↔ _
  rw [Except.ok.injEq, Prod.mk.injEq]

theorem not_refuse_eq_ok {a : α} : ¬refuse ls = .ok (a, rest) := by
  cases ls <;> nofun

/-- A rule that looks at the next token goes on with the same lexemes. -/
theorem next?_bind_apply (f : Option Token → Grammar β) (ls : List Lexeme) :
    (next? >>= f) ls = f (ls.map (·.token)).head? ls := by
  cases ls <;> rfl

theorem advance_eq_ok {u : Unit} {t : Token} (h : advance ls = .ok (u, rest))
    (hhead : (ls.map (·.token)).head? = some t) :
    ls.map (·.token) = t :: rest.map (·.token) := by
  cases ls with
  | nil => cases hhead
  | cons l ls =>
    cases h
    cases hhead
    rfl

/-- A token that was dropped stood at the head. -/
theorem skip?_eq_ok {t : Token} {found : Bool} (h : skip? t ls = .ok (found, rest)) :
    (found = true ∧ ls.map (·.token) = t :: rest.map (·.token)) ∨
      (found = false ∧ rest = ls) := by
  rw [skip?, next?_bind_apply] at h
  split at h
  · rename_i hhead
    obtain ⟨u, middle, hu, hend⟩ := bind_eq_ok.mp h
    obtain ⟨rfl, rfl⟩ := pure_eq_ok.mp hend
    exact .inl ⟨rfl, advance_eq_ok hu hhead⟩
  · obtain ⟨rfl, rfl⟩ := pure_eq_ok.mp h
    exact .inr ⟨rfl, rfl⟩

theorem expect_eq_ok {t : Token} {u : Unit} (h : expect t ls = .ok (u, rest)) :
    ls.map (·.token) = t :: rest.map (·.token) := by
  rw [expect, next?_bind_apply] at h
  split at h
  · rename_i hhead
    exact advance_eq_ok h hhead
  · exact absurd h not_refuse_eq_ok

theorem name_eq_ok {s : String} (h : name ls = .ok (s, rest)) :
    ls.map (·.token) = .name s :: rest.map (·.token) := by
  rw [name, next?_bind_apply] at h
  cases hhead : (ls.map (·.token)).head? with
  | none =>
    rw [hhead] at h
    exact absurd h not_refuse_eq_ok
  | some t =>
    rw [hhead] at h
    cases t with
    | name text =>
      obtain ⟨u, middle, hu, hend⟩ := bind_eq_ok.mp h
      obtain ⟨rfl, rfl⟩ := pure_eq_ok.mp hend
      exact advance_eq_ok hu hhead
    | _ => exact absurd h not_refuse_eq_ok

/-- Every result of a rule has a property, whatever the rule reads. -/
def Gives (rule : Grammar α) (P : α → Prop) : Prop :=
  ∀ ls a rest, rule ls = .ok (a, rest) → P a

theorem Gives.pure {P : α → Prop} {a : α} (h : P a) : Gives (pure a) P := by
  rintro ls b rest ⟨⟩
  exact h

/-- The result of rules one after the other is that of the last. -/
theorem Gives.bind {P : β → Prop} {rule : Grammar α} {f : α → Grammar β}
    (h : ∀ a, Gives (f a) P) : Gives (rule >>= f) P := by
  intro ls b rest hb
  obtain ⟨a, middle, -, ha⟩ := bind_eq_ok.mp hb
  exact h a middle b rest ha

/-- A repetition has read one item more, or was not to go on. -/
theorem manyWithin_cons_eq_ok {starts : Option Token → Bool} {item : Grammar α} {l : Lexeme}
    {allowance : List Lexeme} {as : List α}
    (h : manyWithin starts item (l :: allowance) ls = .ok (as, rest)) :
    (∃ a others middle, as = a :: others ∧ item ls = .ok (a, middle) ∧
      manyWithin starts item allowance middle = .ok (others, rest)) ∨
    (as = [] ∧ ls = rest ∧ starts (ls.map (·.token)).head? = false) := by
  rw [manyWithin, next?_bind_apply] at h
  split at h
  · obtain ⟨a, middle, ha, h⟩ := bind_eq_ok.mp h
    obtain ⟨others, rest', hothers, hend⟩ := bind_eq_ok.mp h
    obtain ⟨rfl, rfl⟩ := pure_eq_ok.mp hend
    exact .inl ⟨a, others, middle, rfl, ha, hothers⟩
  · rename_i hstop
    obtain ⟨rfl, rfl⟩ := pure_eq_ok.mp h
    exact .inr ⟨rfl, rfl, by simpa using hstop⟩

theorem many_eq {starts : Option Token → Bool} {item : Grammar α} :
    many starts item ls = manyWithin starts item ls ls := rfl

/-- An empty repetition reads nothing. -/
theorem manyWithin_eq_ok_nil {starts : Option Token → Bool} {item : Grammar α}
    {allowance : List Lexeme} (h : manyWithin starts item allowance ls = .ok ([], rest)) :
    rest = ls := by
  cases allowance with
  | nil => exact (pure_eq_ok.mp h).2.symm
  | cons l allowance =>
    obtain ⟨a, others, middle, hcons, -, -⟩ | ⟨-, rfl, -⟩ := manyWithin_cons_eq_ok h
    · cases hcons
    · rfl

end Grammar

end Federation
