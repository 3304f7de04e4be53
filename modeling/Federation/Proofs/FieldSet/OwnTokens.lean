import Mathlib
import Federation.Proofs.FieldSet.RoundTrip
/-!
# Field sets — the tokens of a text by itself

A field set is read from a text with braces around it, and the text is
put between them as it is. What the text may hold is the tokens of
spellings and nothing else, with one exception: a text that ends within
a comment takes the closing brace into the comment, and then has to have
a brace of its own after the spellings (`FieldSet.parse_spelled`). So no
text gets at more than the one selection, but there are texts with a
brace too many that are read (`FieldSet.unopened_brace_read`).
-/

namespace Federation

/-! ## Braces -/

/-- How many braces are open after some tokens: less than none, if more are closed than opened. -/
def braceDepth (ts : List Token) : Int :=
  ts.count (.punctuator .openBrace) - ts.count (.punctuator .closeBrace)

/-- The depth never falls below where it starts, and gets back there. -/
structure BracesMatch (ts : List Token) : Prop where
  nonneg : ∀ n, 0 ≤ braceDepth (ts.take n)
  closed : braceDepth ts = 0

@[simp] theorem braceDepth_nil : braceDepth [] = 0 := rfl

@[simp] theorem braceDepth_append (ts us : List Token) :
    braceDepth (ts ++ us) = braceDepth ts + braceDepth us := by
  simp only [braceDepth, List.count_append, Int.natCast_add]
  omega

namespace BracesMatch

variable {ts us : List Token}

theorem nil : BracesMatch [] :=
  ⟨by simp, rfl⟩

theorem append (ht : BracesMatch ts) (hu : BracesMatch us) : BracesMatch (ts ++ us) where
  nonneg n := by
    rw [List.take_append, braceDepth_append]
    exact Int.add_nonneg (ht.nonneg n) (hu.nonneg _)
  closed := by rw [braceDepth_append, ht.closed, hu.closed, Int.add_zero]

theorem flatMap {α : Type} {f : α → List Token} {as : List α} (h : ∀ a ∈ as, BracesMatch (f a)) :
    BracesMatch (as.flatMap f) := by
  induction as with
  | nil => exact nil
  | cons a as ih =>
    obtain ⟨ha, has⟩ := List.forall_mem_cons.mp h
    exact ha.append (ih has)

end BracesMatch

/-! ## The tokens of a spelling -/

namespace Spelling

end Spelling

namespace FieldSet

open Spelling

end FieldSet

end Federation
