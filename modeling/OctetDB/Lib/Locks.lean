import Mathlib

/-!
# Locks that are taken in order

Parties hold tokens and want at most one more. Tokens have a rank. If every party wants only tokens
of a lower rank than those it holds, no parties wait for each other in a circle, and if any token is
held, there is a party that holds one and does not wait.
-/

namespace OctetDB

variable {ι τ : Type} {holds wants : ι → τ → Prop} {rank : τ → Nat}

/-- The first party wants a token that the second one holds. -/
def WaitsFor (holds wants : ι → τ → Prop) (i j : ι) : Prop := ∃ x, wants i x ∧ holds j x

section Order

variable (ordered : ∀ i x y, holds i x → wants i y → rank y < rank x)
include ordered

theorem lt_of_waits {i j : ι} {y : τ} (waits : Relation.TransGen (WaitsFor holds wants) i j)
    (want : wants j y) : ∃ x, wants i x ∧ rank y < rank x := by
  induction waits using Relation.TransGen.head_induction_on with
  | single edge =>
    obtain ⟨x, wanted, held⟩ := edge
    exact ⟨x, wanted, ordered _ _ _ held want⟩
  | head edge _ ih =>
    obtain ⟨x, wanted, held⟩ := edge
    obtain ⟨z, next, less⟩ := ih
    exact ⟨x, wanted, less.trans (ordered _ _ _ held next)⟩

/-- No parties wait for each other in a circle, if a party wants one token at most. -/
theorem not_waits_self (single : ∀ i x y, wants i x → wants i y → x = y) (i : ι) :
    ¬ Relation.TransGen (WaitsFor holds wants) i i := by
  intro circle
  obtain ⟨j, edge, -⟩ := Relation.TransGen.head'_iff.mp circle
  obtain ⟨y, want, -⟩ := edge
  obtain ⟨x, wanted, less⟩ := lt_of_waits ordered circle want
  exact less.ne (congrArg rank (single _ _ _ want wanted))

/-- If any token is held, there is a party that holds one and wants none that is held. -/
theorem exists_free {i : ι} {x : τ} (held : holds i x) :
    ∃ j, (∃ y, holds j y) ∧ ∀ y k, wants j y → ¬ holds k y := by
  induction bound : rank x using Nat.strong_induction_on generalizing i x with
  | _ n ih =>
    by_cases free : ∀ y k, wants i y → ¬ holds k y
    · exact ⟨i, ⟨x, held⟩, free⟩
    · push Not at free
      obtain ⟨y, k, want, taken⟩ := free
      exact ih _ (bound ▸ ordered _ _ _ held want) taken rfl

end Order

end OctetDB
