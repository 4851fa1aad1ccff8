import Mathlib.Data.Option.Basic

/-!
# Descending search

A search that tries the indices `i, i - 1, …, 0` in turn and stops at the first hit
returns the hit at the largest index, with no hit above it; it returns nothing exactly
when no index up to `i` hits.  A longest-match lookup that probes from the longest
candidate down is an instance.
-/

set_option autoImplicit false

namespace DescendingSearch

variable {β : Type}

/-- Try `f i`, then `f (i - 1)`, …, `f 0`, and return the first `some`. -/
def firstDown (f : Nat → Option β) : Nat → Option β
  | 0 => f 0
  | i + 1 => (f (i + 1)).or (firstDown f i)

variable (f : Nat → Option β)

@[simp] theorem firstDown_zero : firstDown f 0 = f 0 := rfl

theorem firstDown_succ (i : Nat) : firstDown f (i + 1) = (f (i + 1)).or (firstDown f i) := rfl

theorem firstDown_eq_some_iff (i : Nat) (b : β) :
    firstDown f i = some b ↔ ∃ k ≤ i, f k = some b ∧ ∀ j, k < j → j ≤ i → f j = none := by
  induction i with
  | zero =>
      constructor
      · intro hit
        exact ⟨0, Nat.le.refl, hit, fun j above within => absurd within (by omega)⟩
      · rintro ⟨k, within, hit, -⟩
        rw [Nat.le_zero.mp within] at hit
        exact hit
  | succ i inductionHypothesis =>
      rw [firstDown_succ, Option.or_eq_some_iff, inductionHypothesis]
      constructor
      · rintro (top | ⟨topMiss, k, within, hit, above⟩)
        · exact ⟨i + 1, Nat.le.refl, top, fun j above within => absurd within (by omega)⟩
        · refine ⟨k, by omega, hit, fun j aboveK within => ?_⟩
          rcases Nat.lt_or_ge i j with isTop | below
          · rw [show j = i + 1 by omega]
            exact topMiss
          · exact above j aboveK below
      · rintro ⟨k, within, hit, above⟩
        rcases Nat.lt_or_ge i k with isTop | below
        · rw [show k = i + 1 by omega] at hit
          exact .inl hit
        · refine .inr ⟨above (i + 1) (by omega) Nat.le.refl, k, below, hit,
            fun j aboveK within => above j aboveK (by omega)⟩

theorem firstDown_eq_none_iff (i : Nat) : firstDown f i = none ↔ ∀ j ≤ i, f j = none := by
  induction i with
  | zero => simp
  | succ i inductionHypothesis =>
      rw [firstDown_succ, Option.or_eq_none_iff, inductionHypothesis]
      constructor
      · rintro ⟨top, below⟩ j within
        rcases Nat.lt_or_ge i j with isTop | isBelow
        · rw [show j = i + 1 by omega]
          exact top
        · exact below j isBelow
      · intro none
        exact ⟨none (i + 1) Nat.le.refl, fun j within => none j (by omega)⟩

end DescendingSearch
