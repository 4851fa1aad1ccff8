import Mathlib.Data.Nat.Bitwise

/-!
# Sets of flags in a bit mask

A mask of flags, each a power of two, built by a loop that does `mask |= flag` as it meets
the elements of a list.  A bit is set at the end iff it was set at the start or the flag of
some element has it; the mask is zero iff no bit is set, and `mask & 2^k` is zero iff bit `k`
is clear.
-/

namespace BitFlags

theorem testBit_shiftLeft_one (k i : Nat) : (1 <<< k).testBit i = decide (k = i) := by
  rw [Nat.shiftLeft_eq, Nat.one_mul, Nat.testBit_two_pow]

/-- The turn of a loop that sets one of two flags when the element matches. -/
theorem ite_ite_or_eq (p q : Prop) [Decidable p] [Decidable q] (mask flag other : Nat) :
    (if p then (if q then mask ||| flag else mask ||| other) else mask) =
      mask ||| if p then (if q then flag else other) else 0 := by
  by_cases holds : p
  · by_cases first : q
    · rw [if_pos holds, if_pos first, if_pos holds, if_pos first]
    · rw [if_pos holds, if_neg first, if_pos holds, if_neg first]
  · rw [if_neg holds, if_neg holds, Nat.or_zero]

theorem testBit_foldl_or {α : Type} (flag : α → Nat) (l : List α) (init i : Nat) :
    (l.foldl (fun mask x => mask ||| flag x) init).testBit i =
      (init.testBit i || l.any fun x => (flag x).testBit i) := by
  induction l generalizing init with
  | nil => simp
  | cons x rest ih =>
    rw [List.foldl_cons, ih, Nat.testBit_or, List.any_cons, Bool.or_assoc]

theorem eq_zero_iff_testBit {mask : Nat} : mask = 0 ↔ ∀ i, mask.testBit i = false := by
  constructor
  · intro zero i
    rw [zero, Nat.zero_testBit]
  · intro clear
    apply Nat.eq_of_testBit_eq
    intro i
    rw [clear, Nat.zero_testBit]

theorem and_shiftLeft_one_eq_zero_iff {mask k : Nat} : mask &&& 1 <<< k = 0 ↔ mask.testBit k = false := by
  rw [Nat.shiftLeft_eq, Nat.one_mul, Nat.and_two_pow]
  cases mask.testBit k
  · simp
  · simp

end BitFlags
