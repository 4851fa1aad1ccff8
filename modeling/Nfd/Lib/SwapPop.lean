import Mathlib.Data.List.Perm.Basic

/-!
# Removal by swap and pop

A vector whose order does not matter removes the element at position `i` by copying its
last element over position `i` and dropping the last position.  What remains is a
permutation of the vector with position `i` erased: the same elements, one fewer, and every
symmetric pairwise property of the vector still holds.
-/

set_option autoImplicit false

namespace SwapPop

variable {α : Type}

theorem set_getLastD_dropLast_perm (l : List α) (d : α) {i : Nat} (within : i < l.length) :
    (l.set i (l.getLastD d)).dropLast.Perm (l.eraseIdx i) := by
  rcases List.eq_nil_or_concat l with rfl | ⟨init, last, rfl⟩
  · simp at within
  · simp only [List.concat_eq_append, List.getLastD_eq_getLast?, List.getLast?_append,
      List.getLast?_singleton, Option.some_or, Option.getD_some, List.length_append,
      List.length_singleton] at within ⊢
    rcases Nat.lt_or_ge i init.length with inside | isLast
    · -- the last element moves into the gap at `i`
      rw [List.set_append_left _ _ inside, List.dropLast_concat,
        List.eraseIdx_append_of_lt_length inside, List.set_eq_take_append_cons_drop, if_pos inside,
        List.eraseIdx_eq_take_drop_succ, List.append_assoc]
      exact (List.perm_append_singleton last _).symm.append_left _
    · have isLength : i = init.length := by omega
      subst isLength
      rw [List.set_append_right _ _ (Nat.le_refl _), Nat.sub_self, List.set_cons_zero,
        List.dropLast_concat, List.eraseIdx_append_of_length_le (Nat.le_refl _), Nat.sub_self,
        List.eraseIdx_cons_zero, List.append_nil]

/-- Swap and pop at the first position of `a` erases one `a`, up to order. -/
theorem perm_erase [BEq α] [LawfulBEq α] {l : List α} {a : α} {i : Nat}
    (found : l.idxOf? a = some i) (d : α) :
    (l.set i (l.getLastD d)).dropLast.Perm (l.erase a) := by
  obtain ⟨within, -, -⟩ := List.idxOf?_eq_some_iff.mp found
  rw [List.erase_eq_eraseIdx, found]
  exact set_getLastD_dropLast_perm l d within

end SwapPop
