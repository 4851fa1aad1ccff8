import Mathlib.Data.List.Basic

/-!
# Cutting a list into pieces

A list cut into a first piece of `first` elements and then pieces of `size` elements each,
the last one possibly shorter.  `start i` is where piece `i` begins; the pieces concatenate
back to the list once `start n` has passed its end, and the count `1 + ⌈(total - first) /
size⌉`, written with a division and a remainder, is the first `n` for which it has.
-/

set_option autoImplicit false

namespace Slicing

variable {α : Type}

/-- Where piece `i` begins. -/
def start (first size : Nat) : Nat → Nat
  | 0 => 0
  | i + 1 => first + i * size

/-- Piece `i` of a list. -/
def piece (first size : Nat) (l : List α) (i : Nat) : List α :=
  (l.take (start first size (i + 1))).drop (start first size i)

/-- The number of pieces that cover `total` elements: the first, and the rest by ceiling
division. -/
def count (first size total : Nat) : Nat :=
  1 + (total - first) / size + if (total - first) % size ≠ 0 then 1 else 0

section Start

variable (first size : Nat)

@[simp] theorem start_zero : start first size 0 = 0 := rfl

@[simp] theorem start_one : start first size 1 = first := by simp [start]

theorem start_succ_succ (i : Nat) :
    start first size (i + 2) = start first size (i + 1) + size := by
  simp only [start, Nat.add_mul, Nat.one_mul, Nat.add_assoc]

theorem start_le_succ (i : Nat) : start first size i ≤ start first size (i + 1) := by
  cases i with
  | zero => simp
  | succ i => rw [start_succ_succ]; omega

end Start

section Count

variable {first size total : Nat}

/-- The pieces counted reach the end of the list. -/
theorem le_start_count (positiveSize : 0 < size) (within : first ≤ total) :
    total ≤ start first size (count first size total) := by
  have split := Nat.div_add_mod (total - first) size
  unfold count
  split
  · rename_i remainder
    have : start first size (1 + (total - first) / size + 1) =
        first + ((total - first) / size + 1) * size := by
      simp only [start, Nat.add_comm 1]
    rw [this, Nat.add_mul, Nat.mul_comm]
    have := Nat.mod_lt (total - first) positiveSize
    omega
  · rename_i exact
    have : start first size (1 + (total - first) / size + 0) = first + (total - first) / size * size := by
      simp only [start, Nat.add_zero, Nat.add_comm 1]
    rw [this, Nat.mul_comm]
    omega

/-- Every piece counted starts inside the list. -/
theorem start_lt_of_lt_count (positiveSize : 0 < size) (nonempty : 0 < total) {i : Nat}
    (below : i < count first size total) : start first size i < total := by
  have split := Nat.div_add_mod (total - first) size
  cases i with
  | zero => simp; omega
  | succ i =>
      -- piece `i + 1` starts at `first + i * size`, and `i` is at most the rounded-up quotient
      -- less one
      simp only [start]
      have bound : i * size < total - first := by
        unfold count at below
        split at below
        · rename_i remainder
          have : i ≤ (total - first) / size := by omega
          have := Nat.mul_le_mul_right size this
          rw [Nat.mul_comm ((total - first) / size)] at this
          omega
        · rename_i exact
          have : i + 1 ≤ (total - first) / size := by omega
          have := Nat.mul_le_mul_right size this
          rw [Nat.add_mul, Nat.mul_comm ((total - first) / size)] at this
          omega
      omega

end Count

section Pieces

variable (first size : Nat) (l : List α)

theorem take_append_drop_take {a b : Nat} (le : a ≤ b) : l.take a ++ (l.take b).drop a = l.take b := by
  conv_rhs => rw [← List.take_append_drop a (l.take b)]
  rw [List.take_take, Nat.min_eq_left le]

/-- The first `n` pieces concatenate to the list up to `start n`. -/
theorem flatten_pieces (n : Nat) :
    ((List.range n).map (piece first size l)).flatten = l.take (start first size n) := by
  induction n with
  | zero => simp
  | succ n ih =>
      rw [List.range_succ, List.map_append, List.flatten_append, ih, List.map_singleton,
        List.flatten_singleton, piece, take_append_drop_take _ (start_le_succ first size n)]

theorem flatten_pieces_of_le {n : Nat} (covers : l.length ≤ start first size n) :
    ((List.range n).map (piece first size l)).flatten = l := by
  rw [flatten_pieces, List.take_of_length_le covers]

/-- A piece cut at positions clamped to the list's end is the same piece. -/
theorem drop_take_min (a b : Nat) :
    (l.take (min l.length a)).drop (min l.length b) = (l.take a).drop b := by
  have sameTake : l.take (min l.length a) = l.take a := by
    rcases Nat.le_total a l.length with le | ge
    · rw [Nat.min_eq_right le]
    · rw [Nat.min_eq_left ge, List.take_length, List.take_of_length_le ge]
  rw [sameTake]
  rcases Nat.le_total b l.length with le | ge
  · rw [Nat.min_eq_right le]
  · have short : (l.take a).length ≤ l.length := List.length_take_le' _ _
    rw [Nat.min_eq_left ge, List.drop_of_length_le short, List.drop_of_length_le (Nat.le_trans short ge)]

theorem length_piece_le (i : Nat) :
    (piece first size l i).length ≤ start first size (i + 1) - start first size i := by
  simp only [piece, List.length_drop, List.length_take]
  omega

end Pieces

/-- Changing the element at the end of a prefix. -/
theorem modify_append_cons (pre rest : List α) (a : α) (f : α → α) :
    (pre ++ a :: rest).modify pre.length f = pre ++ f a :: rest := by
  induction pre with
  | nil => simp
  | cons b pre ih => simp [ih]

end Slicing
