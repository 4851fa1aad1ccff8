import Mathlib.Data.List.TakeDrop
import Mathlib.Data.List.Pairwise

/-!
# Lower bounds in a binary search tree

A binary search tree by its shape and its in-order list, and the descent that finds the
lower bound of a key: at each node it goes right when the node is below the key, and
otherwise remembers the node and goes left.  The descent returns the position, in the
in-order list, of the first element that is not below the key, provided the list is
partitioned by the key (every element before one that is below is below too), whatever the
tree's shape.  The elements between two such positions are then those not below the first
key and below the second.
-/

set_option autoImplicit false

namespace SearchTree

inductive Tree (α : Type) where
  | leaf
  | node (left : Tree α) (key : α) (right : Tree α)

variable {α : Type}

namespace Tree

def toList : Tree α → List α
  | leaf => []
  | node l x r => l.toList ++ x :: r.toList

def size : Tree α → Nat
  | leaf => 0
  | node l _ r => l.size + 1 + r.size

theorem size_eq_length (t : Tree α) : t.size = t.toList.length := by
  induction t with
  | leaf => rfl
  | node l x r ihl ihr => simp [size, toList, ihl, ihr]; omega

end Tree

/-- The position in the in-order list where the descent for a key ends; `below x` says that
`x` comes before the key. -/
def lowerBound (below : α → Bool) : Tree α → Nat
  | .leaf => 0
  | .node l x r => if below x then l.size + 1 + lowerBound below r else lowerBound below l

/-- The elements an iteration from position `first` up to position `last` visits. -/
def range (first last : Nat) (t : Tree α) : List α := (t.toList.drop first).take (last - first)

/-- Every element before one that is below the key is below it too. -/
def Partitioned (below : α → Bool) (l : List α) : Prop :=
  l.Pairwise fun a b => below b = true → below a = true

section Partition

variable {below : α → Bool}

theorem Partitioned.takeWhile_eq_filter {l : List α} (partitioned : Partitioned below l) :
    l.takeWhile below = l.filter below := by
  induction l with
  | nil => rfl
  | cons a rest ih =>
      obtain ⟨before, partitionedRest⟩ := List.pairwise_cons.mp partitioned
      cases isBelow : below a with
      | true => simp [isBelow, ih partitionedRest]
      | false =>
          -- nothing after an element that is not below can be below
          have none : rest.filter below = [] := by
            rw [List.filter_eq_nil_iff]
            intro b member belowB
            have := before b member belowB
            simp [isBelow] at this
          simp [isBelow, none]

theorem Partitioned.dropWhile_eq_filter {l : List α} (partitioned : Partitioned below l) :
    l.dropWhile below = l.filter fun a => !below a := by
  induction l with
  | nil => rfl
  | cons a rest ih =>
      obtain ⟨before, partitionedRest⟩ := List.pairwise_cons.mp partitioned
      cases isBelow : below a with
      | true => simp [isBelow, ih partitionedRest]
      | false =>
          have all : rest.filter (fun b => !below b) = rest := by
            rw [List.filter_eq_self]
            intro b member
            cases belowB : below b with
            | false => rfl
            | true =>
                have := before b member belowB
                simp [isBelow] at this
          simp [isBelow, all]

/-- The descent ends at the partition point of the in-order list. -/
theorem lowerBound_eq (t : Tree α) (partitioned : Partitioned below t.toList) :
    lowerBound below t = (t.toList.takeWhile below).length := by
  induction t with
  | leaf => rfl
  | node l x r ihl ihr =>
      simp only [Tree.toList] at partitioned
      have partitionedL : Partitioned below l.toList :=
        List.Pairwise.sublist (List.sublist_append_left _ _) partitioned
      have partitionedR : Partitioned below r.toList :=
        List.Pairwise.sublist ((List.sublist_cons_self x _).trans (List.sublist_append_right _ _))
          partitioned
      simp only [lowerBound, Tree.toList]
      cases isBelow : below x with
      | true =>
          -- the left subtree lies before a node that is below, so all of it is below
          have allLeft : ∀ a ∈ l.toList, below a = true := by
            intro a member
            exact (List.pairwise_append.mp partitioned).2.2 a member x List.mem_cons_self isBelow
          simp [List.takeWhile_append_of_pos allLeft, isBelow, ihr partitionedR, Tree.size_eq_length]
          omega
      | false =>
          rw [if_neg (by simp), ihl partitionedL, List.takeWhile_append]
          split
          · rename_i whole
            simp [isBelow, whole]
          · rfl

/-- At the partition point of a list stands the first element that is not below. -/
theorem getElem?_length_takeWhile (below : α → Bool) (l : List α) :
    l[(l.takeWhile below).length]? = (l.dropWhile below).head? := by
  have split := List.takeWhile_append_dropWhile (p := below) (l := l)
  calc l[(l.takeWhile below).length]?
      = (l.takeWhile below ++ l.dropWhile below)[(l.takeWhile below).length]? := by rw [split]
    _ = (l.dropWhile below).head? := by
      rw [List.getElem?_append_right (Nat.le_refl _), Nat.sub_self, List.head?_eq_getElem?]

/-- Just before the partition point stands the last element that is below. -/
theorem getElem?_length_takeWhile_sub_one (below : α → Bool) (l : List α)
    (positive : (l.takeWhile below).length ≠ 0) :
    l[(l.takeWhile below).length - 1]? = (l.takeWhile below).getLast? := by
  have split := List.takeWhile_append_dropWhile (p := below) (l := l)
  calc l[(l.takeWhile below).length - 1]?
      = (l.takeWhile below ++ l.dropWhile below)[(l.takeWhile below).length - 1]? := by rw [split]
    _ = (l.takeWhile below).getLast? := by
      rw [List.getElem?_append_left (by omega), List.getLast?_eq_getElem?]

end Partition

section Range

variable {lower upper : α → Bool}

theorem length_filter_upper (l : List α) (inside : ∀ a ∈ l, lower a = true → upper a = true) :
    (l.filter upper).length = (l.filter lower).length + (l.filter fun a => !lower a && upper a).length := by
  induction l with
  | nil => rfl
  | cons a rest ih =>
      have insideRest : ∀ b ∈ rest, lower b = true → upper b = true :=
        fun b member => inside b (List.mem_cons_of_mem a member)
      cases isLower : lower a with
      | true => simp [isLower, inside a List.mem_cons_self isLower, ih insideRest]; omega
      | false => cases isUpper : upper a <;> simp [isLower, isUpper, ih insideRest]; omega

/-- The elements from the lower bound of one key up to the lower bound of a greater key are
those below the second and not below the first. -/
theorem range_eq_filter (t : Tree α) (inside : ∀ a ∈ t.toList, lower a = true → upper a = true)
    (partitionedLower : Partitioned lower t.toList) (partitionedUpper : Partitioned upper t.toList) :
    range (lowerBound lower t) (lowerBound upper t) t = t.toList.filter fun a => !lower a && upper a := by
  rw [lowerBound_eq t partitionedLower, lowerBound_eq t partitionedUpper, range]
  have dropped : t.toList.drop (t.toList.takeWhile lower).length = t.toList.filter fun a => !lower a := by
    rw [← partitionedLower.dropWhile_eq_filter]
    have split := List.takeWhile_append_dropWhile (p := lower) (l := t.toList)
    exact (congrArg (List.drop _) split.symm).trans List.drop_left
  have rest : Partitioned upper (t.toList.filter fun a => !lower a) :=
    List.Pairwise.sublist List.filter_sublist partitionedUpper
  have swap : (fun a => upper a && !lower a) = fun a => !lower a && upper a :=
    funext fun a => Bool.and_comm _ _
  have count : (t.toList.takeWhile upper).length - (t.toList.takeWhile lower).length =
      ((t.toList.filter fun a => !lower a).takeWhile upper).length := by
    rw [partitionedUpper.takeWhile_eq_filter, partitionedLower.takeWhile_eq_filter,
      rest.takeWhile_eq_filter, List.filter_filter, swap, length_filter_upper t.toList inside]
    omega
  rw [dropped, count, ← List.prefix_iff_eq_take.mp (List.takeWhile_prefix _), rest.takeWhile_eq_filter,
    List.filter_filter, swap]

end Range

end SearchTree
