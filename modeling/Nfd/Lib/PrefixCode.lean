import Mathlib.Data.List.Basic

/-!
# Prefix codes

A parser that finds the length of the first element of a sequence and never reads past it:
what follows an element does not change what is found.  An element is a sequence the parser
reads whole.  A proper prefix of an element is never read as one, so a receiver that parses
elements off the front of what has arrived so far finds exactly the elements that arrived
whole.
-/

set_option autoImplicit false

namespace PrefixCode

/-- A parser of the length of the first element, reading no further than that element. -/
structure PrefixParser (α : Type) where
  parse : List α → Option Nat
  pos : ∀ {xs : List α} {k : Nat}, parse xs = some k → 0 < k
  le_length : ∀ {xs : List α} {k : Nat}, parse xs = some k → k ≤ xs.length
  parse_append : ∀ {xs : List α} {k : Nat} (ys : List α), parse xs = some k → parse (xs ++ ys) = some k

namespace PrefixParser

variable {α : Type} {P : PrefixParser α}

/-- A sequence the parser reads whole. -/
def IsElement (P : PrefixParser α) (xs : List α) : Prop := P.parse xs = some xs.length

instance (P : PrefixParser α) : DecidablePred P.IsElement :=
  fun xs => inferInstanceAs (Decidable (P.parse xs = some xs.length))

theorem IsElement.length_pos {xs : List α} (element : P.IsElement xs) : 0 < xs.length :=
  P.pos element

theorem IsElement.parse_append {xs : List α} (element : P.IsElement xs) (ys : List α) :
    P.parse (xs ++ ys) = some xs.length :=
  P.parse_append ys element

/-- A proper prefix of an element is not read as an element. -/
theorem IsElement.parse_of_lt {xs ys : List α} (element : P.IsElement xs) (front : ys <+: xs)
    (short : ys.length < xs.length) : P.parse ys = none := by
  cases found : P.parse ys with
  | none => rfl
  | some k =>
    obtain ⟨rest, whole⟩ := front
    have within := P.le_length found
    have same : P.parse xs = some k := whole ▸ P.parse_append rest found
    rw [element, Option.some.injEq] at same
    omega

end PrefixParser

variable {α : Type}

/-- A prefix of a concatenation is either a proper prefix of its first part, or that part
followed by a prefix of the rest. -/
theorem prefix_flatten_cons {xs e : List α} {es : List (List α)} (within : xs <+: (e :: es).flatten) :
    (xs <+: e ∧ xs.length < e.length) ∨ ∃ rest, xs = e ++ rest ∧ rest <+: es.flatten := by
  rw [List.flatten_cons] at within
  by_cases short : xs.length < e.length
  · left
    exact ⟨List.prefix_of_prefix_length_le within (List.prefix_append e _) (Nat.le_of_lt short), short⟩
  · right
    obtain ⟨rest, whole⟩ := List.prefix_of_prefix_length_le (List.prefix_append e _) within (by omega)
    subst whole
    exact ⟨rest, rfl, (List.prefix_append_right_inj e).mp within⟩

/-- `rest` begins the concatenation of `es` and completes none of its parts. -/
def Incomplete (rest : List α) (es : List (List α)) : Prop :=
  rest <+: es.flatten ∧ ∀ e ∈ es.head?, rest.length < e.length

theorem Incomplete.nil {es : List (List α)} (positive : ∀ e ∈ es, 0 < e.length) : Incomplete [] es :=
  ⟨List.nil_prefix, fun e first => positive e (List.mem_of_mem_head? first)⟩

theorem Incomplete.exists_longer {rest : List α} {es : List (List α)} (incomplete : Incomplete rest es)
    (nonempty : rest ≠ []) : ∃ e ∈ es, rest.length < e.length := by
  cases es with
  | nil => exact absurd (List.eq_nil_of_prefix_nil incomplete.1) nonempty
  | cons e es => exact ⟨e, List.mem_cons_self, incomplete.2 e rfl⟩

/-- Nothing but the empty stream is incomplete after all of it. -/
theorem Incomplete.eq_nil_of_flatten {es : List (List α)} (incomplete : Incomplete es.flatten es) : es = [] := by
  cases es with
  | nil => rfl
  | cons e es =>
    have shorter := incomplete.2 e rfl
    simp only [List.flatten_cons, List.length_append] at shorter
    omega

end PrefixCode
