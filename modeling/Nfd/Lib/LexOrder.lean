import Mathlib.Data.List.Infix

/-!
# Lexicographic order, prefixes and successors

`List.compareLex cmp` orders lists element by element, a proper prefix first.  The lists
that extend a prefix `p` form an interval of this order: a list that does not extend `p` lies
below all of them or above all of them.  The least list above the whole interval, the
successor of `p`, is `p` with its last element replaced by the least element above it, and
the lists from `p` up to the successor are exactly the extensions of `p`.
-/

set_option autoImplicit false

namespace LexOrder

variable {α : Type} {cmp : α → α → Ordering}

section Extensions

theorem compareLex_append_left [Std.ReflCmp cmp] (p a b : List α) :
    List.compareLex cmp (p ++ a) (p ++ b) = List.compareLex cmp a b := by
  induction p with
  | nil => rfl
  | cons x p ih =>
      have self : cmp x x = .eq := Std.ReflCmp.compare_self
      rw [List.cons_append, List.cons_append, List.compareLex_cons_cons, self, ih]
      rfl

theorem compareLex_nil_ne_gt (l : List α) : List.compareLex cmp [] l ≠ .gt := by
  cases l <;> intro h <;> cases h

theorem compareLex_prefix_ne_gt [Std.ReflCmp cmp] {p n : List α} (isPrefix : p <+: n) :
    List.compareLex cmp p n ≠ .gt := by
  obtain ⟨rest, rfl⟩ := isPrefix
  have extended : List.compareLex cmp (p ++ []) (p ++ rest) = List.compareLex cmp [] rest :=
    compareLex_append_left p [] rest
  rw [List.append_nil] at extended
  rw [extended]
  exact compareLex_nil_ne_gt rest

theorem compareLex_prefix_lt [Std.ReflCmp cmp] {p n : List α} (isPrefix : p <+: n) (different : p ≠ n) :
    List.compareLex cmp p n = .lt := by
  obtain ⟨rest, rfl⟩ := isPrefix
  cases rest with
  | nil => exact absurd (List.append_nil p).symm different
  | cons x rest =>
      have extended : List.compareLex cmp (p ++ []) (p ++ x :: rest) =
          List.compareLex cmp [] (x :: rest) :=
        compareLex_append_left p [] (x :: rest)
      rw [List.append_nil] at extended
      rw [extended]
      rfl

theorem compareLex_append_singleton_lt [Std.ReflCmp cmp] {p : List α} {c z : α} (above : cmp c z = .lt)
    (n : List α) (isPrefix : p ++ [c] <+: n) : List.compareLex cmp n (p ++ [z]) = .lt := by
  obtain ⟨rest, rfl⟩ := isPrefix
  rw [List.append_assoc, compareLex_append_left, List.singleton_append, List.compareLex_cons_cons, above]
  rfl

/-- A list above `p` is above every extension of `p`. -/
theorem compareLex_gt_of_extension {p m n : List α} (above : List.compareLex cmp p m = .gt)
    (isPrefix : p <+: n) : List.compareLex cmp n m = .gt := by
  induction p generalizing m n with
  | nil => exact absurd above (compareLex_nil_ne_gt m)
  | cons x p ih =>
      obtain ⟨rest, rfl⟩ := isPrefix
      cases m with
      | nil => rfl
      | cons y m =>
          rw [List.compareLex_cons_cons, Ordering.then_eq_gt] at above
          rw [List.cons_append, List.compareLex_cons_cons, Ordering.then_eq_gt]
          rcases above with first | ⟨same, later⟩
          · exact .inl first
          · exact .inr ⟨same, ih later (List.prefix_append p rest)⟩

/-- A list below `p` that `p` is not a prefix of is below every extension of `p`. -/
theorem compareLex_lt_of_extension [Std.LawfulEqCmp cmp] {p m n : List α}
    (below : List.compareLex cmp p m = .lt) (notPrefix : ¬ p <+: m) (isPrefix : p <+: n) :
    List.compareLex cmp n m = .lt := by
  induction p generalizing m n with
  | nil => exact absurd (List.nil_prefix) notPrefix
  | cons x p ih =>
      obtain ⟨rest, rfl⟩ := isPrefix
      cases m with
      | nil => cases below
      | cons y m =>
          rw [List.compareLex_cons_cons, Ordering.then_eq_lt] at below
          rw [List.cons_append, List.compareLex_cons_cons, Ordering.then_eq_lt]
          rcases below with first | ⟨same, later⟩
          · exact .inl first
          · have equal : x = y := Std.LawfulEqCmp.eq_of_compare same
            subst equal
            have notPrefixRest : ¬ p <+: m := fun h => notPrefix (List.cons_prefix_cons.mpr ⟨rfl, h⟩)
            exact .inr ⟨same, ih later notPrefixRest (List.prefix_append p rest)⟩

/-- Between `p` and `p ++ [y]` lie only extensions `p ++ x :: rest` with `x` below `y`. -/
theorem eq_append_of_between [Std.TransCmp cmp] [Std.LawfulEqCmp cmp] {p n : List α} {y : α}
    (above : List.compareLex cmp p n = .lt) (below : List.compareLex cmp n (p ++ [y]) = .lt) :
    ∃ x rest, n = p ++ x :: rest ∧ cmp x y = .lt := by
  by_cases onPrefix : p <+: n
  · obtain ⟨r, rfl⟩ := onPrefix
    cases r with
    | nil =>
        have self : List.compareLex cmp p p = .eq := Std.ReflCmp.compare_self
        rw [List.append_nil, self] at above
        cases above
    | cons x rest =>
        rw [compareLex_append_left, List.compareLex_cons_cons, Ordering.then_eq_lt] at below
        rcases below with first | ⟨-, later⟩
        · exact ⟨x, rest, rfl, first⟩
        · cases rest <;> cases later
  · have beyond := compareLex_lt_of_extension above onPrefix (List.prefix_append p [y])
    exact absurd beyond (Std.OrientedCmp.not_lt_of_lt below)

/-- The extensions of `p` form an interval: a list from `p` up to an extension of `p` extends
`p`. -/
theorem prefix_of_between [Std.TransCmp cmp] [Std.LawfulEqCmp cmp] {p m n : List α}
    (above : List.compareLex cmp p m ≠ .gt) (below : List.compareLex cmp m n ≠ .gt) (isPrefix : p <+: n) :
    p <+: m := by
  by_contra notPrefix
  have lower : List.compareLex cmp p m = .lt := by
    cases order : List.compareLex cmp p m with
    | lt => rfl
    | eq =>
      have same : p = m := Std.LawfulEqCmp.eq_of_compare order
      exact absurd (same ▸ List.prefix_refl p) notPrefix
    | gt => exact absurd order above
  have beyond := compareLex_lt_of_extension lower notPrefix isPrefix
  exact below (Std.OrientedCmp.gt_of_lt beyond)

end Extensions

section Successor

variable (cmp) in
/-- `s` is the least list above every extension of `p`. -/
def IsSuccessor (p s : List α) : Prop :=
  (∀ n, p <+: n → List.compareLex cmp n s = .lt) ∧
    ∀ m, (∀ n, p <+: n → List.compareLex cmp n m = .lt) → List.compareLex cmp s m ≠ .gt

variable (cmp) in
/-- `y` is the least element above `c`. -/
def IsNext (c y : α) : Prop := cmp c y = .lt ∧ ∀ z, cmp c z = .lt → cmp y z ≠ .gt

variable [Std.TransCmp cmp] [Std.LawfulEqCmp cmp]

/-- The lists from `p` up to its successor are the extensions of `p`. -/
theorem IsSuccessor.between_iff {p s : List α} (successor : IsSuccessor cmp p s) (n : List α) :
    List.compareLex cmp p n ≠ .gt ∧ List.compareLex cmp n s = .lt ↔ p <+: n := by
  constructor
  · rintro ⟨notAbove, belowSuccessor⟩
    by_contra notPrefix
    have below : List.compareLex cmp p n = .lt := by
      cases order : List.compareLex cmp p n with
      | lt => rfl
      | eq =>
          have same : p = n := Std.LawfulEqCmp.eq_of_compare order
          exact absurd (same ▸ List.prefix_refl p) notPrefix
      | gt => exact absurd order notAbove
    -- every extension of `p` lies below `n`, so the successor is at most `n`
    have atMost := successor.2 n fun k isPrefix => compareLex_lt_of_extension below notPrefix isPrefix
    exact atMost (Std.OrientedCmp.gt_of_lt belowSuccessor)
  · intro isPrefix
    exact ⟨compareLex_prefix_ne_gt isPrefix, successor.1 n isPrefix⟩

/-- The successor of `p ++ [c]` is `p ++ [y]` with `y` the least element above `c`, when some
element is above `c`. -/
theorem IsSuccessor.eq_append {p s : List α} {c : α} (successor : IsSuccessor cmp (p ++ [c]) s)
    (unbounded : ∃ t, cmp c t = .lt) : ∃ y, s = p ++ [y] ∧ IsNext cmp c y := by
  obtain ⟨t, above⟩ := unbounded
  have atMost := successor.2 _ (compareLex_append_singleton_lt above)
  have lower := successor.1 (p ++ [c]) (List.prefix_refl _)
  have onPrefix : p <+: s := by
    by_contra notPrefix
    have pBelow : List.compareLex cmp p s = .lt :=
      Std.TransCmp.lt_of_isLE_of_lt (Ordering.isLE_iff_ne_gt.mpr
        (compareLex_prefix_ne_gt (List.prefix_append p [c]))) lower
    exact atMost (Std.OrientedCmp.gt_of_lt
      (compareLex_lt_of_extension pBelow notPrefix (List.prefix_append p [t])))
  obtain ⟨r, rfl⟩ := onPrefix
  cases r with
  | nil =>
      rw [List.append_nil] at lower
      exact absurd (Std.OrientedCmp.gt_of_lt lower)
        (compareLex_prefix_ne_gt (List.prefix_append p [c]))
  | cons y rest =>
      rw [compareLex_append_left, List.compareLex_cons_cons, Ordering.then_eq_lt] at lower
      have next : cmp c y = .lt := by
        rcases lower with first | ⟨same, -⟩
        · exact first
        · -- then `s` itself extends `p ++ [c]`, and lies below itself
          have equal : c = y := Std.LawfulEqCmp.eq_of_compare same
          subst equal
          have below := successor.1 (p ++ c :: rest) ⟨rest, by simp⟩
          have self : List.compareLex cmp (p ++ c :: rest) (p ++ c :: rest) = .eq :=
            Std.ReflCmp.compare_self
          rw [self] at below
          cases below
      have restNil : rest = [] := by
        have atMostY := successor.2 _ (compareLex_append_singleton_lt next)
        have self : cmp y y = .eq := Std.ReflCmp.compare_self
        rw [compareLex_append_left, List.compareLex_cons_cons, self] at atMostY
        cases rest with
        | nil => rfl
        | cons _ _ => exact absurd rfl atMostY
      subst restNil
      refine ⟨y, rfl, next, fun z aboveZ => ?_⟩
      have atMostZ := successor.2 _ (compareLex_append_singleton_lt aboveZ)
      rw [compareLex_append_left, List.compareLex_cons_cons] at atMostZ
      simpa [List.compareLex_nil_nil] using atMostZ

/-- Replacing the last element by the least element above it gives the successor. -/
theorem IsNext.isSuccessor {c y : α} (next : IsNext cmp c y) (p : List α) :
    IsSuccessor cmp (p ++ [c]) (p ++ [y]) := by
  refine ⟨compareLex_append_singleton_lt next.1, fun m aboveAll above => ?_⟩
  have cBelow := aboveAll (p ++ [c]) (List.prefix_refl _)
  by_cases onPrefix : p <+: m
  · obtain ⟨r, rfl⟩ := onPrefix
    cases r with
    | nil =>
        rw [List.append_nil] at cBelow
        exact absurd (Std.OrientedCmp.gt_of_lt cBelow)
          (compareLex_prefix_ne_gt (List.prefix_append p [c]))
    | cons z rest =>
        rw [compareLex_append_left, List.compareLex_cons_cons, Ordering.then_eq_gt] at above
        have yAbove : cmp y z = .gt := by
          rcases above with first | ⟨-, later⟩
          · exact first
          · exact absurd later (compareLex_nil_ne_gt rest)
        cases order : cmp c z with
        | lt => exact next.2 z order yAbove
        | eq =>
            -- `m` itself extends `p ++ [c]`, and lies below itself
            have equal : c = z := Std.LawfulEqCmp.eq_of_compare order
            subst equal
            have below := aboveAll (p ++ c :: rest) ⟨rest, by simp⟩
            have self : List.compareLex cmp (p ++ c :: rest) (p ++ c :: rest) = .eq :=
              Std.ReflCmp.compare_self
            rw [self] at below
            cases below
        | gt =>
            rw [compareLex_append_left, List.compareLex_cons_cons, order] at cBelow
            cases cBelow
  · have pBelow : List.compareLex cmp p m = .lt :=
      Std.TransCmp.lt_of_isLE_of_lt (Ordering.isLE_iff_ne_gt.mpr
        (compareLex_prefix_ne_gt (List.prefix_append p [c]))) cBelow
    have yBelow := compareLex_lt_of_extension pBelow onPrefix (List.prefix_append p [y])
    rw [yBelow] at above
    cases above

end Successor

end LexOrder
