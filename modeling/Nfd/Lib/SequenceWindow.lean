import Mathlib.Data.List.Basic

/-!
# Windows of sequence numbers that wrap around

Sequence numbers modulo `m` are positions on a circle.  A sender keeps the numbers still in
flight in a window that starts at its oldest outstanding number `first` and runs forward,
around the circle if need be, to the last number it gave out.  The window holds as long as
every outstanding number lies no further from `first` than the last one does.

The next number handed out is the one after `last`.  It is fresh unless the window has gone
all the way round, which is exactly when it equals `first`.  When the oldest number leaves,
the window starts again at its successor: the outstanding number closest after it.
-/

set_option autoImplicit false

namespace SequenceWindow

/-- The steps forward from `a` to `b` on a circle of `m` positions, wrapping at most once. -/
def distance (m a b : Nat) : Nat := if a ≤ b then b - a else b + m - a

section Distance

variable {m a b c : Nat}

theorem succ_mod_eq (hb : b < m) : (b + 1) % m = if b + 1 = m then 0 else b + 1 := by
  split
  · rename_i wraps
    rw [wraps, Nat.mod_self]
  · exact Nat.mod_eq_of_lt (by omega)

/-- The number after `b` is one step further from `a`, unless it is `a` itself. -/
theorem distance_succ_mod (ha : a < m) (hb : b < m) (ne : (b + 1) % m ≠ a) :
    distance m a ((b + 1) % m) = distance m a b + 1 := by
  rw [succ_mod_eq hb] at ne ⊢
  unfold distance
  split_ifs at ne ⊢ <;> omega

/-- Going from `a` to `c` passes `b` when `b` is no further from `a` than `c`. -/
theorem distance_add (ha : a < m) (hb : b < m) (hc : c < m) (le : distance m a b ≤ distance m a c) :
    distance m a b + distance m b c = distance m a c := by
  unfold distance at le ⊢
  split_ifs at le ⊢ <;> omega

/-- Above `a`, the circle order from `a` is the order of the numbers. -/
theorem distance_le_of_above (ab : a ≤ b) (bc : b ≤ c) : distance m a b ≤ distance m a c := by
  unfold distance
  split_ifs <;> omega

/-- Every number above `a` comes before every number below it. -/
theorem distance_lt_of_above_of_below (hb : b < m) (ab : a ≤ b) (ca : c < a) :
    distance m a b < distance m a c := by
  unfold distance
  split_ifs <;> omega

/-- Below `a`, the circle order from `a` is the order of the numbers too. -/
theorem distance_le_of_below (bc : b ≤ c) (ca : c < a) : distance m a b ≤ distance m a c := by
  unfold distance
  split_ifs <;> omega

end Distance

/-- The numbers `keys` are outstanding in the window from `first` to `last`: `first` is
`none` exactly when none is, and otherwise one of them, and every one lies in the circular
interval from `first` to `last`. -/
structure Window (m : Nat) (keys : List Nat) (first : Option Nat) (last : Nat) : Prop where
  last_lt : last < m
  keys_lt : ∀ k ∈ keys, k < m
  first_eq_none : first = none ↔ keys = []
  first_mem : ∀ f, first = some f → f ∈ keys
  within : ∀ f, first = some f → ∀ k ∈ keys, distance m f k ≤ distance m f last

section Window

variable {m last : Nat} {keys keys' : List Nat} {first : Option Nat}

theorem Window.nil (lt : last < m) : Window m [] none last :=
  ⟨lt, by simp, by simp, by simp, by simp⟩

/-- The window only reads which numbers are outstanding. -/
theorem Window.congr (w : Window m keys first last) (same : ∀ k, k ∈ keys' ↔ k ∈ keys) :
    Window m keys' first last := by
  have empty : keys' = [] ↔ keys = [] := by
    simp only [List.eq_nil_iff_forall_not_mem, same]
  refine ⟨w.last_lt, fun k member => w.keys_lt k ((same k).mp member), w.first_eq_none.trans empty.symm,
    fun f isFirst => (same f).mpr (w.first_mem f isFirst), fun f isFirst k member => ?_⟩
  exact w.within f isFirst k ((same k).mp member)

/-- Outstanding numbers may leave the window as long as its first one stays. -/
theorem Window.sub {f : Nat} (w : Window m keys (some f) last) (stays : f ∈ keys') (sub : ∀ k ∈ keys', k ∈ keys) :
    Window m keys' (some f) last where
  last_lt := w.last_lt
  keys_lt k member := w.keys_lt k (sub k member)
  first_eq_none := by simpa using List.ne_nil_of_mem stays
  first_mem := by
    rintro _ ⟨⟩
    exact stays
  within := by
    rintro _ ⟨⟩ k member
    exact w.within f rfl k (sub k member)

/-- Every outstanding number is at least as recent as the first: it is no further back from
`last`. -/
theorem Window.oldest {f : Nat} (w : Window m keys (some f) last) {k : Nat} (member : k ∈ keys) :
    distance m k last ≤ distance m f last := by
  have add := distance_add (w.keys_lt f (w.first_mem f rfl)) (w.keys_lt k member) w.last_lt
    (w.within f rfl k member)
  omega

/-- The number after `last` is not outstanding, unless the window has gone all the way round
to it. -/
theorem Window.fresh (w : Window m keys first last) (open_ : ∀ f, first = some f → f ≠ (last + 1) % m) :
    (last + 1) % m ∉ keys := by
  intro member
  cases isFirst : first with
  | none => exact List.ne_nil_of_mem member (w.first_eq_none.mp isFirst)
  | some f =>
      have fLt := w.keys_lt f (w.first_mem f isFirst)
      have further := distance_succ_mod fLt w.last_lt (Ne.symm (open_ f isFirst))
      have inside := w.within f isFirst _ member
      omega

/-- Handing out the number after `last`: it becomes outstanding, and the first one if none
was. -/
theorem Window.advance (w : Window m keys first last) (open_ : ∀ f, first = some f → f ≠ (last + 1) % m) :
    Window m ((last + 1) % m :: keys) (first.or (some ((last + 1) % m))) ((last + 1) % m) := by
  have positive : 0 < m := Nat.lt_of_le_of_lt (Nat.zero_le _) w.last_lt
  have nextLt : (last + 1) % m < m := Nat.mod_lt _ positive
  refine ⟨nextLt, ?_, by cases first <;> simp, ?_, ?_⟩
  · intro k member
    rcases List.mem_cons.mp member with rfl | old
    · exact nextLt
    · exact w.keys_lt k old
  · intro f isFirst
    cases wasFirst : first with
    | none =>
        rw [wasFirst, Option.none_or] at isFirst
        cases isFirst
        exact List.mem_cons_self
    | some f' =>
        rw [wasFirst, Option.some_or, Option.some_inj] at isFirst
        subst isFirst
        exact List.mem_cons_of_mem _ (w.first_mem f' wasFirst)
  · intro f isFirst k member
    cases wasFirst : first with
    | none =>
        -- the window was empty: it is now the one new number
        rw [wasFirst, Option.none_or] at isFirst
        cases isFirst
        have empty := w.first_eq_none.mp wasFirst
        subst empty
        have isNew := List.mem_singleton.mp member
        subst isNew
        exact Nat.le_refl _
    | some f' =>
        rw [wasFirst, Option.some_or, Option.some_inj] at isFirst
        subst isFirst
        have fLt := w.keys_lt f' (w.first_mem f' wasFirst)
        have further := distance_succ_mod fLt w.last_lt (Ne.symm (open_ f' wasFirst))
        rcases List.mem_cons.mp member with rfl | old
        · exact Nat.le_refl _
        · have inside := w.within f' wasFirst k old
          omega

/-- When the first number leaves, the window starts at its successor, the outstanding
number closest after it. -/
theorem Window.erase_first {f s : Nat} (w : Window m keys (some f) last) (member : s ∈ keys) (ne : s ≠ f)
    (closest : ∀ k ∈ keys, k ≠ f → distance m f s ≤ distance m f k) :
    Window m (keys.filter (· ≠ f)) (some s) last := by
  have stays : s ∈ keys.filter (· ≠ f) := List.mem_filter.mpr ⟨member, by simp [ne]⟩
  refine ⟨w.last_lt, fun k kept => w.keys_lt k (List.mem_filter.mp kept).1,
    by simpa using List.ne_nil_of_mem stays, by rintro _ ⟨⟩; exact stays, ?_⟩
  rintro _ ⟨⟩ k kept
  obtain ⟨old, notFirst⟩ := List.mem_filter.mp kept
  have fLt := w.keys_lt f (w.first_mem f rfl)
  have sLt := w.keys_lt s member
  have kLt := w.keys_lt k old
  -- from the successor, every distance is shorter by the step from `f` to it
  have toK := distance_add fLt sLt kLt (closest k old (by simpa using notFirst))
  have toLast := distance_add fLt sLt w.last_lt
    (Nat.le_trans (closest k old (by simpa using notFirst)) (w.within f rfl k old))
  have inside := w.within f rfl k old
  omega

/-- The successor of `f` among `keys` is the least number above `f`, or the least number of
all when none is above. -/
theorem distance_le_of_least_above {f s k : Nat} (sLt : s < m) (above : f < s)
    (least : ∀ j ∈ keys, f < j → s ≤ j) (member : k ∈ keys) (ne : k ≠ f) :
    distance m f s ≤ distance m f k := by
  rcases Nat.lt_or_gt_of_ne ne with below | higher
  · exact Nat.le_of_lt (distance_lt_of_above_of_below sLt (Nat.le_of_lt above) below)
  · exact distance_le_of_above (Nat.le_of_lt above) (least k member higher)

theorem distance_le_of_least {f s k : Nat} (noneAbove : ∀ j ∈ keys, ¬ f < j)
    (least : ∀ j ∈ keys, s ≤ j) (member : k ∈ keys) (ne : k ≠ f) :
    distance m f s ≤ distance m f k := by
  have below : k < f := by
    have := noneAbove k member
    omega
  exact distance_le_of_below (least k member) below

end Window

end SequenceWindow
