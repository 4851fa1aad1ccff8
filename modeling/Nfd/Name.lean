import Mathlib.Data.List.Basic

/-!
# Names

An NDN name is a sequence of components, and a component is a TLV element: a
TLV-TYPE and a value of octets.  The tables of the forwarder key their entries
by names and by prefixes of names: `name.getPrefix(i)` keeps the first `i`
components (`List.take`), `name.getPrefix(-1)` drops the last one
(`List.dropLast`), and `name.compare(0, i, other) == 0` holds exactly when the
first `i` components of `name` are `other`.
-/

set_option autoImplicit false

namespace Nfd

structure Component where
  type : Nat
  value : List UInt8
deriving DecidableEq, Repr

/-- TLV-TYPE of an implicit SHA-256 digest component. -/
def ImplicitSha256DigestComponent : Nat := 1

def Component.isImplicitSha256Digest (component : Component) : Bool :=
  component.type == ImplicitSha256DigestComponent && component.value.length == 32

abbrev Name := List Component

/-- `Component::compare`: by TLV-TYPE, then by the length of the value, then by its
octets. -/
def Component.compare (a b : Component) : Ordering :=
  (Ord.compare a.type b.type).then
    ((Ord.compare a.value.length b.value.length).then (List.compareLex Ord.compare a.value b.value))

/-- `Name::compare`: component by component, a proper prefix first. -/
def Name.compare (a b : Name) : Ordering := List.compareLex Component.compare a b

section Prefixes

variable {α : Type} {l m : List α}

/-- A prefix of `m` no longer than `k` is a prefix of `m.getPrefix(k)`. -/
theorem prefix_take_of_length_le (isPrefix : l <+: m) {k : Nat} (short : l.length ≤ k) :
    l <+: m.take k := by
  rw [List.prefix_iff_eq_take] at isPrefix
  rw [isPrefix]
  exact List.take_prefix_take_left short

/-- A prefix of `m` is `m` itself or a prefix of `m.getPrefix(-1)`. -/
theorem eq_or_prefix_dropLast (isPrefix : l <+: m) : l = m ∨ l <+: m.dropLast := by
  by_cases sameLength : l.length = m.length
  · exact .inl (isPrefix.eq_of_length sameLength)
  · have shorter : l.length ≤ m.length - 1 := by
      have := isPrefix.length_le
      omega
    rw [List.dropLast_eq_take]
    exact .inr (prefix_take_of_length_le isPrefix shorter)

/-- The proper prefixes of a nonempty `m` are the prefixes of `m.getPrefix(-1)`. -/
theorem prefix_dropLast_iff (nonEmpty : m ≠ []) : l <+: m.dropLast ↔ l <+: m ∧ l ≠ m := by
  constructor
  · intro isPrefix
    refine ⟨isPrefix.trans (List.dropLast_prefix m), fun same => ?_⟩
    have shorter := isPrefix.length_le
    rw [same, List.length_dropLast] at shorter
    have positive := List.length_pos_of_ne_nil nonEmpty
    omega
  · rintro ⟨isPrefix, different⟩
    exact (eq_or_prefix_dropLast isPrefix).resolve_left different

end Prefixes

end Nfd
