import Nfd.Name
import Nfd.Lib.LexOrder

/-!
# The canonical order of names

`Component::compare` orders components by TLV-TYPE, then by the length of the value, then by
its octets, and `Name::compare` orders names component by component, a proper prefix first;
both are total orders.  The packet library builds only valid components: a TLV-TYPE of at
least 1, and a 32-octet value for an implicit digest.  So a valid component that is not an
implicit digest sorts after every implicit digest, and a component between two implicit
digests is one.  `Name::getSuccessor` is specified as the least name above every name with
the given prefix (`LexOrder.IsSuccessor`).
-/

set_option autoImplicit false

namespace Nfd

instance : Ord Component := ⟨Component.compare⟩

instance : Std.TransCmp Component.compare :=
  inferInstanceAs (Std.TransCmp (compareLex (compareOn Component.type)
    (compareLex (compareOn fun c : Component => c.value.length) (compareOn Component.value))))

instance : Std.TransOrd Component := inferInstanceAs (Std.TransCmp Component.compare)

instance : Std.LawfulEqCmp Component.compare where
  compare_self := Std.ReflCmp.compare_self
  eq_of_compare {a b} same := by
    obtain ⟨typeA, valueA⟩ := a
    obtain ⟨typeB, valueB⟩ := b
    simp only [Component.compare, Ordering.then_eq_eq] at same
    obtain ⟨sameType, -, sameValue⟩ := same
    have types : typeA = typeB := Std.LawfulEqOrd.eq_of_compare sameType
    have values : valueA = valueB := Std.LawfulEqCmp.eq_of_compare sameValue
    rw [types, values]

instance : Std.TransCmp Name.compare :=
  inferInstanceAs (Std.TransCmp (List.compareLex Component.compare))

instance : Std.LawfulEqCmp Name.compare :=
  inferInstanceAs (Std.LawfulEqCmp (List.compareLex Component.compare))

/-- A component the packet library can build: TLV-TYPE at least 1, and a 32-octet value
for an implicit digest. -/
def Component.Valid (c : Component) : Prop :=
  1 ≤ c.type ∧ (c.type = ImplicitSha256DigestComponent → c.value.length = 32)

instance (c : Component) : Decidable c.Valid := inferInstanceAs (Decidable (_ ∧ _))

namespace Component

theorem compare_eq (a b : Component) :
    Component.compare a b = (Ord.compare a.type b.type).then
      ((Ord.compare a.value.length b.value.length).then (List.compareLex Ord.compare a.value b.value)) := rfl

theorem type_le_of_compare_ne_gt {a b : Component} (notAbove : Component.compare a b ≠ .gt) :
    a.type ≤ b.type := by
  rw [compare_eq] at notAbove
  by_contra above
  have typeAbove : Ord.compare a.type b.type = .gt := Nat.compare_eq_gt.mpr (by omega)
  rw [typeAbove] at notAbove
  exact notAbove rfl

theorem length_le_of_compare_ne_gt {a b : Component} (notAbove : Component.compare a b ≠ .gt)
    (sameType : a.type = b.type) : a.value.length ≤ b.value.length := by
  rw [compare_eq, sameType, Std.ReflOrd.compare_self] at notAbove
  by_contra above
  have lengthAbove : Ord.compare a.value.length b.value.length = .gt := Nat.compare_eq_gt.mpr (by omega)
  rw [lengthAbove] at notAbove
  exact notAbove rfl

theorem compare_lt_of_type_lt {a b : Component} (below : a.type < b.type) :
    Component.compare a b = .lt := by
  rw [compare_eq, Nat.compare_eq_lt.mpr below]
  rfl

theorem isImplicitSha256Digest_iff (c : Component) :
    c.isImplicitSha256Digest = true ↔ c.type = ImplicitSha256DigestComponent ∧ c.value.length = 32 := by
  simp [isImplicitSha256Digest]

/-- A longer value of the same TLV-TYPE sorts after `c`. -/
theorem compare_extend_lt (c : Component) : Component.compare c ⟨c.type, c.value ++ [0]⟩ = .lt := by
  rw [compare_eq, Std.ReflOrd.compare_self, Nat.compare_eq_lt.mpr (by simp)]
  rfl

/-- The least component above `c` has the TLV-TYPE of `c`. -/
theorem type_eq_of_isNext {c y : Component} (next : LexOrder.IsNext Component.compare c y) :
    y.type = c.type := by
  have atMost := type_le_of_compare_ne_gt (next.2 _ (compare_extend_lt c))
  have atLeast := type_le_of_compare_ne_gt (ne_of_eq_of_ne next.1 (by decide))
  exact Nat.le_antisymm atMost atLeast

/-- A valid component that is not an implicit digest sorts after every implicit digest. -/
theorem compare_digest_lt {d x : Component} (digest : d.isImplicitSha256Digest = true)
    (valid : x.Valid) (notDigest : x.isImplicitSha256Digest = false) :
    Component.compare d x = .lt := by
  have typeD := ((isImplicitSha256Digest_iff d).mp digest).1
  apply compare_lt_of_type_lt
  rw [typeD]
  have typeX : x.type ≠ ImplicitSha256DigestComponent := by
    intro isDigestType
    have lengthX := valid.2 isDigestType
    have : x.isImplicitSha256Digest = true := (isImplicitSha256Digest_iff x).mpr ⟨isDigestType, lengthX⟩
    rw [notDigest] at this
    cases this
  have atLeast := valid.1
  simp only [ImplicitSha256DigestComponent] at typeX ⊢
  omega

/-- A component between two implicit digests is an implicit digest. -/
theorem isImplicitSha256Digest_of_between {c d y : Component}
    (digestC : c.isImplicitSha256Digest = true) (digestD : d.isImplicitSha256Digest = true)
    (above : Component.compare c y ≠ .gt) (below : Component.compare y d ≠ .gt) :
    y.isImplicitSha256Digest = true := by
  obtain ⟨typeC, lengthC⟩ := (isImplicitSha256Digest_iff c).mp digestC
  obtain ⟨typeD, lengthD⟩ := (isImplicitSha256Digest_iff d).mp digestD
  have typeY : y.type = ImplicitSha256DigestComponent := by
    have := type_le_of_compare_ne_gt above
    have := type_le_of_compare_ne_gt below
    omega
  have atLeast := length_le_of_compare_ne_gt above (typeC.trans typeY.symm)
  have atMost := length_le_of_compare_ne_gt below (typeY.trans typeD.symm)
  exact (isImplicitSha256Digest_iff y).mpr ⟨typeY, by omega⟩

theorem compare_lt_of_length_lt {a b : Component} (sameType : a.type = b.type)
    (shorter : a.value.length < b.value.length) : Component.compare a b = .lt := by
  rw [compare_eq, sameType, Std.ReflOrd.compare_self, Nat.compare_eq_lt.mpr shorter]
  rfl

theorem compare_single (type : Nat) (x y : UInt8) :
    Component.compare ⟨type, [x]⟩ ⟨type, [y]⟩ = Ord.compare x y := by
  simp only [compare_eq, Std.ReflOrd.compare_self, List.length_singleton, List.compareLex_cons_cons,
    List.compareLex_nil_nil, Ordering.then_eq]
  rfl

/-- The least component above a one-octet component whose octet is below 255 increments the
octet. -/
theorem isNext_single (type : Nat) (b : UInt8) (room : b.toNat < 255) :
    LexOrder.IsNext Component.compare ⟨type, [b]⟩ ⟨type, [b + 1]⟩ := by
  have incremented : (b + 1).toNat = b.toNat + 1 := by
    rw [UInt8.toNat_add, UInt8.toNat_one]
    omega
  refine ⟨?_, fun z above => ?_⟩
  · rw [compare_single, Std.compare_eq_lt, UInt8.lt_iff_toNat_lt]
    omega
  · have typeLe := type_le_of_compare_ne_gt (ne_of_eq_of_ne above (by decide))
    rcases Nat.lt_or_eq_of_le typeLe with typeLt | sameType
    · rw [compare_lt_of_type_lt (a := ⟨type, [b + 1]⟩) typeLt]
      decide
    · have lengthLe := length_le_of_compare_ne_gt (ne_of_eq_of_ne above (by decide)) sameType
      rcases Nat.lt_or_eq_of_le lengthLe with lengthLt | sameLength
      · rw [compare_lt_of_length_lt (a := ⟨type, [b + 1]⟩) sameType lengthLt]
        decide
      · -- one octet each way: the octet of `z` is above `b`, so at least `b + 1`
        obtain ⟨typeZ, valueZ⟩ := z
        obtain ⟨bz, rfl⟩ : ∃ bz, valueZ = [bz] := List.length_eq_one_iff.mp sameLength.symm
        simp only at sameType
        subst sameType
        rw [compare_single, Std.compare_eq_lt, UInt8.lt_iff_toNat_lt] at above
        rw [compare_single, Ne, Std.compare_eq_gt, UInt8.lt_iff_toNat_lt]
        omega

end Component

end Nfd
