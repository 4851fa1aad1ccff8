import Mathlib.Data.List.Basic
import Mathlib.Tactic.Ring

/-!
# Bit strings, their values and the range of a prefix

A bit string read most significant bit first denotes a number below `2 ^ length`.  Among the
strings of one length, those that begin with a given prefix are exactly those whose value lies
between the prefix padded with zeros and the prefix padded with ones (`prefix_range_iff`).
Octet strings are read as bit strings eight bits at a time; their lexicographic order is the
order of those values (`compareLex_eq_compare_ofBits`), and the bitwise operations on octets act
bit by bit on the string (`getElem?_bits`).
-/

set_option autoImplicit false

namespace BitString

/-- The value of a bit string, most significant bit first. -/
def ofBits (l : List Bool) : Nat := l.foldl (fun n b => 2 * n + b.toNat) 0

/-- The `n` low bits of `v`, most significant first. -/
def msbBits (n v : Nat) : List Bool := (List.range n).reverse.map v.testBit

/-- The eight bits of an octet, most significant first. -/
def byteBits (b : UInt8) : List Bool := msbBits 8 b.toNat

/-- The bits of an octet string. -/
def bits (bytes : List UInt8) : List Bool := bytes.flatMap byteBits

section Value

theorem foldl_ofBits (n : Nat) (l : List Bool) :
    l.foldl (fun n b => 2 * n + b.toNat) n = n * 2 ^ l.length + ofBits l := by
  induction l generalizing n with
  | nil => simp [ofBits]
  | cons b l ih =>
      have fromB : ofBits (b :: l) = b.toNat * 2 ^ l.length + ofBits l := by
        rw [ofBits, List.foldl_cons, ih]
        simp
      rw [List.foldl_cons, ih, fromB, List.length_cons, pow_succ]
      ring

theorem ofBits_cons (b : Bool) (l : List Bool) : ofBits (b :: l) = b.toNat * 2 ^ l.length + ofBits l := by
  rw [ofBits, List.foldl_cons, foldl_ofBits]
  simp

theorem ofBits_append (l r : List Bool) : ofBits (l ++ r) = ofBits l * 2 ^ r.length + ofBits r := by
  rw [ofBits, List.foldl_append, foldl_ofBits]
  rfl

theorem ofBits_lt (l : List Bool) : ofBits l < 2 ^ l.length := by
  induction l with
  | nil => simp [ofBits]
  | cons b l ih =>
      rw [ofBits_cons, List.length_cons, pow_succ]
      have bit : b.toNat ≤ 1 := Bool.toNat_le b
      have bounded : b.toNat * 2 ^ l.length ≤ 2 ^ l.length := by
        calc b.toNat * 2 ^ l.length ≤ 1 * 2 ^ l.length := Nat.mul_le_mul_right _ bit
          _ = 2 ^ l.length := Nat.one_mul _
      omega

@[simp] theorem ofBits_replicate_false (k : Nat) : ofBits (List.replicate k false) = 0 := by
  induction k with
  | zero => rfl
  | succ k ih => rw [List.replicate_succ, ofBits_cons, ih]; simp

theorem ofBits_replicate_true (k : Nat) : ofBits (List.replicate k true) = 2 ^ k - 1 := by
  induction k with
  | zero => rfl
  | succ k ih =>
      rw [List.replicate_succ, ofBits_cons, ih, List.length_replicate, pow_succ]
      have positive : 0 < 2 ^ k := Nat.two_pow_pos k
      simp only [Bool.toNat_true, Nat.one_mul]
      omega

/-- Strings of one length with one value are equal. -/
theorem ofBits_inj {l r : List Bool} (sameLength : l.length = r.length) (sameValue : ofBits l = ofBits r) :
    l = r := by
  induction l generalizing r with
  | nil => exact (List.length_eq_zero_iff.mp sameLength.symm).symm
  | cons b l ih =>
      cases r with
      | nil => cases sameLength
      | cons c r =>
          have lengths : l.length = r.length := Nat.succ.inj sameLength
          rw [ofBits_cons, ofBits_cons, lengths] at sameValue
          have restL := ofBits_lt l
          have restR := ofBits_lt r
          rw [lengths] at restL
          -- the leading bits weigh more than all the bits after them
          have heads : b = c := by
            cases b <;> cases c <;> simp at sameValue ⊢ <;> omega
          subst heads
          have tails : ofBits l = ofBits r := by omega
          rw [ih lengths tails]

/-- The value of a string that begins with `p`, in terms of the value of `p`. -/
theorem ofBits_take_drop (l : List Bool) (m : Nat) :
    ofBits l = ofBits (l.take m) * 2 ^ (l.length - m) + ofBits (l.drop m) := by
  conv_lhs => rw [← List.take_append_drop m l]
  rw [ofBits_append, List.length_drop]

end Value

section Range

/-- Numbers with the same quotient by `K` lie between its multiple and the multiple plus `K - 1`. -/
theorem between_iff {K q v r : Nat} (remainder : r < K) :
    q * K ≤ v * K + r ∧ v * K + r ≤ q * K + (K - 1) ↔ v = q := by
  constructor
  · rintro ⟨lower, upper⟩
    rcases Nat.lt_trichotomy v q with below | same | above
    · have : (v + 1) * K ≤ q * K := Nat.mul_le_mul_right K below
      rw [Nat.add_mul, Nat.one_mul] at this
      omega
    · exact same
    · have : (q + 1) * K ≤ v * K := Nat.mul_le_mul_right K above
      rw [Nat.add_mul, Nat.one_mul] at this
      omega
  · rintro rfl
    omega

/-- The strings of length `m + k` that begin with the first `m` bits of `a` are those between
those bits padded with `k` zeros and those bits padded with `k` ones. -/
theorem prefix_range_iff {a x : List Bool} (m : Nat) (sameLength : x.length = a.length) :
    ofBits (a.take m ++ List.replicate (a.length - m) false) ≤ ofBits x ∧
        ofBits x ≤ ofBits (a.take m ++ List.replicate (a.length - m) true) ↔
      x.take m = a.take m := by
  simp only [ofBits_append, ofBits_replicate_false, ofBits_replicate_true, List.length_replicate]
  rw [ofBits_take_drop x m, sameLength]
  have remainder : ofBits (x.drop m) < 2 ^ (a.length - m) := by
    have := ofBits_lt (x.drop m)
    rwa [List.length_drop, sameLength] at this
  rw [Nat.add_zero, between_iff remainder]
  constructor
  · intro sameValue
    exact ofBits_inj (by simp [sameLength]) sameValue
  · intro samePrefix
    rw [samePrefix]

end Range

section Octets

theorem length_msbBits (n v : Nat) : (msbBits n v).length = n := by
  simp [msbBits]

@[simp] theorem length_byteBits (b : UInt8) : (byteBits b).length = 8 := length_msbBits 8 b.toNat

@[simp] theorem length_bits (bytes : List UInt8) : (bits bytes).length = 8 * bytes.length := by
  induction bytes with
  | nil => rfl
  | cons b bytes ih =>
      simp only [bits, List.flatMap_cons, List.length_append, length_byteBits] at ih ⊢
      rw [ih, List.length_cons]
      ring

theorem bits_cons (b : UInt8) (bytes : List UInt8) : bits (b :: bytes) = byteBits b ++ bits bytes := rfl

theorem msbBits_succ (n v : Nat) : msbBits (n + 1) v = v.testBit n :: msbBits n v := by
  simp [msbBits, List.range_succ]

theorem ofBits_msbBits (n v : Nat) : ofBits (msbBits n v) = v % 2 ^ n := by
  induction n with
  | zero => simp [msbBits, ofBits, Nat.mod_one]
  | succ n ih =>
      rw [msbBits_succ, ofBits_cons, ih, length_msbBits, Nat.mod_pow_succ, Nat.toNat_testBit]
      ring

theorem ofBits_byteBits (b : UInt8) : ofBits (byteBits b) = b.toNat := by
  rw [byteBits, ofBits_msbBits]
  exact Nat.mod_eq_of_lt b.toNat_lt

theorem getElem?_msbBits (n v i : Nat) :
    (msbBits n v)[i]? = if i < n then some (v.testBit (n - 1 - i)) else none := by
  unfold msbBits
  split
  · rw [List.getElem?_map, List.getElem?_reverse (by simpa), List.length_range,
      List.getElem?_range (by omega)]
    rfl
  · rw [List.getElem?_eq_none]
    simp only [List.length_map, List.length_reverse, List.length_range]
    omega

/-- Bit `i` of an octet string is bit `7 - i % 8` of octet `i / 8`. -/
theorem getElem?_bits (bytes : List UInt8) (i : Nat) :
    (bits bytes)[i]? = bytes[i / 8]?.map fun b => b.toNat.testBit (7 - i % 8) := by
  induction bytes generalizing i with
  | nil => rfl
  | cons b bytes ih =>
      rw [bits_cons, List.getElem?_append, length_byteBits]
      by_cases first : i < 8
      · have quotient : i / 8 = 0 := Nat.div_eq_of_lt first
        rw [if_pos first, byteBits, getElem?_msbBits, if_pos first, quotient, Nat.mod_eq_of_lt first]
        rfl
      · have quotient : i / 8 = (i - 8) / 8 + 1 := by omega
        have remainder : i % 8 = (i - 8) % 8 := by omega
        rw [if_neg first, ih, quotient, remainder]
        rfl

/-- Numbers in base `K` compare by their high digit first. -/
theorem compare_mul_add {K v w : Nat} (x y : Nat) (belowV : v < K) (belowW : w < K) :
    compare (x * K + v) (y * K + w) = (compare x y).then (compare v w) := by
  rcases Nat.lt_trichotomy x y with below | same | above
  · have : (x + 1) * K ≤ y * K := Nat.mul_le_mul_right K below
    rw [Nat.add_mul, Nat.one_mul] at this
    rw [Nat.compare_eq_lt.mpr below, Nat.compare_eq_lt.mpr (by omega)]
    rfl
  · subst same
    rw [Nat.compare_eq_eq.mpr rfl]
    rcases Nat.lt_trichotomy v w with less | equal | greater
    · rw [Nat.compare_eq_lt.mpr less, Nat.compare_eq_lt.mpr (by omega)]
      rfl
    · rw [equal, Nat.compare_eq_eq.mpr rfl, Nat.compare_eq_eq.mpr rfl]
      rfl
    · rw [Nat.compare_eq_gt.mpr greater, Nat.compare_eq_gt.mpr (by omega)]
      rfl
  · have : (y + 1) * K ≤ x * K := Nat.mul_le_mul_right K above
    rw [Nat.add_mul, Nat.one_mul] at this
    rw [Nat.compare_eq_gt.mpr above, Nat.compare_eq_gt.mpr (by omega)]
    rfl

/-- Octet strings of one length compare, octet by octet, as their values do. -/
theorem compareLex_eq_compare_ofBits {l r : List UInt8} (sameLength : l.length = r.length) :
    List.compareLex compare l r = compare (ofBits (bits l)) (ofBits (bits r)) := by
  induction l generalizing r with
  | nil =>
      rw [List.length_nil, eq_comm, List.length_eq_zero_iff] at sameLength
      subst sameLength
      rfl
  | cons x l ih =>
      cases r with
      | nil => cases sameLength
      | cons y r =>
          have lengths : l.length = r.length := Nat.succ.inj sameLength
          rw [List.compareLex_cons_cons, ih lengths, bits_cons, bits_cons, ofBits_append, ofBits_append,
            ofBits_byteBits, ofBits_byteBits, UInt8.compare_eq_toNat_compare_toNat, length_bits, length_bits,
            lengths]
          have belowL : ofBits (bits l) < 2 ^ (8 * r.length) := by
            have := ofBits_lt (bits l)
            rwa [length_bits, lengths] at this
          have belowR : ofBits (bits r) < 2 ^ (8 * r.length) := by
            have := ofBits_lt (bits r)
            rwa [length_bits] at this
          exact (compare_mul_add _ _ belowL belowR).symm

/-- The big-endian value of an octet string. -/
theorem foldl_octets (n : Nat) (bytes : List UInt8) :
    bytes.foldl (fun n b => n * 256 + b.toNat) n = n * 2 ^ (8 * bytes.length) + ofBits (bits bytes) := by
  induction bytes generalizing n with
  | nil => simp [bits, ofBits]
  | cons b bytes ih =>
      rw [List.foldl_cons, ih, bits_cons, ofBits_append, ofBits_byteBits, length_bits, List.length_cons,
        show 8 * (bytes.length + 1) = 8 + 8 * bytes.length by ring, pow_add]
      ring

end Octets

section Masks

theorem zipWith_replicate_right (g : Bool → Bool → Bool) (l : List Bool) (c : Bool) :
    List.zipWith g l (List.replicate l.length c) = l.map (g · c) := by
  induction l with
  | nil => rfl
  | cons b l ih => rw [List.length_cons, List.replicate_succ, List.zipWith_cons_cons, ih, List.map_cons]

/-- A string combined bit by bit with a mask of `m` ones followed by zeros. -/
theorem zipWith_prefixMask (g : Bool → Bool → Bool) (l : List Bool) {m : Nat} (within : m ≤ l.length) :
    List.zipWith g l (List.replicate m true ++ List.replicate (l.length - m) false) =
      (l.take m).map (g · true) ++ (l.drop m).map (g · false) := by
  have front : (l.take m).length = m := by rw [List.length_take]; omega
  have back : (l.drop m).length = l.length - m := List.length_drop
  calc List.zipWith g l (List.replicate m true ++ List.replicate (l.length - m) false)
      = List.zipWith g (l.take m ++ l.drop m)
          (List.replicate (l.take m).length true ++ List.replicate (l.drop m).length false) := by
        rw [List.take_append_drop, front, back]
    _ = (l.take m).map (g · true) ++ (l.drop m).map (g · false) := by
        rw [List.zipWith_append List.length_replicate.symm, zipWith_replicate_right, zipWith_replicate_right]

/-- An operation on octets that acts bit by bit acts so on octet strings of one length. -/
theorem bits_zipWith {f : UInt8 → UInt8 → UInt8} {g : Bool → Bool → Bool}
    (bitwise : ∀ x y j, j < 8 → (f x y).toNat.testBit j = g (x.toNat.testBit j) (y.toNat.testBit j))
    {l₁ l₂ : List UInt8} (sameLength : l₁.length = l₂.length) :
    bits (List.zipWith f l₁ l₂) = List.zipWith g (bits l₁) (bits l₂) := by
  have onOctets : ∀ x y, byteBits (f x y) = List.zipWith g (byteBits x) (byteBits y) := by
    intro x y
    rw [byteBits, byteBits, byteBits, msbBits, msbBits, msbBits, List.zipWith_map, List.zipWith_self]
    apply List.map_congr_left
    intro j member
    rw [List.mem_reverse, List.mem_range] at member
    exact bitwise x y j member
  induction l₁ generalizing l₂ with
  | nil => rfl
  | cons x l₁ ih =>
      cases l₂ with
      | nil => cases sameLength
      | cons y l₂ =>
          rw [List.zipWith_cons_cons, bits_cons, bits_cons, bits_cons, onOctets,
            List.zipWith_append (by simp), ih (Nat.succ.inj sameLength)]

end Masks

end BitString
