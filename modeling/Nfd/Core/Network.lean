import Mathlib.Data.List.TakeWhile
import Nfd.Lib.BitString

/-!
# Networks of IP addresses

A `Network` is the range of addresses from `m_minAddress` to `m_maxAddress`, and `doesContain`
tests an address against both ends with the order of `boost::asio::ip::address`: every IPv4
address before every IPv6 address, IPv4 addresses by `to_uint()`, IPv6 addresses by their bytes
as `memcmp` orders them and then by their scope ids.  `operator>>` reads `address/length`, sets
the first `length` bits of a mask one at a time, and makes the range run from the address with
the other bits cleared to the address with them set, both with scope id 0.

Text is a list of characters; `ip::address::from_string` is a parameter.
-/

set_option autoImplicit false

namespace Nfd

open BitString

/-- `boost::asio::ip::address_v4`, as its bytes in network order. -/
structure AddressV4 where
  bytes : List UInt8
  length_bytes : bytes.length = 4
deriving DecidableEq, Repr

/-- `boost::asio::ip::address_v6`: its bytes and its scope id. -/
structure AddressV6 where
  bytes : List UInt8
  length_bytes : bytes.length = 16
  scopeId : Nat
deriving DecidableEq, Repr

/-- `boost::asio::ip::address`. -/
inductive Address
  | v4 (address : AddressV4)
  | v6 (address : AddressV6)
deriving DecidableEq, Repr

namespace AddressV4

/-- `to_uint()`: the bytes as a host-order integer. -/
def toUint (a : AddressV4) : Nat := a.bytes.foldl (fun n b => n * 256 + b.toNat) 0

/-- `operator<`. -/
def lt (a1 a2 : AddressV4) : Bool := a1.toUint < a2.toUint

theorem toUint_eq (a : AddressV4) : a.toUint = ofBits (bits a.bytes) := by
  rw [toUint, foldl_octets, Nat.zero_mul, Nat.zero_add]

theorem lt_iff (a1 a2 : AddressV4) : a1.lt a2 = true ↔ ofBits (bits a1.bytes) < ofBits (bits a2.bytes) := by
  rw [lt, toUint_eq, toUint_eq, decide_eq_true_iff]

end AddressV4

namespace AddressV6

/-- `operator<`: the bytes as `memcmp` orders them, then the scope ids. -/
def lt (a1 a2 : AddressV6) : Bool :=
  match List.compareLex compare a1.bytes a2.bytes with
  | .lt => true
  | .gt => false
  | .eq => a1.scopeId < a2.scopeId

theorem lt_iff (a1 a2 : AddressV6) :
    a1.lt a2 = true ↔ ofBits (bits a1.bytes) < ofBits (bits a2.bytes) ∨
      (ofBits (bits a1.bytes) = ofBits (bits a2.bytes) ∧ a1.scopeId < a2.scopeId) := by
  have sameLength : a1.bytes.length = a2.bytes.length := by rw [a1.length_bytes, a2.length_bytes]
  unfold lt
  rw [compareLex_eq_compare_ofBits sameLength]
  rcases Nat.lt_trichotomy (ofBits (bits a1.bytes)) (ofBits (bits a2.bytes)) with below | same | above
  · rw [Nat.compare_eq_lt.mpr below]
    simp [below]
  · rw [Nat.compare_eq_eq.mpr same]
    simp [same]
  · rw [Nat.compare_eq_gt.mpr above]
    simp only [Bool.false_eq_true, false_iff, not_or, not_and]
    omega

end AddressV6

namespace Address

/-- `operator<`: every IPv4 address before every IPv6 address. -/
def lt : Address → Address → Bool
  | .v4 _, .v6 _ => true
  | .v6 _, .v4 _ => false
  | .v4 a1, .v4 a2 => a1.lt a2
  | .v6 a1, .v6 a2 => a1.lt a2

/-- `operator<=`. -/
def le (a1 a2 : Address) : Bool := !a2.lt a1

/-- `is_v4()`. -/
def isV4 : Address → Bool
  | .v4 _ => true
  | .v6 _ => false

/-- `to_bytes()` of the address of its family. -/
def bytes : Address → List UInt8
  | .v4 a => a.bytes
  | .v6 a => a.bytes

/-- The scope id, 0 for an IPv4 address. -/
def scopeId : Address → Nat
  | .v4 _ => 0
  | .v6 a => a.scopeId

/-- The number of bits of an address of the family. -/
def bitLength : Address → Nat
  | .v4 _ => 32
  | .v6 _ => 128

end Address

/-- `Network`: the addresses from `m_minAddress` to `m_maxAddress`. -/
structure Network where
  minAddress : Address
  maxAddress : Address
deriving DecidableEq, Repr

namespace Network

def doesContain (network : Network) (address : Address) : Bool :=
  network.minAddress.le address && address.le network.maxAddress

/-- The loop of `operator>>` that sets the first `mask` bits of the `nBytes` bytes of
`maskBytes`. -/
def maskBytes (nBytes mask : Nat) : List UInt8 :=
  (List.range mask).foldl
    (fun maskBytes i =>
      let byteId := i / 8
      let bitIndex := 7 - i % 8
      maskBytes.modify byteId (· ||| (1 <<< bitIndex.toUInt8)))
    (List.replicate nBytes 0)

/-- `min[i] = addressBytes[i] & maskBytes[i]`. -/
def minBytes (addressBytes maskBytes : List UInt8) : List UInt8 := List.zipWith (· &&& ·) addressBytes maskBytes

/-- `max[i] = addressBytes[i] | ~(maskBytes[i])`. -/
def maxBytes (addressBytes maskBytes : List UInt8) : List UInt8 :=
  List.zipWith (fun a m => a ||| ~~~m) addressBytes maskBytes

@[simp] theorem length_maskBytes (nBytes mask : Nat) : (maskBytes nBytes mask).length = nBytes := by
  induction mask with
  | zero => simp [maskBytes]
  | succ mask ih =>
      rw [maskBytes, List.range_succ, List.foldl_append, ← maskBytes]
      simp [ih]

@[simp] theorem length_minBytes (addressBytes maskBytes : List UInt8) :
    (minBytes addressBytes maskBytes).length = min addressBytes.length maskBytes.length := List.length_zipWith

@[simp] theorem length_maxBytes (addressBytes maskBytes : List UInt8) :
    (maxBytes addressBytes maskBytes).length = min addressBytes.length maskBytes.length := List.length_zipWith

section Range

theorem toNat_one_shiftLeft {s : Nat} (within : s < 8) : ((1 : UInt8) <<< s.toUInt8).toNat = 2 ^ s := by
  have narrow : s.toUInt8.toNat % 8 = s := by
    show (UInt8.ofNat s).toNat % 8 = s
    rw [UInt8.toNat_ofNat']
    omega
  rw [UInt8.toNat_shiftLeft, UInt8.toNat_one, narrow, Nat.one_shiftLeft]
  exact Nat.mod_eq_of_lt (Nat.pow_lt_pow_right Nat.one_lt_two within)

theorem maskBytes_succ (nBytes mask : Nat) :
    maskBytes nBytes (mask + 1) =
      (maskBytes nBytes mask).modify (mask / 8) (· ||| (1 <<< (7 - mask % 8).toUInt8)) := by
  rw [maskBytes, List.range_succ, List.foldl_append, ← maskBytes]
  rfl

/-- Bit `i` of the mask is set exactly when `i < mask`. -/
theorem getElem?_bits_maskBytes (nBytes mask i : Nat) :
    (bits (maskBytes nBytes mask))[i]? = if i < 8 * nBytes then some (decide (i < mask)) else none := by
  induction mask with
  | zero =>
      rw [getElem?_bits, maskBytes, List.range_zero, List.foldl_nil, List.getElem?_replicate]
      by_cases inside : i < 8 * nBytes
      · rw [if_pos (by omega), if_pos inside]
        simp
      · rw [if_neg (by omega), if_neg inside]
        rfl
  | succ mask ih =>
      rw [getElem?_bits] at ih ⊢
      rw [maskBytes_succ, List.getElem?_modify]
      cases stored : (maskBytes nBytes mask)[i / 8]? with
      | none =>
          rw [stored] at ih
          have outside : ¬ i < 8 * nBytes := by
            intro inside
            rw [if_pos inside] at ih
            cases ih
          rw [if_neg outside]
          rfl
      | some b =>
          rw [stored] at ih
          have inside : i < 8 * nBytes := by
            by_contra outside
            rw [if_neg outside] at ih
            cases ih
          rw [if_pos inside] at ih ⊢
          have old : b.toNat.testBit (7 - i % 8) = decide (i < mask) := Option.some.inj ih
          simp only [Option.map_eq_map, Option.map_some, Option.some.injEq]
          by_cases sameByte : mask / 8 = i / 8
          · -- the bit this round sets is bit `i` exactly when `i = mask`
            rw [if_pos sameByte, UInt8.toNat_or, Nat.testBit_or, toNat_one_shiftLeft (by omega),
              Nat.testBit_two_pow, old]
            have sameBit : 7 - mask % 8 = 7 - i % 8 ↔ i = mask := by omega
            rw [Bool.eq_iff_iff]
            simp only [Bool.or_eq_true, decide_eq_true_eq, sameBit]
            omega
          · have other : i ≠ mask := fun same => sameByte (by rw [same])
            rw [if_neg sameByte, old]
            simp only [decide_eq_decide]
            omega

theorem bits_maskBytes {nBytes mask : Nat} (within : mask ≤ 8 * nBytes) :
    bits (maskBytes nBytes mask) = List.replicate mask true ++ List.replicate (8 * nBytes - mask) false := by
  apply List.ext_getElem?
  intro i
  rw [getElem?_bits_maskBytes, List.getElem?_append, List.getElem?_replicate, List.getElem?_replicate,
    List.length_replicate]
  by_cases below : i < mask
  · rw [if_pos (by omega), if_pos below, if_pos below, decide_eq_true below]
  · rw [if_neg below, decide_eq_false below]
    by_cases inside : i < 8 * nBytes
    · rw [if_pos inside, if_pos (by omega)]
    · rw [if_neg inside, if_neg (by omega)]

/-- The low end of the range: the first `mask` bits of the address, then zeros. -/
theorem bits_minBytes (addressBytes : List UInt8) {mask : Nat} (within : mask ≤ (bits addressBytes).length) :
    bits (minBytes addressBytes (maskBytes addressBytes.length mask)) =
      (bits addressBytes).take mask ++ List.replicate ((bits addressBytes).length - mask) false := by
  have maskBits := bits_maskBytes (show mask ≤ 8 * addressBytes.length by rwa [length_bits] at within)
  rw [minBytes, bits_zipWith (g := (· && ·)) (fun x y j _ => by rw [UInt8.toNat_and, Nat.testBit_and])
    (length_maskBytes _ _).symm, maskBits, ← length_bits, zipWith_prefixMask _ _ within]
  simp only [Bool.and_true, Bool.and_false, List.map_id', List.map_const', List.length_drop]

/-- The high end of the range: the first `mask` bits of the address, then ones. -/
theorem bits_maxBytes (addressBytes : List UInt8) {mask : Nat} (within : mask ≤ (bits addressBytes).length) :
    bits (maxBytes addressBytes (maskBytes addressBytes.length mask)) =
      (bits addressBytes).take mask ++ List.replicate ((bits addressBytes).length - mask) true := by
  have maskBits := bits_maskBytes (show mask ≤ 8 * addressBytes.length by rwa [length_bits] at within)
  have complement : ∀ x y : UInt8, ∀ j, j < 8 →
      (x ||| ~~~y).toNat.testBit j = (x.toNat.testBit j || !y.toNat.testBit j) := by
    intro x y j low
    have flipped : UInt8.size - 1 - y.toNat = 2 ^ 8 - (y.toNat + 1) := by
      have := y.toNat_lt
      simp only [UInt8.size]
      omega
    rw [UInt8.toNat_or, Nat.testBit_or, UInt8.toNat_not, flipped, Nat.testBit_two_pow_sub_succ y.toNat_lt,
      decide_eq_true low, Bool.true_and]
  rw [maxBytes, bits_zipWith (g := fun a b => a || !b) complement (length_maskBytes _ _).symm, maskBits,
    ← length_bits, zipWith_prefixMask _ _ within]
  simp only [Bool.not_true, Bool.or_false, Bool.not_false, Bool.or_true, List.map_id', List.map_const',
    List.length_drop]

/-- An address of the family lies between the two ends of the range, in value, exactly when it
begins with the first `mask` bits of the address. -/
theorem between_ends_iff {a b : List UInt8} (sameLength : b.length = a.length) {mask : Nat}
    (within : mask ≤ (bits a).length) :
    ofBits (bits (minBytes a (maskBytes a.length mask))) ≤ ofBits (bits b) ∧
        ofBits (bits b) ≤ ofBits (bits (maxBytes a (maskBytes a.length mask))) ↔
      (bits b).take mask = (bits a).take mask := by
  rw [bits_minBytes a within, bits_maxBytes a within]
  exact prefix_range_iff mask (by rw [length_bits, length_bits, sameLength])

end Range

/-- The branch of `operator>>` for an address and a prefix length `mask`. -/
def ofPrefix (address : Address) (mask : Nat) : Option Network :=
  match address with
  | .v4 a =>
      if mask > 32 then none
      else
        let maskBytes := maskBytes 4 mask
        some ⟨.v4 ⟨minBytes a.bytes maskBytes, by simp [maskBytes, a.length_bytes]⟩,
          .v4 ⟨maxBytes a.bytes maskBytes, by simp [maskBytes, a.length_bytes]⟩⟩
  | .v6 a =>
      if mask > 128 then none
      else
        let maskBytes := maskBytes 16 mask
        some ⟨.v6 ⟨minBytes a.bytes maskBytes, by simp [maskBytes, a.length_bytes], 0⟩,
          .v6 ⟨maxBytes a.bytes maskBytes, by simp [maskBytes, a.length_bytes], 0⟩⟩

section Contains

/-- The network `address/mask` holds the addresses of the family of `address` whose first `mask`
bits are those of `address`, except an IPv6 address with a scope id whose other bits are all
set: the high end of the range has scope id 0, and such an address is above it. -/
theorem doesContain_ofPrefix {address : Address} {mask : Nat} (within : mask ≤ address.bitLength) :
    ∃ network, ofPrefix address mask = some network ∧ ∀ x, network.doesContain x = true ↔
      x.isV4 = address.isV4 ∧ (bits x.bytes).take mask = (bits address.bytes).take mask ∧
        ((bits x.bytes).drop mask = List.replicate (address.bitLength - mask) true → x.scopeId = 0) := by
  cases address with
  | v4 a =>
      have fits : mask ≤ (bits a.bytes).length := by rw [length_bits, a.length_bytes]; exact within
      have notOver : ¬ mask > 32 := by have : mask ≤ 32 := within; omega
      rw [ofPrefix, if_neg notOver]
      refine ⟨_, rfl, ?_⟩
      intro x
      cases x with
      | v6 b => simp [doesContain, Address.le, Address.lt, Address.isV4]
      | v4 b =>
          have range := between_ends_iff (b := b.bytes) (by rw [a.length_bytes, b.length_bytes]) fits
          rw [a.length_bytes] at range
          simp only [doesContain, Address.le, Address.lt, Bool.and_eq_true, Bool.not_eq_true', Bool.eq_false_iff,
            ne_eq, AddressV4.lt_iff, Nat.not_lt, Address.isV4, Address.bytes, Address.scopeId]
          rw [range]
          simp
  | v6 a =>
      have fits : mask ≤ (bits a.bytes).length := by rw [length_bits, a.length_bytes]; exact within
      have notOver : ¬ mask > 128 := by have : mask ≤ 128 := within; omega
      rw [ofPrefix, if_neg notOver]
      refine ⟨_, rfl, ?_⟩
      intro x
      cases x with
      | v4 b => simp [doesContain, Address.le, Address.lt, Address.isV4]
      | v6 b =>
          have range := between_ends_iff (b := b.bytes) (by rw [a.length_bytes, b.length_bytes]) fits
          rw [a.length_bytes] at range
          simp only [doesContain, Address.le, Address.lt, Bool.and_eq_true, Bool.not_eq_true', Bool.eq_false_iff,
            ne_eq, AddressV6.lt_iff, Address.isV4, Address.bytes, Address.scopeId, Address.bitLength]
          -- the high end has scope id 0: an address with all the other bits set and a scope id is above it
          have top : List.take mask (bits b.bytes) = List.take mask (bits a.bytes) →
              (ofBits (bits (maxBytes a.bytes (maskBytes 16 mask))) = ofBits (bits b.bytes) ↔
                List.drop mask (bits b.bytes) = List.replicate (128 - mask) true) := by
            intro samePrefix
            have lengthA : (bits a.bytes).length = 128 := by rw [length_bits, a.length_bytes]
            have maxBits := bits_maxBytes a.bytes fits
            rw [a.length_bytes, lengthA] at maxBits
            rw [maxBits]
            constructor
            · intro sameValue
              have whole := ofBits_inj (by simp [a.length_bytes, b.length_bytes]; omega) sameValue
              rw [← List.take_append_drop mask (bits b.bytes), samePrefix] at whole
              exact (List.append_cancel_left whole).symm
            · intro rest
              rw [← List.take_append_drop mask (bits b.bytes), samePrefix, rest]
          constructor
          · rintro ⟨lower, upper⟩
            have samePrefix := range.mp ⟨by omega, by omega⟩
            refine ⟨trivial, samePrefix, fun rest => ?_⟩
            have := (top samePrefix).mpr rest
            omega
          · rintro ⟨-, samePrefix, atTop⟩
            obtain ⟨lower, upper⟩ := range.mpr samePrefix
            refine ⟨by omega, ?_⟩
            rintro (above | ⟨same, positive⟩)
            · omega
            · have := atTop ((top samePrefix).mp same)
              omega

end Contains

/-- The value `boost::lexical_cast<size_t>` reads from a string of digits. -/
def decimalValue (digits : List Char) : Nat := digits.foldl (fun n c => n * 10 + (c.toNat - '0'.toNat)) 0

/-- `boost::lexical_cast<size_t>` of a string of digits: it fails on the empty string and on a
value that does not fit. -/
def lexicalCastSizeT (digits : List Char) : Option Nat :=
  if digits = [] ∨ 2 ^ 64 ≤ decimalValue digits then none else some (decimalValue digits)

/-- `operator>>(is, network)`, on the string `is >> networkStr` reads: `none` where it sets
`failbit`. -/
def parse (fromString : List Char → Option Address) (networkStr : List Char) : Option Network :=
  match networkStr.idxOf? '/' with
  | none => (fromString networkStr).map fun address => ⟨address, address⟩
  | some position =>
      match fromString (networkStr.take position) with
      | none => none
      | some address =>
          let prefixLenStr := networkStr.drop (position + 1)
          if !prefixLenStr.all Char.isDigit then none
          else (lexicalCastSizeT prefixLenStr).bind (ofPrefix address)

/-- `std::isspace` in the classic locale. -/
def isSpace (c : Char) : Bool :=
  c = ' ' || c = '\t' || c = '\n' || c = '\x0b' || c = '\x0c' || c = '\r'

/-- `boost::lexical_cast<Network>(s)`: the stream skips no whitespace, the extraction must not
fail, and it must have read all of `s`. -/
def lexicalCast (fromString : List Char → Option Address) (s : List Char) : Option Network :=
  let networkStr := s.takeWhile (!isSpace ·)
  if networkStr = [] ∨ networkStr.length < s.length then none else parse fromString networkStr

/-- `Network::isValidCidr`. -/
def isValidCidr (fromString : List Char → Option Address) (cidr : List Char) : Bool :=
  match cidr.idxOf? '/' with
  | none => false
  | some _ => (lexicalCast fromString cidr).isSome

section Parse

variable (fromString : List Char → Option Address)

theorem idxOf?_slash {text : List Char} (noSlash : '/' ∉ text) (rest : List Char) :
    (text ++ '/' :: rest).idxOf? '/' = some text.length := by
  induction text with
  | nil => simp [List.idxOf?_cons]
  | cons c text ih =>
      have other : c ≠ '/' := fun same => noSlash (same ▸ List.mem_cons_self)
      rw [List.cons_append, List.idxOf?_cons, ih (fun member => noSlash (List.mem_cons_of_mem c member))]
      simp [other]

/-- `operator>>` on `text/prefixLenStr`, where `text` has no slash. -/
theorem parse_slash {text : List Char} (noSlash : '/' ∉ text) (prefixLenStr : List Char) :
    parse fromString (text ++ '/' :: prefixLenStr) =
      (fromString text).bind fun address =>
        if prefixLenStr.all Char.isDigit then (lexicalCastSizeT prefixLenStr).bind (ofPrefix address) else none := by
  have front : (text ++ '/' :: prefixLenStr).take text.length = text := List.take_left' rfl
  have back : (text ++ '/' :: prefixLenStr).drop (text.length + 1) = prefixLenStr := by simp
  unfold parse
  rw [idxOf?_slash noSlash]
  dsimp only
  rw [front, back]
  cases fromString text with
  | none => rfl
  | some address => cases prefixLenStr.all Char.isDigit <;> rfl

theorem ofPrefix_eq_none_iff (address : Address) (mask : Nat) :
    ofPrefix address mask = none ↔ address.bitLength < mask := by
  cases address with
  | v4 a => simp [ofPrefix, Address.bitLength]
  | v6 a => simp [ofPrefix, Address.bitLength]

theorem bitLength_le (address : Address) : address.bitLength ≤ 128 := by
  cases address <;> simp [Address.bitLength]

/-- `operator>>` sets `failbit` on `text/prefixLenStr` exactly when the address does not parse,
or the length is empty, has a character other than a digit, or exceeds the bits of the family. -/
theorem parse_eq_none_iff {text : List Char} (noSlash : '/' ∉ text) (prefixLenStr : List Char) :
    parse fromString (text ++ '/' :: prefixLenStr) = none ↔
      fromString text = none ∨ prefixLenStr = [] ∨ prefixLenStr.all Char.isDigit = false ∨
        ∃ address, fromString text = some address ∧ address.bitLength < decimalValue prefixLenStr := by
  rw [parse_slash fromString noSlash]
  cases parsed : fromString text with
  | none => simp
  | some address =>
      rw [Option.bind_some]
      by_cases digits : prefixLenStr.all Char.isDigit = true
      · rw [if_pos digits]
        by_cases empty : prefixLenStr = []
        · rw [lexicalCastSizeT, if_pos (Or.inl empty)]
          simp [empty]
        · by_cases huge : 2 ^ 64 ≤ decimalValue prefixLenStr
          · -- `lexical_cast` throws, and the length is above any family's anyway
            have beyond : address.bitLength < decimalValue prefixLenStr := by
              have := bitLength_le address
              omega
            rw [lexicalCastSizeT, if_pos (Or.inr huge)]
            simp [beyond]
          · rw [lexicalCastSizeT, if_neg (not_or.mpr ⟨empty, huge⟩), Option.bind_some, ofPrefix_eq_none_iff]
            simp [empty, digits]
      · simp [digits]

/-- `operator>>` reads `text/prefixLenStr` as the network of the address and the length, when the
address parses and the length is digits within the bits of the family. -/
theorem parse_cidr {text : List Char} (noSlash : '/' ∉ text) {address : Address}
    (parsed : fromString text = some address) {prefixLenStr : List Char} (nonEmpty : prefixLenStr ≠ [])
    (digits : prefixLenStr.all Char.isDigit = true) (within : decimalValue prefixLenStr ≤ address.bitLength) :
    parse fromString (text ++ '/' :: prefixLenStr) = ofPrefix address (decimalValue prefixLenStr) := by
  have fits : ¬ (prefixLenStr = [] ∨ 2 ^ 64 ≤ decimalValue prefixLenStr) := by
    have := bitLength_le address
    exact not_or.mpr ⟨nonEmpty, by omega⟩
  rw [parse_slash fromString noSlash, parsed, Option.bind_some, if_pos digits, lexicalCastSizeT, if_neg fits,
    Option.bind_some]

/-- Without whitespace, `lexical_cast` reads what `operator>>` reads. -/
theorem lexicalCast_of_noSpace {s : List Char} (nonEmpty : s ≠ []) (noSpace : ∀ c ∈ s, isSpace c = false) :
    lexicalCast fromString s = parse fromString s := by
  have whole : s.takeWhile (!isSpace ·) = s := List.takeWhile_eq_self_iff.mpr (by simpa using noSpace)
  rw [lexicalCast, whole, if_neg (by simp [nonEmpty])]

/-- `isValidCidr`: a slash, no whitespace, and `operator>>` succeeds on the whole string. -/
theorem isValidCidr_iff (cidr : List Char) :
    isValidCidr fromString cidr = true ↔
      '/' ∈ cidr ∧ (∀ c ∈ cidr, isSpace c = false) ∧ (parse fromString cidr).isSome := by
  unfold isValidCidr
  cases found : cidr.idxOf? '/' with
  | none => simp [List.idxOf?_eq_none_iff.mp found]
  | some position =>
      have member : '/' ∈ cidr := List.isSome_idxOf?.mp (by rw [found]; rfl)
      have nonEmpty : cidr ≠ [] := List.ne_nil_of_mem member
      simp only [member, true_and]
      unfold lexicalCast
      by_cases noSpace : ∀ c ∈ cidr, isSpace c = false
      · rw [← lexicalCast, lexicalCast_of_noSpace fromString nonEmpty noSpace]
        exact ⟨fun parsed => ⟨noSpace, parsed⟩, fun both => both.2⟩
      · -- the string `is >> networkStr` reads stops at the first whitespace, before the end
        have shorter : (cidr.takeWhile (!isSpace ·)).length < cidr.length := by
          have isPrefix := List.takeWhile_prefix (fun c => !isSpace c) (l := cidr)
          rcases Nat.lt_or_eq_of_le isPrefix.length_le with less | same
          · exact less
          · have := List.takeWhile_eq_self_iff.mp (isPrefix.eq_of_length same)
            exact absurd (by simpa using this) noSpace
        rw [if_pos (Or.inr shorter)]
        simp only [Option.isSome_none, Bool.false_eq_true, false_iff, not_and]
        exact fun allOk => absurd allOk noSpace

end Parse

end Network

end Nfd
