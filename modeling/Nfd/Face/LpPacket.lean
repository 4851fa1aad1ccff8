import Mathlib

/-!
# NDNLPv2 packets and the sizes of their encoding

An `lp::Packet` as the fragmenter and the reassembler read it: the Sequence, FragIndex,
FragCount and Fragment fields, and the other header fields kept as the TLV elements they
encode to.  `wireSize` is the size of `wireEncode()`: the bare network packet when the
Fragment is the only field, and otherwise an LpPacket element around the header elements
and the Fragment element.  TLV-TYPE numbers of these fields are below 253,
so each TLV-TYPE is one octet; Sequence is a fixed-width 8-octet number, FragIndex and
FragCount are NonNegativeIntegers.
-/

set_option autoImplicit false

namespace Nfd.Lp

/-- `tlv::sizeOfVarNumber`. -/
def sizeOfVarNumber (n : Nat) : Nat :=
  if n < 253 then 1 else if n ≤ 0xFFFF then 3 else if n ≤ 0xFFFFFFFF then 5 else 9

/-- `tlv::sizeOfNonNegativeInteger`. -/
def sizeOfNonNegativeInteger (n : Nat) : Nat :=
  if n ≤ 0xFF then 1 else if n ≤ 0xFFFF then 2 else if n ≤ 0xFFFFFFFF then 4 else 8

/-- `Block::size()` of an element with this TLV-TYPE and a value of this length. -/
def elementSize (type length : Nat) : Nat := sizeOfVarNumber type + sizeOfVarNumber length + length

def lpPacketType : Nat := 100
def fragmentType : Nat := 80
def sequenceType : Nat := 81
def fragIndexType : Nat := 82
def fragCountType : Nat := 83

/-- A header field other than Sequence, FragIndex and FragCount, as its TLV element. -/
structure Field where
  type : Nat
  value : List UInt8
deriving DecidableEq, Repr

def Field.size (f : Field) : Nat := elementSize f.type f.value.length

/-- `lp::Packet`.  FragIndex and FragCount hold `uint64_t` values, which the fragmenter
keeps below its `nMaxFragments`. -/
structure Packet where
  headers : List Field
  sequence : Option UInt64
  fragIndex : Option Nat
  fragCount : Option Nat
  fragment : Option (List UInt8)
deriving DecidableEq, Repr

/-- `lp::Packet()`. -/
def Packet.empty : Packet := ⟨[], none, none, none, none⟩

/-- `set<lp::SequenceField>(sequence)`. -/
def Packet.setSequence (sequence : UInt64) (p : Packet) : Packet := { p with sequence := some sequence }

/-- The elements other than Fragment. -/
def Packet.headerSize (p : Packet) : Nat :=
  (p.headers.map Field.size).sum + p.sequence.elim 0 (fun _ => elementSize sequenceType 8) +
    p.fragIndex.elim 0 (fun i => elementSize fragIndexType (sizeOfNonNegativeInteger i)) +
    p.fragCount.elim 0 (fun n => elementSize fragCountType (sizeOfNonNegativeInteger n))

def Packet.fragmentSize (p : Packet) : Nat := p.fragment.elim 0 fun f => elementSize fragmentType f.length

/-- The Fragment is the only field, so that `wireEncode()` returns the bare network packet. -/
def Packet.isBare : Packet → Bool
  | ⟨[], none, none, none, some _⟩ => true
  | _ => false

/-- `wireEncode().size()`.  A bare network packet is the Fragment's value: the link service
puts one network-layer packet there, whose element is the whole value. -/
def Packet.wireSize (p : Packet) : Nat :=
  if p.isBare then (p.fragment.getD []).length
  else elementSize lpPacketType (p.headerSize + p.fragmentSize)

section Sizes

theorem sizeOfVarNumber_pos (n : Nat) : 1 ≤ sizeOfVarNumber n := by
  unfold sizeOfVarNumber
  split_ifs <;> omega

theorem sizeOfVarNumber_of_lt {n : Nat} (oneOctet : n < 253) : sizeOfVarNumber n = 1 := if_pos oneOctet

theorem sizeOfVarNumber_le (n : Nat) : sizeOfVarNumber n ≤ 9 := by
  unfold sizeOfVarNumber
  split_ifs <;> omega

theorem sizeOfVarNumber_mono {a b : Nat} (le : a ≤ b) : sizeOfVarNumber a ≤ sizeOfVarNumber b := by
  unfold sizeOfVarNumber
  split_ifs <;> omega

/-- Below 65536 a TLV-LENGTH takes one octet, or three from 253 on. -/
theorem sizeOfVarNumber_of_le {n : Nat} (twoOctets : n ≤ 0xFFFF) :
    sizeOfVarNumber n = if n < 253 then 1 else 3 := by
  unfold sizeOfVarNumber
  split_ifs <;> omega

theorem sizeOfNonNegativeInteger_le (n : Nat) : sizeOfNonNegativeInteger n ≤ 8 := by
  unfold sizeOfNonNegativeInteger
  split_ifs <;> omega

theorem elementSize_mono (type : Nat) {a b : Nat} (le : a ≤ b) : elementSize type a ≤ elementSize type b := by
  have := sizeOfVarNumber_mono le
  unfold elementSize
  omega

/-- An element of a one-octet TLV-TYPE costs at most ten octets beyond its value. -/
theorem elementSize_le {type : Nat} (oneOctet : type < 253) (length : Nat) :
    elementSize type length ≤ 10 + length := by
  have := sizeOfVarNumber_le length
  rw [elementSize, sizeOfVarNumber_of_lt oneOctet]
  omega

/-- A longer value grows the element by at most the eight octets its TLV-LENGTH can gain. -/
theorem elementSize_add_le (type length extra : Nat) :
    elementSize type (length + extra) ≤ elementSize type length + extra + 8 := by
  have := sizeOfVarNumber_le (length + extra)
  have := sizeOfVarNumber_pos length
  unfold elementSize
  omega

@[simp] theorem elementSize_sequence : elementSize sequenceType 8 = 10 := rfl

theorem elementSize_nonNegativeInteger_le {type : Nat} (oneOctet : type < 253) (n : Nat) :
    elementSize type (sizeOfNonNegativeInteger n) ≤ 10 := by
  have small := sizeOfNonNegativeInteger_le n
  rw [elementSize, sizeOfVarNumber_of_lt oneOctet, sizeOfVarNumber_of_lt (by omega)]
  omega

theorem le_elementSize (type length : Nat) : length ≤ elementSize type length := by
  unfold elementSize
  omega

end Sizes

section Bare

variable {p : Packet}

theorem eq_of_isBare (bare : p.isBare = true) : ∃ netPkt, p = ⟨[], none, none, none, some netPkt⟩ := by
  rcases p with ⟨_ | _, _ | _, _ | _, _ | _, _ | ⟨netPkt⟩⟩ <;> simp [Packet.isBare] at bare ⊢

/-- A packet with another field than the Fragment, or none, encodes as an LpPacket. -/
theorem wireSize_of_isBare_false (enveloped : p.isBare = false) :
    p.wireSize = elementSize lpPacketType (p.headerSize + p.fragmentSize) := by
  rw [Packet.wireSize, if_neg (by simp [enveloped])]

theorem wireSize_of_bare (netPkt : List UInt8) : (⟨[], none, none, none, some netPkt⟩ : Packet).wireSize = netPkt.length :=
  rfl

theorem isBare_of_fragment_eq_none (fragmentless : p.fragment = none) : p.isBare = false := by
  rcases p with ⟨_ | _, _ | _, _ | _, _ | _, _ | _⟩ <;> simp_all [Packet.isBare]

/-- Header fields added to a packet that is not bare keep it an LpPacket. -/
theorem isBare_appendHeaders (enveloped : p.isBare = false) (added : List Field) :
    { p with headers := p.headers ++ added }.isBare = false := by
  rcases p with ⟨_ | _, _ | _, _ | _, _ | _, _ | _⟩ <;> cases added <;> simp_all [Packet.isBare]

theorem fragment_length_le (p : Packet) : (p.fragment.getD []).length ≤ p.fragmentSize := by
  cases h : p.fragment with
  | none => simp [Packet.fragmentSize, h]
  | some netPkt => simpa [Packet.fragmentSize, h] using le_elementSize fragmentType netPkt.length

end Bare

section SetSequence

variable (sequence : UInt64) (p : Packet)

@[simp] theorem setSequence_headers : (p.setSequence sequence).headers = p.headers := rfl
@[simp] theorem setSequence_sequence : (p.setSequence sequence).sequence = some sequence := rfl
@[simp] theorem setSequence_fragIndex : (p.setSequence sequence).fragIndex = p.fragIndex := rfl
@[simp] theorem setSequence_fragCount : (p.setSequence sequence).fragCount = p.fragCount := rfl
@[simp] theorem setSequence_fragment : (p.setSequence sequence).fragment = p.fragment := rfl

/-- Setting the Sequence adds its ten octets, or nothing when there was one. -/
theorem headerSize_setSequence_le : (p.setSequence sequence).headerSize ≤ p.headerSize + 10 := by
  cases h : p.sequence with
  | none => simp [Packet.headerSize, h]; omega
  | some _ => simp [Packet.headerSize, h]

@[simp] theorem isBare_setSequence : (p.setSequence sequence).isBare = false := by
  rcases p with ⟨_ | _, _ | _, _ | _, _ | _, _ | _⟩ <;> rfl

/-- Setting the Sequence adds at most the thirty octets `MAX_SINGLE_FRAG_OVERHEAD` keeps for
it: the Sequence element, and the LpPacket and Fragment headers around a bare packet. -/
theorem wireSize_setSequence_le : (p.setSequence sequence).wireSize ≤ p.wireSize + 30 := by
  rw [wireSize_of_isBare_false (isBare_setSequence sequence p)]
  cases bare : p.isBare with
  | false =>
      have header := headerSize_setSequence_le sequence p
      have grown := elementSize_add_le lpPacketType (p.headerSize + p.fragmentSize) 10
      have bounded := elementSize_mono lpPacketType
        (show (p.setSequence sequence).headerSize + (p.setSequence sequence).fragmentSize ≤
          p.headerSize + p.fragmentSize + 10 by simp only [Packet.fragmentSize, setSequence_fragment]; omega)
      rw [wireSize_of_isBare_false bare]
      omega
  | true =>
      obtain ⟨netPkt, rfl⟩ := eq_of_isBare bare
      have lp := elementSize_le (by decide : lpPacketType < 253) (10 + elementSize fragmentType netPkt.length)
      have fragment := elementSize_le (by decide : fragmentType < 253) netPkt.length
      rw [wireSize_of_bare]
      simp only [Packet.headerSize, Packet.fragmentSize, Packet.setSequence, elementSize_sequence,
        Option.elim_some, Option.elim_none, List.map_nil, List.sum_nil, Nat.zero_add, Nat.add_zero] at lp ⊢
      omega

theorem wireSize_le_setSequence : p.wireSize ≤ (p.setSequence sequence).wireSize := by
  rw [wireSize_of_isBare_false (isBare_setSequence sequence p)]
  cases bare : p.isBare with
  | false =>
      have larger : p.headerSize ≤ (p.setSequence sequence).headerSize := by
        cases h : p.sequence with
        | none => simp [Packet.headerSize, h]
        | some _ => simp [Packet.headerSize, h]
      rw [wireSize_of_isBare_false bare]
      exact elementSize_mono lpPacketType (by simp only [Packet.fragmentSize, setSequence_fragment]; omega)
  | true =>
      -- the bare packet is the value of the Fragment inside the new LpPacket
      have inner := fragment_length_le (p.setSequence sequence)
      have outer := le_elementSize lpPacketType
        ((p.setSequence sequence).headerSize + (p.setSequence sequence).fragmentSize)
      rw [Packet.wireSize, if_pos bare]
      simp only [setSequence_fragment] at inner
      omega

end SetSequence

theorem wireSize_eq {p : Packet} (enveloped : p.isBare = false) :
    p.wireSize = 1 + sizeOfVarNumber (p.headerSize + p.fragmentSize) + (p.headerSize + p.fragmentSize) := by
  rw [wireSize_of_isBare_false enveloped, elementSize, sizeOfVarNumber_of_lt (by decide : lpPacketType < 253)]

/-- The encoding costs at most ten octets around the elements: the LpPacket's header, or
nothing for a bare packet. -/
theorem wireSize_le (p : Packet) : p.wireSize ≤ 10 + p.headerSize + p.fragmentSize := by
  have := elementSize_le (by decide : lpPacketType < 253) (p.headerSize + p.fragmentSize)
  have := fragment_length_le p
  unfold Packet.wireSize
  split <;> omega

end Nfd.Lp
