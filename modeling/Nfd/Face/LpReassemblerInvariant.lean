import Nfd.Face.LpReassembler

/-! # The reassembler on arbitrary input

Whatever fragments arrive (any FragIndex, FragCount, Sequence and endpoint, in any order,
with drop timers firing in between), every partial packet the reassembler stores keeps
`0 < nReceivedFragments < fragCount ≤ nMaxFragments`, has one slot per fragment, counts
exactly its filled slots, and holds in each filled slot a fragment of its own message
(`Robust`).  From such a state `receiveFragment` drops the packet, delivers it whole, or
fills a slot within the partial packet (`receiveFragment_cases`), and it delivers a message
of several fragments only once every slot holds a fragment of it (`receiveFragment_complete`). -/
set_option autoImplicit false
namespace Nfd.Face.LpReassembler

open Nfd.Lp

/-- Slot `j` of the partial packet under `key` holds a fragment of that message. -/
def SlotOf (key : Key) (fragCount j : Nat) (frag : Packet) : Prop :=
  frag.fragIndex.getD 0 = j ∧ frag.fragCount.getD 1 = fragCount ∧
    ∃ sequence, frag.sequence = some sequence ∧ sequence - UInt64.ofNat j = key.2

/-- A slot is filled when it holds a fragment, which always has a Sequence. -/
def PartialPacket.nFilled (pp : PartialPacket) : Nat := pp.fragments.countP fun frag => frag.sequence.isSome

/-- A partial packet `addFragment` may be given: a new one, or one that is stored. -/
structure Prepared (options : Options) (key : Key) (pp : PartialPacket) : Prop where
  received_lt : pp.nReceivedFragments < pp.fragCount
  count_le : pp.fragCount ≤ options.nMaxFragments
  length_eq : pp.fragments.length = pp.fragCount
  received_eq : pp.nReceivedFragments = pp.nFilled
  slot : ∀ j (within : j < pp.fragments.length), pp.fragments[j].sequence.isSome →
    SlotOf key pp.fragCount j pp.fragments[j]

def Stored (options : Options) (key : Key) (pp : PartialPacket) : Prop :=
  Prepared options key pp ∧ 0 < pp.nReceivedFragments

def Robust (options : Options) (partialPackets : PartialPackets) : Prop :=
  ∀ key pp, partialPackets key = some pp → Stored options key pp

/-- Every slot holds a fragment of the message under `key`. -/
def Complete (key : Key) (pp : PartialPacket) : Prop :=
  pp.fragments.length = pp.fragCount ∧
    ∀ j (within : j < pp.fragments.length), SlotOf key pp.fragCount j pp.fragments[j]

section Slots

variable {options : Options} {key : Key}

theorem Prepared.fresh {fragCount : Nat} (positive : 0 < fragCount) (limit : fragCount ≤ options.nMaxFragments) :
    Prepared options key ⟨List.replicate fragCount Packet.empty, fragCount, 0⟩ := by
  constructor
  · exact positive
  · exact limit
  · simp
  · simp [PartialPacket.nFilled, List.countP_replicate, Packet.empty]
  · intro j within filled
    simp [Packet.empty] at filled

theorem Robust.update_none {partialPackets : PartialPackets} (robust : Robust options partialPackets) :
    Robust options (Function.update partialPackets key none) := by
  intro other pp stored
  by_cases same : other = key
  · subst same
    simp at stored
  · rw [Function.update_of_ne same] at stored
    exact robust other pp stored

theorem Robust.update_some {partialPackets : PartialPackets} (robust : Robust options partialPackets)
    {pp : PartialPacket} (stored : Stored options key pp) :
    Robust options (Function.update partialPackets key (some pp)) := by
  intro other pp' found
  by_cases same : other = key
  · subst same
    simp only [Function.update_self, Option.some.injEq] at found
    exact found ▸ stored
  · rw [Function.update_of_ne same] at found
    exact robust other pp' found

/-- Filling an empty slot with a fragment of the message counts one more filled slot. -/
theorem Prepared.fill {pp : PartialPacket} (prepared : Prepared options key pp) {j : Nat}
    (within : j < pp.fragments.length) (empty : pp.fragments[j].sequence.isSome = false)
    {packet : Packet} (agrees : SlotOf key pp.fragCount j packet) :
    (pp.fill j packet).nReceivedFragments = (pp.fill j packet).nFilled ∧
      (pp.fill j packet).fragments.length = pp.fragCount ∧
      ∀ i (inside : i < (pp.fill j packet).fragments.length),
        (pp.fill j packet).fragments[i].sequence.isSome →
          SlotOf key (pp.fill j packet).fragCount i (pp.fill j packet).fragments[i] := by
  obtain ⟨sequence, hasSequence, _⟩ := agrees.2.2
  refine ⟨?_, by simp [PartialPacket.fill, prepared.length_eq], ?_⟩
  · simp only [PartialPacket.fill, PartialPacket.nFilled, List.countP_set within, empty, hasSequence]
    have := prepared.received_eq
    simp only [PartialPacket.nFilled] at this
    simp
    omega
  · intro i inside filled
    simp only [PartialPacket.fill, List.getElem_set] at filled ⊢
    by_cases same : j = i
    · subst same
      simpa using agrees
    · simp only [same, if_false] at filled ⊢
      exact prepared.slot i (by simpa [PartialPacket.fill] using inside) filled

theorem nFilled_le (pp : PartialPacket) : pp.nFilled ≤ pp.fragments.length := List.countP_le_length

/-- All slots are filled once as many are counted as there are slots. -/
theorem complete_of_nFilled {pp : PartialPacket}
    (slots : ∀ i (inside : i < pp.fragments.length), pp.fragments[i].sequence.isSome →
      SlotOf key pp.fragCount i pp.fragments[i])
    (length : pp.fragments.length = pp.fragCount) (full : pp.nFilled = pp.fragCount) :
    Complete key pp := by
  refine ⟨length, fun i inside => slots i inside ?_⟩
  have all : ∀ frag ∈ pp.fragments, frag.sequence.isSome := by
    rw [← List.countP_eq_length]
    unfold PartialPacket.nFilled at full
    omega
  exact all _ (List.getElem_mem inside)

end Slots

section Receive

variable {options : Options} {partialPackets : PartialPackets}

/-- `addFragment` keeps every stored partial packet in shape, and delivers only a partial
packet whose slots are all filled. -/
theorem addFragment_spec (robust : Robust options partialPackets) {key : Key} {pp : PartialPacket}
    (prepared : Prepared options key pp) {j : Nat} (within : j < pp.fragments.length) {packet : Packet}
    (agrees : SlotOf key pp.fragCount j packet) :
    Robust options (addFragment partialPackets key pp j packet).1 ∧
      ∀ result, (addFragment partialPackets key pp j packet).2 = some result →
        ∃ full : PartialPacket, Complete key full ∧ full.fragCount = pp.fragCount ∧
          result = (doReassembly full, full.fragments.getD 0 Packet.empty) := by
  unfold addFragment
  rw [List.getD_eq_getElem?_getD, List.getElem?_eq_getElem within, Option.getD_some]
  by_cases filled : pp.fragments[j].sequence.isSome
  · -- a repeat: the partial packet is stored again as it was, and counts a filled slot
    rw [if_pos filled]
    have counted : 0 < pp.nReceivedFragments := by
      rw [prepared.received_eq]
      exact List.countP_pos_iff.mpr ⟨_, List.getElem_mem within, filled⟩
    exact ⟨robust.update_some ⟨prepared, counted⟩, fun _ none => by cases none⟩
  · rw [if_neg filled]
    obtain ⟨received, length, slots⟩ := prepared.fill within (by simpa using filled) agrees
    have bounded := nFilled_le (pp.fill j packet)
    dsimp only
    split
    · rename_i full
      refine ⟨robust.update_none, fun result delivered => ⟨pp.fill j packet, ?_, rfl, ?_⟩⟩
      · exact complete_of_nFilled slots (by simpa [PartialPacket.fill] using length) (by
          rw [← received, full])
      · simp only [Option.some.injEq] at delivered
        exact delivered.symm
    · rename_i short
      have stored : Stored options key (pp.fill j packet) := by
        refine ⟨⟨?_, prepared.count_le, length, received, slots⟩, ?_⟩
        · simp only [PartialPacket.fill] at short length received bounded ⊢
          omega
        · simp [PartialPacket.fill]
      exact ⟨robust.update_some stored, fun _ none => by cases none⟩

/-- From a state where every stored partial packet is in shape, `receiveFragment` drops the
packet, delivers it whole, or fills slot FragIndex of a partial packet that has that slot. -/
theorem receiveFragment_cases (robust : Robust options partialPackets) (remoteEndpoint : EndpointId)
    (packet : Packet) :
    receiveFragment options partialPackets remoteEndpoint packet = (partialPackets, none) ∨
      (packet.fragIndex.getD 0 = 0 ∧ packet.fragCount.getD 1 = 1 ∧
        receiveFragment options partialPackets remoteEndpoint packet =
          (partialPackets, some (packet.fragment.getD [], packet))) ∨
      ∃ sequence pp, packet.sequence = some sequence ∧
        Prepared options (remoteEndpoint, sequence - UInt64.ofNat (packet.fragIndex.getD 0)) pp ∧
        pp.fragCount = packet.fragCount.getD 1 ∧ packet.fragIndex.getD 0 < pp.fragments.length ∧
        receiveFragment options partialPackets remoteEndpoint packet =
          addFragment partialPackets (remoteEndpoint, sequence - UInt64.ofNat (packet.fragIndex.getD 0)) pp
            (packet.fragIndex.getD 0) packet := by
  unfold receiveFragment
  by_cases ordered : packet.fragIndex.getD 0 ≥ packet.fragCount.getD 1
  · exact .inl (if_pos ordered)
  rw [if_neg ordered]
  by_cases overLimit : packet.fragCount.getD 1 > options.nMaxFragments
  · exact .inl (if_pos overLimit)
  rw [if_neg overLimit]
  by_cases single : packet.fragIndex.getD 0 = 0 ∧ packet.fragCount.getD 1 = 1
  · exact .inr (.inl ⟨single.1, single.2, if_pos single⟩)
  rw [if_neg single]
  cases hasSequence : packet.sequence with
  | none => exact .inl rfl
  | some sequence =>
      dsimp only
      cases found : partialPackets (remoteEndpoint, sequence - UInt64.ofNat (packet.fragIndex.getD 0)) with
      | none =>
          -- a new partial packet, with one empty slot per fragment
          right; right
          refine ⟨sequence, _, rfl, Prepared.fresh (by omega : 0 < packet.fragCount.getD 1)
            (by omega : packet.fragCount.getD 1 ≤ options.nMaxFragments), rfl, by simp; omega, ?_⟩
          simp [PartialPacket.empty]
      | some pp =>
          obtain ⟨prepared, counted⟩ := robust _ pp found
          have stored : pp.fragCount ≠ 0 := by have := prepared.received_lt; omega
          simp only [Option.getD_some, if_neg stored]
          by_cases changed : packet.fragCount.getD 1 ≠ pp.fragCount
          · exact .inl (if_pos changed)
          · right; right
            have same : pp.fragCount = packet.fragCount.getD 1 := by omega
            refine ⟨sequence, pp, rfl, prepared, same, by rw [prepared.length_eq]; omega, if_neg changed⟩

/-- What `receiveFragment` delivers: the packet itself when it is the only fragment of its
message, or the payloads of a partial packet whose slots all hold fragments of the message
under the packet's key. -/
theorem receiveFragment_spec (robust : Robust options partialPackets) (remoteEndpoint : EndpointId)
    (packet : Packet) :
    Robust options (receiveFragment options partialPackets remoteEndpoint packet).1 ∧
      ∀ result, (receiveFragment options partialPackets remoteEndpoint packet).2 = some result →
        (packet.fragIndex.getD 0 = 0 ∧ packet.fragCount.getD 1 = 1 ∧ result = (packet.fragment.getD [], packet)) ∨
          ∃ sequence full, packet.sequence = some sequence ∧
            Complete (remoteEndpoint, sequence - UInt64.ofNat (packet.fragIndex.getD 0)) full ∧
            full.fragCount = packet.fragCount.getD 1 ∧
            result = (doReassembly full, full.fragments.getD 0 Packet.empty) := by
  rcases receiveFragment_cases robust remoteEndpoint packet with
    dropped | ⟨first, single, whole⟩ | ⟨sequence, pp, hasSequence, prepared, count, within, filling⟩
  · rw [dropped]
    exact ⟨robust, fun _ none => by cases none⟩
  · rw [whole]
    exact ⟨robust, fun result delivered => .inl ⟨first, single, (Option.some.inj delivered).symm⟩⟩
  · have agrees : SlotOf (remoteEndpoint, sequence - UInt64.ofNat (packet.fragIndex.getD 0)) pp.fragCount
        (packet.fragIndex.getD 0) packet := ⟨rfl, count.symm, sequence, hasSequence, rfl⟩
    obtain ⟨kept, delivered⟩ := addFragment_spec robust prepared within agrees
    rw [filling]
    refine ⟨kept, fun result found => .inr ?_⟩
    obtain ⟨full, complete, sameCount, isResult⟩ := delivered result found
    exact ⟨sequence, full, hasSequence, complete, sameCount.trans count, isResult⟩

theorem robust_step (robust : Robust options partialPackets) (input : Input) :
    Robust options (step options partialPackets input).1 := by
  cases input with
  | fragment remoteEndpoint packet =>
      rw [step_fragment]
      exact (receiveFragment_spec robust remoteEndpoint packet).1
  | timeout key =>
      simp only [step, timeoutPartialPacket]
      split
      · exact robust
      · exact robust.update_none

theorem robust_run (robust : Robust options partialPackets) (inputs : List Input) :
    Robust options (Monitor.run (step options) partialPackets inputs).1 := by
  induction inputs generalizing partialPackets with
  | nil => exact robust
  | cons input rest ih =>
      rw [Monitor.run_cons]
      exact ih (robust_step robust input)

theorem robust_fresh : Robust options fresh := fun _ _ stored => by cases stored

end Receive

/-- A reassembler state from which every call of `receiveFragment` is safe: the stored
partial packets are in shape, the slot a fragment fills is within its partial packet, and a
message of several fragments is delivered only with every slot filled by a fragment of it. -/
structure ReceivesSafely (options : Options) (partialPackets : PartialPackets) : Prop where
  robust : Robust options partialPackets
  slotInRange : ∀ remoteEndpoint packet,
    receiveFragment options partialPackets remoteEndpoint packet = (partialPackets, none) ∨
      (packet.fragIndex.getD 0 = 0 ∧ packet.fragCount.getD 1 = 1 ∧
        receiveFragment options partialPackets remoteEndpoint packet =
          (partialPackets, some (packet.fragment.getD [], packet))) ∨
      ∃ sequence pp, packet.sequence = some sequence ∧
        Prepared options (remoteEndpoint, sequence - UInt64.ofNat (packet.fragIndex.getD 0)) pp ∧
        pp.fragCount = packet.fragCount.getD 1 ∧ packet.fragIndex.getD 0 < pp.fragments.length ∧
        receiveFragment options partialPackets remoteEndpoint packet =
          addFragment partialPackets (remoteEndpoint, sequence - UInt64.ofNat (packet.fragIndex.getD 0)) pp
            (packet.fragIndex.getD 0) packet
  delivered : ∀ remoteEndpoint packet result,
    (receiveFragment options partialPackets remoteEndpoint packet).2 = some result →
      (packet.fragIndex.getD 0 = 0 ∧ packet.fragCount.getD 1 = 1 ∧ result = (packet.fragment.getD [], packet)) ∨
        ∃ sequence full, packet.sequence = some sequence ∧
          Complete (remoteEndpoint, sequence - UInt64.ofNat (packet.fragIndex.getD 0)) full ∧
          full.fragCount = packet.fragCount.getD 1 ∧
          result = (doReassembly full, full.fragments.getD 0 Packet.empty)

theorem receiveFragment_safe_on_any_input (options : Options) (inputs : List Input) :
    ReceivesSafely options (Monitor.run (step options) fresh inputs).1 := by
  have robust : Robust options (Monitor.run (step options) fresh inputs).1 := robust_run robust_fresh inputs
  exact ⟨robust, fun remoteEndpoint packet => receiveFragment_cases robust remoteEndpoint packet,
    fun remoteEndpoint packet => (receiveFragment_spec robust remoteEndpoint packet).2⟩

end Nfd.Face.LpReassembler
