import Nfd.Face.LpPacket
import Nfd.Lib.Slicing

/-!
# The fragmenter

`LpFragmenter::fragmentPacket` keeps a packet whole when it fits the MTU with room for a
Sequence (the fast path); otherwise it cuts the network-layer packet into a first piece that
leaves room for the other header fields and later pieces of `mtu - MAX_FRAG_OVERHEAD`
octets, puts FragIndex and FragCount on each, and keeps the other header fields on the
first.  `GenericLinkService::assignSequences` then numbers the fragments.

`fragmentPacket_eq` says what the fragmenter returns in every case; the fragments are
`fragments`, whose payloads are the pieces of `Slicing` (so they concatenate back to the
packet) and whose encodings, with a Sequence, fit the MTU (`wireSize_fragment_le`).
-/

set_option autoImplicit false

namespace Nfd.Face.LpFragmenter

open Nfd.Lp

/-- `MAX_SINGLE_FRAG_OVERHEAD`: LpPacket, Sequence and Fragment headers. -/
def maxSingleFragOverhead : Nat := 1 + 9 + 1 + 1 + 8 + 1 + 9

/-- `MAX_FRAG_OVERHEAD`: LpPacket, Sequence, FragIndex, FragCount and Fragment headers. -/
def maxFragOverhead : Nat := 1 + 9 + 1 + 1 + 8 + 1 + 1 + 8 + 1 + 1 + 8 + 1 + 9

structure Options where
  nMaxFragments : Nat := 400

/-- The network-layer packet, between `netPktBegin` and `netPktEnd`. -/
def netPkt (packet : Packet) : List UInt8 := packet.fragment.getD []

/-- `firstHeaderSize`: the elements of `wireEncode()` other than Fragment when it is an
LpPacket.  A bare network packet has no other field, so the sum is `headerSize` either way. -/
def firstHeaderSize (packet : Packet) : Nat := packet.headerSize

def firstPayloadSize (packet : Packet) (mtu : Nat) : Nat :=
  min (netPkt packet).length (mtu - firstHeaderSize packet - maxFragOverhead)

def payloadSize (mtu : Nat) : Nat := mtu - maxFragOverhead

def fragCount (packet : Packet) (mtu : Nat) : Nat :=
  1 + ((netPkt packet).length - firstPayloadSize packet mtu) / payloadSize mtu +
    if ((netPkt packet).length - firstPayloadSize packet mtu) % payloadSize mtu ≠ 0 then 1 else 0

/-- The loop that populates the fragments: while `fragBegin` is before the end, fragment
`fragIndex` gets FragIndex, FragCount and the octets between `fragBegin` and `fragEnd`.  The
loop fills one slot of the `fragCount` it was given each round, so `fragCount` rounds
are the fuel. -/
def fillFragments (netPkt : List UInt8) (payloadSize fragCount : Nat) :
    Nat → Nat → Nat → Nat → List Packet → List Packet
  | 0, _, _, _, frags => frags
  | fuel + 1, fragIndex, fragBegin, fragEnd, frags =>
      if fragBegin < netPkt.length then
        fillFragments netPkt payloadSize fragCount fuel (fragIndex + 1) fragEnd
          (min netPkt.length (fragEnd + payloadSize))
          (frags.modify fragIndex fun frag =>
            { frag with fragIndex := some fragIndex, fragCount := some fragCount,
                        fragment := some ((netPkt.take fragEnd).drop fragBegin) })
      else frags

/-- `fragmentPacket(packet, mtu)`, with `none` for a failure. -/
def fragmentPacket (options : Options) (packet : Packet) (mtu : Nat) : Option (List Packet) :=
  if maxSingleFragOverhead + packet.wireSize ≤ mtu then some [packet]
  else if maxFragOverhead + firstHeaderSize packet + 1 > mtu then none
  else if fragCount packet mtu > options.nMaxFragments then none
  else
    -- `frags.front() = packet` keeps the other header fields on the first fragment
    some (fillFragments (netPkt packet) (payloadSize mtu) (fragCount packet mtu) (fragCount packet mtu)
      0 0 (firstPayloadSize packet mtu) (packet :: List.replicate (fragCount packet mtu - 1) Packet.empty))

/-- `GenericLinkService::assignSequences`: `++m_lastSeqNo` for each packet in turn. -/
def assignSequences (lastSeqNo : UInt64) : List Packet → UInt64 × List Packet
  | [] => (lastSeqNo, [])
  | pkt :: rest =>
      let later := assignSequences (lastSeqNo + 1) rest
      (later.1, pkt.setSequence (lastSeqNo + 1) :: later.2)

/-! ## The fragments -/

/-- Fragment `j` as the loop leaves it. -/
def stamp (netPkt : List UInt8) (first size count j : Nat) (frag : Packet) : Packet :=
  { frag with fragIndex := some j, fragCount := some count,
              fragment := some (Slicing.piece first size netPkt j) }

/-- The fragments of a packet that is cut: the packet itself first, then empty packets,
each stamped with its index, the count and its piece. -/
def fragments (packet : Packet) (mtu : Nat) : List Packet :=
  (packet :: List.replicate (fragCount packet mtu - 1) Packet.empty).mapIdx
    (stamp (netPkt packet) (firstPayloadSize packet mtu) (payloadSize mtu) (fragCount packet mtu))

section Loop

variable (netPkt : List UInt8) (first size count : Nat)

theorem min_min_add (n a b : Nat) : min n (min n a + b) = min n (a + b) := by omega

/-- Each round stamps the next slot with the next piece; the loop stops at the first piece
that starts at the end. -/
theorem fillFragments_eq : ∀ (rest pre : List Packet) (fuel : Nat), rest.length ≤ fuel →
    (∀ k < rest.length, Slicing.start first size (pre.length + k) < netPkt.length) →
    netPkt.length ≤ Slicing.start first size (pre.length + rest.length) →
    fillFragments netPkt size count fuel pre.length
        (min netPkt.length (Slicing.start first size pre.length))
        (min netPkt.length (Slicing.start first size (pre.length + 1))) (pre ++ rest) =
      pre ++ rest.mapIdx fun k => stamp netPkt first size count (pre.length + k)
  | [], pre, fuel, _, _, past => by
      have atEnd : ¬ min netPkt.length (Slicing.start first size pre.length) < netPkt.length := by
        simp only [List.length_nil, Nat.add_zero] at past
        omega
      cases fuel with
      | zero => simp [fillFragments]
      | succ fuel => simp [fillFragments, atEnd]
  | frag :: rest, pre, fuel, enough, inside, past => by
      obtain ⟨fuel, rfl⟩ : ∃ f, fuel = f + 1 := ⟨fuel - 1, by simp at enough; omega⟩
      have before : min netPkt.length (Slicing.start first size pre.length) < netPkt.length := by
        have := inside 0 (by simp)
        simp only [Nat.add_zero] at this
        omega
      -- the slot of this round is the first of `rest`, and the clamped cut is piece `pre.length`
      have stamped : (pre ++ frag :: rest).modify pre.length (fun frag =>
          { frag with fragIndex := some pre.length, fragCount := some count,
                      fragment := some ((netPkt.take (min netPkt.length
                        (Slicing.start first size (pre.length + 1)))).drop
                        (min netPkt.length (Slicing.start first size pre.length))) }) =
          (pre ++ [stamp netPkt first size count pre.length frag]) ++ rest := by
        rw [Slicing.modify_append_cons, Slicing.drop_take_min]
        simp [stamp, Slicing.piece]
      have nextEnd : min netPkt.length (min netPkt.length (Slicing.start first size (pre.length + 1)) + size) =
          min netPkt.length (Slicing.start first size ((pre ++ [stamp netPkt first size count pre.length frag]).length + 1)) := by
        rw [min_min_add, List.length_append, List.length_singleton, Slicing.start_succ_succ]
      have later := fillFragments_eq rest (pre ++ [stamp netPkt first size count pre.length frag]) fuel
        (by simp at enough; omega)
        (fun k below => by
          have := inside (k + 1) (by simp; omega)
          simpa [Nat.add_assoc, Nat.add_comm 1 k] using this)
        (by simpa [Nat.add_assoc, Nat.add_comm 1 rest.length] using past)
      simp only [List.length_append, List.length_singleton] at later
      rw [fillFragments, if_pos before, stamped, nextEnd, List.length_append, List.length_singleton,
        later, List.mapIdx_cons, List.append_assoc, List.singleton_append]
      simp only [Nat.add_zero, Nat.add_assoc, Nat.add_comm 1]

end Loop

section Spec

variable (options : Options) (packet : Packet) (mtu : Nat)

theorem fragCount_eq_count :
    fragCount packet mtu =
      Slicing.count (firstPayloadSize packet mtu) (payloadSize mtu) (netPkt packet).length := rfl

theorem firstPayloadSize_le : firstPayloadSize packet mtu ≤ (netPkt packet).length :=
  Nat.min_le_left _ _

theorem one_le_fragCount : 1 ≤ fragCount packet mtu := by
  unfold fragCount
  exact Nat.le_trans (Nat.le_add_right 1 _) (Nat.le_add_right _ _)

theorem length_fragments : (fragments packet mtu).length = fragCount packet mtu := by
  have := one_le_fragCount packet mtu
  simp only [fragments, List.length_mapIdx, List.length_cons, List.length_replicate]
  omega

/-- The fragmenter, case by case: the fast path, the two failures, and the fragments. -/
theorem fragmentPacket_eq (nonempty : netPkt packet ≠ []) :
    fragmentPacket options packet mtu =
      if maxSingleFragOverhead + packet.wireSize ≤ mtu then some [packet]
      else if maxFragOverhead + firstHeaderSize packet + 1 > mtu ∨
          fragCount packet mtu > options.nMaxFragments then none
      else some (fragments packet mtu) := by
  unfold fragmentPacket
  split
  · rfl
  · split
    · rename_i tooSmall
      simp [tooSmall]
    · rename_i fits
      split
      · rename_i tooMany
        simp [tooMany]
      · rename_i withinLimit
        rw [if_neg (by omega)]
        -- the loop from slot 0, offset 0 and the first piece's end stamps every slot
        have positiveSize : 0 < payloadSize mtu := by unfold payloadSize; omega
        have positiveTotal : 0 < (netPkt packet).length := List.length_pos_of_ne_nil nonempty
        have loop := fillFragments_eq (netPkt packet) (firstPayloadSize packet mtu) (payloadSize mtu)
          (fragCount packet mtu) (packet :: List.replicate (fragCount packet mtu - 1) Packet.empty) [] (fragCount packet mtu)
          (by simp; have := one_le_fragCount packet mtu; omega)
          (fun k below => Slicing.start_lt_of_lt_count positiveSize positiveTotal (by
            simp only [List.length_cons, List.length_replicate] at below
            have := one_le_fragCount packet mtu
            rw [List.length_nil, Nat.zero_add, ← fragCount_eq_count]
            omega))
          (by
            have := Slicing.le_start_count positiveSize (firstPayloadSize_le packet mtu)
            simp only [List.length_nil, Nat.zero_add, List.length_cons, List.length_replicate]
            rw [← fragCount_eq_count] at this
            have := one_le_fragCount packet mtu
            rwa [Nat.sub_add_cancel this])
        simp only [List.length_nil, Slicing.start_zero, Nat.min_zero, Nat.zero_add, Slicing.start_one,
          Nat.min_eq_right (firstPayloadSize_le packet mtu), List.nil_append] at loop
        rw [loop]
        rfl

theorem getElem_fragments {j : Nat} (within : j < (fragments packet mtu).length) :
    (fragments packet mtu)[j] =
      stamp (netPkt packet) (firstPayloadSize packet mtu) (payloadSize mtu) (fragCount packet mtu) j
        (if j = 0 then packet else Packet.empty) := by
  simp only [fragments, List.getElem_mapIdx]
  cases j with
  | zero => rfl
  | succ j => simp

/-- The payloads of the fragments are the pieces of the network-layer packet. -/
theorem payloads_fragments :
    (fragments packet mtu).map (fun frag => frag.fragment.getD []) =
      (List.range (fragCount packet mtu)).map
        (Slicing.piece (firstPayloadSize packet mtu) (payloadSize mtu) (netPkt packet)) := by
  apply List.ext_getElem
  · simp [length_fragments]
  · intro j within _
    simp [getElem_fragments, stamp]

/-- The fragments' payloads put together are the network-layer packet. -/
theorem flatten_payloads_fragments (positiveSize : 0 < payloadSize mtu) :
    ((fragments packet mtu).map fun frag => frag.fragment.getD []).flatten = netPkt packet := by
  rw [payloads_fragments]
  apply Slicing.flatten_pieces_of_le
  rw [fragCount_eq_count]
  exact Slicing.le_start_count positiveSize (firstPayloadSize_le packet mtu)

/-- A packet is cut only when its payload does not fit one fragment. -/
theorem two_le_fragCount {payload : List UInt8} (hasFragment : packet.fragment = some payload)
    (slow : ¬ maxSingleFragOverhead + packet.wireSize ≤ mtu)
    (fits : maxFragOverhead + firstHeaderSize packet + 1 ≤ mtu) :
    2 ≤ fragCount packet mtu := by
  have wire := wireSize_le packet
  have payloadElement := elementSize_le (by decide : fragmentType < 253) payload.length
  have netPktIs : netPkt packet = payload := by simp [netPkt, hasFragment]
  have singleOverhead : maxSingleFragOverhead = 30 := rfl
  have overhead : maxFragOverhead = 50 := rfl
  simp only [Packet.fragmentSize, hasFragment, Option.elim_some] at wire
  -- one fragment would hold the whole payload, which then fits the fast path
  by_contra single
  unfold fragCount at single
  have fpLe : firstPayloadSize packet mtu ≤ mtu - firstHeaderSize packet - maxFragOverhead :=
    Nat.min_le_right _ _
  have fpLeLength := firstPayloadSize_le packet mtu
  have split := Nat.div_add_mod ((netPkt packet).length - firstPayloadSize packet mtu) (payloadSize mtu)
  generalize ((netPkt packet).length - firstPayloadSize packet mtu) / payloadSize mtu = q at single split
  generalize ((netPkt packet).length - firstPayloadSize packet mtu) % payloadSize mtu = r at single split
  rw [netPktIs] at split fpLeLength
  unfold firstHeaderSize at fits fpLe
  split at single
  · omega
  · have noQuotient : q = 0 := by omega
    rw [noQuotient, Nat.mul_zero] at split
    omega

/-- The headers of a stamped fragment with a Sequence: its own header fields and at most
thirty octets of Sequence, FragIndex and FragCount. -/
theorem headerSize_stamp_le (sequence : UInt64) (netPkt : List UInt8) (first size count j : Nat)
    (frag : Packet) :
    ((stamp netPkt first size count j frag).setSequence sequence).headerSize ≤
      (frag.headers.map Field.size).sum + 30 := by
  have index := elementSize_nonNegativeInteger_le (by decide : fragIndexType < 253) j
  have total := elementSize_nonNegativeInteger_le (by decide : fragCountType < 253) count
  simp only [Packet.headerSize, setSequence_headers, setSequence_sequence, setSequence_fragIndex,
    setSequence_fragCount, stamp, Option.elim_some, elementSize_sequence]
  omega

theorem wireSize_stamp_le (sequence : UInt64) (netPkt : List UInt8) (first size count j : Nat)
    (frag : Packet) :
    ((stamp netPkt first size count j frag).setSequence sequence).wireSize ≤
      (frag.headers.map Field.size).sum + 50 + (Slicing.piece first size netPkt j).length := by
  have wire := wireSize_le ((stamp netPkt first size count j frag).setSequence sequence)
  have headers := headerSize_stamp_le sequence netPkt first size count j frag
  have payloadElement := elementSize_le (by decide : fragmentType < 253)
    (Slicing.piece first size netPkt j).length
  have fragmentIs : ((stamp netPkt first size count j frag).setSequence sequence).fragmentSize =
      elementSize fragmentType (Slicing.piece first size netPkt j).length := rfl
  omega

/-- Every fragment, with the Sequence `assignSequences` gives it, fits the MTU. -/
theorem wireSize_fragment_le (fits : maxFragOverhead + firstHeaderSize packet + 1 ≤ mtu) {frag : Packet}
    (member : frag ∈ fragments packet mtu) (sequence : UInt64) :
    (frag.setSequence sequence).wireSize ≤ mtu := by
  obtain ⟨j, within, rfl⟩ := List.mem_iff_getElem.mp member
  rw [getElem_fragments]
  have overhead : maxFragOverhead = 50 := rfl
  cases j with
  | zero =>
      -- the first fragment carries the packet's header fields, which `firstHeaderSize` counts
      rw [if_pos rfl]
      have wire := wireSize_stamp_le sequence (netPkt packet) (firstPayloadSize packet mtu)
        (payloadSize mtu) (fragCount packet mtu) 0 packet
      have pieceLength : (Slicing.piece (firstPayloadSize packet mtu) (payloadSize mtu)
          (netPkt packet) 0).length ≤ firstPayloadSize packet mtu := by
        simpa using Slicing.length_piece_le (firstPayloadSize packet mtu) (payloadSize mtu)
          (netPkt packet) 0
      have fpLe : firstPayloadSize packet mtu ≤ mtu - firstHeaderSize packet - maxFragOverhead :=
        Nat.min_le_right _ _
      have ownHeaders : (packet.headers.map Field.size).sum ≤ firstHeaderSize packet := by
        unfold firstHeaderSize Packet.headerSize
        omega
      omega
  | succ j =>
      -- a later fragment carries no other header field and a piece of at most `payloadSize`
      rw [if_neg (Nat.succ_ne_zero j)]
      have wire := wireSize_stamp_le sequence (netPkt packet) (firstPayloadSize packet mtu)
        (payloadSize mtu) (fragCount packet mtu) (j + 1) Packet.empty
      have pieceLength : (Slicing.piece (firstPayloadSize packet mtu) (payloadSize mtu)
          (netPkt packet) (j + 1)).length ≤ payloadSize mtu := by
        have := Slicing.length_piece_le (firstPayloadSize packet mtu) (payloadSize mtu)
          (netPkt packet) (j + 1)
        rw [Slicing.start_succ_succ] at this
        omega
      have psIs : payloadSize mtu = mtu - maxFragOverhead := rfl
      have noHeaders : (Packet.empty.headers.map Field.size).sum = 0 := rfl
      omega

/-- `assignSequences` numbers the packets from `lastSeqNo + 1` on, modulo 2^64. -/
theorem assignSequences_eq (lastSeqNo : UInt64) (pkts : List Packet) :
    assignSequences lastSeqNo pkts =
      (lastSeqNo + UInt64.ofNat pkts.length,
        pkts.mapIdx fun j pkt => pkt.setSequence (lastSeqNo + 1 + UInt64.ofNat j)) := by
  induction pkts generalizing lastSeqNo with
  | nil => simp [assignSequences]
  | cons pkt rest ih =>
      have shift : ∀ j : Nat, lastSeqNo + 1 + 1 + UInt64.ofNat j = lastSeqNo + 1 + UInt64.ofNat (j + 1) :=
        fun j => by
          rw [UInt64.ofNat_add, show UInt64.ofNat 1 = 1 from rfl, UInt64.add_comm (UInt64.ofNat j) 1,
            ← UInt64.add_assoc]
      have total : lastSeqNo + 1 + UInt64.ofNat rest.length = lastSeqNo + UInt64.ofNat (rest.length + 1) := by
        rw [UInt64.ofNat_add]
        ac_rfl
      rw [assignSequences, ih, List.mapIdx_cons, List.length_cons]
      simp only [total, shift, show UInt64.ofNat 0 = 0 from rfl, UInt64.add_zero]

theorem length_assignSequences (lastSeqNo : UInt64) (pkts : List Packet) :
    (assignSequences lastSeqNo pkts).2.length = pkts.length := by
  simp [assignSequences_eq]

theorem getElem?_assignSequences (lastSeqNo : UInt64) (pkts : List Packet) (j : Nat) :
    (assignSequences lastSeqNo pkts).2[j]? =
      pkts[j]?.map (Packet.setSequence (lastSeqNo + 1 + UInt64.ofNat j)) := by
  simp [assignSequences_eq]

theorem getElem_assignSequences (lastSeqNo : UInt64) (pkts : List Packet) {j : Nat}
    (within : j < (assignSequences lastSeqNo pkts).2.length) (inPkts : j < pkts.length) :
    (assignSequences lastSeqNo pkts).2[j] = pkts[j].setSequence (lastSeqNo + 1 + UInt64.ofNat j) := by
  have entry := getElem?_assignSequences lastSeqNo pkts j
  rw [List.getElem?_eq_getElem within, List.getElem?_eq_getElem inPkts] at entry
  simpa using entry

theorem mem_assignSequences {lastSeqNo : UInt64} {pkts : List Packet} {frag : Packet}
    (member : frag ∈ (assignSequences lastSeqNo pkts).2) :
    ∃ sequence, ∃ pkt ∈ pkts, frag = pkt.setSequence sequence := by
  rw [assignSequences_eq, List.mem_mapIdx] at member
  obtain ⟨j, within, rfl⟩ := member
  exact ⟨_, pkts[j], List.getElem_mem within, rfl⟩

/-- Numbering changes no payload. -/
theorem payloads_assignSequences (lastSeqNo : UInt64) (pkts : List Packet) :
    (assignSequences lastSeqNo pkts).2.map (fun frag => frag.fragment.getD []) =
      pkts.map fun frag => frag.fragment.getD [] := by
  apply List.ext_getElem?
  intro j
  simp only [List.getElem?_map, getElem?_assignSequences]
  cases pkts[j]? <;> rfl

theorem fragIndex_fragments {j : Nat} (within : j < (fragments packet mtu).length) :
    (fragments packet mtu)[j].fragIndex = some j ∧
      (fragments packet mtu)[j].fragCount = some (fragments packet mtu).length := by
  simp [getElem_fragments, stamp, length_fragments]

theorem headers_fragments_zero (within : 0 < (fragments packet mtu).length) :
    (fragments packet mtu)[0].headers = packet.headers := by
  simp [getElem_fragments, stamp]

/-- A fragmentation succeeds with the packet itself on the fast path, and otherwise with
its fragments, when the first fragment has room and their number is within the limit. -/
theorem eq_of_fragmentPacket (nonempty : netPkt packet ≠ []) {frags : List Packet}
    (found : fragmentPacket options packet mtu = some frags) :
    (maxSingleFragOverhead + packet.wireSize ≤ mtu ∧ frags = [packet]) ∨
      (¬ maxSingleFragOverhead + packet.wireSize ≤ mtu ∧
        maxFragOverhead + firstHeaderSize packet + 1 ≤ mtu ∧
        fragCount packet mtu ≤ options.nMaxFragments ∧ frags = fragments packet mtu) := by
  rw [fragmentPacket_eq options packet mtu nonempty] at found
  split at found
  · rename_i fast
    exact .inl ⟨fast, (Option.some.inj found).symm⟩
  · rename_i slow
    split at found
    · cases found
    · rename_i fits
      exact .inr ⟨slow, by omega, by omega, (Option.some.inj found).symm⟩

theorem fragmentPacket_eq_none_iff (nonempty : netPkt packet ≠ []) :
    fragmentPacket options packet mtu = none ↔
      ¬ maxSingleFragOverhead + packet.wireSize ≤ mtu ∧
        (maxFragOverhead + firstHeaderSize packet + 1 > mtu ∨
          fragCount packet mtu > options.nMaxFragments) := by
  rw [fragmentPacket_eq options packet mtu nonempty]
  split
  · rename_i fast
    exact ⟨fun found => (by cases found), fun failed => absurd fast failed.1⟩
  · rename_i slow
    split
    · rename_i fails
      exact ⟨fun _ => ⟨slow, fails⟩, fun _ => rfl⟩
    · rename_i fits
      exact ⟨fun found => (by cases found), fun failed => absurd failed.2 fits⟩

end Spec

end Nfd.Face.LpFragmenter
