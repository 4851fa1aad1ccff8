import Nfd.Face.GenericLinkService

/-!
# What reaches the MTU check of sendLpPacket

`sendNetPacket` fragments for an MTU lowered by the space of the headers added after
fragmentation: `RESERVED_HEADER_SPACE` for a TxSequence and `CONGESTION_MARK_SIZE` for a
CongestionMark.  `sendLpPacket` then lets `piggyback` fill what the MTU leaves with Acks,
holding back 2 octets for the TLV-LENGTH of the LpPacket to grow from one octet to three.

Without reliability and congestion marking, every packet `sendNetPacket` passes on fits the
MTU (`sendNetPacket_of_plain`).  `piggyback` keeps a packet that fits within the MTU, unless
the packet's encoding is 253 or 254 octets (`wireSize_piggyback_le_mtu`): its TLV-LENGTH is
still one octet, but the reserve is computed from the size of the whole encoding, which is
past 252, so nothing is held back, and two octets too many are added once Acks push the
TLV-LENGTH to three (`wireSize_piggyback_boundary`).  A CongestionMark added after
`piggyback` has filled the packet pushes it over as well (`requestIdlePacket_marked_over_mtu`).
-/

set_option autoImplicit false

namespace Nfd.Face

open Nfd.Lp GenericLinkService

/-! ## Sizes after piggyback -/

section Piggyback

variable (pkt : Packet) (mtu : Int) (r : LpReliability)

theorem headerSize_appendAcks (acks : List Nat) :
    { pkt with headers := pkt.headers ++ acks.map ackField }.headerSize =
      pkt.headerSize + LpReliability.ackSize * acks.length := by
  have each : ((acks.map ackField).map Field.size).sum = LpReliability.ackSize * acks.length := by
    induction acks with
    | nil => rfl
    | cons ackTxSeq rest ih =>
        simp only [List.map_cons, List.sum_cons, LpReliability.size_ackField, ih, List.length_cons]
        rw [Nat.mul_succ]
        omega
  simp only [Packet.headerSize, List.map_append, List.sum_append, each]
  omega

/-- The encoding after `piggyback`: the packet's elements and `k` Acks of 12 octets.  The
packets `piggyback` sees carry a Sequence, or are the IDLE packet, so none is bare. -/
theorem wireSize_piggyback (enveloped : pkt.isBare = false) :
    (r.piggyback pkt mtu).1.wireSize =
      elementSize lpPacketType (pkt.headerSize + pkt.fragmentSize +
        LpReliability.ackSize * min ((LpReliability.piggybackSpace pkt mtu).toNat / LpReliability.ackSize)
          r.ackQueue.length) := by
  rw [LpReliability.piggyback_eq, wireSize_of_isBare_false (isBare_appendHeaders enveloped _),
    headerSize_appendAcks, List.length_take]
  congr 1
  show _ + _ + pkt.fragmentSize = _
  omega

/-- On a finite MTU, `piggyback` adds `k` Acks: as many as the queue holds and the space
leaves room for, the space being what the MTU leaves after the packet and the reserve. -/
theorem wireSize_piggyback_of_nonneg (enveloped : pkt.isBare = false) (finite : 0 ≤ mtu) :
    ∃ k, (r.piggyback pkt mtu).1.wireSize = elementSize lpPacketType (pkt.headerSize + pkt.fragmentSize + 12 * k) ∧
      k = min ((mtu - (3 - sizeOfVarNumber pkt.wireSize) - pkt.wireSize).toNat / 12) r.ackQueue.length := by
  refine ⟨_, wireSize_piggyback pkt mtu r enveloped, ?_⟩
  rw [LpReliability.piggybackSpace_of_nonneg pkt finite]
  rfl

section Finite

variable {pkt mtu} (enveloped : pkt.isBare = false) (finite : 0 ≤ mtu) (small : mtu ≤ 0xFFFF)
  (fits : pkt.wireSize ≤ mtu)

include enveloped finite small fits in
/-- On a finite MTU below 65536, a packet that fits comes out of `piggyback` at most two
octets over the MTU. -/
theorem wireSize_piggyback_le : ((r.piggyback pkt mtu).1.wireSize : Int) ≤ mtu + 2 := by
  obtain ⟨k, wireIs, kIs⟩ := wireSize_piggyback_of_nonneg pkt mtu r enveloped finite
  have wire := wireSize_eq enveloped
  have sW := sizeOfVarNumber_of_le (show pkt.wireSize ≤ 0xFFFF by omega)
  have sInner := sizeOfVarNumber_of_le (show pkt.headerSize + pkt.fragmentSize ≤ 0xFFFF by omega)
  -- the Acks fit the space, so the LpPacket's value stays below 65536 too
  have sNew := sizeOfVarNumber_of_le (show pkt.headerSize + pkt.fragmentSize + 12 * k ≤ 0xFFFF by
    split_ifs at sW <;> omega)
  rw [wireIs, elementSize, sizeOfVarNumber_of_lt (by decide : lpPacketType < 253)]
  split_ifs at sW sInner sNew <;> omega

include enveloped finite small fits in
/-- Off the encodings of 253 and 254 octets, `piggyback` keeps a packet that fits within the
MTU. -/
theorem wireSize_piggyback_le_mtu (offBoundary : pkt.wireSize ≠ 253 ∧ pkt.wireSize ≠ 254) :
    ((r.piggyback pkt mtu).1.wireSize : Int) ≤ mtu := by
  obtain ⟨k, wireIs, kIs⟩ := wireSize_piggyback_of_nonneg pkt mtu r enveloped finite
  have wire := wireSize_eq enveloped
  have sW := sizeOfVarNumber_of_le (show pkt.wireSize ≤ 0xFFFF by omega)
  have sInner := sizeOfVarNumber_of_le (show pkt.headerSize + pkt.fragmentSize ≤ 0xFFFF by omega)
  have sNew := sizeOfVarNumber_of_le (show pkt.headerSize + pkt.fragmentSize + 12 * k ≤ 0xFFFF by
    split_ifs at sW <;> omega)
  rw [wireIs, elementSize, sizeOfVarNumber_of_lt (by decide : lpPacketType < 253)]
  split_ifs at sW sInner sNew <;> omega

include enveloped finite small fits in
/-- On a finite MTU below 65536, `piggyback` turns an LpPacket that fits into one at most two
octets over the MTU, and into one within the MTU unless its encoding is 253 or 254 octets. -/
theorem piggyback_within_mtu :
    ((r.piggyback pkt mtu).1.wireSize : Int) ≤ mtu + 2 ∧
      (pkt.wireSize ≠ 253 → pkt.wireSize ≠ 254 → ((r.piggyback pkt mtu).1.wireSize : Int) ≤ mtu) := by
  refine ⟨wireSize_piggyback_le r enveloped finite small fits, fun off253 off254 => ?_⟩
  exact wireSize_piggyback_le_mtu r enveloped finite small fits ⟨off253, off254⟩

end Finite

/-- A fragment of 20 octets with its Sequence and TxSequence 0. -/
def smallFragment : Packet := ⟨[txSequenceField 0], some 0, none, none, some (List.replicate 20 0)⟩

theorem piggyback_within_mtu_smallFragment :
    smallFragment.isBare = false ∧ (0 : Int) ≤ 277 ∧ (277 : Int) ≤ 0xFFFF ∧ (smallFragment.wireSize : Int) ≤ 277 ∧
      ((({ LpReliability.initial ⟨true, 3, 3⟩ with ackQueue := [7, 8] } : LpReliability).piggyback
          smallFragment 277).1.wireSize : Int) ≤ 277 + 2 ∧
        (smallFragment.wireSize ≠ 253 → smallFragment.wireSize ≠ 254 →
          ((({ LpReliability.initial ⟨true, 3, 3⟩ with ackQueue := [7, 8] } : LpReliability).piggyback
            smallFragment 277).1.wireSize : Int) ≤ 277) :=
  ⟨by decide, by decide, by decide, by decide,
    piggyback_within_mtu _ (by decide) (by decide) (by decide) (by decide)⟩

/-- A packet of 253 octets has a one-octet TLV-LENGTH, but nothing is held back for it: with
Acks enough in the queue, `piggyback` fills the MTU to within `(mtu - 253) % 12` octets and
then two more. -/
theorem wireSize_piggyback_boundary (enveloped : pkt.isBare = false) (boundary : pkt.wireSize = 253)
    (oneAck : 265 ≤ mtu)
    (small : mtu ≤ 0xFFFF) (enough : (mtu - 253).toNat / 12 ≤ r.ackQueue.length) :
    ((r.piggyback pkt mtu).1.wireSize : Int) = mtu + 2 - (mtu - 253) % 12 := by
  obtain ⟨k, wireIs, kIs⟩ := wireSize_piggyback_of_nonneg pkt mtu r enveloped (by omega)
  have wire := wireSize_eq enveloped
  have sW : sizeOfVarNumber pkt.wireSize = 3 := by rw [boundary]; rfl
  rw [sW, boundary] at kIs
  rw [boundary] at wire
  -- a 253-octet encoding has a one-octet TLV-LENGTH around 251 octets
  have sInner := sizeOfVarNumber_of_le (show pkt.headerSize + pkt.fragmentSize ≤ 0xFFFF by omega)
  have inner : pkt.headerSize + pkt.fragmentSize = 251 := by split_ifs at sInner <;> omega
  have sNew := sizeOfVarNumber_of_le (show pkt.headerSize + pkt.fragmentSize + 12 * k ≤ 0xFFFF by omega)
  rw [wireIs, elementSize, sizeOfVarNumber_of_lt (by decide : lpPacketType < 253)]
  split_ifs at sNew <;> omega

/-- The first fragment a new link service sends for an Interest of 224 octets: the Interest,
the HopCountTag 0 (TLV-TYPE 84) that `encodeLpFields` adds, the first Sequence and TxSequence
0.  Its encoding is 253 octets. -/
def boundaryFragment : Packet :=
  ⟨[⟨84, [0]⟩, txSequenceField 0], some (0 - 1), none, none, some (List.replicate 224 0)⟩

theorem piggyback_boundary_over_mtu (r : LpReliability) (twoAcks : 2 ≤ r.ackQueue.length) :
    boundaryFragment.wireSize = 253 ∧ (r.piggyback boundaryFragment 277).1.wireSize = 279 := by
  have boundary : boundaryFragment.wireSize = 253 := by
    have inner : boundaryFragment.headerSize + boundaryFragment.fragmentSize = 251 := by
      simp only [boundaryFragment, Packet.headerSize, Packet.fragmentSize, List.map_cons, List.map_nil,
        Field.size, txSequenceField, length_encodeSequence, List.length_replicate, List.length_cons,
        List.length_nil, List.sum_cons, List.sum_nil, Option.elim]
      rfl
    rw [wireSize_eq (show boundaryFragment.isBare = false from rfl), inner]
    rfl
  have grown := wireSize_piggyback_boundary boundaryFragment 277 r rfl boundary (by decide) (by decide)
    (by simpa using twoAcks)
  exact ⟨boundary, by omega⟩

theorem piggyback_boundary_over_mtu_twoQueued :
    2 ≤ ({ LpReliability.initial ⟨true, 3, 3⟩ with ackQueue := [7, 8] } : LpReliability).ackQueue.length ∧
      boundaryFragment.wireSize = 253 ∧
      (({ LpReliability.initial ⟨true, 3, 3⟩ with ackQueue := [7, 8] } : LpReliability).piggyback
        boundaryFragment 277).1.wireSize = 279 :=
  ⟨by decide, piggyback_boundary_over_mtu _ (by decide)⟩

end Piggyback

/-! ## The send path without reliability and congestion marking -/

theorem sizeT_of_nonneg {n : Int} (nonneg : 0 ≤ n) (below : n < 2 ^ 64) : sizeT n = n.toNat := by
  unfold sizeT
  rw [Int.emod_eq_of_lt nonneg below]

section Plain

variable (env : Env) {s : GenericLinkService} (unreliable : s.reliability.options.isEnabled = false)
  (unmarked : s.options.allowCongestionMarking = false) (finite : 0 ≤ getEffectiveMtu env s)
  (below : getEffectiveMtu env s < 2 ^ 63)

include unreliable unmarked finite below in
/-- Without reliability and marking, `sendLpPacket` hands a packet that fits the MTU to the
transport as it is. -/
theorem sendLpPacket_of_plain {pkt : Packet} (fits : pkt.wireSize ≤ getEffectiveMtu env s) :
    sendLpPacket env pkt s = sendPacket pkt s := by
  have sizeIs := sizeT_of_nonneg finite (by omega)
  have within : ¬ (getEffectiveMtu env s ≠ mtuUnlimited ∧ pkt.wireSize > sizeT (getEffectiveMtu env s)) := by
    rw [sizeIs]
    omega
  simp only [sendLpPacket, unreliable, unmarked, Bool.false_eq_true, if_false]
  exact if_neg within

include unreliable unmarked finite below in
/-- ... and so the loop of `sendNetPacket` hands over every fragment that fits. -/
theorem sendFragments_of_plain :
    ∀ (frags : List Packet), (∀ frag ∈ frags, frag.wireSize ≤ getEffectiveMtu env s) →
      sendFragments env frags s = { s with sent := s.sent ++ frags } := by
  intro frags
  induction frags generalizing s with
  | nil =>
      intro _
      simp [sendFragments]
  | cons frag rest ih =>
      intro fit
      have first := sendLpPacket_of_plain env unreliable unmarked finite below (fit frag List.mem_cons_self)
      -- handing a packet to the transport changes neither the options nor the MTU
      have later := ih (s := sendPacket frag s) unreliable unmarked finite below
        (fun other member => fit other (List.mem_cons_of_mem frag member))
      simp only [sendFragments, List.foldl_cons, first] at later ⊢
      rw [later]
      simp [sendPacket]

include unreliable unmarked finite below in
/-- Without reliability and marking, every packet `sendNetPacket` passes on fits the MTU:
the packet itself on the fast path, or its fragments with their Sequences. -/
theorem sendNetPacket_of_plain (fragmenting : s.options.allowFragmentation = true) (pkt : Packet)
    (isInterest : Bool) {payload : List UInt8} (hasFragment : pkt.fragment = some payload)
    (nonempty : payload ≠ []) :
    ∃ frags s', sendNetPacket env pkt isInterest s = .ok s' ∧ s'.nOutOverMtu = s.nOutOverMtu ∧
      s'.sent = s.sent ++ frags ∧ ∀ frag ∈ frags, frag.wireSize ≤ getEffectiveMtu env s := by
  have mtuIs : fragmentationMtu env s = getEffectiveMtu env s := by
    simp [fragmentationMtu, unreliable, unmarked]
  have limited : getEffectiveMtu env s ≠ mtuUnlimited := by unfold mtuUnlimited; omega
  have sizeIs := sizeT_of_nonneg finite (by omega)
  have netPktIs : LpFragmenter.netPkt pkt ≠ [] := by simpa [LpFragmenter.netPkt, hasFragment] using nonempty
  cases found : LpFragmenter.fragmentPacket s.options.fragmenterOptions pkt (getEffectiveMtu env s).toNat with
  | none =>
      refine ⟨[], { s with nFragmentationErrors := s.nFragmentationErrors + 1 }, ?_, rfl, by simp, by simp⟩
      simp [sendNetPacket, mtuIs, fragmenting, limited, sizeIs, found]
      rfl
  | some frags =>
      rcases LpFragmenter.eq_of_fragmentPacket _ _ _ netPktIs found with ⟨fast, rfl⟩ | ⟨slow, room, _, rfl⟩
      · -- the fast path: one packet, no Sequence
        have fits : pkt.wireSize ≤ getEffectiveMtu env s := by
          have := LpFragmenter.maxSingleFragOverhead
          omega
        refine ⟨[pkt], { s with sent := s.sent ++ [pkt] }, ?_, rfl, rfl, by simpa using fits⟩
        simp [sendNetPacket, mtuIs, fragmenting, limited, sizeIs, found, unreliable]
        rw [sendFragments_of_plain env unreliable unmarked finite below [pkt] (by simpa using fits)]
        rfl
      · -- the packet is cut in two or more fragments, which are numbered
        have several := LpFragmenter.two_le_fragCount pkt (getEffectiveMtu env s).toNat hasFragment slow room
        rw [← LpFragmenter.length_fragments] at several
        have cut : 1 < (LpFragmenter.fragments pkt (getEffectiveMtu env s).toNat).length := by omega
        let numbered := LpFragmenter.assignSequences s.lastSeqNo
          (LpFragmenter.fragments pkt (getEffectiveMtu env s).toNat)
        have fit : ∀ frag ∈ numbered.2, frag.wireSize ≤ getEffectiveMtu env s := by
          intro frag member
          obtain ⟨sequence, original, isFragment, rfl⟩ := LpFragmenter.mem_assignSequences member
          have := LpFragmenter.wireSize_fragment_le pkt (getEffectiveMtu env s).toNat room isFragment sequence
          omega
        refine ⟨numbered.2, { s with lastSeqNo := numbered.1, sent := s.sent ++ numbered.2 }, ?_, rfl, rfl, fit⟩
        have sent := sendFragments_of_plain env (s := { s with lastSeqNo := numbered.1 }) unreliable unmarked
          finite below numbered.2 fit
        simp [sendNetPacket, mtuIs, fragmenting, limited, sizeIs, found, unreliable,
          GenericLinkService.assignSequences, cut]
        rw [sent]
        rfl

end Plain

/-- A new link service without reliability and congestion marking, with fragmentation and the
default options otherwise. -/
def plainLinkService : GenericLinkService :=
  GenericLinkService.initial ⟨true, ⟨400⟩, false, 100000000, 65536, 2 ^ 63 - 1⟩ ⟨false, 3, 3⟩

theorem sendNetPacket_of_plain_cut :
    plainLinkService.reliability.options.isEnabled = false ∧
      plainLinkService.options.allowCongestionMarking = false ∧
      0 ≤ getEffectiveMtu ⟨277, 0, 0⟩ plainLinkService ∧ getEffectiveMtu ⟨277, 0, 0⟩ plainLinkService < 2 ^ 63 ∧
      plainLinkService.options.allowFragmentation = true ∧
      (⟨[], none, none, none, some (List.replicate 600 0)⟩ : Packet).fragment = some (List.replicate 600 0) ∧
      List.replicate 600 (0 : UInt8) ≠ [] ∧
      ∃ frags s', sendNetPacket ⟨277, 0, 0⟩ ⟨[], none, none, none, some (List.replicate 600 0)⟩ true
            plainLinkService = .ok s' ∧
          s'.nOutOverMtu = plainLinkService.nOutOverMtu ∧ s'.sent = plainLinkService.sent ++ frags ∧
          ∀ frag ∈ frags, frag.wireSize ≤ getEffectiveMtu ⟨277, 0, 0⟩ plainLinkService :=
  ⟨by decide, by decide, by decide, by decide, by decide, rfl, by decide,
    sendNetPacket_of_plain _ (by decide) (by decide) (by decide) (by decide) (by decide) _ true rfl (by decide)⟩

/-! ## A CongestionMark after piggyback -/

/-- Once the send queue has stayed above the threshold for the marking interval, the packet
is marked. -/
theorem checkCongestionLevel_of_due (env : Env) (pkt : Packet) (s : GenericLinkService)
    (congested : (s.options.defaultCongestionThreshold : Int) < env.sendQueueLength)
    {nextMarkTime : Nat} (due : s.nextMarkTime = some nextMarkTime) (elapsed : nextMarkTime ≤ env.now) :
    (checkCongestionLevel env pkt s).1 = pkt.setField (congestionMarkField 1) ∧
      (checkCongestionLevel env pkt s).2.nOutOverMtu = s.nOutOverMtu := by
  have nonneg : ¬ env.sendQueueLength < 0 := by omega
  have above : env.sendQueueLength.toNat > s.options.defaultCongestionThreshold := by omega
  simp only [checkCongestionLevel, if_neg nonneg, if_pos above, due, ge_iff_le, if_pos elapsed, and_self]

/-- When the send queue has stayed above the threshold for the marking interval, an IDLE
packet gets as many Acks as fit and then the 5-octet CongestionMark, which `piggyback` left
no room for: where the MTU leaves 0, 1 or 2 octets after the last whole Ack, the packet is
dropped over the MTU. -/
theorem requestIdlePacket_marked_over_mtu (env : Env) (s : GenericLinkService)
    (reliable : s.reliability.options.isEnabled = true) (marking : s.options.allowCongestionMarking = true)
    (congested : (s.options.defaultCongestionThreshold : Int) < env.sendQueueLength)
    {nextMarkTime : Nat} (due : s.nextMarkTime = some nextMarkTime) (elapsed : nextMarkTime ≤ env.now)
    (roomy : 4 ≤ getEffectiveMtu env s) (below : getEffectiveMtu env s < 2 ^ 63)
    (enough : (getEffectiveMtu env s - 4).toNat / 12 ≤ s.reliability.ackQueue.length)
    (tight : (getEffectiveMtu env s - 4) % 12 < 3) :
    (requestIdlePacket env s).nOutOverMtu = s.nOutOverMtu + 1 := by
  have space : LpReliability.piggybackSpace Packet.empty (getEffectiveMtu env s) = getEffectiveMtu env s - 4 := by
    have emptySize : Packet.empty.wireSize = 2 := rfl
    have oneOctet : sizeOfVarNumber 2 = 1 := rfl
    rw [LpReliability.piggybackSpace_of_nonneg Packet.empty (by omega), emptySize, oneOctet]
    omega
  -- the IDLE packet carries the Acks that fit, and the link service keeps its options
  have ackSizeIs : LpReliability.ackSize = 12 := rfl
  let acked := (piggyback Packet.empty (getEffectiveMtu env s) s)
  have asAcks : acked.1 = { Packet.empty with headers := Packet.empty.headers ++
      (s.reliability.ackQueue.take ((getEffectiveMtu env s - 4).toNat / 12)).map ackField } := by
    simp only [acked, GenericLinkService.piggyback, LpReliability.piggyback_eq, space, ackSizeIs]
  obtain ⟨marked, counted⟩ := checkCongestionLevel_of_due env acked.1 acked.2 congested due elapsed
  -- the Acks and the mark are the whole packet: 12 octets per Ack and 5 for the mark
  have markedSize : (checkCongestionLevel env acked.1 acked.2).1.headerSize =
      12 * min ((getEffectiveMtu env s - 4).toNat / 12) s.reliability.ackQueue.length + 5 := by
    have emptyHeader : Packet.empty.headerSize = 0 := rfl
    have markSize : (congestionMarkField 1).size = 5 := rfl
    rw [marked, headerSize_setField_fresh]
    · rw [asAcks, headerSize_appendAcks, List.length_take, emptyHeader, markSize, ackSizeIs]
      omega
    · rw [asAcks]
      intro g member
      have anAck := List.mem_of_mem_take (by simpa [Packet.empty] using member)
      obtain ⟨_, _, rfl⟩ := List.mem_map.mp anAck
      simp [ackField, congestionMarkField, ackType, congestionMarkType]
  have beyond : (checkCongestionLevel env acked.1 acked.2).1.wireSize > sizeT (getEffectiveMtu env s) := by
    have fragmentless : (checkCongestionLevel env acked.1 acked.2).1.fragment = none := by
      rw [marked, asAcks]
      rfl
    have wire := wireSize_eq (isBare_of_fragment_eq_none fragmentless)
    have noFragment : (checkCongestionLevel env acked.1 acked.2).1.fragmentSize = 0 := by
      rw [Packet.fragmentSize, fragmentless]
      rfl
    have sizeIs := sizeT_of_nonneg (by omega : 0 ≤ getEffectiveMtu env s) (by omega)
    have := sizeOfVarNumber_pos ((checkCongestionLevel env acked.1 acked.2).1.headerSize +
      (checkCongestionLevel env acked.1 acked.2).1.fragmentSize)
    omega
  have limited : getEffectiveMtu env s ≠ mtuUnlimited := by unfold mtuUnlimited; omega
  have keepsOptions : acked.2.options = s.options := rfl
  simp only [requestIdlePacket, sendLpPacket, reliable, if_true]
  rw [keepsOptions, marking, if_pos rfl, if_pos ⟨limited, beyond⟩]
  exact congrArg (· + 1) counted

/-- A link service with reliability and congestion marking whose marking is due, with five Acks
queued. -/
def markingLinkService : GenericLinkService :=
  { GenericLinkService.initial ⟨true, ⟨400⟩, true, 100000000, 65536, 2 ^ 63 - 1⟩ ⟨true, 3, 3⟩ with
    reliability := { LpReliability.initial ⟨true, 3, 3⟩ with ackQueue := [1, 2, 3, 4, 5] }
    nextMarkTime := some 0 }

/-- At MTU 64 the five Acks fill the 60 octets after the IDLE packet's own four, and the mark
goes over. -/
theorem requestIdlePacket_marked_over_mtu_fiveAcks :
    markingLinkService.reliability.options.isEnabled = true ∧
      markingLinkService.options.allowCongestionMarking = true ∧
      (markingLinkService.options.defaultCongestionThreshold : Int) < (⟨64, 100000, 0⟩ : Env).sendQueueLength ∧
      markingLinkService.nextMarkTime = some 0 ∧ 0 ≤ (⟨64, 100000, 0⟩ : Env).now ∧
      4 ≤ getEffectiveMtu ⟨64, 100000, 0⟩ markingLinkService ∧
      getEffectiveMtu ⟨64, 100000, 0⟩ markingLinkService < 2 ^ 63 ∧
      (getEffectiveMtu ⟨64, 100000, 0⟩ markingLinkService - 4).toNat / 12 ≤
        markingLinkService.reliability.ackQueue.length ∧
      (getEffectiveMtu ⟨64, 100000, 0⟩ markingLinkService - 4) % 12 < 3 ∧
      (requestIdlePacket ⟨64, 100000, 0⟩ markingLinkService).nOutOverMtu = markingLinkService.nOutOverMtu + 1 :=
  ⟨by decide, by decide, by decide, rfl, by decide, by decide, by decide, by decide, by decide,
    requestIdlePacket_marked_over_mtu _ _ (by decide) (by decide) (by decide) rfl (by decide) (by decide)
      (by decide) (by decide) (by decide)⟩

/-! ## The send path at the boundary -/

/-- A face of MTU 277 with fragmentation and reliability, without congestion marking, the
other options at their defaults. -/
def boundaryOptions : GenericLinkService.Options := ⟨true, ⟨400⟩, false, 100000000, 65536, 2 ^ 63 - 1⟩

def boundaryEnv : Env := ⟨277, 0, 0⟩

/-- The LpPacket `doSendInterest` passes on for an Interest of 224 octets without tags: the
Interest as Fragment and HopCountTag 0. -/
def boundaryInterest : Packet := ⟨[⟨84, [0]⟩], none, none, none, some (List.replicate 224 0)⟩

/-- A fragment from the peer carrying TxSequence `txSeq`. -/
def peerFragment (txSeq : Nat) : Packet := ⟨[txSequenceField txSeq], some 1, none, none, some [5]⟩

set_option maxRecDepth 8000 in
/-- A new link service receives two fragments, which queue two Acks, then sends the
Interest: the fragmenter keeps it whole (231 octets and the 30 octets of
`MAX_SINGLE_FRAG_OVERHEAD` fit 277 - 12), the Sequence and the TxSequence bring it to 253
octets, and `piggyback` adds both Acks, 279 octets in all.  The packet is dropped and
counted in `nOutOverMtu`; nothing reaches the transport. -/
theorem sendNetPacket_boundary_interest_over_mtu :
    (LpReliability.processIncomingPacket boundaryEnv (peerFragment 7)
        (GenericLinkService.initial boundaryOptions ⟨true, 3, 3⟩) >>=
      LpReliability.processIncomingPacket boundaryEnv (peerFragment 8) >>=
      sendNetPacket boundaryEnv boundaryInterest true).map (fun s => (s.nOutOverMtu, s.sent)) =
      .ok (1, []) := by
  rfl

end Nfd.Face
