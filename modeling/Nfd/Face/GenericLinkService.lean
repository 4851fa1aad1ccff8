import Nfd.Face.LpReliability

/-!
# The send path of GenericLinkService, and the reliability events that use it

`sendNetPacket` takes an LpPacket holding a network-layer packet, lowers the MTU by the
header space that reliability and congestion marking may add later, fragments, numbers the
fragments with Sequences, hands them to `LpReliability::handleOutgoing` for TxSequences and
passes each to `sendLpPacket`.  That one piggybacks Acks, may add a CongestionMark, and drops
the packet, counting it in `nOutOverMtu`, when its encoding exceeds the MTU.

The reliability handlers that call back into the link service (`onLpPacketLost` resends
through `sendLpPacket` and counts exhausted packets; `onLpPacketAcknowledged` counts
delivered ones) are functions of the whole link service state.  What the transport reports
at the time of a call (its MTU, its send queue length, the clock) is an `Env`.
-/

set_option autoImplicit false

namespace Nfd.Face

open Nfd.Lp

namespace GenericLinkService

structure Options where
  allowFragmentation : Bool
  fragmenterOptions : LpFragmenter.Options
  allowCongestionMarking : Bool
  /-- In nanoseconds. -/
  baseCongestionMarkingInterval : Nat
  defaultCongestionThreshold : Nat
  overrideMtu : Int

/-- What the transport and the clock report during one call. -/
structure Env where
  /-- `getTransport()->getMtu()`. -/
  mtu : Int
  /-- `getTransport()->getSendQueueLength()`, negative when unsupported. -/
  sendQueueLength : Int
  /-- `time::steady_clock::now()`, in nanoseconds. -/
  now : Nat

end GenericLinkService

/-- The link service with its reliability layer and the counters its send path updates.
`sent` holds what was passed to the transport, `droppedInterests` what was signalled by
`onDroppedInterest`. -/
structure GenericLinkService where
  options : GenericLinkService.Options
  reliability : LpReliability
  lastSeqNo : UInt64
  /-- `m_nextMarkTime`, `none` for `time_point::max()`. -/
  nextMarkTime : Option Nat
  nMarkedSinceInMarkingState : Nat
  nOutOverMtu : Nat
  nFragmentationErrors : Nat
  nCongestionMarked : Nat
  nAcknowledged : Nat
  nRetransmitted : Nat
  nRetxExhausted : Nat
  sent : List Packet
  droppedInterests : List Packet

namespace GenericLinkService

/-- The constructor: `m_lastSeqNo` starts at -2. -/
def initial (options : Options) (reliabilityOptions : LpReliability.Options) : GenericLinkService :=
  ⟨options, LpReliability.initial reliabilityOptions, 0 - 2, none, 0, 0, 0, 0, 0, 0, 0, [], []⟩

/-- `static_cast<size_t>` of an `ssize_t`. -/
def sizeT (n : Int) : Nat := (n % 2 ^ 64).toNat

/-- `CONGESTION_MARK_SIZE`: the largest CongestionMark element. -/
def congestionMarkSize : Nat :=
  sizeOfVarNumber congestionMarkType + sizeOfVarNumber 8 + sizeOfNonNegativeInteger (2 ^ 64 - 1)

/-- `getEffectiveMtu()`: `MTU_UNLIMITED` is negative, so it wins over any override. -/
def getEffectiveMtu (env : Env) (s : GenericLinkService) : Int := min s.options.overrideMtu env.mtu

/-- The marking interval after `n` marks, `base / sqrt(n + 1)` rounded down. -/
def markingInterval (base n : Nat) : Nat := Nat.sqrt (base ^ 2 / (n + 1))

def checkCongestionLevel (env : Env) (pkt : Packet) (s : GenericLinkService) : Packet × GenericLinkService :=
  -- the transport must support retrieving the current send queue length
  if env.sendQueueLength < 0 then (pkt, s)
  else if env.sendQueueLength.toNat > s.options.defaultCongestionThreshold then
    match s.nextMarkTime with
    | none => (pkt, { s with nextMarkTime := some (env.now + s.options.baseCongestionMarkingInterval) })
    | some nextMarkTime =>
        -- mark the packet if the send queue stays above target for one interval
        if env.now ≥ nextMarkTime then
          let nMarked := s.nMarkedSinceInMarkingState + 1
          (pkt.setField (congestionMarkField 1),
            { s with nCongestionMarked := s.nCongestionMarked + 1, nMarkedSinceInMarkingState := nMarked,
                     nextMarkTime := some (nextMarkTime +
                       markingInterval s.options.baseCongestionMarkingInterval nMarked) })
        else (pkt, s)
  else if s.nextMarkTime.isSome then
    -- the congestion incident has ended
    (pkt, { s with nextMarkTime := none, nMarkedSinceInMarkingState := 0 })
  else (pkt, s)

def sendPacket (pkt : Packet) (s : GenericLinkService) : GenericLinkService :=
  { s with sent := s.sent ++ [pkt] }

/-- `piggyback` on the link service's reliability layer. -/
def piggyback (pkt : Packet) (mtu : Int) (s : GenericLinkService) : Packet × GenericLinkService :=
  let (pkt, r) := s.reliability.piggyback pkt mtu
  (pkt, { s with reliability := r })

def sendLpPacket (env : Env) (pkt : Packet) (s : GenericLinkService) : GenericLinkService :=
  let mtu := getEffectiveMtu env s
  let (pkt, s) := if s.reliability.options.isEnabled then piggyback pkt mtu s else (pkt, s)
  let (pkt, s) := if s.options.allowCongestionMarking then checkCongestionLevel env pkt s else (pkt, s)
  if mtu ≠ mtuUnlimited ∧ pkt.wireSize > sizeT mtu then { s with nOutOverMtu := s.nOutOverMtu + 1 }
  else sendPacket pkt s

/-- `requestIdlePacket()`: an empty LpPacket, which `sendLpPacket` gives the Acks it can. -/
def requestIdlePacket (env : Env) (s : GenericLinkService) : GenericLinkService :=
  sendLpPacket env Packet.empty s

/-- The loop at the end of `sendNetPacket`. -/
def sendFragments (env : Env) (frags : List Packet) (s : GenericLinkService) : GenericLinkService :=
  frags.foldl (fun s frag => sendLpPacket env frag s) s

/-- The MTU `sendNetPacket` fragments for: space is made for the TxSequence and the
CongestionMark that may be added to each fragment. -/
def fragmentationMtu (env : Env) (s : GenericLinkService) : Int :=
  let mtu := getEffectiveMtu env s
  let mtu := if s.reliability.options.isEnabled && mtu ≠ mtuUnlimited then mtu - LpReliability.reservedHeaderSpace else mtu
  if s.options.allowCongestionMarking && mtu ≠ mtuUnlimited then mtu - congestionMarkSize else mtu

/-- `assignSequences` on the link service's `m_lastSeqNo`. -/
def assignSequences (frags : List Packet) (s : GenericLinkService) : List Packet × GenericLinkService :=
  let (lastSeqNo, frags) := LpFragmenter.assignSequences s.lastSeqNo frags
  (frags, { s with lastSeqNo := lastSeqNo })

/-- `handleOutgoing` on the link service's reliability layer. -/
def handleOutgoing (frags : List Packet) (pkt : Packet) (isInterest : Bool) (s : GenericLinkService) :
    Except String (List Packet × GenericLinkService) := do
  let (frags, r) ← s.reliability.handleOutgoing frags pkt isInterest
  pure (frags, { s with reliability := r })

/-- `sendNetPacket(pkt, isInterest)`; the `length_error` of `assignTxSequence` is the error. -/
def sendNetPacket (env : Env) (pkt : Packet) (isInterest : Bool) (s : GenericLinkService) :
    Except String GenericLinkService := do
  let reliable := s.reliability.options.isEnabled
  let mtu := fragmentationMtu env s
  let frags? := if s.options.allowFragmentation && mtu ≠ mtuUnlimited then
      LpFragmenter.fragmentPacket s.options.fragmenterOptions pkt (sizeT mtu)
    else some [pkt]
  match frags? with
  | none => pure { s with nFragmentationErrors := s.nFragmentationErrors + 1 }
  | some frags =>
      -- Sequences only when reliability is enabled or the packet was cut
      let (frags, s) := if reliable || frags.length > 1 then assignSequences frags s else (frags, s)
      let (frags, s) ← if reliable && (frags.head?.any fun frag => frag.fragment.isSome) then
          handleOutgoing frags pkt isInterest s
        else pure (frags, s)
      pure (sendFragments env frags s)

end GenericLinkService

namespace LpReliability

open GenericLinkService

/-- `onLpPacketLost(txSeq, isTimeout)`: the TxSequences it removes, and the link service
after it.  The fragment is resent under a new TxSequence, or, after `maxRetx`
retransmissions, its whole network packet is given up. -/
def onLpPacketLost (env : Env) (txSeq : Nat) (s : GenericLinkService) :
    Except String (List Nat × GenericLinkService) :=
  let r := s.reliability
  -- BOOST_ASSERT(m_unackedFrags.count(txSeq) > 0)
  match SortedMap.find? txSeq r.unackedFrags with
  | none => .ok ([], s)
  | some txFrag =>
      let netPkt := (r.netPkts[txFrag.netPkt]?).getD ⟨Packet.empty, false, false, []⟩
      if txFrag.retxCount ≥ r.options.maxRetx then
        -- delete the other fragments of the network packet, then this one
        let (removed, r) := netPkt.unackedFrags.foldl (fun (removed, r) other =>
          if other ≠ txSeq then (removed ++ [other], r.deleteUnackedFrag other) else (removed, r)) ([], r)
        let s := { s with reliability := r, nRetxExhausted := s.nRetxExhausted + 1 }
        let s := if netPkt.isInterest then { s with droppedInterests := s.droppedInterests ++ [netPkt.pkt] } else s
        .ok (removed ++ [txSeq], { s with reliability := s.reliability.deleteUnackedFrag txSeq })
      else do
        let (newTxSeq, pkt, r) ← assignTxSequence txFrag.pkt r
        let r := modifyNetPkt txFrag.netPkt (fun n => { n with didRetx := true }) r
        -- move the fragment to its new TxSequence
        let unackedFrags := SortedMap.emplace newTxSeq ⟨pkt, 0, 0, txFrag.netPkt⟩ r.unackedFrags
        let retransmitted := fun (u : UnackedFrag) => { u with retxCount := txFrag.retxCount + 1, netPkt := txFrag.netPkt }
        let r := { r with unackedFrags := SortedMap.modify newTxSeq retransmitted unackedFrags }
        let newTxFrag := (SortedMap.find? newTxSeq r.unackedFrags).getD ⟨pkt, 0, 0, txFrag.netPkt⟩
        let r := modifyNetPkt txFrag.netPkt (fun n => { n with unackedFrags := n.unackedFrags.replace txSeq newTxSeq }) r
        let r := r.deleteUnackedFrag txSeq
        -- retransmit
        .ok ([txSeq], sendLpPacket env newTxFrag.pkt { s with reliability := r })

/-- `onLpPacketAcknowledged(fragIt)`: the network packet is counted when its last fragment
is acknowledged. -/
def onLpPacketAcknowledged (txSeq : Nat) (s : GenericLinkService) : GenericLinkService :=
  match SortedMap.find? txSeq s.reliability.unackedFrags with
  | none => s
  | some frag =>
      let r := modifyNetPkt frag.netPkt (fun n => { n with unackedFrags := removeIterator txSeq n.unackedFrags })
        s.reliability
      let s := { s with reliability := r }
      let s := match r.netPkts[frag.netPkt]? with
        | some netPkt =>
            if netPkt.unackedFrags.isEmpty then
              if netPkt.didRetx then { s with nRetransmitted := s.nRetransmitted + 1 }
              else { s with nAcknowledged := s.nAcknowledged + 1 }
            else s
        | none => s
      { s with reliability := s.reliability.deleteUnackedFrag txSeq }

/-- The loop over the lost fragments of one Ack, skipping those an earlier loss removed. -/
def onLostLpPackets (env : Env) : List Nat → List Nat → GenericLinkService → Except String GenericLinkService
  | [], _, s => .ok s
  | txSeq :: rest, removedLpPackets, s =>
      if txSeq ∈ removedLpPackets then onLostLpPackets env rest removedLpPackets s
      else do
        let (removedTxSeqs, s) ← onLpPacketLost env txSeq s
        onLostLpPackets env rest (removedLpPackets ++ removedTxSeqs) s

/-- The loop of `processIncomingPacket` over the Acks of a packet. -/
def processAcks (env : Env) : List Nat → GenericLinkService → Except String GenericLinkService
  | [], s => .ok s
  | ackTxSeq :: rest, s =>
      if (SortedMap.find? ackTxSeq s.reliability.unackedFrags).isNone then
        -- an Ack for an unknown TxSequence is ignored
        processAcks env rest s
      else do
        let (lostLpPackets, r) := s.reliability.findLostLpPackets ackTxSeq
        let s := onLpPacketAcknowledged ackTxSeq { s with reliability := r }
        let s ← onLostLpPackets env lostLpPackets [] s
        processAcks env rest s

/-- `processIncomingPacket(pkt)` without the detection of duplicate Sequences: the Acks are
processed, and the TxSequence of a fragment is queued for an Ack of its own. -/
def processIncomingPacket (env : Env) (pkt : Packet) (s : GenericLinkService) :
    Except String GenericLinkService := do
  let s ← processAcks env pkt.acks s
  match pkt.fragment, pkt.txSequence with
  | some _, some txSeq => pure { s with reliability := { s.reliability with ackQueue := s.reliability.ackQueue ++ [txSeq] } }
  | _, _ => pure s

end LpReliability

end Nfd.Face
