import Nfd.Face.LpFragmenter
import Nfd.Lib.SortedMap

/-!
# The send window of LpReliability

`LpReliability` numbers every fragment it sends with a TxSequence, keeps it in
`m_unackedFrags` (a `std::map` by TxSequence) until an Ack for that TxSequence arrives, and
queues the TxSequences of received fragments for Acks of its own, which `piggyback` adds to
outgoing packets while they fit the MTU.  TxSequences are `uint64_t` and wrap around, so the
window starts at `m_firstUnackedFrag` and runs, in circular order, to `m_lastTxSeqNo`.

The network packets the fragments belong to (`NetPkt`, shared by its fragments) are a table
indexed by the order they were created in.  Timers are not state: an RTO expiry is an event
of the link service, enabled while its fragment is in the map.
-/

set_option autoImplicit false

namespace Nfd.Lp

def txSequenceType : Nat := 840
def ackType : Nat := 836
def congestionMarkType : Nat := 832

/-- `ndn::MAX_NDN_PACKET_SIZE`. -/
def maxNdnPacketSize : Nat := 8800

/-- An `lp::Sequence` (`uint64_t`) as its eight octets, most significant first. -/
def encodeSequence (n : Nat) : List UInt8 := (List.range 8).reverse.map fun i => (n / 256 ^ i % 256).toUInt8

/-- The value of a NonNegativeInteger element. -/
def encodeNonNegativeInteger (n : Nat) : List UInt8 :=
  (List.range (sizeOfNonNegativeInteger n)).reverse.map fun i => (n / 256 ^ i % 256).toUInt8

@[simp] theorem length_encodeSequence (n : Nat) : (encodeSequence n).length = 8 := by
  simp [encodeSequence]

def txSequenceField (txSeq : Nat) : Field := ⟨txSequenceType, encodeSequence txSeq⟩

def ackField (txSeq : Nat) : Field := ⟨ackType, encodeSequence txSeq⟩

def congestionMarkField (mark : Nat) : Field := ⟨congestionMarkType, encodeNonNegativeInteger mark⟩

/-- `set<F>(value)`: the field replaces the one of its type. -/
def Packet.setField (f : Field) (p : Packet) : Packet :=
  { p with headers := p.headers.filter (fun g => g.type != f.type) ++ [f] }

/-- `add<F>(value)` of a repeatable field. -/
def Packet.addField (f : Field) (p : Packet) : Packet := { p with headers := p.headers ++ [f] }

@[simp] theorem addField_headers (f : Field) (p : Packet) : (p.addField f).headers = p.headers ++ [f] := rfl
@[simp] theorem addField_fragment (f : Field) (p : Packet) : (p.addField f).fragment = p.fragment := rfl

theorem headerSize_addField (f : Field) (p : Packet) : (p.addField f).headerSize = p.headerSize + f.size := by
  simp only [Packet.headerSize, addField_headers, List.map_append, List.sum_append, List.map_cons,
    List.map_nil, List.sum_cons, List.sum_nil]
  simp only [Packet.addField]
  omega

/-- Setting a field of a type the packet does not hold adds its element. -/
theorem headerSize_setField_fresh (f : Field) (p : Packet) (fresh : ∀ g ∈ p.headers, g.type ≠ f.type) :
    (p.setField f).headerSize = p.headerSize + f.size := by
  have kept : p.headers.filter (fun g => g.type != f.type) = p.headers := by
    rw [List.filter_eq_self]
    intro g member
    simpa using fresh g member
  have asAdded : p.setField f = p.addField f := by
    simp only [Packet.setField, Packet.addField, kept]
  rw [asAdded, headerSize_addField]

/-- The `lp::Sequence` an 8-octet value encodes. -/
def decodeSequence (value : List UInt8) : Nat := value.foldl (fun n b => n * 256 + b.toNat) 0

/-- `list<lp::AckField>()`. -/
def Packet.acks (p : Packet) : List Nat :=
  (p.headers.filter fun f => f.type == ackType).map fun f => decodeSequence f.value

/-- `get<lp::TxSequenceField>()`, `none` when the packet has none. -/
def Packet.txSequence (p : Packet) : Option Nat :=
  (p.headers.find? fun f => f.type == txSequenceType).map fun f => decodeSequence f.value

end Nfd.Lp

namespace Nfd.Face

open Nfd.Lp

/-- TxSequences are `uint64_t`. -/
def txSeqModulus : Nat := 2 ^ 64

/-- `MTU_UNLIMITED`. -/
def mtuUnlimited : Int := -1

/-- `MIN_MTU`. -/
def minMtu : Int := 64

namespace LpReliability

structure Options where
  isEnabled : Bool
  maxRetx : Nat
  seqNumLossThreshold : Nat
deriving DecidableEq, Repr

structure UnackedFrag where
  pkt : Packet
  retxCount : Nat
  /-- The number of Acks received for TxSequences after this fragment's. -/
  nGreaterSeqAcks : Nat
  /-- The index of its `NetPkt`. -/
  netPkt : Nat
deriving DecidableEq, Repr

structure NetPkt where
  pkt : Packet
  isInterest : Bool
  didRetx : Bool
  /-- The TxSequences of its fragments still in `m_unackedFrags`, each standing for an
  iterator into the map. -/
  unackedFrags : List Nat
deriving DecidableEq, Repr

end LpReliability

structure LpReliability where
  options : LpReliability.Options
  unackedFrags : List (Nat × LpReliability.UnackedFrag)
  /-- `m_firstUnackedFrag`, `none` for `end()`. -/
  firstUnackedFrag : Option Nat
  ackQueue : List Nat
  lastTxSeqNo : Nat
  netPkts : List LpReliability.NetPkt
deriving DecidableEq, Repr

namespace LpReliability

/-- The constructor: `m_lastTxSeqNo` is -1, so that TxSequences start at 0. -/
def initial (options : Options) : LpReliability := ⟨options, [], none, [], txSeqModulus - 1, []⟩

def modifyNetPkt (i : Nat) (f : NetPkt → NetPkt) (r : LpReliability) : LpReliability :=
  { r with netPkts := r.netPkts.modify i f }

def assignTxSequence (frag : Packet) (r : LpReliability) : Except String (Nat × Packet × LpReliability) :=
  let txSeq := (r.lastTxSeqNo + 1) % txSeqModulus
  let r := { r with lastTxSeqNo := txSeq }
  let frag := frag.setField (txSequenceField txSeq)
  if !r.unackedFrags.isEmpty && r.firstUnackedFrag == some r.lastTxSeqNo then
    .error "TxSequence range exceeded"
  else .ok (txSeq, frag, r)

/-- The loop of `handleOutgoing` over the fragments of network packet `netPkt`. -/
def handleOutgoingLoop (netPkt : Nat) : List Packet → LpReliability → Except String (List Packet × LpReliability)
  | [], r => .ok ([], r)
  | frag :: rest, r => do
      let (txSeq, frag, r) ← assignTxSequence frag r
      -- emplace_hint, then the stored entry is given its NetPkt
      let unackedFrags := SortedMap.emplace txSeq ⟨frag, 0, 0, netPkt⟩ r.unackedFrags
      let r := { r with unackedFrags := SortedMap.modify txSeq (fun u => { u with netPkt := netPkt }) unackedFrags }
      let r := if r.unackedFrags.length = 1 then { r with firstUnackedFrag := SortedMap.first? r.unackedFrags } else r
      let r := modifyNetPkt netPkt (fun n => { n with unackedFrags := n.unackedFrags ++ [txSeq] }) r
      let (frags, r) ← handleOutgoingLoop netPkt rest r
      pure (frag :: frags, r)

/-- `handleOutgoing(frags, pkt, isInterest)`: the fragments come back with their TxSequences. -/
def handleOutgoing (frags : List Packet) (pkt : Packet) (isInterest : Bool) (r : LpReliability) :
    Except String (List Packet × LpReliability) :=
  let netPkt := r.netPkts.length
  handleOutgoingLoop netPkt frags { r with netPkts := r.netPkts ++ [⟨pkt, isInterest, false, []⟩] }

/-- `RESERVED_HEADER_SPACE`: TxSequence TLV-TYPE (3 octets), TLV-LENGTH (1 octet) and the
8-octet `lp::Sequence`. -/
def reservedHeaderSpace : Nat := sizeOfVarNumber txSequenceType + sizeOfVarNumber 8 + 8

/-- Ack TLV-TYPE (3 octets), TLV-LENGTH (1 octet) and the 8-octet `lp::Sequence`. -/
def ackSize : Nat := sizeOfVarNumber ackType + sizeOfVarNumber 8 + 8

/-- The loop of `piggyback`: Acks from the front of the queue while one fits the space left. -/
def piggybackLoop : Int → List Nat → Packet → Packet × List Nat
  | _, [], pkt => (pkt, [])
  | remainingSpace, ackTxSeq :: rest, pkt =>
      if (ackSize : Int) > remainingSpace then (pkt, ackTxSeq :: rest)
      else piggybackLoop (remainingSpace - ackSize) rest (pkt.addField (ackField ackTxSeq))

theorem size_ackField (txSeq : Nat) : (ackField txSeq).size = ackSize := by
  simp [ackField, Field.size, elementSize, ackSize]

/-- The loop takes as many Acks from the front of the queue as whole Acks fit the space. -/
theorem piggybackLoop_eq (remainingSpace : Int) (ackQueue : List Nat) (pkt : Packet) :
    piggybackLoop remainingSpace ackQueue pkt =
      ({ pkt with headers := pkt.headers ++ (ackQueue.take (remainingSpace.toNat / ackSize)).map ackField },
        ackQueue.drop (remainingSpace.toNat / ackSize)) := by
  have ackSizeIs : ackSize = 12 := rfl
  induction ackQueue generalizing remainingSpace pkt with
  | nil => simp [piggybackLoop]
  | cons ackTxSeq rest ih =>
      by_cases full : (ackSize : Int) > remainingSpace
      · have noneFit : remainingSpace.toNat / ackSize = 0 := by
          rw [ackSizeIs] at full ⊢
          omega
        simp [piggybackLoop, full, noneFit]
      · -- one Ack fits: the rest of the loop runs on the space after it
        have oneMore : remainingSpace.toNat / ackSize = (remainingSpace - ackSize).toNat / ackSize + 1 := by
          rw [ackSizeIs] at full ⊢
          omega
        rw [piggybackLoop, if_neg full, ih, oneMore]
        simp [Packet.addField]

/-- The `remainingSpace` that `piggyback` starts its loop with. -/
def piggybackSpace (pkt : Packet) (mtu : Int) : Int :=
  -- up to 2 extra octets reserved for potential TLV-LENGTH size increases
  let reservedSpace : Int := sizeOfVarNumber maxNdnPacketSize - sizeOfVarNumber pkt.wireSize
  (if mtu = mtuUnlimited then (maxNdnPacketSize : Int) else mtu) - reservedSpace - pkt.wireSize

def piggyback (pkt : Packet) (mtu : Int) (r : LpReliability) : Packet × LpReliability :=
  let (pkt, ackQueue) := piggybackLoop (piggybackSpace pkt mtu) r.ackQueue pkt
  (pkt, { r with ackQueue := ackQueue })

/-- `piggyback` moves the Acks that fit from the front of the queue onto the packet. -/
theorem piggyback_eq (pkt : Packet) (mtu : Int) (r : LpReliability) :
    r.piggyback pkt mtu =
      ({ pkt with headers := pkt.headers ++
          (r.ackQueue.take ((piggybackSpace pkt mtu).toNat / ackSize)).map ackField },
        { r with ackQueue := r.ackQueue.drop ((piggybackSpace pkt mtu).toNat / ackSize) }) := by
  simp only [piggyback, piggybackLoop_eq]

/-- Below `MTU_UNLIMITED`, the space is what the MTU leaves, less 2 octets while the packet's
own encoding is under 253 octets. -/
theorem piggybackSpace_of_nonneg (pkt : Packet) {mtu : Int} (finite : 0 ≤ mtu) :
    piggybackSpace pkt mtu = mtu - (3 - sizeOfVarNumber pkt.wireSize) - pkt.wireSize := by
  have limited : mtu ≠ mtuUnlimited := by unfold mtuUnlimited; omega
  have maxSize : sizeOfVarNumber maxNdnPacketSize = 3 := rfl
  simp only [piggybackSpace, if_neg limited, maxSize]
  rfl

/-- The circular walk of `findLostLpPackets` from iterator `it` up to the acknowledged
TxSequence, at most `fuel` entries: each fragment passed gains an Ack for a greater
TxSequence and is lost once it has `seqNumLossThreshold` of them. -/
def findLostLpPacketsLoop (ackTxSeq : Nat) : Nat → Option Nat → LpReliability → List Nat × LpReliability
  | 0, _, r => ([], r)
  | fuel + 1, it, r =>
      -- past the last entry, the walk goes on from the first
      match it.or (SortedMap.first? r.unackedFrags) with
      | none => ([], r)
      | some txSeq =>
          if txSeq = ackTxSeq then ([], r)
          else
            let r := { r with unackedFrags :=
              SortedMap.modify txSeq (fun u => { u with nGreaterSeqAcks := u.nGreaterSeqAcks + 1 }) r.unackedFrags }
            let lost := match SortedMap.find? txSeq r.unackedFrags with
              | some u => if u.nGreaterSeqAcks ≥ r.options.seqNumLossThreshold then [txSeq] else []
              | none => []
            let later := findLostLpPacketsLoop ackTxSeq fuel (SortedMap.next txSeq r.unackedFrags) r
            (lost ++ later.1, later.2)

def findLostLpPackets (ackTxSeq : Nat) (r : LpReliability) : List Nat × LpReliability :=
  findLostLpPacketsLoop ackTxSeq r.unackedFrags.length r.firstUnackedFrag r

def deleteUnackedFrag (txSeq : Nat) (r : LpReliability) : LpReliability :=
  let firstUnackedTxSeq := r.firstUnackedFrag
  let nextFragIt := SortedMap.next txSeq r.unackedFrags
  let r := { r with unackedFrags := SortedMap.erase txSeq r.unackedFrags }
  if !r.unackedFrags.isEmpty && firstUnackedTxSeq == some txSeq then
    -- the window begins at the next fragment, allowing for wraparound
    { r with firstUnackedFrag := nextFragIt.or (SortedMap.first? r.unackedFrags) }
  else if r.unackedFrags.isEmpty then { r with firstUnackedFrag := none }
  else r

/-- Removing one iterator from a `NetPkt`'s vector: the last one takes its place. -/
def removeIterator (txSeq : Nat) (iterators : List Nat) : List Nat :=
  match iterators.idxOf? txSeq with
  | some i => (iterators.set i (iterators.getLastD 0)).dropLast
  | none => iterators

end LpReliability

end Nfd.Face
