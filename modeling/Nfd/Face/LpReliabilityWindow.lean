import Nfd.Face.IdleAckTimer
import Nfd.Lib.SequenceWindow
import Nfd.Lib.FaultRun

/-!
# The send window of LpReliability over whole runs

`m_unackedFrags` is a `std::map`, so its TxSequences are distinct and ascending; with
`m_firstUnackedFrag` and `m_lastTxSeqNo` they form a window on the circle of `uint64_t`
(`SequenceWindow.Window`).  Every operation of the reliability layer keeps it:
`assignTxSequence` hands out the TxSequence after `m_lastTxSeqNo`, which is fresh unless it
throws; `deleteUnackedFrag` moves the window to the successor of the fragment it removes;
`findLostLpPackets`, `piggyback` and the Ack queue change no TxSequence.

The link service runs these on every network packet it sends, every LpPacket it receives with
reliability enabled, every RTO expiry, every round of the idle Ack timer and every change of
its options, in any order.  A handler that throws ends the run.
-/

set_option autoImplicit false

namespace Nfd.Face

open Nfd.Lp SequenceWindow

namespace LpReliability

/-- `m_unackedFrags` holds one entry per TxSequence in ascending order, and its TxSequences
form the window from `m_firstUnackedFrag` to `m_lastTxSeqNo`. -/
structure SendWindow (r : LpReliability) : Prop where
  sorted : SortedMap.Sorted r.unackedFrags
  window : Window txSeqModulus (SortedMap.keys r.unackedFrags) r.firstUnackedFrag r.lastTxSeqNo

/-- `r'` has the send state of `r`: its fragments, window bounds and network packets. -/
def SameSendState (r r' : LpReliability) : Prop :=
  r'.unackedFrags = r.unackedFrags ∧ r'.firstUnackedFrag = r.firstUnackedFrag ∧
    r'.lastTxSeqNo = r.lastTxSeqNo ∧ r'.netPkts = r.netPkts

section Window

variable {r r' : LpReliability}

theorem sendWindow_initial (options : Options) : SendWindow (initial options) :=
  ⟨List.Pairwise.nil, Window.nil (show txSeqModulus - 1 < txSeqModulus by decide)⟩

/-- The window reads only the TxSequences, `m_firstUnackedFrag` and `m_lastTxSeqNo`. -/
theorem SendWindow.congr (w : SendWindow r) (keys : SortedMap.keys r'.unackedFrags = SortedMap.keys r.unackedFrags)
    (first : r'.firstUnackedFrag = r.firstUnackedFrag) (last : r'.lastTxSeqNo = r.lastTxSeqNo) :
    SendWindow r' := by
  refine ⟨?_, ?_⟩
  · unfold SortedMap.Sorted
    rw [keys]
    exact w.sorted
  · rw [keys, first, last]
    exact w.window

theorem SendWindow.of_same (w : SendWindow r) (same : SameSendState r r') : SendWindow r' :=
  w.congr (by rw [same.1]) same.2.1 same.2.2.1

theorem SendWindow.modifyNetPkt (w : SendWindow r) (i : Nat) (f : NetPkt → NetPkt) :
    SendWindow (modifyNetPkt i f r) :=
  w.congr rfl rfl rfl

/-- With a fragment outstanding, the window has a first fragment. -/
theorem SendWindow.first_or (w : SendWindow r) (nonempty : r.unackedFrags ≠ []) (other : Option Nat) :
    r.firstUnackedFrag.or other = r.firstUnackedFrag := by
  cases isFirst : r.firstUnackedFrag with
  | none => exact absurd (SortedMap.keys_eq_nil.mp (w.window.first_eq_none.mp isFirst)) nonempty
  | some f => rfl

@[simp] theorem deleteUnackedFrag_unackedFrags (k : Nat) (r : LpReliability) :
    (r.deleteUnackedFrag k).unackedFrags = SortedMap.erase k r.unackedFrags := by
  unfold deleteUnackedFrag
  dsimp only
  split_ifs <;> rfl

@[simp] theorem deleteUnackedFrag_lastTxSeqNo (k : Nat) (r : LpReliability) :
    (r.deleteUnackedFrag k).lastTxSeqNo = r.lastTxSeqNo := by
  unfold deleteUnackedFrag
  dsimp only
  split_ifs <;> rfl

@[simp] theorem deleteUnackedFrag_netPkts (k : Nat) (r : LpReliability) :
    (r.deleteUnackedFrag k).netPkts = r.netPkts := by
  unfold deleteUnackedFrag
  dsimp only
  split_ifs <;> rfl

theorem deleteUnackedFrag_firstUnackedFrag (k : Nat) (r : LpReliability) :
    (r.deleteUnackedFrag k).firstUnackedFrag =
      if SortedMap.erase k r.unackedFrags = [] then none
      else if r.firstUnackedFrag = some k then
        (SortedMap.next k r.unackedFrags).or (SortedMap.first? (SortedMap.erase k r.unackedFrags))
      else r.firstUnackedFrag := by
  unfold deleteUnackedFrag
  by_cases empty : SortedMap.erase k r.unackedFrags = []
  · simp [empty]
  · by_cases wasFirst : r.firstUnackedFrag = some k
    · simp [empty, wasFirst]
    · simp [empty, wasFirst]

/-- The iterator the window moves to when its first fragment is erased, `nextFragIt` or
`begin()` past the last entry, is the TxSequence closest after the erased one. -/
theorem successor_closest {m : List (Nat × UnackedFrag)} {k : Nat} (sorted : SortedMap.Sorted m)
    (keysLt : ∀ j ∈ SortedMap.keys m, j < txSeqModulus) (left : SortedMap.erase k m ≠ []) :
    ∃ s, (SortedMap.next k m).or (SortedMap.first? (SortedMap.erase k m)) = some s ∧
      s ∈ SortedMap.keys m ∧ s ≠ k ∧
      ∀ j ∈ SortedMap.keys m, j ≠ k → distance txSeqModulus k s ≤ distance txSeqModulus k j := by
  cases isNext : SortedMap.next k m with
  | some n =>
      obtain ⟨member, above, least⟩ := SortedMap.next_eq_some sorted isNext
      exact ⟨n, rfl, member, Nat.ne_of_gt above, fun j other ne =>
        distance_le_of_least_above (keysLt n member) above least other ne⟩
  | none =>
      -- past the last entry the window wraps around to the least TxSequence left
      have noneAbove := SortedMap.next_eq_none isNext
      cases isFirst : SortedMap.first? (SortedMap.erase k m) with
      | none => exact absurd (SortedMap.first?_eq_none_iff.mp isFirst) left
      | some s =>
          obtain ⟨kept, least⟩ := SortedMap.first?_eq_some (SortedMap.sorted_erase k sorted) isFirst
          rw [SortedMap.keys_erase] at kept least
          obtain ⟨member, ne⟩ := List.mem_filter.mp kept
          refine ⟨s, rfl, member, by simpa using ne, fun j other ne' => ?_⟩
          exact distance_le_of_least (fun j kept' => noneAbove j (List.mem_filter.mp kept').1) least
            (List.mem_filter.mpr ⟨other, by simpa using ne'⟩) ne'

/-- `deleteUnackedFrag` keeps the window, whichever fragment it erases. -/
theorem SendWindow.deleteUnackedFrag (w : SendWindow r) (k : Nat) : SendWindow (r.deleteUnackedFrag k) := by
  refine ⟨by rw [deleteUnackedFrag_unackedFrags]; exact SortedMap.sorted_erase k w.sorted, ?_⟩
  rw [deleteUnackedFrag_unackedFrags, deleteUnackedFrag_lastTxSeqNo, deleteUnackedFrag_firstUnackedFrag]
  by_cases empty : SortedMap.erase k r.unackedFrags = []
  · rw [if_pos empty, empty]
    exact Window.nil w.window.last_lt
  · rw [if_neg empty, SortedMap.keys_erase]
    by_cases wasFirst : r.firstUnackedFrag = some k
    · -- the window starts again at the successor of the erased fragment
      rw [if_pos wasFirst]
      obtain ⟨s, isSuccessor, member, ne, closest⟩ := successor_closest w.sorted w.window.keys_lt empty
      rw [isSuccessor]
      have firstWindow := w.window
      rw [wasFirst] at firstWindow
      exact firstWindow.erase_first member ne closest
    · rw [if_neg wasFirst]
      cases isFirst : r.firstUnackedFrag with
      | none =>
          -- an empty map: nothing was erased
          have noFrags := SortedMap.keys_eq_nil.mp (w.window.first_eq_none.mp isFirst)
          rw [noFrags] at empty
          exact (empty rfl).elim
      | some f =>
          have firstWindow := w.window
          rw [isFirst] at firstWindow
          have ne : f ≠ k := fun same => wasFirst (by rw [isFirst, same])
          exact firstWindow.sub (List.mem_filter.mpr ⟨firstWindow.first_mem f rfl, by simpa using ne⟩)
            (fun j kept => (List.mem_filter.mp kept).1)

/-- What `assignTxSequence` does when it does not throw. -/
theorem assignTxSequence_eq_ok {frag frag' : Packet} {txSeq : Nat}
    (assigned : assignTxSequence frag r = .ok (txSeq, frag', r')) :
    txSeq = (r.lastTxSeqNo + 1) % txSeqModulus ∧ r' = { r with lastTxSeqNo := txSeq } ∧
      (r.unackedFrags ≠ [] → r.firstUnackedFrag ≠ some txSeq) := by
  unfold assignTxSequence at assigned
  dsimp only at assigned
  split at assigned
  · cases assigned
  · rename_i notFull
    cases assigned
    refine ⟨rfl, rfl, fun nonempty isFirst => notFull ?_⟩
    simp [nonempty, isFirst]

/-- A fragment stored under the TxSequence `assignTxSequence` handed out: that TxSequence was
not outstanding, and the window grows by it, starting at it if it was empty. -/
theorem SendWindow.emplace {frag frag' : Packet} {txSeq : Nat} (w : SendWindow r)
    (assigned : assignTxSequence frag r = .ok (txSeq, frag', r')) (u : UnackedFrag) :
    txSeq ∉ SortedMap.keys r.unackedFrags ∧
      SendWindow { r' with
        unackedFrags := SortedMap.emplace txSeq u r.unackedFrags,
        firstUnackedFrag := r.firstUnackedFrag.or (some txSeq) } := by
  obtain ⟨isNext, rfl, notFull⟩ := assignTxSequence_eq_ok assigned
  have notWrapped : ∀ f, r.firstUnackedFrag = some f → f ≠ (r.lastTxSeqNo + 1) % txSeqModulus := by
    intro f isFirst same
    have nonempty : r.unackedFrags ≠ [] := by
      intro empty
      have noFirst := w.window.first_eq_none.mpr (SortedMap.keys_eq_nil.mpr empty)
      rw [isFirst] at noFirst
      cases noFirst
    exact notFull nonempty (by rw [isFirst, same, isNext])
  subst isNext
  refine ⟨w.window.fresh notWrapped, SortedMap.sorted_emplace w.sorted, ?_⟩
  exact (w.window.advance notWrapped).congr (fun k => SortedMap.mem_keys_emplace.trans List.mem_cons.symm)

/-- One round of `handleOutgoing`: the fragment is stored under its new TxSequence, and
`m_firstUnackedFrag` set to `begin()` if it is the only one. -/
theorem SendWindow.store {frag frag' : Packet} {txSeq : Nat} (w : SendWindow r)
    (assigned : assignTxSequence frag r = .ok (txSeq, frag', r')) (u : UnackedFrag) (g : UnackedFrag → UnackedFrag) :
    SendWindow (if (SortedMap.modify txSeq g (SortedMap.emplace txSeq u r'.unackedFrags)).length = 1 then
        { r' with
          unackedFrags := SortedMap.modify txSeq g (SortedMap.emplace txSeq u r'.unackedFrags),
          firstUnackedFrag := SortedMap.first? (SortedMap.modify txSeq g (SortedMap.emplace txSeq u r'.unackedFrags)) }
      else { r' with unackedFrags := SortedMap.modify txSeq g (SortedMap.emplace txSeq u r'.unackedFrags) }) := by
  obtain ⟨fresh, grown⟩ := w.emplace assigned u
  obtain ⟨-, rfl, -⟩ := assignTxSequence_eq_ok assigned
  have length : (SortedMap.modify txSeq g (SortedMap.emplace txSeq u r.unackedFrags)).length = r.unackedFrags.length + 1 := by
    rw [SortedMap.length_modify, SortedMap.length_emplace_of_not_mem fresh]
  refine grown.congr (by split <;> exact SortedMap.keys_modify _ _ _) ?_ (by split <;> rfl)
  by_cases empty : r.unackedFrags = []
  · -- the only fragment: the window starts at it
    have isOnly : (SortedMap.modify txSeq g (SortedMap.emplace txSeq u r.unackedFrags)).length = 1 := by
      rw [length, empty]
      rfl
    rw [if_pos isOnly]
    have noFirst := w.window.first_eq_none.mpr (SortedMap.keys_eq_nil.mpr empty)
    simp only [empty, noFirst, Option.none_or]
    simp [SortedMap.emplace, SortedMap.modify, SortedMap.first?]
  · have notOnly : (SortedMap.modify txSeq g (SortedMap.emplace txSeq u r.unackedFrags)).length ≠ 1 := by
      rw [length]
      intro one
      exact empty (List.length_eq_zero_iff.mp (by omega))
    rw [if_neg notOnly]
    exact (w.first_or empty _).symm

/-- The loop of `handleOutgoing` keeps the window. -/
theorem SendWindow.handleOutgoingLoop (netPkt : Nat) :
    ∀ (frags : List Packet) {r r' : LpReliability} {sent : List Packet}, SendWindow r →
      handleOutgoingLoop netPkt frags r = .ok (sent, r') → SendWindow r'
  | [], r, r', sent, w, done => by
      cases done
      exact w
  | frag :: rest, r, r', sent, w, done => by
      rw [LpReliability.handleOutgoingLoop] at done
      obtain ⟨⟨txSeq, frag', r1⟩, assigned, stored⟩ := FaultRun.bind_eq_ok.mp done
      obtain ⟨⟨frags, r2⟩, looped, finished⟩ := FaultRun.bind_eq_ok.mp stored
      cases finished
      exact SendWindow.handleOutgoingLoop netPkt rest
        ((w.store assigned ⟨frag', 0, 0, netPkt⟩ (fun u => { u with netPkt := netPkt })).modifyNetPkt _ _) looped

theorem SendWindow.handleOutgoing (w : SendWindow r) {frags sent : List Packet} {pkt : Packet} {isInterest : Bool}
    (done : r.handleOutgoing frags pkt isInterest = .ok (sent, r')) : SendWindow r' := by
  unfold LpReliability.handleOutgoing at done
  dsimp only at done
  refine SendWindow.handleOutgoingLoop _ frags ?_ done
  exact w.congr rfl rfl rfl

/-- The circular walk of `findLostLpPackets` changes Ack counts only. -/
theorem findLostLpPacketsLoop_same (ackTxSeq : Nat) :
    ∀ (fuel : Nat) (it : Option Nat) (r : LpReliability),
      SortedMap.keys (findLostLpPacketsLoop ackTxSeq fuel it r).2.unackedFrags = SortedMap.keys r.unackedFrags ∧
        (findLostLpPacketsLoop ackTxSeq fuel it r).2.firstUnackedFrag = r.firstUnackedFrag ∧
        (findLostLpPacketsLoop ackTxSeq fuel it r).2.lastTxSeqNo = r.lastTxSeqNo
  | 0, _, _ => ⟨rfl, rfl, rfl⟩
  | fuel + 1, it, r => by
      rw [findLostLpPacketsLoop]
      split
      · exact ⟨rfl, rfl, rfl⟩
      · split
        · exact ⟨rfl, rfl, rfl⟩
        · obtain ⟨keys, first, last⟩ := findLostLpPacketsLoop_same ackTxSeq fuel _ _
          exact ⟨keys.trans (by simp only [SortedMap.keys_modify]), first, last⟩

theorem SendWindow.findLostLpPackets (w : SendWindow r) (ackTxSeq : Nat) :
    SendWindow (r.findLostLpPackets ackTxSeq).2 :=
  let same := findLostLpPacketsLoop_same ackTxSeq r.unackedFrags.length r.firstUnackedFrag r
  w.congr same.1 same.2.1 same.2.2

end Window

end LpReliability

namespace GenericLinkService

open LpReliability

/-- `sendLpPacket` touches only the Ack queue of the reliability layer. -/
theorem sendLpPacket_same (env : Env) (pkt : Packet) (s : GenericLinkService) :
    SameSendState s.reliability (sendLpPacket env pkt s).reliability := by
  unfold sendLpPacket
  dsimp only
  split_ifs <;>
    simp [SameSendState, piggyback, LpReliability.piggyback, sendPacket, (checkCongestionLevel_frame _ _ _).1]

theorem sendFragments_same (env : Env) :
    ∀ (frags : List Packet) (s : GenericLinkService), SameSendState s.reliability (sendFragments env frags s).reliability
  | [], _ => ⟨rfl, rfl, rfl, rfl⟩
  | frag :: rest, s => by
      have first := sendLpPacket_same env frag s
      have later := sendFragments_same env rest (sendLpPacket env frag s)
      exact ⟨later.1.trans first.1, later.2.1.trans first.2.1, later.2.2.1.trans first.2.2.1,
        later.2.2.2.trans first.2.2.2⟩

/-- `setOptions(options)`: the link service's options and those of its reliability layer. -/
def setOptions (options : Options) (reliabilityOptions : LpReliability.Options) (s : GenericLinkService) :
    GenericLinkService :=
  { s with options := options, reliability := { s.reliability with options := reliabilityOptions } }

end GenericLinkService

namespace LpReliability

open GenericLinkService

section Handlers

variable {s s' : GenericLinkService}

theorem sendWindow_onLpPacketAcknowledged (k : Nat) (w : SendWindow s.reliability) :
    SendWindow (onLpPacketAcknowledged k s).reliability := by
  unfold onLpPacketAcknowledged
  split
  · exact w
  · dsimp only
    split
    · split
      · split <;> exact (w.modifyNetPkt _ _).deleteUnackedFrag k
      · exact (w.modifyNetPkt _ _).deleteUnackedFrag k
    · exact (w.modifyNetPkt _ _).deleteUnackedFrag k

theorem sendWindow_foldl_delete (k : Nat) :
    ∀ (others : List Nat) (acc : List Nat × LpReliability), SendWindow acc.2 →
      SendWindow (others.foldl (fun (removed, r) other =>
        if other ≠ k then (removed ++ [other], r.deleteUnackedFrag other) else (removed, r)) acc).2
  | [], _, w => w
  | other :: rest, (removed, r), w => by
      rw [List.foldl_cons]
      apply sendWindow_foldl_delete k rest
      dsimp only
      split
      · exact w.deleteUnackedFrag other
      · exact w

/-- `onLpPacketLost` keeps the window: a fragment given up takes its network packet's other
fragments with it, and one resent moves to the next TxSequence. -/
theorem sendWindow_onLpPacketLost (env : Env) (k : Nat) {removed : List Nat} (w : SendWindow s.reliability)
    (lost : onLpPacketLost env k s = .ok (removed, s')) : SendWindow s'.reliability := by
  unfold onLpPacketLost at lost
  dsimp only at lost
  split at lost
  · cases lost
    exact w
  · rename_i txFrag found
    have nonempty : s.reliability.unackedFrags ≠ [] := by
      intro empty
      rw [empty] at found
      cases found
    split at lost
    · cases lost
      split <;> exact (sendWindow_foldl_delete k _ ([], s.reliability) w).deleteUnackedFrag k
    · obtain ⟨⟨newTxSeq, pkt, r1⟩, assigned, resent⟩ := FaultRun.bind_eq_ok.mp lost
      cases resent
      obtain ⟨-, grown⟩ := w.emplace assigned ⟨pkt, 0, 0, txFrag.netPkt⟩
      obtain ⟨-, rfl, -⟩ := assignTxSequence_eq_ok assigned
      refine SendWindow.of_same ?_ (sendLpPacket_same env _ _)
      apply SendWindow.deleteUnackedFrag
      exact grown.congr (by simp [modifyNetPkt, SortedMap.keys_modify]) (w.first_or nonempty _).symm rfl

theorem sendWindow_onLostLpPackets (env : Env) :
    ∀ (lost removed : List Nat) {s s' : GenericLinkService}, SendWindow s.reliability →
      onLostLpPackets env lost removed s = .ok s' → SendWindow s'.reliability
  | [], _, _, _, w, done => by
      cases done
      exact w
  | txSeq :: rest, removed, s, s', w, done => by
      rw [onLostLpPackets] at done
      split at done
      · exact sendWindow_onLostLpPackets env rest removed w done
      · obtain ⟨⟨removedTxSeqs, s2⟩, lostOne, more⟩ := FaultRun.bind_eq_ok.mp done
        exact sendWindow_onLostLpPackets env rest _ (sendWindow_onLpPacketLost env txSeq w lostOne) more

theorem sendWindow_processAcks (env : Env) :
    ∀ (acks : List Nat) {s s' : GenericLinkService}, SendWindow s.reliability →
      processAcks env acks s = .ok s' → SendWindow s'.reliability
  | [], _, _, w, done => by
      cases done
      exact w
  | ackTxSeq :: rest, s, s', w, done => by
      rw [processAcks] at done
      split at done
      · exact sendWindow_processAcks env rest w done
      · obtain ⟨s2, lostDone, more⟩ := FaultRun.bind_eq_ok.mp done
        refine sendWindow_processAcks env rest (sendWindow_onLostLpPackets env _ [] ?_ lostDone) more
        exact sendWindow_onLpPacketAcknowledged ackTxSeq (w.findLostLpPackets ackTxSeq)

theorem sendWindow_processIncomingPacket (env : Env) (pkt : Packet) (w : SendWindow s.reliability)
    (done : processIncomingPacket env pkt s = .ok s') : SendWindow s'.reliability := by
  unfold processIncomingPacket at done
  obtain ⟨s2, acked, queued⟩ := FaultRun.bind_eq_ok.mp done
  have w2 := sendWindow_processAcks env pkt.acks w acked
  split at queued <;> cases queued <;> exact w2.congr rfl rfl rfl

end Handlers

end LpReliability

namespace GenericLinkService

open LpReliability

/-- The end of `sendNetPacket`: the fragments go through `handleOutgoing` when reliability
takes them, then each to `sendLpPacket`. -/
theorem sendWindow_sendNetPacket_tail (env : Env) (pkt : Packet) (isInterest : Bool) (handled : Bool)
    (frags : List Packet) {s s' : GenericLinkService} (w : SendWindow s.reliability)
    (sent : (if handled = true then
        (do let sent ← handleOutgoing frags pkt isInterest s; pure (sendFragments env sent.1 sent.2))
      else (do let sent ← pure (frags, s); pure (sendFragments env sent.1 sent.2))) = .ok s') :
    SendWindow s'.reliability := by
  split at sent
  · obtain ⟨⟨frags', s2⟩, handedOver, finished⟩ := FaultRun.bind_eq_ok.mp sent
    cases finished
    refine SendWindow.of_same ?_ (sendFragments_same env _ _)
    obtain ⟨⟨frags'', r⟩, outgoing, wrapped⟩ := FaultRun.bind_eq_ok.mp handedOver
    cases wrapped
    exact SendWindow.handleOutgoing w outgoing
  · obtain ⟨⟨frags', s2⟩, kept, finished⟩ := FaultRun.bind_eq_ok.mp sent
    cases finished
    cases kept
    exact SendWindow.of_same w (sendFragments_same env _ _)

theorem sendWindow_sendNetPacket (env : Env) (pkt : Packet) (isInterest : Bool) {s s' : GenericLinkService}
    (w : SendWindow s.reliability) (sent : sendNetPacket env pkt isInterest s = .ok s') :
    SendWindow s'.reliability := by
  unfold sendNetPacket at sent
  dsimp only at sent
  split at sent
  · cases sent
    exact w
  · -- Sequences leave the reliability layer alone
    split at sent <;> refine sendWindow_sendNetPacket_tail env pkt isInterest _ _ ?_ sent <;> exact w

/-- What a link service does next: send a network packet, receive an LpPacket, an RTO timer
firing, a round of the idle Ack timer, or new options from faces/update. -/
inductive Event
  | sendNetPacket (env : Env) (pkt : Packet) (isInterest : Bool)
  | receivePacket (env : Env) (pkt : Packet)
  | rtoExpired (env : Env) (txSeq : Nat)
  | idleAck (env : Env)
  | setOptions (options : Options) (reliabilityOptions : LpReliability.Options)

/-- One event.  `doReceivePacket` hands the packet to `processIncomingPacket` only with
reliability enabled; a handler that throws ends the run. -/
def handleEvent (s : GenericLinkService) : Event → Except String GenericLinkService
  | .sendNetPacket env pkt isInterest => sendNetPacket env pkt isInterest s
  | .receivePacket env pkt =>
      if s.reliability.options.isEnabled then LpReliability.processIncomingPacket env pkt s else .ok s
  | .rtoExpired env txSeq => (LpReliability.onLpPacketLost env txSeq s).map Prod.snd
  | .idleAck env => .ok (requestIdlePacket env s)
  | .setOptions options reliabilityOptions => .ok (setOptions options reliabilityOptions s)

theorem sendWindow_handleEvent {s s' : GenericLinkService} (w : SendWindow s.reliability) :
    ∀ e, handleEvent s e = .ok s' → SendWindow s'.reliability
  | .sendNetPacket env pkt isInterest, moved => sendWindow_sendNetPacket env pkt isInterest w moved
  | .receivePacket env pkt, moved => by
      rw [handleEvent] at moved
      split at moved
      · exact sendWindow_processIncomingPacket env pkt w moved
      · cases moved
        exact w
  | .rtoExpired env txSeq, moved => by
      rw [handleEvent] at moved
      cases lost : onLpPacketLost env txSeq s with
      | error e =>
          rw [lost] at moved
          cases moved
      | ok result =>
          obtain ⟨removed, s2⟩ := result
          rw [lost] at moved
          cases moved
          exact sendWindow_onLpPacketLost env txSeq w lost
  | .idleAck env, moved => by
      cases moved
      exact w.of_same (sendLpPacket_same env _ s)
  | .setOptions options reliabilityOptions, moved => by
      cases moved
      exact w.congr rfl rfl rfl

theorem sendWindow_run (options : Options) (reliabilityOptions : LpReliability.Options) (events : List Event)
    {s : GenericLinkService} (ran : FaultRun.run handleEvent (initial options reliabilityOptions) events = .ok s) :
    SendWindow s.reliability :=
  FaultRun.run_invariant (fun s => SendWindow s.reliability) (fun _ e _ w moved => sendWindow_handleEvent w e moved)
    events _ s (sendWindow_initial reliabilityOptions) ran

/-- The send window over every run of a link service from its construction: `m_firstUnackedFrag`
is `end()` exactly when no fragment is unacknowledged; the TxSequences of `m_unackedFrags` are
distinct; and otherwise `m_firstUnackedFrag` is one of them, every one lies in the circular
interval from it to `m_lastTxSeqNo`, and none is older than it. -/
theorem send_window_of_run (options : Options) (reliabilityOptions : LpReliability.Options) (events : List Event)
    {s : GenericLinkService} (ran : FaultRun.run handleEvent (initial options reliabilityOptions) events = .ok s) :
    (s.reliability.firstUnackedFrag = none ↔ s.reliability.unackedFrags = []) ∧
      (SortedMap.keys s.reliability.unackedFrags).Pairwise (· < ·) ∧
      ∀ f, s.reliability.firstUnackedFrag = some f → f ∈ SortedMap.keys s.reliability.unackedFrags ∧
        ∀ k ∈ SortedMap.keys s.reliability.unackedFrags,
          distance txSeqModulus f k ≤ distance txSeqModulus f s.reliability.lastTxSeqNo ∧
            distance txSeqModulus k s.reliability.lastTxSeqNo ≤ distance txSeqModulus f s.reliability.lastTxSeqNo := by
  have w := sendWindow_run options reliabilityOptions events ran
  refine ⟨w.window.first_eq_none.trans SortedMap.keys_eq_nil, w.sorted, fun f isFirst => ?_⟩
  have firstWindow := w.window
  rw [isFirst] at firstWindow
  exact ⟨firstWindow.first_mem f rfl, fun k member => ⟨firstWindow.within f rfl k member, firstWindow.oldest member⟩⟩

/-- Options of a link service over a UDP tunnel with reliability enabled. -/
def reliableOptions : Options := ⟨true, ⟨400⟩, false, 100000000, 65536, 2 ^ 63 - 1⟩

def reliabilityEnabled : LpReliability.Options := ⟨true, 3, 3⟩

/-- What the transport reports while two packets are sent: a 1500-octet MTU, an empty send
queue. -/
def sendEnv : Env := ⟨1500, 0, 0⟩

/-- A network packet of five octets, sent whole. -/
def smallPacket : Packet := ⟨[], none, none, none, some [5, 3, 7, 1, 0]⟩

/-- Two network packets sent with reliability enabled and no Ack back. -/
def twoPackets : List Event := [.sendNetPacket sendEnv smallPacket true, .sendNetPacket sendEnv smallPacket false]

def twoPacketsSent : GenericLinkService :=
  match FaultRun.run handleEvent (initial reliableOptions reliabilityEnabled) twoPackets with
  | .ok s => s
  | .error _ => initial reliableOptions reliabilityEnabled

theorem send_window_of_run_twoSent :
    FaultRun.run handleEvent (initial reliableOptions reliabilityEnabled) twoPackets = .ok twoPacketsSent ∧
      SortedMap.keys twoPacketsSent.reliability.unackedFrags = [0, 1] ∧
      twoPacketsSent.reliability.firstUnackedFrag = some 0 ∧
      ((twoPacketsSent.reliability.firstUnackedFrag = none ↔ twoPacketsSent.reliability.unackedFrags = []) ∧
        (SortedMap.keys twoPacketsSent.reliability.unackedFrags).Pairwise (· < ·) ∧
        ∀ f, twoPacketsSent.reliability.firstUnackedFrag = some f →
          f ∈ SortedMap.keys twoPacketsSent.reliability.unackedFrags ∧
          ∀ k ∈ SortedMap.keys twoPacketsSent.reliability.unackedFrags,
            distance txSeqModulus f k ≤ distance txSeqModulus f twoPacketsSent.reliability.lastTxSeqNo ∧
              distance txSeqModulus k twoPacketsSent.reliability.lastTxSeqNo ≤
                distance txSeqModulus f twoPacketsSent.reliability.lastTxSeqNo) := by
  have ran : FaultRun.run handleEvent (initial reliableOptions reliabilityEnabled) twoPackets = .ok twoPacketsSent := by
    rfl
  exact ⟨ran, by decide, by decide, send_window_of_run reliableOptions reliabilityEnabled twoPackets ran⟩

/-- On every reachable link service, a TxSequence that `assignTxSequence` hands out without
throwing belongs to no unacknowledged fragment. -/
theorem assignTxSequence_fresh_of_run (options : Options) (reliabilityOptions : LpReliability.Options)
    (events : List Event) {s : GenericLinkService}
    (ran : FaultRun.run handleEvent (initial options reliabilityOptions) events = .ok s) {frag frag' : Packet}
    {txSeq : Nat} {r' : LpReliability}
    (assigned : LpReliability.assignTxSequence frag s.reliability = .ok (txSeq, frag', r')) :
    SortedMap.find? txSeq s.reliability.unackedFrags = none := by
  have w := sendWindow_run options reliabilityOptions events ran
  exact SortedMap.find?_eq_none_iff.mpr (w.emplace assigned ⟨frag', 0, 0, 0⟩).1

theorem assignTxSequence_fresh_of_run_twoSent :
    FaultRun.run handleEvent (initial reliableOptions reliabilityEnabled) twoPackets = .ok twoPacketsSent ∧
      SortedMap.keys twoPacketsSent.reliability.unackedFrags = [0, 1] ∧
      LpReliability.assignTxSequence Packet.empty twoPacketsSent.reliability =
        .ok (2, Packet.empty.setField (txSequenceField 2), { twoPacketsSent.reliability with lastTxSeqNo := 2 }) ∧
      SortedMap.find? 2 twoPacketsSent.reliability.unackedFrags = none := by
  have ran : FaultRun.run handleEvent (initial reliableOptions reliabilityEnabled) twoPackets = .ok twoPacketsSent := by
    rfl
  have assigned : LpReliability.assignTxSequence Packet.empty twoPacketsSent.reliability =
      .ok (2, Packet.empty.setField (txSequenceField 2), { twoPacketsSent.reliability with lastTxSeqNo := 2 }) := by
    rfl
  exact ⟨ran, by decide, assigned, assignTxSequence_fresh_of_run reliableOptions reliabilityEnabled twoPackets ran assigned⟩

end GenericLinkService

end Nfd.Face
