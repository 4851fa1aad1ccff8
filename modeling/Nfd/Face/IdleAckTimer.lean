import Nfd.Face.GenericLinkService

/-!
# The idle Ack timer

When the idle Ack timer of `LpReliability` fires it runs
`while (!m_ackQueue.empty()) requestIdlePacket();`.  `processIncomingPacket` schedules the timer
only while reliability is enabled, and `setOptions` cancels it when reliability is disabled, so
the loop runs with reliability enabled.  The IDLE packet is an empty LpPacket of two octets:
`piggyback` holds back 2 octets for its TLV-LENGTH and leaves `mtu - 4` octets, room for five
12-octet Acks at `MIN_MTU`.  Every round therefore takes Acks from the queue, whether or not the
packet is then dropped over the MTU, and the loop ends within as many rounds as Acks were queued.

The transport and the clock are read again in every round: round `i` sees `envAt i`.
-/

set_option autoImplicit false

namespace Nfd.Face

open Nfd.Lp GenericLinkService

namespace LpReliability

/-- The idle Ack timer's loop, `while (!m_ackQueue.empty()) requestIdlePacket();`, for at most
`rounds` rounds, round `i` seeing `envAt i`: `none` when Acks are left after the last. -/
def idleAckLoop (envAt : Nat → Env) : Nat → GenericLinkService → Option GenericLinkService
  | 0, s => if s.reliability.ackQueue.isEmpty then some s else none
  | rounds + 1, s =>
      if s.reliability.ackQueue.isEmpty then some s
      else idleAckLoop (fun i => envAt (i + 1)) rounds (requestIdlePacket (envAt 0) s)

end LpReliability

namespace GenericLinkService

theorem checkCongestionLevel_frame (env : Env) (pkt : Packet) (s : GenericLinkService) :
    (checkCongestionLevel env pkt s).2.reliability = s.reliability ∧
      (checkCongestionLevel env pkt s).2.options = s.options := by
  unfold checkCongestionLevel
  split
  · exact ⟨rfl, rfl⟩
  · split
    · cases s.nextMarkTime with
      | none => exact ⟨rfl, rfl⟩
      | some nextMarkTime =>
          dsimp only
          split <;> exact ⟨rfl, rfl⟩
    · split <;> exact ⟨rfl, rfl⟩

/-- After `sendLpPacket` the reliability layer is what `piggyback` left, and the options are
unchanged. -/
theorem sendLpPacket_frame (env : Env) (pkt : Packet) {s : GenericLinkService}
    (reliable : s.reliability.options.isEnabled = true) :
    (sendLpPacket env pkt s).reliability = (s.reliability.piggyback pkt (getEffectiveMtu env s)).2 ∧
      (sendLpPacket env pkt s).options = s.options := by
  simp only [sendLpPacket, reliable, if_true]
  -- the congestion check and the MTU check leave both alone
  split
  · split <;> exact checkCongestionLevel_frame env _ _
  · split <;> exact ⟨rfl, rfl⟩

end GenericLinkService

namespace LpReliability

/-- On `MTU_UNLIMITED` or an MTU of at least `MIN_MTU`, an IDLE packet has room for an Ack. -/
theorem ackSize_le_piggybackSpace_empty {mtu : Int} (allowed : mtu = mtuUnlimited ∨ minMtu ≤ mtu) :
    ackSize ≤ (piggybackSpace Packet.empty mtu).toNat := by
  have ackSizeIs : ackSize = 12 := rfl
  rcases allowed with unlimited | atLeast
  · subst unlimited
    rw [ackSizeIs]
    decide
  · have emptySize : Packet.empty.wireSize = 2 := rfl
    have oneOctet : sizeOfVarNumber 2 = 1 := rfl
    unfold minMtu at atLeast
    rw [piggybackSpace_of_nonneg Packet.empty (by omega), emptySize, oneOctet, ackSizeIs]
    omega

/-- One round of the loop: `requestIdlePacket` takes at least one Ack from the front of the
queue, and keeps the options. -/
theorem requestIdlePacket_takes_ack (env : Env) {s : GenericLinkService}
    (reliable : s.reliability.options.isEnabled = true)
    (allowed : getEffectiveMtu env s = mtuUnlimited ∨ minMtu ≤ getEffectiveMtu env s) :
    ∃ k, 0 < k ∧ (requestIdlePacket env s).reliability.ackQueue = s.reliability.ackQueue.drop k ∧
      (requestIdlePacket env s).options = s.options ∧
      (requestIdlePacket env s).reliability.options = s.reliability.options := by
  obtain ⟨frame, keepsOptions⟩ := sendLpPacket_frame env Packet.empty reliable
  have room := ackSize_le_piggybackSpace_empty allowed
  have positive : 0 < ackSize := by decide
  refine ⟨(piggybackSpace Packet.empty (getEffectiveMtu env s)).toNat / ackSize,
    Nat.div_pos room positive, ?_, keepsOptions, ?_⟩
  · rw [requestIdlePacket, frame, piggyback_eq]
  · rw [requestIdlePacket, frame, piggyback_eq]

/-- The run of the loop: with reliability enabled and every round's effective MTU allowed, the
queue is empty within as many rounds as it holds Acks. -/
theorem idleAckLoop_empties (rounds : Nat) :
    ∀ (envAt : Nat → Env) (s : GenericLinkService), s.reliability.options.isEnabled = true →
      (∀ i, getEffectiveMtu (envAt i) s = mtuUnlimited ∨ minMtu ≤ getEffectiveMtu (envAt i) s) →
      s.reliability.ackQueue.length ≤ rounds →
      ∃ s', idleAckLoop envAt rounds s = some s' ∧ s'.reliability.ackQueue = [] := by
  induction rounds with
  | zero =>
      intro envAt s _ _ few
      have empty : s.reliability.ackQueue = [] := List.eq_nil_of_length_eq_zero (by omega)
      exact ⟨s, by simp [idleAckLoop, empty], empty⟩
  | succ rounds inductionHypothesis =>
      intro envAt s reliable allowed few
      by_cases empty : s.reliability.ackQueue = []
      · exact ⟨s, by simp [idleAckLoop, empty], empty⟩
      · obtain ⟨k, positive, taken, keepsOptions, keepsReliability⟩ :=
          requestIdlePacket_takes_ack (envAt 0) reliable (allowed 0)
        -- the next state keeps the options, so every later round's MTU is still allowed
        have sameMtu : ∀ env, getEffectiveMtu env (requestIdlePacket (envAt 0) s) = getEffectiveMtu env s := by
          intro env
          simp only [getEffectiveMtu, keepsOptions]
        have fewer : (requestIdlePacket (envAt 0) s).reliability.ackQueue.length ≤ rounds := by
          rw [taken, List.length_drop]
          omega
        obtain ⟨s', result, drained⟩ := inductionHypothesis (fun i => envAt (i + 1)) _
          (keepsReliability ▸ reliable) (fun i => by rw [sameMtu]; exact allowed (i + 1)) fewer
        refine ⟨s', ?_, drained⟩
        simp only [idleAckLoop, List.isEmpty_iff, empty, if_false]
        exact result

/-- The idle Ack timer's loop ends: every `requestIdlePacket` on a non-empty queue takes at least
one Ack, and within as many rounds as Acks were queued the queue is empty. -/
theorem idleAckLoop_terminates (envAt : Nat → Env) (s : GenericLinkService)
    (reliable : s.reliability.options.isEnabled = true)
    (allowed : ∀ i, getEffectiveMtu (envAt i) s = mtuUnlimited ∨ minMtu ≤ getEffectiveMtu (envAt i) s) :
    (∃ k, 0 < k ∧ (requestIdlePacket (envAt 0) s).reliability.ackQueue = s.reliability.ackQueue.drop k) ∧
    (s.reliability.ackQueue ≠ [] →
      (requestIdlePacket (envAt 0) s).reliability.ackQueue.length < s.reliability.ackQueue.length) ∧
    ∃ s', idleAckLoop envAt s.reliability.ackQueue.length s = some s' ∧ s'.reliability.ackQueue = [] := by
  obtain ⟨k, positive, taken, -⟩ := requestIdlePacket_takes_ack (envAt 0) reliable (allowed 0)
  refine ⟨⟨k, positive, taken⟩, fun queued => ?_, idleAckLoop_empties _ envAt s reliable allowed le_rfl⟩
  have nonEmpty := List.length_pos_of_ne_nil queued
  rw [taken, List.length_drop]
  omega

/-- A link service at `MIN_MTU` with reliability enabled, congestion marking on and seven Acks
queued. -/
def sevenAcked : GenericLinkService :=
  let s := GenericLinkService.initial ⟨true, ⟨400⟩, true, 100000000, 65536, 2 ^ 63 - 1⟩ ⟨true, 3, 3⟩
  { s with reliability := { s.reliability with ackQueue := [1, 2, 3, 4, 5, 6, 7] } }

theorem idleAckLoop_terminates_sevenAcked :
    sevenAcked.reliability.options.isEnabled = true ∧
      (∀ i, getEffectiveMtu ⟨64, 0, i⟩ sevenAcked = mtuUnlimited ∨
        minMtu ≤ getEffectiveMtu ⟨64, 0, i⟩ sevenAcked) ∧
      (∃ k, 0 < k ∧ (requestIdlePacket ⟨64, 0, 0⟩ sevenAcked).reliability.ackQueue =
        sevenAcked.reliability.ackQueue.drop k) ∧
      (sevenAcked.reliability.ackQueue ≠ [] →
        (requestIdlePacket ⟨64, 0, 0⟩ sevenAcked).reliability.ackQueue.length <
          sevenAcked.reliability.ackQueue.length) ∧
      ∃ s', idleAckLoop (fun i => ⟨64, 0, i⟩) sevenAcked.reliability.ackQueue.length sevenAcked = some s' ∧
        s'.reliability.ackQueue = [] := by
  have reliable : sevenAcked.reliability.options.isEnabled = true := rfl
  -- the clock does not enter the effective MTU, which is the transport's 64
  have mtuIs : ∀ i, getEffectiveMtu ⟨64, 0, i⟩ sevenAcked = getEffectiveMtu ⟨64, 0, 0⟩ sevenAcked :=
    fun _ => rfl
  have allowed : ∀ i, getEffectiveMtu ⟨64, 0, i⟩ sevenAcked = mtuUnlimited ∨
      minMtu ≤ getEffectiveMtu ⟨64, 0, i⟩ sevenAcked := by
    intro i
    rw [mtuIs i]
    exact .inr (by decide)
  exact ⟨reliable, allowed, idleAckLoop_terminates (fun i => ⟨64, 0, i⟩) sevenAcked reliable allowed⟩

end LpReliability

end Nfd.Face
