import Nfd.Face.Transport
import Mathlib.Logic.Relation

/-!
# The life cycle a transport follows

`Advances` is the life cycle `Transport::setState` enforces: a live transport (UP or DOWN)
goes down and comes back up, starts closing or fails, and a closing or failed one is closed.
Every successful step of the model moves the state along it (`step_follows`), so CLOSED is
final (`run_closed`).

`Consistent` is what the handlers rely on: the state is never NONE, only a permanent TCP
transport is DOWN, and a handler that sets CLOSED is queued only once the transport is
ending.  Every successful step keeps it, so a non-permanent transport is never DOWN
(`run_down`).  From a consistent state, the only move outside the table that a handler
requests is the overflow branch of `StreamTransport::handleReceive` run after the transport
started closing (`step_eq_invalid`, `run_invalidStateTransition`), and `close()` racing a
receive that filled the buffer reaches it (`overflowingReceive_after_close_throws`).  A
reconnect timer that fires once the connection succeeded makes `handleReconnect` throw from
`local_endpoint()` instead (`reconnectTimeout_after_connect_throws`).
-/

set_option autoImplicit false

namespace Nfd.Face

open Relation

namespace TransportState

def Live (s : TransportState) : Prop := s = .up ∨ s = .down

def Ending (s : TransportState) : Prop := s = .closing ∨ s = .failed ∨ s = .closed

end TransportState

inductive Advances : TransportState → TransportState → Prop
  | goDown : Advances .up .down
  | comeUp : Advances .down .up
  | close {s : TransportState} (live : s.Live) : Advances s .closing
  | fail {s : TransportState} (live : s.Live) : Advances s .failed
  | finish {s : TransportState} (shutting : s = .closing ∨ s = .failed) : Advances s .closed

def LifeCycle : TransportState → TransportState → Prop := ReflTransGen Advances

section Abstract

variable {s s' : TransportState}

theorem Advances.ending (ending : s.Ending) (advances : Advances s s') : s'.Ending := by
  cases advances with
  | goDown => simp [TransportState.Ending] at ending
  | comeUp => simp [TransportState.Ending] at ending
  | close => exact Or.inl rfl
  | fail => exact Or.inr (Or.inl rfl)
  | finish => exact Or.inr (Or.inr rfl)

theorem Advances.ne_none (advances : Advances s s') : s' ≠ .none := by
  cases advances <;> decide

theorem Advances.not_from_closed : ¬ Advances .closed s := by
  intro advances
  cases advances with
  | close live => simp [TransportState.Live] at live
  | fail live => simp [TransportState.Live] at live
  | finish shutting => simp at shutting

theorem Advances.failed_iff : Advances s .failed ↔ s.Live := by
  constructor
  · intro advances
    cases advances with
    | fail live => exact live
  · exact Advances.fail

namespace LifeCycle

/-- CLOSED is final. -/
theorem closed (path : LifeCycle .closed s) : s = .closed := by
  induction path with
  | refl => rfl
  | tail _ last ih =>
      subst ih
      exact absurd last Advances.not_from_closed

end LifeCycle

end Abstract

/-- The handlers that set CLOSED: `deferredClose`, and the one `DatagramTransport::doClose`
posts. -/
def Handler.closes : Handler → Bool
  | .deferredClose => true
  | .setClosed => true
  | _ => false

@[simp] theorem Operation.closes_aborted (operation : Operation) : operation.aborted.closes = false := by
  cases operation <;> rfl

@[simp] theorem Operation.closes_completion (operation : Operation) (error : ErrorCode) (overflow : Bool) :
    (operation.completion error overflow).closes = false := by
  cases operation <;> rfl

namespace Transport

variable {t t' : Transport} {s : TransportState}

/-- The table of `setState` is the life cycle. -/
theorem isValidTransition_iff (s s' : TransportState) : isValidTransition s s' = true ↔ Advances s s' := by
  constructor
  · intro valid
    cases s <;> cases s' <;> simp [isValidTransition] at valid
    all_goals first
      | exact .goDown
      | exact .comeUp
      | exact .close (by simp [TransportState.Live])
      | exact .fail (by simp [TransportState.Live])
      | exact .finish (by simp)
  · intro advances
    cases advances with
    | goDown => rfl
    | comeUp => rfl
    | close live => rcases live with rfl | rfl <;> rfl
    | fail live => rcases live with rfl | rfl <;> rfl
    | finish shutting => rcases shutting with rfl | rfl <;> rfl

theorem not_advances_of_isValidTransition {s s' : TransportState} (invalid : isValidTransition s s' = false) :
    ¬ Advances s s' := fun advances => by
  rw [(isValidTransition_iff _ _).mpr advances] at invalid
  cases invalid

theorem setState_eq_ok : setState s t = .ok t' ↔ (t.state = s ∨ Advances t.state s) ∧ t' = { t with state := s } := by
  unfold setState
  by_cases same : t.state = s
  · have unchanged : { t with state := s } = t := by rw [← same]
    simp [same, unchanged, eq_comm]
  · cases valid : isValidTransition t.state s with
    | true => simp [same, (isValidTransition_iff _ _).mp valid, eq_comm]
    | false => simp [same, not_advances_of_isValidTransition valid]

theorem setState_eq_error {f : Fault} :
    setState s t = .error f ↔ t.state ≠ s ∧ ¬ Advances t.state s ∧ f = .invalidStateTransition := by
  unfold setState
  by_cases same : t.state = s
  · simp [same]
  · cases valid : isValidTransition t.state s with
    | true => simp [same, (isValidTransition_iff _ _).mp valid]
    | false => simp [same, not_advances_of_isValidTransition valid, eq_comm]

theorem setState_state (moved : setState s t = .ok t') : t'.state = s := by
  obtain ⟨-, rfl⟩ := setState_eq_ok.mp moved
  rfl

/-- The invariant the handlers rely on. -/
structure Consistent (t : Transport) : Prop where
  notNone : t.state ≠ .none
  down : t.state = .down → t.kind = .tcp ∧ t.persistency = .permanent
  closing : t.handlers.any Handler.closes = true → t.state.Ending

/-- Every transport that is ending is consistent. -/
theorem Consistent.of_ending (ending : t.state.Ending) : Consistent t where
  notNone := by rcases ending with same | same | same <;> rw [same] <;> decide
  down := by
    intro down
    rcases ending with same | same | same <;> rw [same] at down <;> cases down
  closing := fun _ => ending

theorem Consistent.live (c : Consistent t) (notEnding : ¬ (t.state = .closing ∨ t.state = .failed ∨ t.state = .closed)) :
    t.state.Live := by
  have notNone := c.notNone
  revert notEnding notNone
  cases t.state <;> simp [TransportState.Live]

/-- The guard of `processErrorCode` and `handleReconnect` lets only a live transport through. -/
theorem Consistent.live_of_proceeding (c : Consistent t) {P : Prop}
    (proceeding : ¬ (t.state = .closing ∨ t.state = .failed ∨ t.state = .closed ∨ P)) : t.state.Live :=
  c.live fun ending => proceeding (by rcases ending with same | same | same <;> simp [same])

theorem consistent_initial (kind : Kind) (persistency : FacePersistency) : Consistent (initial kind persistency) where
  notNone := by simp [initial]
  down := by simp [initial]
  closing := by simp [initial]

/-- A successful call moves the state along the life cycle and keeps a consistent transport
consistent. -/
structure Follows (t t' : Transport) : Prop where
  lifeCycle : LifeCycle t.state t'.state
  consistent : Consistent t → Consistent t'

theorem Follows.refl (t : Transport) : Follows t t := ⟨ReflTransGen.refl, id⟩

theorem Follows.trans {t₁ t₂ t₃ : Transport} (first : Follows t₁ t₂) (second : Follows t₂ t₃) : Follows t₁ t₃ :=
  ⟨ReflTransGen.trans first.lifeCycle second.lifeCycle, second.consistent ∘ first.consistent⟩

/-- A call that keeps the state, the kind and the persistency, and queues no handler that
sets CLOSED. -/
theorem Follows.of_frame (state : t'.state = t.state) (kind : t'.kind = t.kind)
    (persistency : t'.persistency = t.persistency)
    (closes : t'.handlers.any Handler.closes = true → t.handlers.any Handler.closes = true) : Follows t t' where
  lifeCycle := by
    rw [state]
    exact ReflTransGen.refl
  consistent c := by
    refine ⟨state ▸ c.notNone, fun down => ?_, fun queued => state ▸ c.closing (closes queued)⟩
    rw [kind, persistency]
    exact c.down (state ▸ down)

theorem Follows.of_ending (path : LifeCycle t.state t'.state) (ending : t'.state.Ending) : Follows t t' :=
  ⟨path, fun _ => Consistent.of_ending ending⟩

section Calls

theorem setState_follows (moved : setState s t = .ok t')
    (down : s = .down → t.kind = .tcp ∧ t.persistency = .permanent) : Follows t t' := by
  obtain ⟨allowed, rfl⟩ := setState_eq_ok.mp moved
  rcases allowed with same | advances
  · have unchanged : { t with state := s } = t := by rw [← same]
    rw [unchanged]
    exact .refl t
  · -- a closing handler is queued only in an ending state, and the moves keep it ending
    refine ⟨ReflTransGen.single advances, fun c => ⟨advances.ne_none, down, fun queued => ?_⟩⟩
    exact advances.ending (c.closing queued)

theorem setState_follows_of_ending (moved : setState s t = .ok t') (ending : s.Ending) : Follows t t' := by
  refine setState_follows moved fun isDown => ?_
  rw [isDown] at ending
  simp [TransportState.Ending] at ending

theorem post_follows (handler : Handler) (notClosing : handler.closes = false) (t : Transport) :
    Follows t (post handler t) :=
  .of_frame rfl rfl rfl (by simp [post, notClosing])

theorem cancel_follows (t : Transport) : Follows t (cancel t) :=
  .of_frame rfl rfl rfl (by simp [cancel])

theorem closeSocket_follows (t : Transport) : Follows t (closeSocket t) :=
  .of_frame rfl rfl rfl (by simp [closeSocket, cancel])

theorem startReceive_follows (t : Transport) : Follows t (startReceive t) := .of_frame rfl rfl rfl id

theorem sendFromQueue_follows (t : Transport) : Follows t (sendFromQueue t) := .of_frame rfl rfl rfl id

@[simp] theorem doClose_state (t : Transport) : (doClose t).state = t.state := by
  unfold doClose
  split <;> simp only [StreamTransport.doClose, TcpTransport.doClose, DatagramTransport.doClose] <;>
    split <;> rfl

@[simp] theorem doClose_kind (t : Transport) : (doClose t).kind = t.kind := by
  unfold doClose
  split <;> simp only [StreamTransport.doClose, TcpTransport.doClose, DatagramTransport.doClose] <;>
    split <;> rfl

theorem doClose_follows (ending : t.state.Ending) : Follows t (doClose t) :=
  .of_ending (by rw [doClose_state]; exact ReflTransGen.refl) (by rw [doClose_state]; exact ending)

/-- The pattern `setState(s); doClose();` with `s` ending. -/
theorem setState_doClose_follows (ending : s.Ending)
    (moved : (setState s t >>= fun t => pure (doClose t)) = .ok t') : Follows t t' := by
  obtain ⟨set, setting, done⟩ := FaultRun.bind_eq_ok.mp moved
  cases done
  refine (setState_follows_of_ending setting ending).trans (doClose_follows ?_)
  rw [setState_state setting]
  exact ending

theorem setState_doClose_state (moved : (setState s t >>= fun t => pure (doClose t)) = .ok t') : t'.state = s := by
  obtain ⟨set, setting, done⟩ := FaultRun.bind_eq_ok.mp moved
  cases done
  rw [doClose_state, setState_state setting]

theorem close_follows (moved : close t = .ok t') : Follows t t' := by
  unfold close at moved
  split at moved
  · cases moved
    exact .refl t
  · exact setState_doClose_follows (Or.inl rfl) moved

theorem send_follows (t : Transport) : Follows t (send t) := by
  unfold send doSend
  split
  · exact .refl t
  · split
    · exact sendFromQueue_follows t
    · unfold StreamTransport.doSend
      split
      · exact .refl t
      · -- the send queue grows by one
        have queued : Follows t { t with sendQueue := t.sendQueue + 1 } := .of_frame rfl rfl rfl id
        dsimp only
        split
        · exact queued.trans (sendFromQueue_follows _)
        · exact queued

theorem complete_follows (operation : Operation) (error : ErrorCode) (overflow : Bool) (t : Transport) :
    Follows t (complete operation error overflow t) := by
  unfold complete
  split
  · exact .of_frame rfl rfl rfl (by simp)
  · exact .refl t

theorem reconnect_follows (t : Transport) : Follows t (TcpTransport.reconnect t) := by
  unfold TcpTransport.reconnect
  split
  · exact .refl t
  · exact .of_frame rfl rfl rfl (by simp [closeSocket, cancel])

theorem handleReconnectTimeout_follows (t : Transport) : Follows t (TcpTransport.handleReconnectTimeout t) :=
  (closeSocket_follows t).trans (post_follows .reconnect rfl _)

theorem deferredClose_follows (moved : StreamTransport.deferredClose t = .ok t') : Follows t t' :=
  -- resetting the send queue and closing the socket keep the state
  have reset : Follows t { t with sendQueue := 0 } := .of_frame rfl rfl rfl id
  (reset.trans (closeSocket_follows _)).trans (setState_follows_of_ending moved (Or.inr (Or.inr rfl)))

theorem StreamTransport.handleError_follows (error : ErrorCode) (moved : StreamTransport.handleError error t = .ok t') :
    Follows t t' := by
  unfold StreamTransport.handleError at moved
  split at moved
  · exact setState_doClose_follows (Or.inl rfl) moved
  · exact setState_doClose_follows (Or.inr (Or.inl rfl)) moved

theorem TcpTransport.handleError_follows (tcp : t.kind = .tcp) (error : ErrorCode)
    (moved : TcpTransport.handleError error t = .ok t') : Follows t t' := by
  unfold TcpTransport.handleError at moved
  split at moved
  · rename_i permanent
    -- a permanent transport goes DOWN and reconnects
    obtain ⟨down, setting, done⟩ := FaultRun.bind_eq_ok.mp moved
    cases done
    exact (setState_follows setting fun _ => ⟨tcp, permanent⟩).trans
      ((cancel_follows _).trans (post_follows .reconnect rfl _))
  · exact StreamTransport.handleError_follows error moved

theorem handleError_follows (error : ErrorCode) (moved : handleError error t = .ok t') : Follows t t' := by
  unfold handleError at moved
  split at moved
  · rename_i tcp
    exact TcpTransport.handleError_follows tcp error moved
  · exact StreamTransport.handleError_follows error moved

theorem StreamTransport.processErrorCode_follows (error : ErrorCode)
    (moved : StreamTransport.processErrorCode error t = .ok t') : Follows t t' := by
  unfold StreamTransport.processErrorCode at moved
  split at moved
  · cases moved
    exact .refl t
  · exact Transport.handleError_follows error moved

theorem StreamTransport.handleSend_follows (error : ErrorCode) (moved : StreamTransport.handleSend error t = .ok t') :
    Follows t t' := by
  unfold StreamTransport.handleSend at moved
  split at moved
  · exact StreamTransport.processErrorCode_follows error moved
  · cases moved
    -- one packet leaves the send queue
    have sent : Follows t { t with sendQueue := t.sendQueue - 1 } := .of_frame rfl rfl rfl id
    split
    · exact sent.trans (sendFromQueue_follows _)
    · exact sent

theorem StreamTransport.handleReceive_follows (error : ErrorCode) (overflow : Bool)
    (moved : StreamTransport.handleReceive error overflow t = .ok t') : Follows t t' := by
  unfold StreamTransport.handleReceive at moved
  split at moved
  · exact StreamTransport.processErrorCode_follows error moved
  · split at moved
    · exact setState_doClose_follows (Or.inr (Or.inl rfl)) moved
    · cases moved
      exact startReceive_follows t

theorem DatagramTransport.processErrorCode_follows (error : ErrorCode)
    (moved : DatagramTransport.processErrorCode error t = .ok t') : Follows t t' := by
  unfold DatagramTransport.processErrorCode at moved
  split at moved
  · cases moved
    exact .refl t
  · split at moved
    · cases moved
      exact .refl t
    · exact setState_doClose_follows (Or.inr (Or.inl rfl)) moved

theorem DatagramTransport.receiveDatagram_follows (error : ErrorCode)
    (moved : DatagramTransport.receiveDatagram error t = .ok t') : Follows t t' := by
  unfold DatagramTransport.receiveDatagram at moved
  split at moved
  · exact DatagramTransport.processErrorCode_follows error moved
  · cases moved
    exact .refl t

theorem DatagramTransport.handleReceive_follows (error : ErrorCode)
    (moved : DatagramTransport.handleReceive error t = .ok t') : Follows t t' := by
  unfold DatagramTransport.handleReceive at moved
  obtain ⟨received, receiving, done⟩ := FaultRun.bind_eq_ok.mp moved
  cases done
  refine (DatagramTransport.receiveDatagram_follows error receiving).trans ?_
  -- the receive is started again only on an open socket
  split
  · exact startReceive_follows _
  · exact .refl _

theorem DatagramTransport.handleSend_follows (error : ErrorCode)
    (moved : DatagramTransport.handleSend error t = .ok t') : Follows t t' := by
  unfold DatagramTransport.handleSend at moved
  split at moved
  · exact DatagramTransport.processErrorCode_follows error moved
  · cases moved
    exact .refl t

theorem handleReceive_follows (error : ErrorCode) (overflow : Bool) (moved : handleReceive error overflow t = .ok t') :
    Follows t t' := by
  unfold handleReceive at moved
  split at moved
  · exact DatagramTransport.handleReceive_follows error moved
  · exact StreamTransport.handleReceive_follows error overflow moved

theorem handleSend_follows (error : ErrorCode) (moved : handleSend error t = .ok t') : Follows t t' := by
  unfold handleSend at moved
  split at moved
  · exact DatagramTransport.handleSend_follows error moved
  · exact StreamTransport.handleSend_follows error moved

theorem handleReconnect_follows (error : ErrorCode) (moved : TcpTransport.handleReconnect error t = .ok t') :
    Follows t t' := by
  unfold TcpTransport.handleReconnect at moved
  split at moved
  · cases moved
    exact .refl t
  · split at moved
    · cases moved
      exact .refl t
    · dsimp only at moved
      split at moved
      · cases moved
      · -- the timer is cancelled, and the transport comes back UP
        obtain ⟨up, setting, done⟩ := FaultRun.bind_eq_ok.mp moved
        cases done
        have cancelled : Follows t { t with reconnectScheduled := false } := .of_frame rfl rfl rfl id
        exact cancelled.trans ((setState_follows setting fun isDown => nomatch isDown).trans
          (startReceive_follows _))

/-- A persistency change keeps the invariant: a DOWN transport is a permanent TCP one, and
`TcpTransport::afterChangePersistency` fails it when it stops being permanent. -/
theorem setPersistency_follows (persistency : FacePersistency) (moved : setPersistency persistency t = .ok t') :
    Follows t t' := by
  unfold setPersistency at moved
  split at moved
  · cases moved
    exact .refl t
  · rename_i changed
    -- the persistency alone changes, so a transport that is not DOWN stays consistent
    have kept : t.state ≠ .down → Follows t { t with persistency := persistency } := fun notDown =>
      ⟨ReflTransGen.refl, fun c => ⟨c.notNone, fun down => absurd down notDown, c.closing⟩⟩
    have notDown : Consistent t → t.state = .down → t.persistency = .permanent := fun c down => (c.down down).2
    dsimp only at moved
    split at moved
    · unfold afterChangePersistency at moved
      split at moved
      · unfold TcpTransport.afterChangePersistency at moved
        split at moved
        · -- a DOWN transport that stops being permanent fails
          have failed : t'.state = .failed := setState_doClose_state moved
          exact .of_ending (setState_doClose_follows (Or.inr (Or.inl rfl)) moved).lifeCycle
            (by rw [failed]; exact Or.inr (Or.inl rfl))
        · rename_i notBoth
          cases moved
          exact ⟨ReflTransGen.refl, fun c => ⟨c.notNone, fun down => absurd ⟨notDown c down, down⟩ notBoth, c.closing⟩⟩
      · rename_i notTcp
        cases moved
        exact ⟨ReflTransGen.refl, fun c => ⟨c.notNone, fun down => absurd (c.down down).1 notTcp, c.closing⟩⟩
    · rename_i none
      cases moved
      refine ⟨ReflTransGen.refl, fun c => ⟨c.notNone, fun down => ?_, c.closing⟩⟩
      have permanent := notDown c down
      simp only [ne_eq, not_not] at none
      rw [none] at permanent
      cases permanent

theorem runHandler_follows (handler : Handler) (moved : runHandler handler t = .ok t') : Follows t t' := by
  cases handler with
  | receive error overflow => exact handleReceive_follows error overflow moved
  | send error => exact handleSend_follows error moved
  | connect error => exact handleReconnect_follows error moved
  | deferredClose => exact deferredClose_follows moved
  | setClosed => exact setState_follows_of_ending moved (Or.inr (Or.inr rfl))
  | reconnect =>
      cases moved
      exact reconnect_follows t

theorem dispatch_follows (moved : dispatch t = .ok t') : Follows t t' := by
  unfold dispatch at moved
  split at moved
  · cases moved
    exact .refl t
  · rename_i handler rest queued
    -- the handler leaves the queue before it runs
    have popped : Follows t { t with handlers := rest } :=
      .of_frame rfl rfl rfl fun later => by rw [queued, List.any_cons, later, Bool.or_true]
    exact popped.trans (runHandler_follows handler moved)

end Calls

theorem step_follows (e : Event) (moved : step t e = .ok t') : Follows t t' := by
  cases e with
  | complete operation error overflow =>
      cases moved
      exact complete_follows operation error overflow t
  | dispatch => exact dispatch_follows moved
  | close => exact close_follows moved
  | send =>
      cases moved
      exact send_follows t
  | setPersistency persistency =>
      simp only [step] at moved
      split at moved
      · exact setPersistency_follows persistency moved
      · cases moved
        exact .refl t
  | reconnectTimeout =>
      simp only [step] at moved
      split at moved
      · cases moved
        have fired : Follows t { t with reconnectScheduled := false } := .of_frame rfl rfl rfl id
        exact fired.trans (handleReconnectTimeout_follows _)
      · cases moved
        exact .refl t

/-- Over a whole run the state moves along the life cycle and the invariant holds. -/
theorem run_follows (events : List Event) (moved : t.run events = .ok t') : Follows t t' :=
  FaultRun.run_invariant (Follows t) (fun _ e _ before moved => before.trans (step_follows e moved))
    events t t' (.refl t) moved

theorem run_lifeCycle (events : List Event) (moved : t.run events = .ok t') : LifeCycle t.state t'.state :=
  (run_follows events moved).lifeCycle

/-- Once CLOSED, a transport stays CLOSED. -/
theorem run_closed (events : List Event) (closed : t.state = .closed) (moved : t.run events = .ok t') :
    t'.state = .closed :=
  LifeCycle.closed (closed ▸ run_lifeCycle events moved)

/-- Only a permanent TCP transport is ever DOWN. -/
theorem run_down (events : List Event) (consistent : Consistent t) (moved : t.run events = .ok t')
    (down : t'.state = .down) : t'.kind = .tcp ∧ t'.persistency = .permanent :=
  ((run_follows events moved).consistent consistent).down down

section Faults

theorem setState_ne_invalid (allowed : t.state = s ∨ Advances t.state s) :
    setState s t ≠ .error .invalidStateTransition := fun failed => by
  obtain ⟨different, stuck, -⟩ := setState_eq_error.mp failed
  rcases allowed with same | advances
  · exact different same
  · exact stuck advances

theorem setState_doClose_ne_invalid (allowed : t.state = s ∨ Advances t.state s) :
    (setState s t >>= fun t => pure (doClose t)) ≠ .error .invalidStateTransition := fun failed => by
  rcases FaultRun.bind_eq_error.mp failed with setting | ⟨_, _, done⟩
  · exact setState_ne_invalid allowed setting
  · cases done

/-- CLOSED is allowed from every ending state. -/
theorem closed_allowed (ending : s.Ending) : s = .closed ∨ Advances s .closed := by
  rcases ending with closing | failed | closed
  · exact Or.inr (.finish (Or.inl closing))
  · exact Or.inr (.finish (Or.inr failed))
  · exact Or.inl closed

/-- FAILED is refused exactly from CLOSING and CLOSED. -/
theorem failed_refused_iff (notNone : s ≠ .none) :
    (s ≠ .failed ∧ ¬ Advances s .failed) ↔ s = .closing ∨ s = .closed := by
  rw [Advances.failed_iff]
  cases s <;> simp [TransportState.Live] at notNone ⊢

theorem close_ne_invalid (t : Transport) : close t ≠ .error .invalidStateTransition := by
  unfold close
  split
  · intro failed
    cases failed
  · rename_i called
    have live : t.state.Live := Classical.byContradiction fun notLive =>
      called ⟨fun up => notLive (Or.inl up), fun down => notLive (Or.inr down)⟩
    exact setState_doClose_ne_invalid (Or.inr (.close live))

theorem StreamTransport.handleError_ne_invalid (live : t.state.Live) (error : ErrorCode) :
    StreamTransport.handleError error t ≠ .error .invalidStateTransition := by
  unfold StreamTransport.handleError
  split
  · exact setState_doClose_ne_invalid (Or.inr (.close live))
  · exact setState_doClose_ne_invalid (Or.inr (.fail live))

theorem TcpTransport.handleError_ne_invalid (live : t.state.Live) (error : ErrorCode) :
    TcpTransport.handleError error t ≠ .error .invalidStateTransition := by
  unfold TcpTransport.handleError
  split
  · intro failed
    rcases FaultRun.bind_eq_error.mp failed with setting | ⟨_, _, done⟩
    · -- UP goes DOWN, and DOWN stays DOWN
      refine setState_ne_invalid ?_ setting
      rcases live with up | down
      · rw [up]
        exact Or.inr .goDown
      · exact Or.inl down
    · cases done
  · exact StreamTransport.handleError_ne_invalid live error

theorem handleError_ne_invalid (live : t.state.Live) (error : ErrorCode) :
    handleError error t ≠ .error .invalidStateTransition := by
  unfold handleError
  split
  · exact TcpTransport.handleError_ne_invalid live error
  · exact StreamTransport.handleError_ne_invalid live error

variable (c : Consistent t)
include c

theorem StreamTransport.processErrorCode_ne_invalid (error : ErrorCode) :
    StreamTransport.processErrorCode error t ≠ .error .invalidStateTransition := by
  unfold StreamTransport.processErrorCode
  split
  · intro failed
    cases failed
  · rename_i proceeding
    exact Transport.handleError_ne_invalid (c.live_of_proceeding proceeding) error

theorem StreamTransport.handleSend_ne_invalid (error : ErrorCode) :
    StreamTransport.handleSend error t ≠ .error .invalidStateTransition := by
  unfold StreamTransport.handleSend
  split
  · exact StreamTransport.processErrorCode_ne_invalid c error
  · intro failed
    cases failed

/-- The overflow branch requests FAILED, which the table refuses from CLOSING and CLOSED. -/
theorem StreamTransport.handleReceive_eq_invalid (error : ErrorCode) (overflow : Bool) :
    StreamTransport.handleReceive error overflow t = .error .invalidStateTransition ↔
      error = .success ∧ overflow = true ∧ (t.state = .closing ∨ t.state = .closed) := by
  unfold StreamTransport.handleReceive
  split
  · rename_i failed
    exact iff_of_false (StreamTransport.processErrorCode_ne_invalid c error) fun received => failed received.1
  · rename_i succeeded
    have success : error = .success := not_not.mp succeeded
    cases overflow with
    | false => simp
    | true =>
        simp only [success, if_true, true_and, FaultRun.bind_eq_error, setState_eq_error, and_true]
        constructor
        · rintro (refused | ⟨_, _, done⟩)
          · exact (failed_refused_iff c.notNone).mp refused
          · cases done
        · intro ending
          exact Or.inl ((failed_refused_iff c.notNone).mpr ending)

theorem DatagramTransport.processErrorCode_ne_invalid (error : ErrorCode) :
    DatagramTransport.processErrorCode error t ≠ .error .invalidStateTransition := by
  unfold DatagramTransport.processErrorCode
  split
  · intro failed
    cases failed
  · rename_i proceeding
    split
    · intro failed
      cases failed
    · exact setState_doClose_ne_invalid (Or.inr (.fail (c.live_of_proceeding proceeding)))

theorem DatagramTransport.handleReceive_ne_invalid (error : ErrorCode) :
    DatagramTransport.handleReceive error t ≠ .error .invalidStateTransition := by
  unfold DatagramTransport.handleReceive DatagramTransport.receiveDatagram
  intro failed
  rcases FaultRun.bind_eq_error.mp failed with receiving | ⟨_, _, done⟩
  · split at receiving
    · exact DatagramTransport.processErrorCode_ne_invalid c error receiving
    · cases receiving
  · cases done

theorem DatagramTransport.handleSend_ne_invalid (error : ErrorCode) :
    DatagramTransport.handleSend error t ≠ .error .invalidStateTransition := by
  unfold DatagramTransport.handleSend
  split
  · exact DatagramTransport.processErrorCode_ne_invalid c error
  · intro failed
    cases failed

theorem handleSend_ne_invalid (error : ErrorCode) : handleSend error t ≠ .error .invalidStateTransition := by
  unfold handleSend
  split
  · exact DatagramTransport.handleSend_ne_invalid c error
  · exact StreamTransport.handleSend_ne_invalid c error

theorem handleReconnect_ne_invalid (error : ErrorCode) :
    TcpTransport.handleReconnect error t ≠ .error .invalidStateTransition := by
  unfold TcpTransport.handleReconnect
  split
  · intro failed
    cases failed
  · rename_i proceeding
    split
    · intro failed
      cases failed
    · dsimp only
      split
      · intro failed
        cases failed
      · intro failed
        rcases FaultRun.bind_eq_error.mp failed with setting | ⟨_, _, done⟩
        · -- the connection comes back in UP or DOWN
          refine setState_ne_invalid ?_ setting
          rcases c.live_of_proceeding proceeding with up | down
          · exact Or.inl up
          · exact Or.inr (by rw [down]; exact .comeUp)
        · cases done

end Faults

theorem setPersistency_ne_invalid (persistency : FacePersistency) :
    setPersistency persistency t ≠ .error .invalidStateTransition := by
  unfold setPersistency afterChangePersistency TcpTransport.afterChangePersistency
  split
  · intro failed
    cases failed
  · dsimp only
    split
    · split
      · split
        · rename_i downPermanent
          exact setState_doClose_ne_invalid (Or.inr (.fail (Or.inr downPermanent.2)))
        · intro failed
          cases failed
      · intro failed
        cases failed
    · intro failed
      cases failed

/-- From a consistent transport, the io_context's next handler requests a move outside the table
exactly when it is a successful receive into a full buffer with no packet at its start, on a
stream or TCP transport that is CLOSING or CLOSED. -/
theorem dispatch_eq_invalid (c : Consistent t) :
    dispatch t = .error .invalidStateTransition ↔
      t.kind ≠ .datagram ∧ t.handlers.head? = some (.receive .success true) ∧
        (t.state = .closing ∨ t.state = .closed) := by
  unfold dispatch
  split
  · rename_i idle
    simp [idle]
  · rename_i handler rest queued
    have popped : Follows t { t with handlers := rest } :=
      .of_frame rfl rfl rfl fun later => by rw [queued, List.any_cons, later, Bool.or_true]
    have c' := popped.consistent c
    rw [queued, List.head?_cons]
    cases handler with
    | receive error overflow =>
        simp only [runHandler]
        unfold handleReceive
        dsimp only
        split
        · rename_i datagram
          exact iff_of_false (DatagramTransport.handleReceive_ne_invalid c' error)
            fun ⟨stream, _⟩ => stream datagram
        · rename_i stream
          rw [StreamTransport.handleReceive_eq_invalid c' error overflow, Option.some.injEq, Handler.receive.injEq]
          exact ⟨fun ⟨success, full, ending⟩ => ⟨stream, ⟨success, full⟩, ending⟩,
            fun ⟨_, ⟨success, full⟩, ending⟩ => ⟨success, full, ending⟩⟩
    | send error => exact iff_of_false (handleSend_ne_invalid c' error) (by simp)
    | connect error => exact iff_of_false (handleReconnect_ne_invalid c' error) (by simp)
    | deferredClose =>
        -- a queued deferredClose means the transport is ending
        have ending : t.state.Ending := c.closing (by rw [queued]; rfl)
        exact iff_of_false (setState_ne_invalid (closed_allowed ending)) (by simp)
    | setClosed =>
        have ending : t.state.Ending := c.closing (by rw [queued]; rfl)
        exact iff_of_false (setState_ne_invalid (closed_allowed ending)) (by simp)
    | reconnect => exact iff_of_false (fun failed => nomatch failed) (by simp)

theorem step_eq_invalid (c : Consistent t) (e : Event) :
    step t e = .error .invalidStateTransition ↔
      e = .dispatch ∧ t.kind ≠ .datagram ∧ t.handlers.head? = some (.receive .success true) ∧
        (t.state = .closing ∨ t.state = .closed) := by
  cases e with
  | complete => simp [step]
  | dispatch =>
      simp only [step, true_and]
      exact dispatch_eq_invalid c
  | close => exact iff_of_false (close_ne_invalid t) (by simp)
  | send => simp [step]
  | setPersistency persistency =>
      simp only [step]
      split
      · exact iff_of_false (setPersistency_ne_invalid persistency) (by simp)
      · simp
  | reconnectTimeout =>
      simp only [step]
      split <;> simp

/-- From a consistent transport, a run throws "Invalid state transition" only when the
io_context runs a successful receive into a full buffer with no packet at its start on a
stream or TCP transport that is already CLOSING or CLOSED. -/
theorem run_invalidStateTransition (events : List Event) (consistent : Consistent t)
    (failed : t.run events = .error .invalidStateTransition) :
    ∃ before after reached, events = before ++ .dispatch :: after ∧ t.run before = .ok reached ∧
      reached.kind ≠ .datagram ∧ reached.handlers.head? = some (.receive .success true) ∧
      (reached.state = .closing ∨ reached.state = .closed) := by
  obtain ⟨before, e, after, reached, split, ran, c, fails⟩ :=
    FaultRun.run_error Consistent (fun _ e _ c moved => (step_follows e moved).consistent c)
      events t _ consistent failed
  obtain ⟨rfl, rest⟩ := (step_eq_invalid c e).mp fails
  exact ⟨before, after, reached, split, ran, rest⟩

/-- Over every run from a consistent transport, as a new one is: the state moves along the
life cycle `setState` enforces, CLOSED is final, only a permanent TCP transport is DOWN, and
"Invalid state transition" is thrown only from the overflow branch of `handleReceive`. -/
theorem run_within_lifeCycle (events : List Event) (consistent : Consistent t) :
    (∀ final, t.run events = .ok final →
        LifeCycle t.state final.state ∧ (t.state = .closed → final.state = .closed) ∧
          (final.state = .down → final.kind = .tcp ∧ final.persistency = .permanent)) ∧
      (t.run events = .error .invalidStateTransition →
        ∃ before after reached, events = before ++ .dispatch :: after ∧ t.run before = .ok reached ∧
          reached.kind ≠ .datagram ∧ reached.handlers.head? = some (.receive .success true) ∧
          (reached.state = .closing ∨ reached.state = .closed)) := by
  refine ⟨fun final moved => ⟨run_lifeCycle events moved, ?_, run_down events consistent moved⟩,
    run_invalidStateTransition events consistent⟩
  intro closed
  exact run_closed events closed moved

theorem run_within_lifeCycle_closeRacingReceive :
    Consistent (initial .stream .persistent) ∧
      (∀ final, (initial .stream .persistent).run [.complete .receive .success true, .close, .dispatch] =
            .ok final →
          LifeCycle (initial .stream .persistent).state final.state ∧
            ((initial .stream .persistent).state = .closed → final.state = .closed) ∧
            (final.state = .down → final.kind = .tcp ∧ final.persistency = .permanent)) ∧
      ((initial .stream .persistent).run [.complete .receive .success true, .close, .dispatch] =
          .error .invalidStateTransition →
        ∃ before after reached, [.complete .receive .success true, .close, .dispatch] =
            before ++ .dispatch :: after ∧ (initial .stream .persistent).run before = .ok reached ∧
          reached.kind ≠ .datagram ∧ reached.handlers.head? = some (.receive .success true) ∧
          (reached.state = .closing ∨ reached.state = .closed)) :=
  ⟨consistent_initial .stream .persistent,
    run_within_lifeCycle [.complete .receive .success true, .close, .dispatch] (consistent_initial _ _)⟩

theorem close_of_live (live : t.state.Live) : close t = .ok (doClose { t with state := .closing }) := by
  have setting : setState .closing t = .ok { t with state := .closing } :=
    setState_eq_ok.mpr ⟨Or.inr (.close live), rfl⟩
  have called : ¬ (t.state ≠ .up ∧ t.state ≠ .down) := fun ⟨notUp, notDown⟩ => live.elim notUp notDown
  rw [close, if_neg called, setting]
  rfl

theorem doClose_handlers_head {handler : Handler} {rest : List Handler} (queued : t.handlers = handler :: rest) :
    (doClose t).handlers.head? = some handler := by
  unfold doClose
  split <;> simp only [StreamTransport.doClose, TcpTransport.doClose, DatagramTransport.doClose] <;>
    split <;> simp [post, cancel, closeSocket, queued]

/-- `close()` on a live stream or TCP transport, after a receive into a full buffer with no
packet at its start completed and before its handler ran: the handler then requests FAILED
from CLOSING, and `setState` throws. -/
theorem overflowingReceive_after_close_throws (live : t.state.Live) (stream : t.kind ≠ .datagram)
    (receiving : Operation.receive ∈ t.outstanding) (idle : t.handlers = []) :
    t.run [.complete .receive .success true, .close, .dispatch] = .error .invalidStateTransition := by
  let received := complete .receive .success true t
  have queued : received.handlers = [.receive .success true] := by
    simp [received, complete, receiving, idle, Operation.completion]
  have receivedLive : received.state.Live := by
    simpa [received, complete, receiving] using live
  have closing : step received .close = .ok (doClose { received with state := .closing }) :=
    close_of_live receivedLive
  have throws : step (doClose { received with state := .closing }) .dispatch = .error .invalidStateTransition := by
    refine (step_eq_invalid (Consistent.of_ending (by rw [doClose_state]; exact Or.inl rfl)) _).mpr
      ⟨rfl, ?_, doClose_handlers_head queued, by rw [doClose_state]; exact Or.inl rfl⟩
    simpa [received, complete, receiving] using stream
  unfold run
  rw [FaultRun.run_cons_ok step (rfl : step t _ = .ok received), FaultRun.run_cons_ok step closing,
    FaultRun.run_cons_error step throws]

theorem close_racing_overflowingReceive_throws (persistency : FacePersistency) :
    (initial .stream persistency).run [.complete .receive .success true, .close, .dispatch] =
        .error .invalidStateTransition ∧
      (initial .tcp persistency).run [.complete .receive .success true, .close, .dispatch] =
        .error .invalidStateTransition :=
  ⟨overflowingReceive_after_close_throws (Or.inl rfl) (by simp [initial]) (by simp [initial]) rfl,
    overflowingReceive_after_close_throws (Or.inl rfl) (by simp [initial]) (by simp [initial]) rfl⟩

end Transport

end Nfd.Face
