import Nfd.Lib.FaultRun

/-!
# The transport life cycle

The state of a `Transport` changes only through `Transport::setState`, which throws
"Invalid state transition" on a move its table does not allow.  `StreamTransport`,
`TcpTransport` and `DatagramTransport` request moves from their socket handlers, from
`close()` and from persistency changes.  The handlers run one at a time on the single-threaded
io_context, in the order they were queued: an outstanding socket operation queues its
handler when it completes, `cancel()` and closing the socket complete every outstanding
operation with operation_aborted, and `post` appends a handler.

The model keeps, of a transport, its kind, state and persistency, the queue of ready
handlers, the outstanding operations, the length of the stream send queue, whether the socket
is open, and whether the reconnect timer is scheduled.  A receive handler also gets whether
the receive buffer is full with no packet parsing at its start (the overflow branch of
`StreamTransport::handleReceive`).  The environment chooses the interleaving: an outstanding
operation completing with any error code, the io_context running its next handler, calls of
`close()`, `send()` and `setPersistency()`, and the scheduler running the reconnect timer.
Exceptions thrown by a handler are faults that stop the run.
-/

set_option autoImplicit false

namespace Nfd.Face

inductive TransportState where
  | none
  | up
  | down
  | closing
  | failed
  | closed
  deriving DecidableEq, Repr

inductive FacePersistency where
  | none
  | onDemand
  | persistent
  | permanent
  deriving DecidableEq, Repr

/-- The class a transport belongs to: a `StreamTransport` (a Unix stream), a `TcpTransport`,
or a `DatagramTransport` (UDP, unicast or multicast). -/
inductive Kind where
  | stream
  | tcp
  | datagram
  deriving DecidableEq, Repr

/-- The error codes the handlers tell apart; `other` is any other error. -/
inductive ErrorCode where
  | success
  | eof
  | operationAborted
  | shutDown
  | other
  deriving DecidableEq, Repr

inductive Operation where
  | receive
  | send
  | connect
  deriving DecidableEq, Repr

/-- A handler waiting in the io_context's queue. -/
inductive Handler where
  /-- `handleReceive`; `overflow` says the receive buffer is full and no packet parses at its
  start. -/
  | receive (error : ErrorCode) (overflow : Bool)
  | send (error : ErrorCode)
  /-- `TcpTransport::handleReconnect`. -/
  | connect (error : ErrorCode)
  | deferredClose
  /-- The handler `DatagramTransport::doClose` posts: `setState(TransportState::CLOSED)`. -/
  | setClosed
  | reconnect
  deriving DecidableEq, Repr

/-- The handler an operation queues when it is aborted. -/
def Operation.aborted : Operation → Handler
  | .receive => .receive .operationAborted false
  | .send => .send .operationAborted
  | .connect => .connect .operationAborted

/-- The handler an operation queues when it completes with `error`. -/
def Operation.completion (error : ErrorCode) (overflow : Bool) : Operation → Handler
  | .receive => .receive error overflow
  | .send => .send error
  | .connect => .connect error

/-- An exception a handler throws: `std::runtime_error("Invalid state transition")` from
`setState`, or the `boost::system::system_error` that `local_endpoint()` throws on a closed
socket. -/
inductive Fault where
  | invalidStateTransition
  | localEndpoint
  deriving DecidableEq, Repr

structure Transport where
  kind : Kind
  state : TransportState
  persistency : FacePersistency
  /-- The ready handlers of the io_context, the next one to run first. -/
  handlers : List Handler
  outstanding : List Operation
  /-- The number of packets in the send queue of a `StreamTransport`. -/
  sendQueue : Nat
  socketOpen : Bool
  /-- `m_reconnectEvent` is scheduled. -/
  reconnectScheduled : Bool
  deriving DecidableEq, Repr

namespace Transport

/-- A transport as its constructor leaves it: UP, with a receive outstanding. -/
def initial (kind : Kind) (persistency : FacePersistency) : Transport where
  kind := kind
  state := .up
  persistency := persistency
  handlers := []
  outstanding := [.receive]
  sendQueue := 0
  socketOpen := true
  reconnectScheduled := false

/-- The table of `Transport::setState`. -/
def isValidTransition : TransportState → TransportState → Bool
  | .up, newState => newState == .down || newState == .closing || newState == .failed
  | .down, newState => newState == .up || newState == .closing || newState == .failed
  | .closing, newState => newState == .closed
  | .failed, newState => newState == .closed
  | _, _ => false

def setState (newState : TransportState) (t : Transport) : Except Fault Transport :=
  if t.state = newState then .ok t
  else if isValidTransition t.state newState then .ok { t with state := newState }
  else .error .invalidStateTransition

def post (handler : Handler) (t : Transport) : Transport :=
  { t with handlers := t.handlers ++ [handler] }

/-- `m_socket.cancel()`: every outstanding operation completes with operation_aborted. -/
def cancel (t : Transport) : Transport :=
  { t with handlers := t.handlers ++ t.outstanding.map Operation.aborted, outstanding := [] }

/-- `m_socket.close()`, or replacing the socket: outstanding operations are aborted too. -/
def closeSocket (t : Transport) : Transport := { cancel t with socketOpen := false }

def startReceive (t : Transport) : Transport := { t with outstanding := t.outstanding ++ [.receive] }

def sendFromQueue (t : Transport) : Transport := { t with outstanding := t.outstanding ++ [.send] }

def StreamTransport.doClose (t : Transport) : Transport :=
  -- cancel, then shut the socket down; the shutdown leaves nothing else to model
  let t := if t.socketOpen then cancel t else t
  post .deferredClose t

def TcpTransport.doClose (t : Transport) : Transport :=
  StreamTransport.doClose { t with reconnectScheduled := false }

def DatagramTransport.doClose (t : Transport) : Transport :=
  let t := if t.socketOpen then closeSocket t else t
  post .setClosed t

def doClose (t : Transport) : Transport :=
  match t.kind with
  | .stream => StreamTransport.doClose t
  | .tcp => TcpTransport.doClose t
  | .datagram => DatagramTransport.doClose t

def close (t : Transport) : Except Fault Transport :=
  if t.state ≠ .up ∧ t.state ≠ .down then .ok t
  else do
    let t ← setState .closing t
    pure (doClose t)

def StreamTransport.deferredClose (t : Transport) : Except Fault Transport :=
  -- resetSendQueue, then close the socket
  setState .closed (closeSocket { t with sendQueue := 0 })

def StreamTransport.doSend (t : Transport) : Transport :=
  if t.state ≠ .up then t
  else
    let wasQueueEmpty := t.sendQueue = 0
    let t := { t with sendQueue := t.sendQueue + 1 }
    if wasQueueEmpty then sendFromQueue t else t

def DatagramTransport.doSend (t : Transport) : Transport := sendFromQueue t

def doSend (t : Transport) : Transport :=
  match t.kind with
  | .datagram => DatagramTransport.doSend t
  | _ => StreamTransport.doSend t

def send (t : Transport) : Transport :=
  if t.state ≠ .up ∧ t.state ≠ .down then t else doSend t

def StreamTransport.handleError (error : ErrorCode) (t : Transport) : Except Fault Transport := do
  let t ← if error = .eof then setState .closing t else setState .failed t
  pure (Transport.doClose t)

def TcpTransport.handleError (error : ErrorCode) (t : Transport) : Except Fault Transport :=
  if t.persistency = .permanent then do
    let t ← setState .down t
    pure (post .reconnect (cancel t))
  else StreamTransport.handleError error t

def handleError (error : ErrorCode) (t : Transport) : Except Fault Transport :=
  match t.kind with
  | .tcp => TcpTransport.handleError error t
  | _ => StreamTransport.handleError error t

def StreamTransport.processErrorCode (error : ErrorCode) (t : Transport) : Except Fault Transport :=
  if t.state = .closing ∨ t.state = .failed ∨ t.state = .closed ∨
      error = .operationAborted ∨ error = .shutDown then .ok t
  else Transport.handleError error t

def StreamTransport.handleSend (error : ErrorCode) (t : Transport) : Except Fault Transport :=
  if error ≠ .success then processErrorCode error t
  else
    let t := { t with sendQueue := t.sendQueue - 1 }
    .ok (if t.sendQueue ≠ 0 then sendFromQueue t else t)

def StreamTransport.handleReceive (error : ErrorCode) (overflow : Bool) (t : Transport) :
    Except Fault Transport :=
  if error ≠ .success then processErrorCode error t
  else if overflow then do
    let t ← setState .failed t
    pure (Transport.doClose t)
  else .ok (startReceive t)

def DatagramTransport.processErrorCode (error : ErrorCode) (t : Transport) : Except Fault Transport :=
  if t.state = .closing ∨ t.state = .failed ∨ t.state = .closed ∨ error = .operationAborted then .ok t
  else if t.persistency = .permanent then .ok t
  else do
    let t ← setState .failed t
    pure (Transport.doClose t)

def DatagramTransport.receiveDatagram (error : ErrorCode) (t : Transport) : Except Fault Transport :=
  if error ≠ .success then processErrorCode error t else .ok t

def DatagramTransport.handleReceive (error : ErrorCode) (t : Transport) : Except Fault Transport := do
  let t ← receiveDatagram error t
  pure (if t.socketOpen then startReceive t else t)

def DatagramTransport.handleSend (error : ErrorCode) (t : Transport) : Except Fault Transport :=
  if error ≠ .success then processErrorCode error t else .ok t

def handleReceive (error : ErrorCode) (overflow : Bool) (t : Transport) : Except Fault Transport :=
  match t.kind with
  | .datagram => DatagramTransport.handleReceive error t
  | _ => StreamTransport.handleReceive error overflow t

def handleSend (error : ErrorCode) (t : Transport) : Except Fault Transport :=
  match t.kind with
  | .datagram => DatagramTransport.handleSend error t
  | _ => StreamTransport.handleSend error t

def TcpTransport.reconnect (t : Transport) : Transport :=
  if t.state = .closing ∨ t.state = .failed ∨ t.state = .closed then t
  else
    -- a new socket replaces the old one, aborting what was outstanding on it;
    -- resetReceiveBuffer and resetSendQueue; the timer is (re)scheduled; async_connect
    -- opens the new socket
    let t := { closeSocket t with sendQueue := 0 }
    { t with reconnectScheduled := true, outstanding := t.outstanding ++ [.connect], socketOpen := true }

def TcpTransport.handleReconnect (error : ErrorCode) (t : Transport) : Except Fault Transport :=
  if t.state = .closing ∨ t.state = .failed ∨ t.state = .closed ∨ error = .operationAborted then .ok t
  else if error ≠ .success then .ok t
  else
    let t := { t with reconnectScheduled := false }
    -- setLocalUri(FaceUri(m_socket.local_endpoint()))
    if !t.socketOpen then .error .localEndpoint
    else do
      let t ← setState .up t
      pure (startReceive t)

def TcpTransport.handleReconnectTimeout (t : Transport) : Transport :=
  post .reconnect (closeSocket t)

def TcpTransport.afterChangePersistency (oldPersistency : FacePersistency) (t : Transport) :
    Except Fault Transport :=
  if oldPersistency = .permanent ∧ t.state = .down then do
    let t ← setState .failed t
    pure (Transport.doClose t)
  else .ok t

/-- `afterChangePersistency`: the datagram transports only reschedule their idle closure,
which calls `close()`, and a Unix stream never changes persistency. -/
def afterChangePersistency (oldPersistency : FacePersistency) (t : Transport) : Except Fault Transport :=
  match t.kind with
  | .tcp => TcpTransport.afterChangePersistency oldPersistency t
  | _ => .ok t

/-- `canChangePersistencyToImpl`: true for `TcpTransport`, `UnicastUdpTransport` and
`UnicastEthernetTransport`, false in the base class. -/
def canChangePersistencyToImpl : Kind → FacePersistency → Bool
  | .stream, _ => false
  | .tcp, _ => true
  | .datagram, _ => true

def canChangePersistencyTo (newPersistency : FacePersistency) (t : Transport) : Bool :=
  if t.persistency = newPersistency ∨ t.persistency = .none then true
  else if newPersistency = .none then false
  else canChangePersistencyToImpl t.kind newPersistency

def setPersistency (newPersistency : FacePersistency) (t : Transport) : Except Fault Transport :=
  if t.persistency = newPersistency then .ok t
  else
    let oldPersistency := t.persistency
    let t := { t with persistency := newPersistency }
    if oldPersistency ≠ .none then afterChangePersistency oldPersistency t else .ok t

/-- An outstanding operation completes and queues its handler. -/
def complete (operation : Operation) (error : ErrorCode) (overflow : Bool) (t : Transport) : Transport :=
  if operation ∈ t.outstanding then
    { t with outstanding := t.outstanding.erase operation,
             handlers := t.handlers ++ [operation.completion error overflow] }
  else t

def runHandler : Handler → Transport → Except Fault Transport
  | .receive error overflow, t => handleReceive error overflow t
  | .send error, t => handleSend error t
  | .connect error, t => TcpTransport.handleReconnect error t
  | .deferredClose, t => StreamTransport.deferredClose t
  | .setClosed, t => setState .closed t
  | .reconnect, t => .ok (TcpTransport.reconnect t)

/-- The io_context runs its next ready handler. -/
def dispatch (t : Transport) : Except Fault Transport :=
  match t.handlers with
  | [] => .ok t
  | handler :: rest => runHandler handler { t with handlers := rest }

end Transport

/-- What can happen next to a transport. -/
inductive Event where
  | complete (operation : Operation) (error : ErrorCode) (overflow : Bool)
  | dispatch
  | close
  | send
  /-- `setPersistency`, made only when `canChangePersistencyTo` allows it, as it asserts. -/
  | setPersistency (persistency : FacePersistency)
  /-- The scheduler runs `m_reconnectEvent`. -/
  | reconnectTimeout
  deriving DecidableEq, Repr

namespace Transport

def step (t : Transport) : Event → Except Fault Transport
  | .complete operation error overflow => .ok (complete operation error overflow t)
  | .dispatch => dispatch t
  | .close => close t
  | .send => .ok (send t)
  | .setPersistency persistency =>
      if canChangePersistencyTo persistency t then setPersistency persistency t else .ok t
  | .reconnectTimeout =>
      if t.reconnectScheduled then .ok (TcpTransport.handleReconnectTimeout { t with reconnectScheduled := false })
      else .ok t

def run (t : Transport) (events : List Event) : Except Fault Transport := FaultRun.run step t events

end Transport

end Nfd.Face
