import Nfd.Rib.FibUpdater

/-!
# The RIB update queue and the FIB commands in flight

`Rib::beginApplyUpdate`, `beginRemoveFace` and `beginRemoveFailedFaces` queue batches of
one update; `sendBatchFromQueue` starts the front batch when none is in progress, and the
`FibUpdater` computes its FIB updates and sends them as commands to the forwarder, all at
once.  Each command's response arrives later, in any order, and runs the callbacks the
command captured: the started batch's `Rib::onFibUpdateSuccess` and
`Rib::onFibUpdateFailure`, with the manager's callbacks.  The updater's lists and its
batch face, by contrast, are shared by all commands and are reset when a batch starts.

The state carries a log of what the RIB and the updater do outside their own state:
commands sent to the forwarder, batches ending in success or failure, manager callbacks,
and the exception `onUpdateError` throws on a non-recoverable error.  Started batches are
numbered in the order they start.
-/

set_option autoImplicit false

namespace Nfd.Rib

/-- `MAX_NUM_TIMEOUTS`. -/
def maxNumTimeouts : Nat := 10

/-- A manager callback, named by a number; an empty `std::function` is `none`. -/
abbrev Callback := Nat

structure UpdateQueueItem where
  batch : RibUpdateBatch
  managerSuccessCallback : Option Callback
  managerFailureCallback : Option Callback
deriving DecidableEq, Repr

/-- A batch taken from the queue, with its number in the order batches started. -/
structure Started where
  serial : Nat
  item : UpdateQueueItem
deriving DecidableEq, Repr

/-- `FibAddNextHopCommand` and `FibRemoveNextHopCommand`. -/
inductive Command where
  | addNextHop
  | removeNextHop
deriving DecidableEq, Repr

/-- A command sent and not yet answered: its update, the command, the timeouts so far, and
the batch whose callbacks the response runs. -/
structure InFlight where
  update : FibUpdate
  command : Command
  nTimeouts : Nat
  owner : Started
deriving DecidableEq, Repr

/-- The code of a command's response: success, `Controller::ERROR_TIMEOUT`,
`ERROR_FACE_NOT_FOUND`, or any other error code. -/
inductive Response where
  | success
  | timeout
  | faceNotFound
  | otherError (code : Nat)
deriving DecidableEq, Repr

inductive QueueEvent where
  | sent (command : Command) (update : FibUpdate)
  | batchSucceeded (serial : Nat)
  | batchFailed (serial : Nat)
  | managerSuccess (callback : Callback)
  | managerFailure (callback : Callback)
  | nonRecoverable
deriving DecidableEq, Repr

structure UpdateQueue where
  rib : Rib
  updateBatches : List UpdateQueueItem
  isUpdateInProgress : Bool
  updater : FibUpdater
  inFlight : List InFlight
  nStarted : Nat
  log : List QueueEvent
deriving DecidableEq, Repr

namespace UpdateQueue

def initial (rib : Rib) : UpdateQueue := ⟨rib, [], false, ⟨0, [], [], []⟩, [], 0, []⟩

def emit (event : QueueEvent) (q : UpdateQueue) : UpdateQueue := { q with log := q.log ++ [event] }

def emitCallback (callback : Option Callback) (event : Callback → QueueEvent) (q : UpdateQueue) :
    UpdateQueue :=
  match callback with
  | some c => q.emit (event c)
  | none => q

/-- `sendAddNextHopUpdate` and `sendRemoveNextHopUpdate`. -/
def send (command : Command) (update : FibUpdate) (nTimeouts : Nat) (owner : Started)
    (q : UpdateQueue) : UpdateQueue :=
  let sent : InFlight := ⟨update, command, nTimeouts, owner⟩
  { q with inFlight := q.inFlight ++ [sent] }.emit (.sent command update)

def commandFor (update : FibUpdate) : Command :=
  match update.action with
  | .addNexthop => .addNextHop
  | .removeNexthop => .removeNextHop

/-- `FibUpdater::sendUpdates`. -/
def sendUpdates (updates : List FibUpdate) (owner : Started) (q : UpdateQueue) : UpdateQueue :=
  updates.foldl (fun q update => q.send (commandFor update) update 0 owner) q

/-- `Rib::onFibUpdateSuccess` up to its call of `sendBatchFromQueue`. -/
def succeed (owner : Started) (inheritedRoutes : List RibUpdate) (q : UpdateQueue) : UpdateQueue :=
  ({ q with rib := q.rib.applyBatch owner.item.batch inheritedRoutes, isUpdateInProgress := false }.emit
      (.batchSucceeded owner.serial)).emitCallback owner.item.managerSuccessCallback .managerSuccess

/-- `Rib::onFibUpdateFailure` up to its call of `sendBatchFromQueue`. -/
def fail (owner : Started) (q : UpdateQueue) : UpdateQueue :=
  ({ q with isUpdateInProgress := false }.emit (.batchFailed owner.serial)).emitCallback
    owner.item.managerFailureCallback .managerFailure

/-- Take the front batch and compute its updates: `sendBatchFromQueue` up to
`computeAndSendFibUpdates`'s sending. -/
def start (item : UpdateQueueItem) (rest : List UpdateQueueItem) (q : UpdateQueue) : UpdateQueue :=
  { q with
      isUpdateInProgress := true
      updateBatches := rest
      nStarted := q.nStarted + 1
      updater := FibUpdater.computeUpdates q.rib item.batch }

/-- `sendBatchFromQueue`.  A batch with no FIB update succeeds at once, and
`onFibUpdateSuccess` then starts the next; each round takes a batch from the queue, so
one more round than there are queued batches is enough fuel. -/
def sendBatchFromQueueLoop : Nat → UpdateQueue → UpdateQueue
  | 0, q => q
  | fuel + 1, q =>
      if q.isUpdateInProgress then q
      else
        match q.updateBatches with
        | [] => q
        | item :: rest =>
            let owner : Started := ⟨q.nStarted, item⟩
            let q := q.start item rest
            if q.updater.updatesForBatchFaceId != [] then
              q.sendUpdates q.updater.updatesForBatchFaceId owner
            else if q.updater.updatesForNonBatchFaceId != [] then
              q.sendUpdates q.updater.updatesForNonBatchFaceId owner
            else sendBatchFromQueueLoop fuel (q.succeed owner q.updater.inheritedRoutes)

def sendBatchFromQueue (q : UpdateQueue) : UpdateQueue :=
  sendBatchFromQueueLoop (q.updateBatches.length + 1) q

/-- `onSuccess(m_inheritedRoutes)`: the batch `owner` ends in success. -/
def onFibUpdateSuccess (owner : Started) (q : UpdateQueue) : UpdateQueue :=
  (q.succeed owner q.updater.inheritedRoutes).sendBatchFromQueue

def onFibUpdateFailure (owner : Started) (q : UpdateQueue) : UpdateQueue :=
  (q.fail owner).sendBatchFromQueue

/-- `sendUpdatesForNonBatchFaceId`. -/
def sendUpdatesForNonBatchFaceId (owner : Started) (q : UpdateQueue) : UpdateQueue :=
  if q.updater.updatesForNonBatchFaceId != [] then
    q.sendUpdates q.updater.updatesForNonBatchFaceId owner
  else q.onFibUpdateSuccess owner

def setUpdater (updater : FibUpdater) (q : UpdateQueue) : UpdateQueue := { q with updater := updater }

/-- An update of another face leaves the list of such updates; when it is empty, `owner`
succeeds.  `onUpdateSuccess` and the FACE_NOT_FOUND branch of `onUpdateError` share it. -/
def doneNonBatch (update : FibUpdate) (owner : Started) (q : UpdateQueue) : UpdateQueue :=
  let q := q.setUpdater
    { q.updater with updatesForNonBatchFaceId := q.updater.updatesForNonBatchFaceId.filter (· != update) }
  if q.updater.updatesForNonBatchFaceId == [] then q.onFibUpdateSuccess owner else q

/-- `FibUpdater::onUpdateSuccess`, comparing with the batch face of the batch in progress. -/
def onUpdateSuccess (update : FibUpdate) (owner : Started) (q : UpdateQueue) : UpdateQueue :=
  if update.faceId == q.updater.batchFaceId then
    let q := q.setUpdater
      { q.updater with updatesForBatchFaceId := q.updater.updatesForBatchFaceId.filter (· != update) }
    if q.updater.updatesForBatchFaceId == [] then q.sendUpdatesForNonBatchFaceId owner else q
  else q.doneNonBatch update owner

/-- `FibUpdater::onUpdateError`.  A timed-out command is sent again with
`sendAddNextHopUpdate`, whatever command it was. -/
def onUpdateError (command : InFlight) (response : Response) (q : UpdateQueue) : UpdateQueue :=
  match response with
  | .timeout =>
      if command.nTimeouts < maxNumTimeouts then
        q.send .addNextHop command.update (command.nTimeouts + 1) command.owner
      else q.emit .nonRecoverable
  | .faceNotFound =>
      if command.update.faceId == q.updater.batchFaceId then q.onFibUpdateFailure command.owner
      else q.doneNonBatch command.update command.owner
  | .otherError _ => q.emit .nonRecoverable
  | .success => q

/-- `Rib::addUpdateToQueue`: a batch of the one update, for the route's face. -/
def addUpdateToQueue (update : RibUpdate) (onSuccess onFailure : Option Callback) (q : UpdateQueue) :
    UpdateQueue :=
  { q with updateBatches := q.updateBatches ++ [⟨update.batch, onSuccess, onFailure⟩] }

/-- `Rib::enqueueRemoveFace`: a REMOVE_FACE update for each route of the entry on the face.
A pair whose entry has left the RIB finds no route. -/
def enqueueRemoveFace (name : Name) (faceId : Nat) (q : UpdateQueue) : UpdateQueue :=
  match q.rib.find name with
  | none => q
  | some entry =>
      (entry.routes.filter (·.faceId == faceId)).foldl
        (fun q route => q.addUpdateToQueue ⟨.removeFace, name, route⟩ none none) q

/-- The environment's inputs: calls into the RIB, and the response to the command in
flight at a position. -/
inductive Input where
  | beginApplyUpdate (update : RibUpdate) (onSuccess onFailure : Option Callback)
  | beginRemoveFace (faceId : Nat)
  | beginRemoveFailedFaces (activeFaceIds : List Nat)
  | respond (position : Nat) (response : Response)
deriving DecidableEq, Repr

def step (q : UpdateQueue) : Input → UpdateQueue
  | .beginApplyUpdate update onSuccess onFailure =>
      (q.addUpdateToQueue update onSuccess onFailure).sendBatchFromQueue
  | .beginRemoveFace faceId =>
      ((q.rib.faceEntries.filter (·.1 == faceId)).foldl
        (fun q pair => q.enqueueRemoveFace pair.2 faceId) q).sendBatchFromQueue
  | .beginRemoveFailedFaces activeFaceIds =>
      ((q.rib.faceEntries.filter fun pair => !activeFaceIds.contains pair.1).foldl
        (fun q pair => q.enqueueRemoveFace pair.2 pair.1) q).sendBatchFromQueue
  | .respond position response =>
      match q.inFlight[position]? with
      | none => q
      | some command =>
          let q := { q with inFlight := q.inFlight.eraseIdx position }
          match response with
          | .success => q.onUpdateSuccess command.update command.owner
          | _ => q.onUpdateError command response

def run (q : UpdateQueue) (inputs : List Input) : UpdateQueue := inputs.foldl step q

/-- `/a/b` registered on face 2; then `/a` registered on face 1 with child-inherit, which
sends two commands for face 1 (`/a`, and `/a/b` inheriting); both answered
FACE_NOT_FOUND; then `/a/b` unregistered, its remove-nexthop command timing out.  The
second batch fails twice and its manager failure callback runs twice, and the timed-out
removal is sent again as an add-nexthop command, with the removal's cost 0. -/
theorem failedTwice_and_removalRetriedAsAdd :
    let a : Name := [⟨8, [97]⟩]
    let ab : Name := a ++ [⟨8, [98]⟩]
    let q := (initial Rib.empty).run
      [.beginApplyUpdate ⟨.register, ab, ⟨2, 0, 1, 0⟩⟩ none none, .respond 0 .success,
        .beginApplyUpdate ⟨.register, a, ⟨1, 0, 10, routeFlagChildInherit⟩⟩ (some 1) (some 2),
        .respond 0 .faceNotFound, .respond 0 .faceNotFound,
        .beginApplyUpdate ⟨.unregister, ab, ⟨2, 0, 1, 0⟩⟩ none none, .respond 0 .timeout]
    q.log =
      [.sent .addNextHop ⟨ab, 2, 1, .addNexthop⟩, .batchSucceeded 0,
        .sent .addNextHop ⟨a, 1, 10, .addNexthop⟩, .sent .addNextHop ⟨ab, 1, 10, .addNexthop⟩,
        .batchFailed 1, .managerFailure 2, .batchFailed 1, .managerFailure 2,
        .sent .removeNextHop ⟨ab, 2, 0, .removeNexthop⟩, .sent .addNextHop ⟨ab, 2, 0, .removeNexthop⟩] := by
  decide

end UpdateQueue

end Nfd.Rib
