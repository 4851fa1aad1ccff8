import Mathlib.Data.List.Basic
import Nfd.Fw.PitEntry

/-!
# The Data pipelines of the forwarder

`Forwarder::onIncomingData`, `onDataUnsolicited`, `onOutgoingData`, `setExpiryTimer` and
`insertDeadNonceList`, with the default `Strategy::satisfyInterest` and the strategy's
`sendData` and `sendDataToAll`.  The forwarder's state is what these write: the Dead Nonce
List, the Data given to `Cs::insert`, the Data each face was given to send, and the counters.
The PIT entries that `Pit::findAllDataMatches` returns are an input, in the order it returns
them, and come back updated; the names of the Dead Nonce List's entries (`makeEntry`, a hash)
and the unsolicited Data policy are parameters of the state.

`std::set`s of faces and downstreams are lists without repetition kept in insertion order;
the source orders them by address, which only changes the order in which faces are sent to.
-/

set_option autoImplicit false

namespace Nfd.Fw

/-- The forwarder, as far as the Data pipelines read and write it; `now` is
`time::steady_clock::now()` while the pipeline runs. -/
structure Forwarder where
  now : Nat
  deadNonceList : DeadNonceList
  deadNonceListLifetime : Nat
  makeEntry : Name → Nonce → DeadNonceList.Entry
  unsolicitedDataPolicy : Face → Data → Bool
  csInserted : List (Data × Bool)
  sent : List (Face × Data)
  nInData : Nat
  nOutData : Nat
  nUnsolicitedData : Nat

namespace Forwarder

/-- `onOutgoingData`: a Data goes out unless the face is invalid or the Data is under
`/localhost` and the face is not local. -/
def onOutgoingData (data : Data) (egress : Face) (fw : Forwarder) : Bool × Forwarder :=
  if egress.id = invalidFaceId then (false, fw)
  else if egress.scope = .nonLocal ∧ localhost <+: data.name then (false, fw)
  else (true, { fw with sent := fw.sent ++ [(egress, data)], nOutData := fw.nOutData + 1 })

/-- `setExpiryTimer`: the entry will be finalized after `duration` milliseconds. -/
def setExpiryTimer (entry : PitEntry) (duration : Nat) : PitEntry := { entry with expiryTimer := some duration }

/-- `insertDeadNonceList`: the Nonces of the out-records, or of the out-record of `upstream`,
go to the Dead Nonce List unless the entry was satisfied by Data fresh for longer than the
list's lifetime, or the Interest did not ask for fresh Data. -/
def insertDeadNonceList (entry : PitEntry) (upstream : Option Face) (fw : Forwarder) : Forwarder :=
  let needDnl :=
    if entry.isSatisfied then entry.interest.mustBeFresh && decide (entry.dataFreshnessPeriod < fw.deadNonceListLifetime)
    else true
  if !needDnl then fw
  else
    match upstream with
    | none =>
      let deadNonceList := entry.outRecords.foldl
        (fun dnl r => dnl.add (fw.makeEntry entry.interest.name r.lastNonce)) fw.deadNonceList
      { fw with deadNonceList := deadNonceList }
    | some face =>
      match entry.getOutRecord face with
      | some r => { fw with deadNonceList := fw.deadNonceList.add (fw.makeEntry entry.interest.name r.lastNonce) }
      | none => fw

/-- `onDataUnsolicited`: the policy decides whether the Data is cached. -/
def onDataUnsolicited (data : Data) (ingress : FaceEndpoint) (fw : Forwarder) : Forwarder :=
  let fw := if fw.unsolicitedDataPolicy ingress.face data then { fw with csInserted := fw.csInserted ++ [(data, true)] } else fw
  { fw with nUnsolicitedData := fw.nUnsolicitedData + 1 }

end Forwarder

namespace Strategy

open Forwarder

/-- `Strategy::satisfyInterest`: every face with an unexpired in-record becomes a satisfied
downstream, with endpoint 0. -/
def satisfyInterest (entry : PitEntry) (satisfiedDownstreams unsatisfiedDownstreams : List (Face × EndpointId))
    (now : Nat) : List (Face × EndpointId) × List (Face × EndpointId) :=
  (entry.inRecords.foldl (fun downstreams r => if now < r.expiry then downstreams.insert (r.face, 0) else downstreams)
    satisfiedDownstreams, unsatisfiedDownstreams)

/-- `Strategy::sendData`, with its result: `none` when the function ends without returning. -/
def sendData (data : Data) (egress : Face) (entry : PitEntry) (fw : Forwarder) : Option Bool × PitEntry × Forwarder :=
  let pitToken := (entry.getInRecord egress).bind (·.interest.pitToken)
  let entry := entry.deleteInRecord egress
  match pitToken with
  | some token =>
    let result := onOutgoingData { data with pitToken := some token } egress fw
    (some result.1, entry, result.2)
  | none =>
    let fw := (onOutgoingData data egress fw).2
    -- "closing down" the entry once no in-record is left
    let entry := if entry.inRecords.isEmpty then { setExpiryTimer entry 0 with isSatisfied := true } else entry
    (none, entry, fw)

/-- `Strategy::sendDataToAll`. -/
def sendDataToAll (data : Data) (entry : PitEntry) (inFace : Face) (fw : Forwarder) : PitEntry × Forwarder :=
  let pendingDownstreams := entry.inRecords.foldl (fun pending r =>
    if fw.now < r.expiry then
      if r.face.id = inFace.id ∧ r.face.linkType ≠ .adHoc then pending else pending.insert r.face
    else pending) []
  let sent := pendingDownstreams.foldl (fun (sent : PitEntry × Forwarder) face =>
    let result := sendData data face sent.1 sent.2
    (result.2.1, result.2.2)) (entry, fw)
  ({ setExpiryTimer sent.1.clearInRecords 0 with isSatisfied := true }, sent.2)

end Strategy

namespace Forwarder

open Strategy

/-- One turn of the loop of `onIncomingData` over the matching PIT entries: the entry, the
satisfied downstreams gathered so far, and the entry's unsatisfied downstreams. -/
def satisfyEntry (data : Data) (ingress : FaceEndpoint) (entry : PitEntry)
    (satisfiedDownstreams : List (Face × EndpointId)) (fw : Forwarder) :
    PitEntry × List (Face × EndpointId) × List (Face × EndpointId) × Forwarder :=
  let downstreams := satisfyInterest entry satisfiedDownstreams [] fw.now
  let satisfiedDownstreams := downstreams.1
  let unsatisfiedDownstreams := downstreams.2
  let entry := if unsatisfiedDownstreams.isEmpty then { setExpiryTimer entry 0 with isSatisfied := true } else entry
  let fw := insertDeadNonceList entry (some ingress.face) fw
  let entry := { entry with dataFreshnessPeriod := data.freshnessPeriod }
  let entry := satisfiedDownstreams.foldl (fun entry downstream => entry.deleteInRecord downstream.1) entry
  (entry.deleteOutRecord ingress.face, satisfiedDownstreams, unsatisfiedDownstreams, fw)

/-- The loop over the matching PIT entries, in the order `findAllDataMatches` returns them. -/
def satisfyEntries (data : Data) (ingress : FaceEndpoint) :
    List PitEntry → List (Face × EndpointId) → Forwarder →
      List PitEntry × List (Face × EndpointId) × List (List (Face × EndpointId)) × Forwarder
  | [], satisfiedDownstreams, fw => ([], satisfiedDownstreams, [], fw)
  | entry :: rest, satisfiedDownstreams, fw =>
    let turn := satisfyEntry data ingress entry satisfiedDownstreams fw
    let later := satisfyEntries data ingress rest turn.2.1 turn.2.2.2
    (turn.1 :: later.1, later.2.1, turn.2.2.1 :: later.2.2.1, later.2.2.2)

/-- The second loop: an entry the strategy left unsatisfied for a downstream that another
entry satisfied loses that in-record, and is closed down once it has none. -/
def reconcileEntry (satisfiedDownstreams : List (Face × EndpointId)) (entry : PitEntry)
    (unsatisfiedDownstreams : List (Face × EndpointId)) : PitEntry :=
  unsatisfiedDownstreams.foldl (fun entry downstream =>
    if downstream ∈ satisfiedDownstreams then
      let entry := entry.deleteInRecord downstream.1
      if entry.inRecords.isEmpty then { setExpiryTimer entry 0 with isSatisfied := true } else entry
    else entry) entry

/-- The last loop: every satisfied downstream but the ingress itself, unless it is ad hoc, is
sent the Data. -/
def sendToDownstreams (data : Data) (ingress : FaceEndpoint) (satisfiedDownstreams : List (Face × EndpointId))
    (fw : Forwarder) : Forwarder :=
  satisfiedDownstreams.foldl (fun fw downstream =>
    if downstream.1.id = ingress.face.id ∧ downstream.2 = ingress.endpoint ∧ downstream.1.linkType ≠ .adHoc then fw
    else (onOutgoingData data downstream.1 fw).2) fw

/-- `onIncomingData` for a Data whose matching PIT entries are `pitMatches`. -/
def onIncomingData (data : Data) (ingress : FaceEndpoint) (pitMatches : List PitEntry) (fw : Forwarder) :
    List PitEntry × Forwarder :=
  let fw := { fw with nInData := fw.nInData + 1 }
  if ingress.face.scope = .nonLocal ∧ localhost <+: data.name then (pitMatches, fw)
  else if pitMatches.isEmpty then (pitMatches, onDataUnsolicited data ingress fw)
  else
    let fw := { fw with csInserted := fw.csInserted ++ [(data, false)] }
    let satisfied := satisfyEntries data ingress pitMatches [] fw
    let entries := List.zipWith (reconcileEntry satisfied.2.1) satisfied.1 satisfied.2.2.1
    (entries, sendToDownstreams data ingress satisfied.2.1 satisfied.2.2.2)

end Forwarder

end Nfd.Fw
