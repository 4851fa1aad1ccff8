import Mathlib.Data.List.Basic
import Nfd.Fw.Forwarder

/-!
# The two paths of `Strategy::sendData`

`sendData` takes the PIT token of the egress face's in-record, deletes that in-record, and
sends the Data.  With a token it returns `onOutgoingData`'s result at once; without one it
closes the entry down when no in-record is left, and then reaches the end of a function
returning `bool` without a `return`.  So the two paths agree on the in-records but not on the
rest: with a token the last downstream leaves the entry open (not satisfied, its expiry timer
where it was), and without one there is no result to return.
-/

set_option autoImplicit false

namespace Nfd.Fw.Strategy

open Forwarder

theorem sendData_of_token {data : Data} {egress : Face} {entry : PitEntry} {fw : Forwarder} {r : InRecord}
    {token : List UInt8} (found : entry.getInRecord egress = some r) (tagged : r.interest.pitToken = some token) :
    sendData data egress entry fw =
      (some (onOutgoingData { data with pitToken := some token } egress fw).1, entry.deleteInRecord egress,
        (onOutgoingData { data with pitToken := some token } egress fw).2) := by
  simp [sendData, found, tagged]

theorem sendData_of_no_token {data : Data} {egress : Face} {entry : PitEntry} {fw : Forwarder}
    (untagged : ∀ r, entry.getInRecord egress = some r → r.interest.pitToken = none) :
    sendData data egress entry fw =
      (none,
        if (entry.deleteInRecord egress).inRecords.isEmpty then
          { setExpiryTimer (entry.deleteInRecord egress) 0 with isSatisfied := true }
        else entry.deleteInRecord egress,
        (onOutgoingData data egress fw).2) := by
  have noToken : (entry.getInRecord egress).bind (·.interest.pitToken) = none := by
    cases found : entry.getInRecord egress with
    | none => rfl
    | some r => simpa using untagged r found
  simp only [sendData, noToken]

/-- On both paths the in-record of the egress face is gone, and only that one. -/
theorem inRecords_sendData (data : Data) (egress : Face) (entry : PitEntry) (fw : Forwarder) :
    (sendData data egress entry fw).2.1.inRecords = (entry.deleteInRecord egress).inRecords := by
  cases tagged : (entry.getInRecord egress).bind (·.interest.pitToken) with
  | some token =>
    obtain ⟨r, found, token⟩ := Option.bind_eq_some_iff.mp tagged
    rw [sendData_of_token found token]
  | none =>
    have untagged : ∀ r, entry.getInRecord egress = some r → r.interest.pitToken = none := by
      intro r found
      simpa [found] using tagged
    rw [sendData_of_no_token untagged]
    split <;> rfl

theorem sendData_closing_down_differs :
    (∀ (data : Data) (egress : Face) (entry : PitEntry) (fw : Forwarder),
      (∀ r, entry.getInRecord egress = some r → r.interest.pitToken = none) →
        (sendData data egress entry fw).1 = none) ∧
    ∀ (data : Data) (egress : Face) (entry : PitEntry) (fw : Forwarder) (r : InRecord) (token : List UInt8),
      entry.inRecords = [r] → r.face.id = egress.id → r.interest.pitToken = some token →
        (sendData data egress entry fw).2.1.inRecords = [] ∧
          (sendData data egress entry fw).2.1.isSatisfied = entry.isSatisfied ∧
          (sendData data egress entry fw).2.1.expiryTimer = entry.expiryTimer := by
  refine ⟨fun data egress entry fw untagged => by rw [sendData_of_no_token untagged], ?_⟩
  intro data egress entry fw r token only fromEgress tagged
  have found : entry.getInRecord egress = some r := by
    simp [PitEntry.getInRecord, only, fromEgress]
  rw [sendData_of_token found tagged]
  refine ⟨?_, rfl, rfl⟩
  simp [PitEntry.deleteInRecord, only, fromEgress]

/-- A forwarder with an empty Dead Nonce List, which caches no unsolicited Data. -/
def idleForwarder : Forwarder :=
  ⟨0, DeadNonceList.initial, 6000, fun _ _ => 0, fun _ _ => false, [], [], 0, 0, 0⟩

/-- A non-local face 1 that asked for `/a` with a PIT token. -/
def tokenDownstream : InRecord :=
  let face : Face := ⟨1, .nonLocal, .pointToPoint⟩
  ⟨face, 7, 0, 4000, ⟨⟨[⟨8, [97]⟩], false, false⟩, 7, 4000, none, some [1, 2], none⟩⟩

/-- The last downstream of an entry, with a PIT token: after `sendData` the entry has no
in-record left and is neither satisfied nor timed to expire. -/
theorem sendData_closing_down_differs_tokenDownstream :
    (Strategy.sendData ⟨[⟨8, [97]⟩], 1000, none⟩ tokenDownstream.face
        ⟨tokenDownstream.interest, [tokenDownstream], [], false, 0, none⟩ idleForwarder).2.1.inRecords = [] ∧
      (Strategy.sendData ⟨[⟨8, [97]⟩], 1000, none⟩ tokenDownstream.face
        ⟨tokenDownstream.interest, [tokenDownstream], [], false, 0, none⟩ idleForwarder).2.1.isSatisfied = false ∧
      (Strategy.sendData ⟨[⟨8, [97]⟩], 1000, none⟩ tokenDownstream.face
        ⟨tokenDownstream.interest, [tokenDownstream], [], false, 0, none⟩ idleForwarder).2.1.expiryTimer = none :=
  sendData_closing_down_differs.2 _ _ _ _ tokenDownstream [1, 2] rfl rfl rfl

end Nfd.Fw.Strategy
