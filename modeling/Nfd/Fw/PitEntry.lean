import Mathlib.Data.List.Basic
import Nfd.Name
import Nfd.Table.Pit
import Nfd.Table.DeadNonceList

/-!
# Faces, packets and the records of a PIT entry

What the forwarding pipelines read of a face (its id, scope and link type), of an Interest
and a Data, and of a `pit::Entry`: its in-records and out-records, `isSatisfied`,
`dataFreshnessPeriod` and the delay its expiry timer was last set to.  A record belongs to
a face; records are found by the face (`&record.getFace() == &face`), which the model
compares by face id.  Time is `time::steady_clock::now()` in milliseconds.
-/

set_option autoImplicit false

namespace Nfd.Fw

abbrev FaceId := Nat

/-- `face::INVALID_FACEID`. -/
def invalidFaceId : FaceId := 0

inductive FaceScope where
  | nonLocal
  | local
deriving DecidableEq, Repr

inductive LinkType where
  | pointToPoint
  | multiAccess
  | adHoc
deriving DecidableEq, Repr

structure Face where
  id : FaceId
  scope : FaceScope
  linkType : LinkType
deriving DecidableEq, Repr

abbrev EndpointId := Nat

structure FaceEndpoint where
  face : Face
  endpoint : EndpointId
deriving DecidableEq, Repr

abbrev Nonce := UInt32

/-- An Interest: the fields `canMatch` compares, its Nonce, InterestLifetime (ms) and
HopLimit, and the `lp::PitToken` and `lp::NextHopFaceIdTag` tags it carries. -/
structure Interest extends Pit.Interest where
  nonce : Nonce
  interestLifetime : Nat
  hopLimit : Option Nat
  pitToken : Option (List UInt8)
  nextHopFaceId : Option FaceId
deriving DecidableEq, Repr

/-- A Data: its name, FreshnessPeriod (ms) and the `lp::PitToken` tag it carries. -/
structure Data where
  name : Name
  freshnessPeriod : Nat
  pitToken : Option (List UInt8)
deriving DecidableEq, Repr

/-- `scope_prefix::LOCALHOST`, `ndn:/localhost`. -/
def localhost : Name := [⟨8, [108, 111, 99, 97, 108, 104, 111, 115, 116]⟩]

/-- `scope_prefix::LOCALHOP`, `ndn:/localhop`. -/
def localhop : Name := [⟨8, [108, 111, 99, 97, 108, 104, 111, 112]⟩]

/-- `pit::InRecord`. -/
structure InRecord where
  face : Face
  lastNonce : Nonce
  lastRenewed : Nat
  expiry : Nat
  interest : Interest
deriving DecidableEq, Repr

/-- `pit::OutRecord`. -/
structure OutRecord where
  face : Face
  lastNonce : Nonce
  lastRenewed : Nat
  expiry : Nat
deriving DecidableEq, Repr

/-- The `MAX_LIFETIME` of a face record, 10 days in milliseconds. -/
def maxLifetime : Nat := 10 * 24 * 60 * 60 * 1000

/-- `pit::Entry`, the part the pipelines read and write; `Pit.Entry` is its attachment to the
name tree.  `expiryTimer` is the delay the timer was last set to, `none` before it was set. -/
structure PitEntry where
  interest : Interest
  inRecords : List InRecord
  outRecords : List OutRecord
  isSatisfied : Bool
  dataFreshnessPeriod : Nat
  expiryTimer : Option Nat
deriving DecidableEq, Repr

/-- `FaceRecord::update` and `InRecord::update`. -/
def InRecord.update (interest : Interest) (now : Nat) (r : InRecord) : InRecord :=
  { r with lastNonce := interest.nonce, lastRenewed := now,
           expiry := now + min interest.interestLifetime maxLifetime, interest := interest }

/-- `FaceRecord::update`. -/
def OutRecord.update (interest : Interest) (now : Nat) (r : OutRecord) : OutRecord :=
  { r with lastNonce := interest.nonce, lastRenewed := now,
           expiry := now + min interest.interestLifetime maxLifetime }

namespace PitEntry

/-- The constructor `pit::Entry(interest)`. -/
def ofInterest (interest : Interest) : PitEntry := ⟨interest, [], [], false, 0, none⟩

def getInRecord (face : Face) (entry : PitEntry) : Option InRecord :=
  entry.inRecords.find? (·.face.id == face.id)

def getOutRecord (face : Face) (entry : PitEntry) : Option OutRecord :=
  entry.outRecords.find? (·.face.id == face.id)

def hasInRecords (entry : PitEntry) : Bool := !entry.inRecords.isEmpty

/-- `insertOrUpdateInRecord`: a new record goes to the front. -/
def insertOrUpdateInRecord (face : Face) (interest : Interest) (now : Nat) (entry : PitEntry) : PitEntry :=
  if entry.inRecords.any (·.face.id == face.id) then
    { entry with inRecords := entry.inRecords.map fun r =>
        if r.face.id == face.id then InRecord.update interest now r else r }
  else
    { entry with inRecords := InRecord.update interest now ⟨face, 0, 0, 0, interest⟩ :: entry.inRecords }

def insertOrUpdateOutRecord (face : Face) (interest : Interest) (now : Nat) (entry : PitEntry) : PitEntry :=
  if entry.outRecords.any (·.face.id == face.id) then
    { entry with outRecords := entry.outRecords.map fun r =>
        if r.face.id == face.id then OutRecord.update interest now r else r }
  else
    { entry with outRecords := OutRecord.update interest now ⟨face, 0, 0, 0⟩ :: entry.outRecords }

/-- `deleteInRecord`: erases the first record of the face. -/
def deleteInRecord (face : Face) (entry : PitEntry) : PitEntry :=
  { entry with inRecords := entry.inRecords.eraseP (·.face.id == face.id) }

def deleteOutRecord (face : Face) (entry : PitEntry) : PitEntry :=
  { entry with outRecords := entry.outRecords.eraseP (·.face.id == face.id) }

def clearInRecords (entry : PitEntry) : PitEntry := { entry with inRecords := [] }

end PitEntry

/-! ## Records are unique per face -/

/-- In a list whose keys are distinct, erasing the first element with a key erases every
element with it. -/
theorem eraseP_key_eq_filter {α : Type} (key : α → FaceId) {l : List α} (unique : (l.map key).Nodup) (k : FaceId) :
    l.eraseP (key · == k) = l.filter (key · != k) := by
  induction l with
  | nil => rfl
  | cons a rest ih =>
    simp only [List.map_cons, List.nodup_cons, List.mem_map] at unique
    by_cases found : key a = k
    · -- the rest has no element with key `k`
      have others : ∀ b ∈ rest, (key b != k) = true := fun b mem =>
        bne_iff_ne.mpr fun same => unique.1 ⟨b, mem, same.trans found.symm⟩
      rw [List.eraseP_cons_of_pos (by simpa using found), List.filter_cons_of_neg (by simpa using found),
        List.filter_eq_self.mpr others]
    · rw [List.eraseP_cons_of_neg (by simpa using found), List.filter_cons_of_pos (by simpa using found),
        ih unique.2]

/-- No face has two in-records or two out-records: `insertOrUpdate…Record` keeps it so. -/
structure PitEntry.RecordsUnique (entry : PitEntry) : Prop where
  inRecords : (entry.inRecords.map (·.face.id)).Nodup
  outRecords : (entry.outRecords.map (·.face.id)).Nodup

namespace PitEntry

theorem inRecords_deleteInRecord {entry : PitEntry} (unique : entry.RecordsUnique) (face : Face) :
    (entry.deleteInRecord face).inRecords = entry.inRecords.filter (·.face.id != face.id) :=
  eraseP_key_eq_filter (fun r : InRecord => r.face.id) unique.inRecords face.id

theorem outRecords_deleteOutRecord {entry : PitEntry} (unique : entry.RecordsUnique) (face : Face) :
    (entry.deleteOutRecord face).outRecords = entry.outRecords.filter (·.face.id != face.id) :=
  eraseP_key_eq_filter (fun r : OutRecord => r.face.id) unique.outRecords face.id

theorem deleteInRecord_eq {entry : PitEntry} (unique : entry.RecordsUnique) (face : Face) :
    entry.deleteInRecord face = { entry with inRecords := entry.inRecords.filter (·.face.id != face.id) } := by
  rw [← inRecords_deleteInRecord unique]
  rfl

theorem RecordsUnique.deleteInRecord {entry : PitEntry} (unique : entry.RecordsUnique) (face : Face) :
    (entry.deleteInRecord face).RecordsUnique :=
  ⟨by rw [inRecords_deleteInRecord unique]; exact unique.inRecords.sublist (List.filter_sublist.map _),
    unique.outRecords⟩

end PitEntry

end Nfd.Fw
