import Mathlib.Data.List.Basic
import Nfd.Lib.BitFlags
import Nfd.Fw.Forwarder

/-!
# Interest loop detection

`fw::findDuplicateNonce` and the part of `Forwarder::onIncomingInterest` that decides where an
Interest goes: dropped for HopLimit zero or for `/localhost` scope, to `onInterestLoop` when its
Nonce is in the Dead Nonce List or on a record of the PIT entry it is inserted into, and
otherwise to the Content Store lookup (when the entry is not pending) or to
`onContentStoreMiss`.  The entry `m_pit.insert` returns is an input.  On a point-to-point face
a Nonce on the face's own in-record is not a loop, whatever other record has it too.

`onInterestFinalize` puts the Nonces of all out-records into the Dead Nonce List; the list's
operations until a later Interest are an arbitrary run of `add`, `mark` and `adjustCapacity`.
-/

set_option autoImplicit false

namespace Nfd.Fw

def duplicateNonceNone : Nat := 0
def duplicateNonceInSame : Nat := 1 <<< 0
def duplicateNonceInOther : Nat := 1 <<< 1
def duplicateNonceOutSame : Nat := 1 <<< 2
def duplicateNonceOutOther : Nat := 1 <<< 3

/-- `fw::findDuplicateNonce`: where the Nonce is found among the records of the entry. -/
def findDuplicateNonce (pitEntry : PitEntry) (nonce : Nonce) (face : Face) : Nat :=
  let dnw := pitEntry.inRecords.foldl (fun dnw inRecord =>
    if inRecord.lastNonce = nonce then
      if inRecord.face.id = face.id then dnw ||| duplicateNonceInSame else dnw ||| duplicateNonceInOther
    else dnw) duplicateNonceNone
  pitEntry.outRecords.foldl (fun dnw outRecord =>
    if outRecord.lastNonce = nonce then
      if outRecord.face.id = face.id then dnw ||| duplicateNonceOutSame else dnw ||| duplicateNonceOutOther
    else dnw) dnw

/-- Where `onIncomingInterest` passes an Interest on. -/
inductive InterestPath where
  | hopLimitZero
  | violatesLocalhost
  | loopInDeadNonceList
  | loopInPit
  /-- `Cs::find`, then `onContentStoreHit` or `onContentStoreMiss` -/
  | contentStoreFind
  | contentStoreMiss
deriving DecidableEq, Repr

/-! ## Where the Nonce is found -/

theorem testBit_findDuplicateNonce (pitEntry : PitEntry) (nonce : Nonce) (face : Face) (i : Nat) :
    (findDuplicateNonce pitEntry nonce face).testBit i =
      ((pitEntry.inRecords.any fun r =>
          if r.lastNonce = nonce then (if r.face.id = face.id then decide (0 = i) else decide (1 = i)) else false) ||
        pitEntry.outRecords.any fun r =>
          if r.lastNonce = nonce then (if r.face.id = face.id then decide (2 = i) else decide (3 = i)) else false) := by
  unfold findDuplicateNonce
  simp only [BitFlags.ite_ite_or_eq]
  rw [BitFlags.testBit_foldl_or, BitFlags.testBit_foldl_or]
  simp only [duplicateNonceNone, Nat.zero_testBit, Bool.false_or, apply_ite (Nat.testBit · i),
    BitFlags.testBit_shiftLeft_one, duplicateNonceInSame, duplicateNonceInOther, duplicateNonceOutSame,
    duplicateNonceOutOther]

theorem findDuplicateNonce_eq_none_iff (pitEntry : PitEntry) (nonce : Nonce) (face : Face) :
    findDuplicateNonce pitEntry nonce face = duplicateNonceNone ↔
      (¬∃ r ∈ pitEntry.inRecords, r.lastNonce = nonce) ∧ ¬∃ r ∈ pitEntry.outRecords, r.lastNonce = nonce := by
  rw [duplicateNonceNone, BitFlags.eq_zero_iff_testBit]
  simp only [testBit_findDuplicateNonce, Bool.or_eq_false_iff, List.any_eq_false]
  constructor
  · intro clear
    constructor
    · rintro ⟨r, mem, found⟩
      by_cases same : r.face.id = face.id
      · simpa [found, same] using (clear 0).1 r mem
      · simpa [found, same] using (clear 1).1 r mem
    · rintro ⟨r, mem, found⟩
      by_cases same : r.face.id = face.id
      · simpa [found, same] using (clear 2).2 r mem
      · simpa [found, same] using (clear 3).2 r mem
  · rintro ⟨noIn, noOut⟩ i
    constructor
    · intro r mem
      have other : r.lastNonce ≠ nonce := fun found => noIn ⟨r, mem, found⟩
      simp [other]
    · intro r mem
      have other : r.lastNonce ≠ nonce := fun found => noOut ⟨r, mem, found⟩
      simp [other]

theorem findDuplicateNonce_inSame_iff (pitEntry : PitEntry) (nonce : Nonce) (face : Face) :
    findDuplicateNonce pitEntry nonce face &&& duplicateNonceInSame = 0 ↔
      ¬∃ r ∈ pitEntry.inRecords, r.lastNonce = nonce ∧ r.face.id = face.id := by
  rw [duplicateNonceInSame, BitFlags.and_shiftLeft_one_eq_zero_iff, testBit_findDuplicateNonce]
  simp

/-- The PIT check of `onIncomingInterest`: a duplicate Nonce, unless the face is point-to-point
and its own in-record has it. -/
def hasDuplicateNonceInPit (pitEntry : PitEntry) (nonce : Nonce) (face : Face) : Bool :=
  let dnw := findDuplicateNonce pitEntry nonce face
  let hasDuplicateNonceInPit := dnw != duplicateNonceNone
  -- for a point-to-point face, a duplicate Nonce from the same incoming face is not a loop
  if face.linkType = .pointToPoint then hasDuplicateNonceInPit && dnw &&& duplicateNonceInSame == 0
  else hasDuplicateNonceInPit

theorem hasDuplicateNonceInPit_iff (pitEntry : PitEntry) (nonce : Nonce) (face : Face) :
    hasDuplicateNonceInPit pitEntry nonce face = true ↔
      ((∃ r ∈ pitEntry.inRecords, r.lastNonce = nonce) ∨ ∃ r ∈ pitEntry.outRecords, r.lastNonce = nonce) ∧
        (face.linkType = .pointToPoint → ¬∃ r ∈ pitEntry.inRecords, r.lastNonce = nonce ∧ r.face.id = face.id) := by
  have found : (findDuplicateNonce pitEntry nonce face != duplicateNonceNone) = true ↔
      (∃ r ∈ pitEntry.inRecords, r.lastNonce = nonce) ∨ ∃ r ∈ pitEntry.outRecords, r.lastNonce = nonce := by
    rw [bne_iff_ne, Ne, findDuplicateNonce_eq_none_iff, not_and_or, not_not, not_not]
  unfold hasDuplicateNonceInPit
  by_cases pointToPoint : face.linkType = .pointToPoint
  · rw [if_pos pointToPoint, Bool.and_eq_true, found, beq_iff_eq, findDuplicateNonce_inSame_iff]
    simp only [pointToPoint, forall_const]
  · rw [if_neg pointToPoint, found]
    simp only [pointToPoint, false_implies, and_true]

namespace Forwarder

/-- `onIncomingInterest` up to where it passes the Interest on, for the PIT entry `pitEntry`
that `m_pit.insert` returns; the Interest comes back with its HopLimit decremented. -/
def onIncomingInterest (interest : Interest) (ingress : FaceEndpoint) (pitEntry : PitEntry) (fw : Forwarder) :
    InterestPath × Interest :=
  match interest.hopLimit with
  | some 0 => (.hopLimitZero, interest)
  | hopLimit =>
    let interest := { interest with hopLimit := hopLimit.map (· - 1) }
    if ingress.face.scope = .nonLocal ∧ localhost <+: interest.name then (.violatesLocalhost, interest)
    else if fw.deadNonceList.has (fw.makeEntry interest.name interest.nonce) then (.loopInDeadNonceList, interest)
    else if hasDuplicateNonceInPit pitEntry interest.nonce ingress.face then (.loopInPit, interest)
    else if !pitEntry.hasInRecords then (.contentStoreFind, interest)
    else (.contentStoreMiss, interest)

/-- `onInterestFinalize`, as far as the Dead Nonce List goes. -/
def onInterestFinalize (pitEntry : PitEntry) (fw : Forwarder) : Forwarder :=
  insertDeadNonceList pitEntry none fw

theorem onIncomingInterest_loop_iff {interest : Interest} {ingress : FaceEndpoint} {pitEntry : PitEntry}
    {fw : Forwarder} (hopLimit : interest.hopLimit ≠ some 0)
    (inScope : ¬(ingress.face.scope = .nonLocal ∧ localhost <+: interest.name)) :
    ((onIncomingInterest interest ingress pitEntry fw).1 = .loopInDeadNonceList ∨
        (onIncomingInterest interest ingress pitEntry fw).1 = .loopInPit) ↔
      fw.deadNonceList.has (fw.makeEntry interest.name interest.nonce) = true ∨
        ((∃ r ∈ pitEntry.inRecords, r.lastNonce = interest.nonce) ∨
            ∃ r ∈ pitEntry.outRecords, r.lastNonce = interest.nonce) ∧
          (ingress.face.linkType = .pointToPoint →
            ¬∃ r ∈ pitEntry.inRecords, r.lastNonce = interest.nonce ∧ r.face.id = ingress.face.id) := by
  rw [← hasDuplicateNonceInPit_iff]
  unfold onIncomingInterest
  split
  · contradiction
  · dsimp only
    rw [if_neg inScope]
    split
    · next found => simp [found]
    · next notFound =>
      split
      · next duplicate =>
        simp only [notFound, duplicate]
        simp
      · next notDuplicate =>
        simp only [notFound, notDuplicate]
        split <;> simp

theorem onIncomingInterest_of_dead {interest : Interest} {ingress : FaceEndpoint} {pitEntry : PitEntry}
    {fw : Forwarder} (hopLimit : interest.hopLimit ≠ some 0)
    (inScope : ¬(ingress.face.scope = .nonLocal ∧ localhost <+: interest.name))
    (dead : fw.deadNonceList.has (fw.makeEntry interest.name interest.nonce) = true) :
    (onIncomingInterest interest ingress pitEntry fw).1 = .loopInDeadNonceList := by
  unfold onIncomingInterest
  split
  · contradiction
  · dsimp only
    rw [if_neg inScope, if_pos dead]

/-! ## The Nonces of a finalized entry -/

theorem deadNonceList_onInterestFinalize (pitEntry : PitEntry) (fw : Forwarder)
    (needDnl : pitEntry.isSatisfied = true →
      pitEntry.interest.mustBeFresh = true ∧ pitEntry.dataFreshnessPeriod < fw.deadNonceListLifetime) :
    (onInterestFinalize pitEntry fw).deadNonceList =
      fw.deadNonceList.run ((pitEntry.outRecords.map fun r => fw.makeEntry pitEntry.interest.name r.lastNonce).map
        DeadNonceList.Op.add) := by
  have need : (if pitEntry.isSatisfied then
      pitEntry.interest.mustBeFresh && decide (pitEntry.dataFreshnessPeriod < fw.deadNonceListLifetime)
      else true) = true := by
    split
    · next satisfied => simp [needDnl satisfied]
    · rfl
  unfold onInterestFinalize insertDeadNonceList
  simp only [need, Bool.not_true, Bool.false_eq_true, if_false]
  rw [DeadNonceList.run, List.foldl_map, List.foldl_map]
  rfl

/-- Every out-record's Nonce is in the Dead Nonce List after finalization, and stays there
while the out-records and the appends since stay within every capacity on the way. -/
theorem finalized_nonce_retained {pitEntry : PitEntry} {fw : Forwarder} {ops : List DeadNonceList.Op}
    {r : OutRecord} (needDnl : pitEntry.isSatisfied = true →
      pitEntry.interest.mustBeFresh = true ∧ pitEntry.dataFreshnessPeriod < fw.deadNonceListLifetime)
    (mem : r ∈ pitEntry.outRecords)
    (room : ∀ c ∈ DeadNonceList.capacities (onInterestFinalize pitEntry fw).deadNonceList ops,
      pitEntry.outRecords.length + ops.countP DeadNonceList.Op.appends ≤ c) :
    ((onInterestFinalize pitEntry fw).deadNonceList.run ops).has
      (fw.makeEntry pitEntry.interest.name r.lastNonce) = true := by
  obtain ⟨front, behind, split⟩ := List.append_of_mem mem
  have adds : pitEntry.outRecords.map (fun r => fw.makeEntry pitEntry.interest.name r.lastNonce) =
      front.map (fun r => fw.makeEntry pitEntry.interest.name r.lastNonce) ++
        fw.makeEntry pitEntry.interest.name r.lastNonce ::
          behind.map (fun r => fw.makeEntry pitEntry.interest.name r.lastNonce) := by
    rw [split, List.map_append, List.map_cons]
  rw [deadNonceList_onInterestFinalize pitEntry fw needDnl, adds] at room ⊢
  apply DeadNonceList.has_after_adds
  intro c within
  have bound := room c within
  have length : pitEntry.outRecords.length = front.length + 1 + behind.length := by
    rw [split, List.length_append, List.length_cons]
    omega
  rw [List.length_map]
  omega

theorem interest_loop_detection :
    (∀ (interest : Interest) (ingress : FaceEndpoint) (pitEntry : PitEntry) (fw : Forwarder),
      interest.hopLimit ≠ some 0 → ¬(ingress.face.scope = .nonLocal ∧ localhost <+: interest.name) →
      (((onIncomingInterest interest ingress pitEntry fw).1 = .loopInDeadNonceList ∨
          (onIncomingInterest interest ingress pitEntry fw).1 = .loopInPit) ↔
        fw.deadNonceList.has (fw.makeEntry interest.name interest.nonce) = true ∨
          ((∃ r ∈ pitEntry.inRecords, r.lastNonce = interest.nonce) ∨
              ∃ r ∈ pitEntry.outRecords, r.lastNonce = interest.nonce) ∧
            (ingress.face.linkType = .pointToPoint →
              ¬∃ r ∈ pitEntry.inRecords, r.lastNonce = interest.nonce ∧ r.face.id = ingress.face.id))) ∧
    ∀ (finalized : PitEntry) (fw later : Forwarder) (ops : List DeadNonceList.Op) (r : OutRecord)
      (interest : Interest) (ingress : FaceEndpoint) (pitEntry : PitEntry),
      (finalized.isSatisfied = true →
        finalized.interest.mustBeFresh = true ∧ finalized.dataFreshnessPeriod < fw.deadNonceListLifetime) →
      r ∈ finalized.outRecords →
      (∀ c ∈ DeadNonceList.capacities (onInterestFinalize finalized fw).deadNonceList ops,
        finalized.outRecords.length + ops.countP DeadNonceList.Op.appends ≤ c) →
      later.deadNonceList = (onInterestFinalize finalized fw).deadNonceList.run ops →
      later.makeEntry = fw.makeEntry →
      interest.name = finalized.interest.name → interest.nonce = r.lastNonce →
      interest.hopLimit ≠ some 0 → ¬(ingress.face.scope = .nonLocal ∧ localhost <+: interest.name) →
      (onIncomingInterest interest ingress pitEntry later).1 = .loopInDeadNonceList := by
  refine ⟨fun interest ingress pitEntry fw hopLimit inScope => onIncomingInterest_loop_iff hopLimit inScope, ?_⟩
  intro finalized fw later ops r interest ingress pitEntry needDnl mem room since sameHash sameName sameNonce
    hopLimit inScope
  apply onIncomingInterest_of_dead hopLimit inScope
  rw [since, sameHash, sameName, sameNonce]
  exact finalized_nonce_retained needDnl mem room

/-! ## A retransmission on a point-to-point face

The face asked for `/a` with Nonce 7 and the Interest went upstream with it.  The same Nonce
from the same point-to-point face is on the face's own in-record and on the out-record of
another face; it is not a loop, and the Interest goes on to `onContentStoreMiss`. -/

def pointToPointFace : Face := ⟨1, .nonLocal, .pointToPoint⟩

def upstreamFace : Face := ⟨2, .nonLocal, .pointToPoint⟩

def interestA : Interest := ⟨⟨[⟨8, [97]⟩], false, false⟩, 7, 4000, none, none, none⟩

def forwardedEntry : PitEntry :=
  ⟨interestA, [⟨pointToPointFace, 7, 0, 4000, interestA⟩], [⟨upstreamFace, 7, 0, 4000⟩], false, 0, none⟩

/-- A forwarder whose Dead Nonce List entries never collide with the MARKs. -/
def hashingForwarder : Forwarder :=
  ⟨0, DeadNonceList.initial, 6000, fun _ nonce => nonce.toUInt64 + 1, fun _ _ => false, [], [], 0, 0, 0⟩

theorem retransmission_reaches_contentStore :
    findDuplicateNonce forwardedEntry 7 pointToPointFace = duplicateNonceInSame ||| duplicateNonceOutOther ∧
      (onIncomingInterest interestA ⟨pointToPointFace, 0⟩ forwardedEntry hashingForwarder).1 = .contentStoreMiss := by
  decide

/-- The entry is finalized unsatisfied, and the Nonce comes back from upstream. -/
theorem interest_loop_detection_returning_nonce :
    (onIncomingInterest interestA ⟨upstreamFace, 0⟩ forwardedEntry
      (onInterestFinalize forwardedEntry hashingForwarder)).1 = .loopInDeadNonceList :=
  interest_loop_detection.2 forwardedEntry hashingForwarder (onInterestFinalize forwardedEntry hashingForwarder) []
    ⟨upstreamFace, 7, 0, 4000⟩ interestA ⟨upstreamFace, 0⟩ forwardedEntry (by decide) (by decide) (by decide) rfl rfl
    rfl rfl (by decide) (by decide)

end Forwarder

end Nfd.Fw
