import Mathlib.Data.List.Basic
import Mathlib.Data.List.Nodup
import Nfd.Fw.Forwarder

/-!
# The fan-out of `onIncomingData`

Over the matching PIT entries, in the order `findAllDataMatches` returns them, the loop of
`onIncomingData` gathers the downstreams (the faces of unexpired in-records) into one set and
prunes each entry by the set gathered so far.  So the `k`-th entry loses the in-records of the
faces gathered from entries `0 … k` (`gathered`), not of those a later entry adds, and every
entry is closed down: the default `satisfyInterest` leaves no downstream unsatisfied, so the
second loop does nothing.  The last loop sends the Data once to every gathered face except the
ingress, which it skips only when the Data came from endpoint 0 of a face that is not ad hoc
(`onIncomingData_satisfies`).
-/

set_option autoImplicit false

namespace Nfd.Fw.Forwarder

open Strategy

/-- The downstreams the loop has gathered after `entries`, from `satisfied` on. -/
def gathered (now : Nat) (entries : List PitEntry) (satisfied : List (Face × EndpointId)) : List (Face × EndpointId) :=
  entries.foldl (fun downstreams entry => (satisfyInterest entry downstreams [] now).1) satisfied

/-- A matching entry after its turn: closed down with the Data's freshness period, without
the in-records of the downstreams `gone` and the out-record of the ingress face. -/
def closedDown (data : Data) (ingress : Face) (gone : List (Face × EndpointId)) (entry : PitEntry) : PitEntry :=
  { entry with inRecords := entry.inRecords.filter (fun r => !gone.any (r.face.id == ·.1.id)),
               outRecords := entry.outRecords.filter (·.face.id != ingress.id),
               isSatisfied := true, dataFreshnessPeriod := data.freshnessPeriod, expiryTimer := some 0 }

/-! ## Gathering the downstreams -/

theorem satisfyInterest_unsatisfied (entry : PitEntry) (satisfied unsatisfied : List (Face × EndpointId)) (now : Nat) :
    (satisfyInterest entry satisfied unsatisfied now).2 = unsatisfied := rfl

theorem mem_satisfyInterest {entry : PitEntry} {satisfied : List (Face × EndpointId)} {now : Nat}
    {downstream : Face × EndpointId} :
    downstream ∈ (satisfyInterest entry satisfied [] now).1 ↔
      downstream ∈ satisfied ∨ ∃ r ∈ entry.inRecords, now < r.expiry ∧ downstream = (r.face, 0) := by
  unfold satisfyInterest
  generalize entry.inRecords = records
  induction records generalizing satisfied with
  | nil => simp
  | cons r rest ih =>
    rw [List.foldl_cons, ih]
    by_cases live : now < r.expiry
    · rw [if_pos live, List.mem_insert_iff]
      simp only [List.mem_cons, exists_eq_or_imp, live, true_and]
      tauto
    · rw [if_neg live]
      simp only [List.mem_cons, exists_eq_or_imp, live, false_and, false_or]

theorem nodup_satisfyInterest (entry : PitEntry) {satisfied : List (Face × EndpointId)} (now : Nat)
    (distinct : satisfied.Nodup) : (satisfyInterest entry satisfied [] now).1.Nodup := by
  unfold satisfyInterest
  generalize entry.inRecords = records
  induction records generalizing satisfied with
  | nil => exact distinct
  | cons r rest ih =>
    rw [List.foldl_cons]
    apply ih
    split
    · exact distinct.insert
    · exact distinct

theorem mem_gathered {now : Nat} {entries : List PitEntry} {satisfied : List (Face × EndpointId)}
    {downstream : Face × EndpointId} :
    downstream ∈ gathered now entries satisfied ↔
      downstream ∈ satisfied ∨ ∃ entry ∈ entries, ∃ r ∈ entry.inRecords, now < r.expiry ∧ downstream = (r.face, 0) := by
  induction entries generalizing satisfied with
  | nil => simp [gathered]
  | cons entry rest ih =>
    rw [gathered, List.foldl_cons, ← gathered, ih, mem_satisfyInterest]
    simp only [List.mem_cons, exists_eq_or_imp, or_assoc]

theorem nodup_gathered (now : Nat) (entries : List PitEntry) {satisfied : List (Face × EndpointId)}
    (distinct : satisfied.Nodup) : (gathered now entries satisfied).Nodup := by
  induction entries generalizing satisfied with
  | nil => exact distinct
  | cons entry rest ih => exact ih (nodup_satisfyInterest entry now distinct)

/-! ## One turn of the loop -/

/-- Deleting the in-records of a list of downstreams, one by one, filters them out. -/
theorem foldl_deleteInRecord {entry : PitEntry} (unique : entry.RecordsUnique) (gone : List (Face × EndpointId)) :
    gone.foldl (fun entry downstream => entry.deleteInRecord downstream.1) entry =
      { entry with inRecords := entry.inRecords.filter (fun r => !gone.any (r.face.id == ·.1.id)) } := by
  induction gone generalizing entry with
  | nil => simp
  | cons downstream rest ih =>
    rw [List.foldl_cons, ih (unique.deleteInRecord downstream.1), PitEntry.deleteInRecord_eq unique]
    simp only [List.filter_filter]
    congr 2
    funext r
    simp only [List.any_cons, Bool.not_or, bne]
    exact Bool.and_comm _ _

theorem insertDeadNonceList_eq (entry : PitEntry) (upstream : Option Face) (fw : Forwarder) :
    ∃ dnl, insertDeadNonceList entry upstream fw = { fw with deadNonceList := dnl } := by
  -- every branch writes the Dead Nonce List, or nothing
  unfold insertDeadNonceList
  dsimp only
  repeat' split
  all_goals exact ⟨_, rfl⟩

theorem satisfyEntry_eq (data : Data) (ingress : FaceEndpoint) {entry : PitEntry} (unique : entry.RecordsUnique)
    (satisfied : List (Face × EndpointId)) (fw : Forwarder) :
    satisfyEntry data ingress entry satisfied fw =
      (closedDown data ingress.face (satisfyInterest entry satisfied [] fw.now).1 entry,
        (satisfyInterest entry satisfied [] fw.now).1, [],
        insertDeadNonceList { setExpiryTimer entry 0 with isSatisfied := true } (some ingress.face) fw) := by
  have stillUnique : ({ setExpiryTimer entry 0 with isSatisfied := true, dataFreshnessPeriod := data.freshnessPeriod } :
      PitEntry).RecordsUnique := ⟨unique.inRecords, unique.outRecords⟩
  simp only [satisfyEntry, satisfyInterest_unsatisfied, List.isEmpty_nil, if_true]
  rw [foldl_deleteInRecord stillUnique]
  simp only [PitEntry.deleteOutRecord, closedDown, setExpiryTimer]
  rw [eraseP_key_eq_filter (fun r : OutRecord => r.face.id) unique.outRecords]

/-- The loop over the matching entries: the `k`-th entry is closed down by the downstreams
gathered from entries `0 … k`; no downstream is left unsatisfied; the forwarder changes only
in its Dead Nonce List. -/
theorem satisfyEntries_eq (data : Data) (ingress : FaceEndpoint) {entries : List PitEntry}
    (unique : ∀ entry ∈ entries, entry.RecordsUnique) (satisfied : List (Face × EndpointId)) (fw : Forwarder) :
    (satisfyEntries data ingress entries satisfied fw).1 =
        entries.mapIdx (fun k entry => closedDown data ingress.face (gathered fw.now (entries.take (k + 1)) satisfied) entry) ∧
      (satisfyEntries data ingress entries satisfied fw).2.1 = gathered fw.now entries satisfied ∧
      (satisfyEntries data ingress entries satisfied fw).2.2.1 = entries.map (fun _ => []) ∧
      ∃ dnl, (satisfyEntries data ingress entries satisfied fw).2.2.2 = { fw with deadNonceList := dnl } := by
  induction entries generalizing satisfied fw with
  | nil => exact ⟨rfl, rfl, rfl, fw.deadNonceList, rfl⟩
  | cons entry rest ih =>
    obtain ⟨dnl, turnForwarder⟩ := insertDeadNonceList_eq { setExpiryTimer entry 0 with isSatisfied := true }
      (some ingress.face) fw
    have turn := satisfyEntry_eq data ingress (unique entry List.mem_cons_self) satisfied fw
    rw [turnForwarder] at turn
    obtain ⟨entriesLater, satisfiedLater, unsatisfiedLater, dnlLater, forwarderLater⟩ :=
      ih (fun e mem => unique e (List.mem_cons_of_mem entry mem)) (satisfyInterest entry satisfied [] fw.now).1
        { fw with deadNonceList := dnl }
    refine ⟨?_, ?_, ?_, dnlLater, ?_⟩
    · simp only [satisfyEntries, turn, entriesLater, List.mapIdx_cons, List.take_succ_cons, gathered,
        List.foldl_cons, List.take_zero, List.foldl_nil]
    · simp only [satisfyEntries, turn, satisfiedLater, gathered, List.foldl_cons]
    · simp only [satisfyEntries, turn, unsatisfiedLater, List.map_cons]
    · simp only [satisfyEntries, turn, forwarderLater]

theorem zipWith_reconcileEntry (satisfied : List (Face × EndpointId)) :
    ∀ (entries others : List PitEntry), entries.length = others.length →
      List.zipWith (reconcileEntry satisfied) entries (others.map fun _ => []) = entries
  | [], [], _ => rfl
  | entry :: rest, _ :: others, same => by
    simp only [List.map_cons, List.zipWith_cons_cons, reconcileEntry, List.foldl_nil]
    rw [zipWith_reconcileEntry satisfied rest others (by simpa using same)]

/-- The last loop sends to the downstreams it does not skip, in order. -/
theorem sendToDownstreams_eq (data : Data) (ingress : FaceEndpoint) (satisfied : List (Face × EndpointId))
    (fw : Forwarder) :
    sendToDownstreams data ingress satisfied fw =
      ((satisfied.filter fun downstream =>
          !decide (downstream.1.id = ingress.face.id ∧ downstream.2 = ingress.endpoint ∧
            downstream.1.linkType ≠ .adHoc)).map Prod.fst).foldl
        (fun fw face => (onOutgoingData data face fw).2) fw := by
  rw [List.foldl_map, List.foldl_filter, sendToDownstreams]
  congr 1
  funext fw downstream
  by_cases skipped : downstream.1.id = ingress.face.id ∧ downstream.2 = ingress.endpoint ∧ downstream.1.linkType ≠ .adHoc
  · simp [skipped]
  · simp [skipped]

/-! ## The entries after their turn -/

theorem mem_inRecords_closedDown {data : Data} {ingress : Face} {gone : List (Face × EndpointId)}
    {entry : PitEntry} {r : InRecord} :
    r ∈ (closedDown data ingress gone entry).inRecords ↔ r ∈ entry.inRecords ∧ ¬∃ d ∈ gone, r.face.id = d.1.id := by
  simp [closedDown]

theorem getOutRecord_closedDown (data : Data) (ingress : Face) (gone : List (Face × EndpointId)) (entry : PitEntry) :
    (closedDown data ingress gone entry).getOutRecord ingress = none := by
  rw [PitEntry.getOutRecord, List.find?_eq_none]
  intro r mem
  simpa using (List.mem_filter.mp mem).2

theorem endpoint_gathered {now : Nat} {entries : List PitEntry} {downstream : Face × EndpointId}
    (mem : downstream ∈ gathered now entries []) : downstream.2 = 0 := by
  obtain ⟨_, _, r, _, _, rfl⟩ := (mem_gathered.mp mem).resolve_left List.not_mem_nil
  rfl

/-- An in-record is pruned by the gathered downstreams iff its face has an unexpired in-record
in one of the entries seen so far. -/
theorem gathered_face_id {now : Nat} {entries : List PitEntry} {r : InRecord} :
    (∃ d ∈ gathered now entries [], r.face.id = d.1.id) ↔
      ∃ entry ∈ entries, ∃ r' ∈ entry.inRecords, now < r'.expiry ∧ r'.face.id = r.face.id := by
  constructor
  · rintro ⟨d, mem, same⟩
    obtain ⟨entry, entryMem, r', r'Mem, live, rfl⟩ := (mem_gathered.mp mem).resolve_left List.not_mem_nil
    exact ⟨entry, entryMem, r', r'Mem, live, same.symm⟩
  · rintro ⟨entry, entryMem, r', r'Mem, live, same⟩
    exact ⟨(r'.face, 0), mem_gathered.mpr (Or.inr ⟨entry, entryMem, r', r'Mem, live, rfl⟩), same.symm⟩

/-! ## The faces sent the Data -/

theorem mem_targets {now : Nat} {ingress : FaceEndpoint} {pitMatches : List PitEntry} {face : Face} :
    face ∈ ((gathered now pitMatches []).filter fun downstream =>
        !decide (downstream.1.id = ingress.face.id ∧ downstream.2 = ingress.endpoint ∧
          downstream.1.linkType ≠ .adHoc)).map Prod.fst ↔
      (∃ entry ∈ pitMatches, ∃ r ∈ entry.inRecords, now < r.expiry ∧ r.face = face) ∧
        ¬(face.id = ingress.face.id ∧ ingress.endpoint = 0 ∧ face.linkType ≠ .adHoc) := by
  -- a gathered downstream is `(face, 0)`, so the skip compares the ingress endpoint with 0
  have kept : ∀ face : Face,
      (!decide (face.id = ingress.face.id ∧ 0 = ingress.endpoint ∧ face.linkType ≠ .adHoc)) = true ↔
        ¬(face.id = ingress.face.id ∧ ingress.endpoint = 0 ∧ face.linkType ≠ .adHoc) := by
    intro face
    rw [Bool.not_eq_true', decide_eq_false_iff_not, @eq_comm _ 0]
  simp only [List.mem_map, List.mem_filter, mem_gathered, List.not_mem_nil, false_or]
  constructor
  · rintro ⟨d, ⟨⟨entry, entryMem, r, rMem, live, rfl⟩, notSkipped⟩, rfl⟩
    exact ⟨⟨entry, entryMem, r, rMem, live, rfl⟩, (kept r.face).mp notSkipped⟩
  · rintro ⟨⟨entry, entryMem, r, rMem, live, rfl⟩, notSkipped⟩
    exact ⟨(r.face, 0), ⟨⟨entry, entryMem, r, rMem, live, rfl⟩, (kept r.face).mpr notSkipped⟩, rfl⟩

/-- Every gathered downstream has endpoint 0, so no face is gathered twice. -/
theorem nodup_targets (now : Nat) (ingress : FaceEndpoint) (pitMatches : List PitEntry) :
    (((gathered now pitMatches []).filter fun downstream =>
        !decide (downstream.1.id = ingress.face.id ∧ downstream.2 = ingress.endpoint ∧
          downstream.1.linkType ≠ .adHoc)).map Prod.fst).Nodup := by
  apply List.Nodup.map_on
  · intro d dMem d' d'Mem sameFace
    have sameEndpoint : d.2 = d'.2 := by
      rw [endpoint_gathered (List.mem_of_mem_filter dMem), endpoint_gathered (List.mem_of_mem_filter d'Mem)]
    exact Prod.ext sameFace sameEndpoint
  · exact (nodup_gathered now pitMatches List.nodup_nil).filter _

/-! ## The whole pipeline -/

theorem onIncomingData_eq {data : Data} {ingress : FaceEndpoint} {pitMatches : List PitEntry} (fw : Forwarder)
    (inScope : ¬(ingress.face.scope = .nonLocal ∧ localhost <+: data.name)) (matched : pitMatches ≠ [])
    (unique : ∀ entry ∈ pitMatches, entry.RecordsUnique) :
    ∃ dnl, onIncomingData data ingress pitMatches fw =
      (pitMatches.mapIdx (fun k entry =>
          closedDown data ingress.face (gathered fw.now (pitMatches.take (k + 1)) []) entry),
        sendToDownstreams data ingress (gathered fw.now pitMatches [])
          { fw with nInData := fw.nInData + 1, csInserted := fw.csInserted ++ [(data, false)], deadNonceList := dnl }) := by
  obtain ⟨entriesEq, satisfiedEq, unsatisfiedEq, dnl, forwarderEq⟩ := satisfyEntries_eq data ingress unique []
    { fw with nInData := fw.nInData + 1, csInserted := fw.csInserted ++ [(data, false)] }
  refine ⟨dnl, ?_⟩
  have notEmpty : pitMatches.isEmpty = false := List.isEmpty_eq_false_iff.mpr matched
  simp only [onIncomingData, if_neg inScope, notEmpty, Bool.false_eq_true, if_false, entriesEq, satisfiedEq,
    unsatisfiedEq, forwarderEq]
  rw [zipWith_reconcileEntry _ _ _ (by simp)]

/-- What `onIncomingData` does with a Data matching `pitMatches`: it inserts the Data into the
CS once, and sends it once to each face with an unexpired in-record in a matching entry but the
ingress, which it skips only when the Data came from its endpoint 0 and it is not ad hoc; the
`k`-th entry is satisfied, timed to expire at once, without an out-record of the ingress and
without the in-records of the faces with an unexpired in-record in entries `0 … k`. -/
structure FannedOut (data : Data) (ingress : FaceEndpoint) (pitMatches : List PitEntry) (fw : Forwarder)
    (result : List PitEntry × Forwarder) : Prop where
  sent : ∃ targets : List Face, ∃ dnl : DeadNonceList, targets.Nodup ∧
    (∀ face, face ∈ targets ↔
      (∃ entry ∈ pitMatches, ∃ r ∈ entry.inRecords, fw.now < r.expiry ∧ r.face = face) ∧
        ¬(face.id = ingress.face.id ∧ ingress.endpoint = 0 ∧ face.linkType ≠ .adHoc)) ∧
    result.2 = targets.foldl (fun fw face => (onOutgoingData data face fw).2)
      { fw with nInData := fw.nInData + 1, csInserted := fw.csInserted ++ [(data, false)], deadNonceList := dnl }
  length : result.1.length = pitMatches.length
  entries : ∀ (k : Nat) (entry entry' : PitEntry), pitMatches[k]? = some entry → result.1[k]? = some entry' →
    entry'.isSatisfied = true ∧ entry'.expiryTimer = some 0 ∧ entry'.getOutRecord ingress.face = none ∧
    ∀ r, r ∈ entry'.inRecords ↔ r ∈ entry.inRecords ∧
      ¬∃ earlier ∈ pitMatches.take (k + 1), ∃ r' ∈ earlier.inRecords, fw.now < r'.expiry ∧ r'.face.id = r.face.id

theorem onIncomingData_satisfies (data : Data) (ingress : FaceEndpoint) (pitMatches : List PitEntry) (fw : Forwarder)
    (inScope : ¬(ingress.face.scope = .nonLocal ∧ localhost <+: data.name)) (matched : pitMatches ≠ [])
    (unique : ∀ entry ∈ pitMatches, entry.RecordsUnique) :
    FannedOut data ingress pitMatches fw (onIncomingData data ingress pitMatches fw) := by
  obtain ⟨dnl, result⟩ := onIncomingData_eq fw inScope matched unique
  rw [result]
  constructor
  · refine ⟨_, dnl, nodup_targets fw.now ingress pitMatches, fun face => mem_targets, ?_⟩
    rw [sendToDownstreams_eq]
  · exact List.length_mapIdx
  · intro k entry entry' found found'
    rw [List.getElem?_mapIdx, found, Option.map_some] at found'
    cases found'
    refine ⟨rfl, rfl, getOutRecord_closedDown _ _ _ _, fun r => ?_⟩
    rw [mem_inRecords_closedDown, gathered_face_id]

/-! ## Two overlapping entries

`/a` is pending in an entry for the exact name and in one that can be satisfied by a longer
name.  The Data arrives at endpoint 5 of a multi-access face that also asked for it; the peer
face's in-record of the first entry has expired, but not the one of the second. -/

def ethernetFace : Face := ⟨1, .nonLocal, .multiAccess⟩

def peerFace : Face := ⟨2, .nonLocal, .pointToPoint⟩

def appFace : Face := ⟨3, .local, .pointToPoint⟩

def dataA : Data := ⟨[⟨8, [97]⟩], 1000, none⟩

def pendingRecord (canBePrefix : Bool) (face : Face) (expiry : Nat) : InRecord :=
  ⟨face, 7, 0, expiry, ⟨⟨[⟨8, [97]⟩], canBePrefix, false⟩, 7, 4000, none, none, none⟩⟩

def exactEntry : PitEntry :=
  ⟨(pendingRecord false appFace 5000).interest,
    [pendingRecord false peerFace 500, pendingRecord false appFace 5000], [], false, 0, none⟩

def prefixEntry : PitEntry :=
  ⟨(pendingRecord true peerFace 5000).interest,
    [pendingRecord true peerFace 5000, pendingRecord true ethernetFace 5000], [], false, 0, none⟩

def arrivalForwarder : Forwarder :=
  ⟨1000, DeadNonceList.initial, 6000, fun _ _ => 0, fun _ _ => false, [], [], 0, 0, 0⟩

/-- The Data goes back to the face it came from, and the exact entry keeps the peer face's
in-record although the peer face is sent the Data. -/
theorem onIncomingData_overlapping_entries :
    (ethernetFace, dataA) ∈
        (onIncomingData dataA ⟨ethernetFace, 5⟩ [exactEntry, prefixEntry] arrivalForwarder).2.sent ∧
      (peerFace, dataA) ∈
        (onIncomingData dataA ⟨ethernetFace, 5⟩ [exactEntry, prefixEntry] arrivalForwarder).2.sent ∧
      ((onIncomingData dataA ⟨ethernetFace, 5⟩ [exactEntry, prefixEntry] arrivalForwarder).1.map fun entry =>
        entry.inRecords.map (·.face.id)) = [[2], []] := by
  decide

theorem onIncomingData_satisfies_overlapping_entries :
    ¬(ethernetFace.scope = .nonLocal ∧ localhost <+: dataA.name) ∧ [exactEntry, prefixEntry] ≠ [] ∧
      (∀ entry ∈ [exactEntry, prefixEntry], entry.RecordsUnique) ∧
      FannedOut dataA ⟨ethernetFace, 5⟩ [exactEntry, prefixEntry] arrivalForwarder
        (onIncomingData dataA ⟨ethernetFace, 5⟩ [exactEntry, prefixEntry] arrivalForwarder) := by
  have inScope : ¬(ethernetFace.scope = .nonLocal ∧ localhost <+: dataA.name) := by decide
  have matched : [exactEntry, prefixEntry] ≠ [] := List.cons_ne_nil _ _
  have unique : ∀ entry ∈ [exactEntry, prefixEntry], entry.RecordsUnique := by
    intro entry mem
    rcases List.mem_pair.mp mem with rfl | rfl
    · exact ⟨by decide, by decide⟩
    · exact ⟨by decide, by decide⟩
  exact ⟨inScope, matched, unique, onIncomingData_satisfies _ ⟨ethernetFace, 5⟩ _ _ inScope matched unique⟩

end Nfd.Fw.Forwarder
