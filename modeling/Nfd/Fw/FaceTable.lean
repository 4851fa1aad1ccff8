import Nfd.Table.CleanupRun

/-!
# The face table, and the faces the tables name

`FaceTable::add` gives a face the id after `m_lastFaceId`, which starts at
`FACEID_RESERVED_MAX`; `addReserved` gives it a reserved id.  The forwarder connects
`beforeRemove` to `cleanupOnFaceRemoval`, so `remove` takes the face out of the FIB and the PIT
before it leaves the table.  Between these the tables run their operations, and those that
write a face into a FIB entry or a PIT entry write one of the table: `FibManager` checks that the
face of a next hop exists, and the pipelines record the faces Interests come from and go to.

Over every such run, every FIB next hop and every PIT record names a face of the table, and an
id above the reserved ones that has left the table never comes back.  `FaceId` is a `uint64_t`
whose `++m_lastFaceId` the model does not let wrap.
-/

set_option autoImplicit false

namespace Nfd.Fw

open NameTree Cleanup

variable {M S : Type}

/-- `face::FACEID_RESERVED_MAX`. -/
def faceIdReservedMax : FaceId := 255

/-- `FaceTable`: `m_faces` by id, and `m_lastFaceId`. -/
structure FaceTable where
  faces : List (FaceId × Face)
  lastFaceId : FaceId

namespace FaceTable

/-- `FaceTable()`. -/
def empty : FaceTable := ⟨[], faceIdReservedMax⟩

def get (id : FaceId) (table : FaceTable) : Option Face := SortedMap.find? id table.faces

/-- `addImpl(face, faceId)`: the face takes the id and is stored under it. -/
def addImpl (face : Face) (faceId : FaceId) (table : FaceTable) : FaceTable :=
  { table with faces := SortedMap.emplace faceId { face with id := faceId } table.faces }

/-- `FaceId` is `uint64_t`. -/
def faceIdBound : Nat := 2 ^ 64

/-- `add(face)`: a face whose id is in the table already is not added again. -/
def add (face : Face) (table : FaceTable) : FaceTable :=
  if face.id != invalidFaceId && (table.get face.id).isSome then table
  else
    -- `++m_lastFaceId` on a `uint64_t`
    let faceId := (table.lastFaceId + 1) % faceIdBound
    addImpl face faceId { table with lastFaceId := faceId }

def addReserved (face : Face) (faceId : FaceId) (table : FaceTable) : FaceTable :=
  addImpl face faceId table

/-- The part of `remove(faceId)` after `beforeRemove`: the face leaves `m_faces`. -/
def erase (faceId : FaceId) (table : FaceTable) : FaceTable :=
  { table with faces := SortedMap.erase faceId table.faces }

variable {table : FaceTable}

theorem get_addImpl (face : Face) {faceId : FaceId} (absent : table.get faceId = none) (id : FaceId) :
    (table.addImpl face faceId).get id = if id = faceId then some { face with id := faceId } else table.get id :=
  SortedMap.find?_emplace_of_absent id _ absent

/-- On an id already taken, the `emplace` of `addImpl` keeps the face there. -/
theorem get_addImpl_of_sorted (face : Face) (faceId : FaceId) (sorted : SortedMap.Sorted table.faces) (id : FaceId) :
    (table.addImpl face faceId).get id =
      if id = faceId then (table.get id).or (some { face with id := faceId }) else table.get id :=
  SortedMap.find?_emplace faceId _ sorted

theorem get_erase (faceId id : FaceId) :
    (table.erase faceId).get id = if id = faceId then none else table.get id :=
  SortedMap.find?_erase id faceId table.faces

/-- `add` on a face not in the table: it gets the id after `m_lastFaceId`, modulo 2^64. -/
theorem add_of_new {face : Face} (isNew : face.id = invalidFaceId ∨ table.get face.id = none) :
    table.add face = addImpl face ((table.lastFaceId + 1) % faceIdBound)
      { table with lastFaceId := (table.lastFaceId + 1) % faceIdBound } := by
  unfold add
  rw [if_neg]
  rcases isNew with unset | absent
  · simp [unset]
  · simp [absent]

theorem add_of_present {face : Face} (valid : face.id ≠ invalidFaceId) (present : (table.get face.id).isSome) :
    table.add face = table := by
  have duplicate : (face.id != invalidFaceId && (table.get face.id).isSome) = true := by
    simp [valid, present]
  unfold add
  rw [if_pos duplicate]

/-- What the face table keeps on every run: `m_faces` a `std::map` by id, each face stored
under its own id. -/
structure WellFormed (table : FaceTable) : Prop where
  sorted : SortedMap.Sorted table.faces
  ownId : ∀ id face, table.get id = some face → face.id = id

theorem wellFormed_empty : empty.WellFormed :=
  ⟨List.Pairwise.nil, fun _ _ stored => by cases stored⟩

/-- `addImpl` stores the face under its id unless the id is taken, and replaces no face. -/
theorem WellFormed.addImpl (wf : table.WellFormed) (face : Face) (faceId : FaceId) :
    (table.addImpl face faceId).WellFormed := by
  refine ⟨SortedMap.sorted_emplace wf.sorted, fun id face' stored => ?_⟩
  rw [get_addImpl_of_sorted face faceId wf.sorted] at stored
  split_ifs at stored with taken
  · cases present : table.get id with
    | none =>
        rw [present, Option.none_or] at stored
        cases stored
        exact taken.symm
    | some old =>
        rw [present, Option.some_or] at stored
        cases stored
        exact wf.ownId id face' present
  · exact wf.ownId id face' stored

/-- ‘add’ never replaces a face of the table, even where ‘m_lastFaceId’ has wrapped. -/
theorem WellFormed.get_add_of_isSome (wf : table.WellFormed) (face : Face) {id : FaceId}
    (present : (table.get id).isSome) : (table.add face).get id = table.get id := by
  obtain ⟨old, stored⟩ := Option.isSome_iff_exists.mp present
  by_cases isNew : face.id = invalidFaceId ∨ table.get face.id = none
  · rw [add_of_new isNew]
    have kept := @get_addImpl_of_sorted { table with lastFaceId := (table.lastFaceId + 1) % faceIdBound }
      face ((table.lastFaceId + 1) % faceIdBound) wf.sorted id
    rw [kept]
    change (if id = _ then (table.get id).or _ else table.get id) = table.get id
    rw [stored]
    split_ifs <;> rfl
  · push Not at isNew
    rw [add_of_present isNew.1 (Option.isSome_iff_ne_none.mpr isNew.2)]

theorem WellFormed.add (wf : table.WellFormed) (face : Face) : (table.add face).WellFormed := by
  by_cases isNew : face.id = invalidFaceId ∨ table.get face.id = none
  · rw [add_of_new isNew]
    exact @WellFormed.addImpl { table with lastFaceId := (table.lastFaceId + 1) % faceIdBound }
      ⟨wf.sorted, wf.ownId⟩ face _
  · push Not at isNew
    rw [add_of_present isNew.1 (Option.isSome_iff_ne_none.mpr isNew.2)]
    exact wf

theorem WellFormed.addReserved (wf : table.WellFormed) (face : Face) (faceId : FaceId) :
    (table.addReserved face faceId).WellFormed :=
  wf.addImpl face faceId

theorem get_addReserved_of_isSome (face : Face) {faceId id : FaceId} (absent : table.get faceId = none)
    (present : (table.get id).isSome) : (table.addReserved face faceId).get id = table.get id := by
  rw [addReserved, get_addImpl face absent, if_neg]
  rintro rfl
  simp [absent] at present

theorem WellFormed.erase (wf : table.WellFormed) (faceId : FaceId) : (table.erase faceId).WellFormed := by
  refine ⟨SortedMap.sorted_erase faceId wf.sorted, fun id face stored => ?_⟩
  rw [get_erase] at stored
  split_ifs at stored
  exact wf.ownId id face stored

/-- What ‘add’ keeps while ‘++m_lastFaceId’ does not wrap: every id of the table is at most
‘m_lastFaceId’, which stays between the reserved ids and 2^64. -/
structure Allocated (table : FaceTable) : Prop where
  allocated : ∀ id, (table.get id).isSome → id ≤ table.lastFaceId
  aboveReserved : faceIdReservedMax ≤ table.lastFaceId
  below : table.lastFaceId < faceIdBound

theorem allocated_empty : empty.Allocated := by
  refine ⟨fun _ present => ?_, le_refl _, by decide⟩
  cases present

/-- The id that ‘add’ takes without wrapping is out of the table, so the ‘emplace’ of
‘addImpl’ inserts. -/
theorem Allocated.get_next (al : table.Allocated) : table.get (table.lastFaceId + 1) = none := by
  cases stored : table.get (table.lastFaceId + 1) with
  | none => rfl
  | some face => exact absurd (al.allocated _ (by simp [stored])) (Nat.not_succ_le_self _)

/-- An ‘add’ that moves ‘m_lastFaceId’ above the reserved ids, as the assertion of
‘FaceTable::add’ requires, did not wrap. -/
theorem Allocated.room (al : table.Allocated) {face : Face}
    (isNew : face.id = invalidFaceId ∨ table.get face.id = none)
    (assertion : (table.add face).lastFaceId ≠ table.lastFaceId → faceIdReservedMax < (table.add face).lastFaceId) :
    table.lastFaceId + 1 < faceIdBound := by
  have moved : (table.add face).lastFaceId = (table.lastFaceId + 1) % faceIdBound := by
    rw [add_of_new isNew]
    rfl
  have reservedIs : faceIdReservedMax = 255 := rfl
  have aboveReserved := al.aboveReserved
  by_contra full
  -- ‘++m_lastFaceId’ wraps to 0, below the reserved ids
  have wraps : table.lastFaceId + 1 = faceIdBound := Nat.le_antisymm (Nat.succ_le_of_lt al.below) (Nat.le_of_not_lt full)
  rw [moved, wraps, Nat.mod_self, reservedIs] at assertion
  rw [reservedIs] at aboveReserved
  have moves : 0 ≠ table.lastFaceId := by
    intro zero
    rw [← zero] at aboveReserved
    exact absurd aboveReserved (by decide)
  exact absurd (assertion moves) (by decide)

theorem add_of_new_of_room {face : Face} (isNew : face.id = invalidFaceId ∨ table.get face.id = none)
    (room : table.lastFaceId + 1 < faceIdBound) :
    table.add face = addImpl face (table.lastFaceId + 1) { table with lastFaceId := table.lastFaceId + 1 } := by
  rw [add_of_new isNew, Nat.mod_eq_of_lt room]

theorem Allocated.get_add_of_new (al : table.Allocated) {face : Face}
    (isNew : face.id = invalidFaceId ∨ table.get face.id = none) (room : table.lastFaceId + 1 < faceIdBound)
    (id : FaceId) :
    (table.add face).get id =
      if id = table.lastFaceId + 1 then some { face with id := table.lastFaceId + 1 } else table.get id := by
  rw [add_of_new_of_room isNew room]
  exact get_addImpl face al.get_next id

theorem lastFaceId_add_of_new {face : Face} (isNew : face.id = invalidFaceId ∨ table.get face.id = none)
    (room : table.lastFaceId + 1 < faceIdBound) : (table.add face).lastFaceId = table.lastFaceId + 1 := by
  rw [add_of_new_of_room isNew room]
  rfl

/-- ‘add’ leaves every id up to ‘m_lastFaceId’ as it was. -/
theorem Allocated.get_add_of_le (al : table.Allocated) (face : Face) (room : table.lastFaceId + 1 < faceIdBound)
    {id : FaceId} (handedOut : id ≤ table.lastFaceId) : (table.add face).get id = table.get id := by
  by_cases isNew : face.id = invalidFaceId ∨ table.get face.id = none
  · rw [al.get_add_of_new isNew room, if_neg]
    rintro rfl
    exact Nat.not_succ_le_self _ handedOut
  · push Not at isNew
    rw [add_of_present isNew.1 (Option.isSome_iff_ne_none.mpr isNew.2)]

theorem Allocated.add (al : table.Allocated) (face : Face)
    (assertion : (table.add face).lastFaceId ≠ table.lastFaceId → faceIdReservedMax < (table.add face).lastFaceId) :
    (table.add face).Allocated := by
  by_cases isNew : face.id = invalidFaceId ∨ table.get face.id = none
  · have room := al.room isNew assertion
    have last := lastFaceId_add_of_new isNew room
    constructor
    · intro id present
      rw [al.get_add_of_new isNew room] at present
      rw [last]
      split_ifs at present with fresh
      · exact fresh.le
      · exact (al.allocated id present).trans (Nat.le_succ _)
    · rw [last]
      exact al.aboveReserved.trans (Nat.le_succ _)
    · rw [last]
      exact room
  · push Not at isNew
    rw [add_of_present isNew.1 (Option.isSome_iff_ne_none.mpr isNew.2)]
    exact al

theorem Allocated.addReserved (al : table.Allocated) (face : Face) {faceId : FaceId}
    (reserved : faceId ≤ faceIdReservedMax) (absent : table.get faceId = none) :
    (table.addReserved face faceId).Allocated := by
  refine ⟨fun id present => ?_, al.aboveReserved, al.below⟩
  rw [FaceTable.addReserved, get_addImpl face absent] at present
  split_ifs at present with fresh
  · rw [fresh]
    exact reserved.trans al.aboveReserved
  · exact al.allocated id present

theorem Allocated.erase (al : table.Allocated) (faceId : FaceId) : (table.erase faceId).Allocated := by
  refine ⟨fun id present => ?_, al.aboveReserved, al.below⟩
  rw [get_erase] at present
  split_ifs at present
  · cases present
  · exact al.allocated id present

end FaceTable

section Faces

/-- Every face a FIB entry and a list of PIT entries name satisfies `P`. -/
structure FacesIn (P : FaceId → Prop) (fib : Option Fib.Entry) (pit : List PitEntry) : Prop where
  nextHops : ∀ fe ∈ fib, ∀ nh ∈ fe.nextHops, P nh.face
  inRecords : ∀ pe ∈ pit, ∀ r ∈ pe.inRecords, P r.face.id
  outRecords : ∀ pe ∈ pit, ∀ r ∈ pe.outRecords, P r.face.id

/-- The face an edit of a PIT entry records. -/
def recordedFace : RecordOp → Option Face
  | .insertOrUpdateInRecord face _ _ => some face
  | .insertOrUpdateOutRecord face _ _ => some face
  | _ => none

/-- The face an operation of the tables writes into a FIB entry or a PIT entry. -/
def namedFace : Op M S → Option FaceId
  | .addOrUpdateNextHop _ face _ => some face
  | .updatePitEntry _ _ op => (recordedFace op).map Face.id
  | _ => none

variable {P : FaceId → Prop}

theorem FacesIn.mono {Q : FaceId → Prop} {fib : Option Fib.Entry} {pit : List PitEntry}
    (facesIn : FacesIn P fib pit) (weaker : ∀ id, P id → Q id) : FacesIn Q fib pit :=
  ⟨fun fe held nh member => weaker _ (facesIn.nextHops fe held nh member),
    fun pe held r member => weaker _ (facesIn.inRecords pe held r member),
    fun pe held r member => weaker _ (facesIn.outRecords pe held r member)⟩

theorem facesIn_vacant : FacesIn P none [] := by
  constructor
  · intro fe held
    cases held
  · intro pe held
    cases held
  · intro pe held
    cases held

/-- After an update in place or an insertion in front of key `k`, every key is `k` or was a
key before. -/
theorem key_mem_insertOrUpdate {α : Type} (key : α → Nat) (k : Nat) (update : α → α) (fresh : α)
    (keepsKey : ∀ r, key (update r) = key r) (freshKey : key fresh = k) {l : List α} {r : α}
    (member : r ∈ if l.any (key · == k) then l.map fun r => if key r == k then update r else r
      else fresh :: l) :
    key r = k ∨ ∃ r' ∈ l, key r' = key r := by
  split at member
  · obtain ⟨r', old, rfl⟩ := List.mem_map.mp member
    refine Or.inr ⟨r', old, ?_⟩
    split <;> simp [keepsKey]
  · rcases List.mem_cons.mp member with rfl | old
    · exact Or.inl freshKey
    · exact Or.inr ⟨r, old, rfl⟩

/-- An edit of a PIT entry records no face but the one it names. -/
theorem facesIn_recordOp (op : RecordOp) {pe : PitEntry} (inRecords : ∀ r ∈ pe.inRecords, P r.face.id)
    (outRecords : ∀ r ∈ pe.outRecords, P r.face.id) (recorded : ∀ face ∈ recordedFace op, P face.id) :
    (∀ r ∈ (op.apply pe).inRecords, P r.face.id) ∧ ∀ r ∈ (op.apply pe).outRecords, P r.face.id := by
  cases op with
  | insertOrUpdateInRecord face interest now =>
      refine ⟨fun r member => ?_, fun r member => ?_⟩
      · rw [RecordOp.apply, inRecords_insertOrUpdateInRecord] at member
        rcases key_mem_insertOrUpdate (fun r : InRecord => r.face.id) face.id (InRecord.update interest now) _
          (fun _ => rfl) rfl member with isFace | ⟨r', old, same⟩
        · exact isFace ▸ recorded face rfl
        · exact same ▸ inRecords r' old
      · rw [RecordOp.apply, outRecords_insertOrUpdateInRecord] at member
        exact outRecords r member
  | insertOrUpdateOutRecord face interest now =>
      refine ⟨fun r member => ?_, fun r member => ?_⟩
      · rw [RecordOp.apply, inRecords_insertOrUpdateOutRecord] at member
        exact inRecords r member
      · rw [RecordOp.apply, outRecords_insertOrUpdateOutRecord] at member
        rcases key_mem_insertOrUpdate (fun r : OutRecord => r.face.id) face.id (OutRecord.update interest now) _
          (fun _ => rfl) rfl member with isFace | ⟨r', old, same⟩
        · exact isFace ▸ recorded face rfl
        · exact same ▸ outRecords r' old
  | deleteInRecord face =>
      exact ⟨fun r member => inRecords r (List.eraseP_subset member), outRecords⟩
  | deleteOutRecord face =>
      exact ⟨inRecords, fun r member => outRecords r (List.eraseP_subset member)⟩
  | clearInRecords => exact ⟨fun _ member => absurd member List.not_mem_nil, outRecords⟩
  | setSatisfied isSatisfied => exact ⟨inRecords, outRecords⟩
  | setDataFreshnessPeriod dataFreshnessPeriod => exact ⟨inRecords, outRecords⟩
  | setExpiryTimer duration => exact ⟨inRecords, outRecords⟩

/-- `Entry::addOrUpdateNextHop` adds no face but its own. -/
theorem face_mem_addOrUpdateNextHop {fe : Fib.Entry} {face : Fib.FaceId} {cost : Nat} {nh : Fib.NextHop}
    (member : nh ∈ (fe.addOrUpdateNextHop face cost).1.nextHops) :
    nh.face = face ∨ ∃ nh' ∈ fe.nextHops, nh'.face = nh.face := by
  unfold Fib.Entry.addOrUpdateNextHop at member
  split at member
  · rw [Fib.Entry.sortNextHops, List.mem_mergeSort, List.mem_append, List.mem_singleton] at member
    rcases member with old | rfl
    · exact Or.inr ⟨nh, old, rfl⟩
    · exact Or.inl rfl
  · rw [Fib.Entry.sortNextHops, List.mem_mergeSort] at member
    rcases mem_modify member with old | ⟨nh', old, rfl⟩
    · exact Or.inr ⟨nh, old, rfl⟩
    · exact Or.inr ⟨nh', old, rfl⟩

/-- The cleanup leaves no face but those named before other than the removed one. -/
theorem facesIn_cleanup {fib : Option Fib.Entry} {pit : List PitEntry} (facesIn : FacesIn P fib pit) (face : FaceId) :
    FacesIn (fun id => P id ∧ id ≠ face) (fib.bind (fibEntryWithout face)) (pit.map (pitEntryWithout face)) := by
  refine ⟨fun fe' held nh member => ?_, fun pe' held r member => ?_, fun pe' held r member => ?_⟩
  · obtain ⟨fe, heldBefore, without⟩ := Option.bind_eq_some_iff.mp held
    refine ⟨?_, ne_face_of_fibEntryWithout without nh member⟩
    unfold fibEntryWithout at without
    split at without
    · cases without
    · cases without
      exact facesIn.nextHops fe heldBefore nh (List.mem_filter.mp member).1
  · obtain ⟨pe, heldBefore, rfl⟩ := List.mem_map.mp held
    exact ⟨facesIn.inRecords pe heldBefore r (List.mem_filter.mp member).1,
      (ne_face_of_pitEntryWithout face pe).1 r member⟩
  · obtain ⟨pe, heldBefore, rfl⟩ := List.mem_map.mp held
    exact ⟨facesIn.outRecords pe heldBefore r (List.mem_filter.mp member).1,
      (ne_face_of_pitEntryWithout face pe).2 r member⟩

/-- Every operation keeps the faces named among those satisfying `P`, when the face it writes
does. -/
theorem facesIn_edits (op : Op M S) (named : ∀ id ∈ namedFace op, P id) :
    ∀ s s', FacesIn P s.1 s.2 → op.edits s s' → FacesIn P s'.1 s'.2 := by
  rintro ⟨fib, pit⟩ ⟨fib', pit'⟩ facesIn edited
  cases op with
  | fibInsert prefixName =>
      obtain ⟨rfl, kept | rfl⟩ := edited
      · exact kept ▸ facesIn
      · refine ⟨fun fe held nh member => ?_, facesIn.inRecords, facesIn.outRecords⟩
        cases held
        cases member
  | fibErase prefixName =>
      obtain ⟨rfl, kept | rfl⟩ := edited
      · exact kept ▸ facesIn
      · refine ⟨fun fe held => ?_, facesIn.inRecords, facesIn.outRecords⟩
        cases held
  | fibEraseOfEntry nte =>
      obtain ⟨rfl, kept | rfl⟩ := edited
      · exact kept ▸ facesIn
      · refine ⟨fun fe held => ?_, facesIn.inRecords, facesIn.outRecords⟩
        cases held
  | addOrUpdateNextHop nte face cost =>
      obtain ⟨rfl, kept | ⟨fe, rfl, rfl⟩⟩ := edited
      · exact kept ▸ facesIn
      · refine ⟨fun fe' held nh member => ?_, facesIn.inRecords, facesIn.outRecords⟩
        cases held
        rcases face_mem_addOrUpdateNextHop member with isFace | ⟨nh', old, same⟩
        · exact isFace ▸ named face rfl
        · exact same ▸ facesIn.nextHops fe rfl nh' old
  | removeNextHop nte face =>
      obtain ⟨rfl, kept | ⟨fe, rfl, without⟩⟩ := edited
      · exact kept ▸ facesIn
      · refine ⟨fun fe' held nh member => ?_, facesIn.inRecords, facesIn.outRecords⟩
        exact ((facesIn_cleanup facesIn face).nextHops fe' (by rw [Option.bind_some, ← without]; exact held)
          nh member).1
  | insertPitEntry nte interest =>
      obtain ⟨rfl, kept | rfl⟩ := edited
      · exact kept ▸ facesIn
      · refine ⟨facesIn.nextHops, fun pe held r member => ?_, fun pe held r member => ?_⟩ <;>
          rcases List.mem_append.mp held with old | isNew
        · exact facesIn.inRecords pe old r member
        · rw [List.mem_singleton.mp isNew] at member
          cases member
        · exact facesIn.outRecords pe old r member
        · rw [List.mem_singleton.mp isNew] at member
          cases member
  | erasePitEntry nte entry canDeleteNte =>
      obtain ⟨rfl, kept⟩ := edited
      exact ⟨facesIn.nextHops, fun pe held => facesIn.inRecords pe (kept pe held),
        fun pe held => facesIn.outRecords pe (kept pe held)⟩
  | updatePitEntry nte index op =>
      obtain ⟨rfl, kept | rfl⟩ := edited
      · exact kept ▸ facesIn
      · have recorded : ∀ face ∈ recordedFace op, P face.id := fun face held =>
          named face.id (Option.mem_map_of_mem Face.id held)
        have edited : ∀ pe ∈ pit.modify index op.apply,
            (∀ r ∈ pe.inRecords, P r.face.id) ∧ ∀ r ∈ pe.outRecords, P r.face.id := by
          intro pe held
          rcases mem_modify held with old | ⟨pe0, old, rfl⟩
          · exact ⟨facesIn.inRecords pe old, facesIn.outRecords pe old⟩
          · exact facesIn_recordOp op (facesIn.inRecords pe0 old) (facesIn.outRecords pe0 old) recorded
        exact ⟨facesIn.nextHops, fun pe held => (edited pe held).1, fun pe held => (edited pe held).2⟩
  | cleanup face =>
      obtain ⟨rfl, rfl⟩ := edited
      exact (facesIn_cleanup facesIn face.id).mono fun _ named => named.1
  | lookup name prefixLen =>
      obtain ⟨rfl, rfl⟩ := edited
      exact facesIn
  | eraseIfEmpty nte canEraseAncestors =>
      obtain ⟨rfl, rfl⟩ := edited
      exact facesIn
  | setMeasurementsEntry nte measurementsEntry =>
      obtain ⟨rfl, rfl⟩ := edited
      exact facesIn
  | setStrategyChoiceEntry nte strategyChoiceEntry =>
      obtain ⟨rfl, rfl⟩ := edited
      exact facesIn

end Faces

section Tables

variable {componentHash : Component → HashValue} {tables : Tables M S} {P : FaceId → Prop}

/-- Every face the FIB entries and the PIT entries of the tables name satisfies `P`. -/
def NamesOnly (P : FaceId → Prop) (tables : Tables M S) : Prop :=
  ∀ y e, entries tables.nameTree.ht.nodes y = some e → FacesIn P e.fibEntry e.pitEntries

theorem NamesOnly.mono {Q : FaceId → Prop} (namesOnly : NamesOnly P tables) (weaker : ∀ id, P id → Q id) :
    NamesOnly Q tables :=
  fun y e stored => (namesOnly y e stored).mono weaker

theorem NamesOnly.apply (inv : Invariant componentHash tables.nameTree) (namesOnly : NamesOnly P tables)
    (op : Op M S) (allowed : op.allowed = true) (named : ∀ id ∈ namedFace op, P id) :
    NamesOnly P (op.apply componentHash tables) :=
  (inv.traced_apply op allowed).forall (fun s => FacesIn P s.1 s.2) facesIn_vacant namesOnly
    (facesIn_edits op named)

theorem NamesOnly.nextHop (namesOnly : NamesOnly P tables) {nte : NodeId} {fe : Fib.Entry}
    (found : Fib.fibEntryAt tables.nameTree nte = some fe) {nh : Fib.NextHop} (member : nh ∈ fe.nextHops) :
    P nh.face := by
  rw [fibEntryAt_eq, Option.bind_eq_some_iff] at found
  obtain ⟨e, stored, held⟩ := found
  exact (namesOnly nte e stored).nextHops fe held nh member

theorem NamesOnly.pitEntry (namesOnly : NamesOnly P tables) {nte : NodeId} {pe : PitEntry}
    (member : pe ∈ ((entries tables.nameTree.ht.nodes nte).map Entry.pitEntries).getD []) :
    (∀ r ∈ pe.inRecords, P r.face.id) ∧ ∀ r ∈ pe.outRecords, P r.face.id := by
  cases stored : entries tables.nameTree.ht.nodes nte with
  | none => simp [stored] at member
  | some e =>
      rw [stored, Option.map_some, Option.getD_some] at member
      exact ⟨(namesOnly nte e stored).inRecords pe member, (namesOnly nte e stored).outRecords pe member⟩

/-- The cleanup of a face leaves only the other faces named. -/
theorem NamesOnly.cleanupOnFaceRemoval (inv : Invariant componentHash tables.nameTree)
    (namesOnly : NamesOnly P tables) (face : Face) :
    NamesOnly (fun id => P id ∧ id ≠ face.id) (cleanupOnFaceRemoval face tables) := by
  intro y e' stored'
  obtain ⟨⟨fib, pit⟩, source, edited⟩ := inv.traced_apply (.cleanup face) rfl y e' stored'
  have facesIn : FacesIn P fib pit := by
    rcases source with vacant | ⟨e, stored, heldBefore⟩
    · cases vacant
      exact facesIn_vacant
    · cases heldBefore
      exact namesOnly y e stored
  obtain ⟨fibEq, pitEq⟩ := edited
  have cleaned := facesIn_cleanup facesIn face.id
  rw [← fibEq, ← pitEq] at cleaned
  exact cleaned

end Tables

section System

/-- The face table, and the tables whose entries name faces. -/
structure ForwardingState (M S : Type) where
  faceTable : FaceTable
  tables : Tables M S

namespace ForwardingState

/-- `FaceTable::remove(faceId)`: `beforeRemove` runs `cleanupOnFaceRemoval` on the face, then the
face leaves the table. -/
def remove (faceId : FaceId) (state : ForwardingState M S) : ForwardingState M S :=
  match state.faceTable.get faceId with
  | none => state
  | some face => ⟨state.faceTable.erase faceId, cleanupOnFaceRemoval face state.tables⟩

theorem remove_of_get {state : ForwardingState M S} {faceId : FaceId} {face : Face}
    (stored : state.faceTable.get faceId = some face) :
    state.remove faceId = ⟨state.faceTable.erase faceId, cleanupOnFaceRemoval face state.tables⟩ := by
  rw [remove, stored]

/-- The face table of a new forwarder, over an empty name tree of `nBuckets` buckets. -/
def initial (nBuckets : Nat) (positive : 0 < nBuckets) : ForwardingState M S :=
  ⟨FaceTable.empty, ⟨NameTree.ofSize nBuckets positive, 0⟩⟩

end ForwardingState

variable (componentHash : Component → HashValue) in
/-- One step: a face added or removed, or an operation of the tables that writes only faces of
the table, each within the assertions of its code. -/
inductive Step : ForwardingState M S → ForwardingState M S → Prop
  | add (state : ForwardingState M S) (face : Face) :
      Step state { state with faceTable := state.faceTable.add face }
  | addReserved (state : ForwardingState M S) (face : Face) (faceId : FaceId)
      (unset : face.id = invalidFaceId) (reserved : faceId ≤ faceIdReservedMax)
      (absent : state.faceTable.get faceId = none) :
      Step state { state with faceTable := state.faceTable.addReserved face faceId }
  | remove (state : ForwardingState M S) (faceId : FaceId) (present : (state.faceTable.get faceId).isSome) :
      Step state (state.remove faceId)
  | table (state : ForwardingState M S) (op : Op M S) (allowed : op.allowed = true)
      (named : ∀ id ∈ namedFace op, (state.faceTable.get id).isSome) :
      Step state { state with tables := op.apply componentHash state.tables }

/-- The states a run of steps reaches from a new forwarder. -/
def Reachable (componentHash : Component → HashValue) (state : ForwardingState M S) : Prop :=
  ∃ nBuckets positive, Relation.ReflTransGen (Step componentHash) (ForwardingState.initial nBuckets positive) state

variable (componentHash : Component → HashValue) in
/-- A step within the assertion of `FaceTable::add`, `BOOST_ASSERT(faceId > FACEID_RESERVED_MAX)`:
where it moves `m_lastFaceId`, it moves it above the reserved ids, which `++m_lastFaceId` fails
to do only when it wraps. -/
def AssertedStep (state state' : ForwardingState M S) : Prop :=
  Step componentHash state state' ∧
    (state'.faceTable.lastFaceId ≠ state.faceTable.lastFaceId → faceIdReservedMax < state'.faceTable.lastFaceId)

/-- The states a run of asserted steps reaches from a new forwarder. -/
def ReachableAsserted (componentHash : Component → HashValue) (state : ForwardingState M S) : Prop :=
  ∃ nBuckets positive,
    Relation.ReflTransGen (AssertedStep componentHash) (ForwardingState.initial nBuckets positive) state

end System

section Runs

variable {componentHash : Component → HashValue} {state state' : ForwardingState M S}

/-- What every reachable state keeps: the invariant of the name tree, a well-formed face table,
and no FIB next hop or PIT record that names a face out of the table. -/
structure FaceInvariant (componentHash : Component → HashValue) (state : ForwardingState M S) : Prop where
  tables : Invariant componentHash state.tables.nameTree
  faceTable : state.faceTable.WellFormed
  namesOnly : NamesOnly (fun id => (state.faceTable.get id).isSome) state.tables

theorem FaceInvariant.initial (nBuckets : Nat) (positive : 0 < nBuckets) :
    FaceInvariant componentHash (ForwardingState.initial nBuckets positive : ForwardingState M S) := by
  refine ⟨Invariant.empty nBuckets positive, FaceTable.wellFormed_empty, fun y e stored => ?_⟩
  rw [ForwardingState.initial, entries_ofSize] at stored
  cases stored

theorem FaceInvariant.remove (inv : FaceInvariant componentHash state) {faceId : FaceId}
    {face : Face} (stored : state.faceTable.get faceId = some face) :
    FaceInvariant componentHash (state.remove faceId) := by
  have own : face.id = faceId := inv.faceTable.ownId faceId face stored
  rw [ForwardingState.remove_of_get stored]
  refine ⟨inv.tables.cleanupOnFaceRemoval face, inv.faceTable.erase faceId, ?_⟩
  -- the cleanup leaves the faces other than the removed one, which are those left in the table
  refine (inv.namesOnly.cleanupOnFaceRemoval inv.tables face).mono fun id named => ?_
  rw [FaceTable.get_erase, if_neg (own ▸ named.2)]
  exact named.1

theorem FaceInvariant.step (inv : FaceInvariant componentHash state) (step : Step componentHash state state') :
    FaceInvariant componentHash state' := by
  cases step with
  | add face =>
      refine ⟨inv.tables, inv.faceTable.add face, inv.namesOnly.mono fun id present => ?_⟩
      rw [inv.faceTable.get_add_of_isSome face present]
      exact present
  | addReserved face faceId unset reserved absent =>
      refine ⟨inv.tables, inv.faceTable.addReserved face faceId, inv.namesOnly.mono fun id present => ?_⟩
      rw [FaceTable.get_addReserved_of_isSome face absent present]
      exact present
  | remove faceId present =>
      obtain ⟨face, stored⟩ := Option.isSome_iff_exists.mp present
      exact inv.remove stored
  | table op allowed named =>
      exact ⟨inv.tables.apply op allowed, inv.faceTable, inv.namesOnly.apply inv.tables op allowed named⟩

theorem Reachable.step (reachable : Reachable componentHash state) (step : Step componentHash state state') :
    Reachable componentHash state' := by
  obtain ⟨nBuckets, positive, run⟩ := reachable
  exact ⟨nBuckets, positive, run.tail step⟩

theorem Reachable.faceInvariant (reachable : Reachable componentHash state) : FaceInvariant componentHash state := by
  obtain ⟨nBuckets, positive, run⟩ := reachable
  induction run with
  | refl => exact FaceInvariant.initial nBuckets positive
  | tail _ step inv => exact inv.step step

theorem ReachableAsserted.reachable (reachable : ReachableAsserted componentHash state) :
    Reachable componentHash state := by
  obtain ⟨nBuckets, positive, run⟩ := reachable
  exact ⟨nBuckets, positive, Relation.ReflTransGen.mono (fun _ _ asserted => asserted.1) _ _ run⟩

theorem ReachableAsserted.trans (reachable : ReachableAsserted componentHash state)
    (run : Relation.ReflTransGen (AssertedStep componentHash) state state') :
    ReachableAsserted componentHash state' := by
  obtain ⟨nBuckets, positive, before⟩ := reachable
  exact ⟨nBuckets, positive, before.trans run⟩

theorem FaceTable.Allocated.step (al : state.faceTable.Allocated) (asserted : AssertedStep componentHash state state') :
    state'.faceTable.Allocated := by
  obtain ⟨step, assertion⟩ := asserted
  cases step with
  | add face => exact al.add face assertion
  | addReserved face faceId unset reserved absent => exact al.addReserved face reserved absent
  | remove faceId present =>
      obtain ⟨face, stored⟩ := Option.isSome_iff_exists.mp present
      rw [ForwardingState.remove_of_get stored]
      exact al.erase faceId
  | table op allowed named => exact al

theorem ReachableAsserted.allocated (reachable : ReachableAsserted componentHash state) :
    state.faceTable.Allocated := by
  obtain ⟨nBuckets, positive, run⟩ := reachable
  induction run with
  | refl => exact FaceTable.allocated_empty
  | tail _ asserted al => exact al.step asserted

/-- An id above the reserved ones that ‘add’ has handed out and that is out of the table. -/
def Retired (id : FaceId) (table : FaceTable) : Prop :=
  faceIdReservedMax < id ∧ id ≤ table.lastFaceId ∧ table.get id = none

theorem Retired.step {id : FaceId} (al : state.faceTable.Allocated)
    (retired : Retired id state.faceTable) (asserted : AssertedStep componentHash state state') :
    Retired id state'.faceTable := by
  obtain ⟨aboveReserved, handedOut, absent⟩ := retired
  obtain ⟨step, assertion⟩ := asserted
  cases step with
  | add face =>
      -- ‘add’ hands out only ids above ‘m_lastFaceId’, and does not wrap
      by_cases isNew : face.id = invalidFaceId ∨ state.faceTable.get face.id = none
      · have room := al.room isNew assertion
        refine ⟨aboveReserved, handedOut.trans ?_, ?_⟩
        · rw [FaceTable.lastFaceId_add_of_new isNew room]
          exact Nat.le_succ _
        · rw [al.get_add_of_le face room handedOut]
          exact absent
      · push Not at isNew
        have unchanged := FaceTable.add_of_present isNew.1 (Option.isSome_iff_ne_none.mpr isNew.2)
        change Retired id (state.faceTable.add face)
        rw [unchanged]
        exact ⟨aboveReserved, handedOut, absent⟩
  | addReserved face faceId unset reserved free =>
      -- ‘addReserved’ hands out only reserved ids
      refine ⟨aboveReserved, handedOut, ?_⟩
      rw [FaceTable.addReserved, FaceTable.get_addImpl face free, if_neg]
      · exact absent
      · rintro rfl
        exact absurd reserved (Nat.not_le_of_lt aboveReserved)
  | remove faceId present =>
      obtain ⟨face, stored⟩ := Option.isSome_iff_exists.mp present
      rw [ForwardingState.remove_of_get stored]
      refine ⟨aboveReserved, handedOut, ?_⟩
      rw [FaceTable.get_erase]
      split_ifs
      · rfl
      · exact absent
  | table op allowed named => exact ⟨aboveReserved, handedOut, absent⟩

end Runs

section Guarantees

variable {componentHash : Component → HashValue} {state state' : ForwardingState M S}

/-- In every reachable state each face is stored under its own id, and every FIB next hop and
every in-record and out-record of a PIT entry names a face of the table. -/
theorem faces_named_of_reachable (reachable : Reachable componentHash state) :
    (∀ id face, state.faceTable.get id = some face → face.id = id) ∧
      (∀ nte fe, Fib.fibEntryAt state.tables.nameTree nte = some fe →
        ∀ nh ∈ fe.nextHops, (state.faceTable.get nh.face).isSome) ∧
      ∀ nte, ∀ pe ∈ ((entries state.tables.nameTree.ht.nodes nte).map Entry.pitEntries).getD [],
        (∀ r ∈ pe.inRecords, (state.faceTable.get r.face.id).isSome) ∧
          ∀ r ∈ pe.outRecords, (state.faceTable.get r.face.id).isSome := by
  have inv := reachable.faceInvariant
  refine ⟨inv.faceTable.ownId, fun nte fe found nh member => ?_, fun nte pe member => ?_⟩
  · exact inv.namesOnly.nextHop found member
  · exact inv.namesOnly.pitEntry member

/-- ‘add’ of a face not in the table, on a run within the assertion of ‘FaceTable::add’ and with
‘m_lastFaceId’ below 2^64 − 1: the id after ‘m_lastFaceId’ is above the reserved ones and out of
the table, so the assertion and the ‘emplace’ of the code hold; nothing in the FIB or the PIT
names it; and the face is stored under it, every other id left as it was. -/
theorem add_assigns_fresh_id (reachable : ReachableAsserted componentHash state) {face : Face}
    (isNew : face.id = invalidFaceId ∨ state.faceTable.get face.id = none)
    (room : state.faceTable.lastFaceId + 1 < FaceTable.faceIdBound) :
    faceIdReservedMax < state.faceTable.lastFaceId + 1 ∧
      state.faceTable.get (state.faceTable.lastFaceId + 1) = none ∧
      NamesOnly (fun named => named ≠ state.faceTable.lastFaceId + 1) state.tables ∧
      (state.faceTable.add face).lastFaceId = state.faceTable.lastFaceId + 1 ∧
      ∀ id, (state.faceTable.add face).get id =
        if id = state.faceTable.lastFaceId + 1 then some { face with id := state.faceTable.lastFaceId + 1 }
        else state.faceTable.get id := by
  have inv := reachable.reachable.faceInvariant
  have al := reachable.allocated
  have free := al.get_next
  refine ⟨Nat.lt_succ_of_le al.aboveReserved, free, ?_, FaceTable.lastFaceId_add_of_new isNew room,
    al.get_add_of_new isNew room⟩
  refine inv.namesOnly.mono fun named present => ?_
  rintro rfl
  simp [free] at present

/-- Over any run within the assertion of ‘FaceTable::add’ from such a state, an id above the
reserved ones that was handed out and has left the table is never taken again, and nothing in
the FIB or the PIT names it again. -/
theorem removed_faceId_not_reused (reachable : ReachableAsserted componentHash state)
    (run : Relation.ReflTransGen (AssertedStep componentHash) state state') {id : FaceId}
    (aboveReserved : faceIdReservedMax < id) (handedOut : id ≤ state.faceTable.lastFaceId)
    (absent : state.faceTable.get id = none) :
    state'.faceTable.get id = none ∧ NamesOnly (fun named => named ≠ id) state'.tables := by
  -- induction on the run, which keeps the id retired
  have retired : Retired id state'.faceTable := by
    induction run with
    | refl => exact ⟨aboveReserved, handedOut, absent⟩
    | tail path asserted retired => exact retired.step (reachable.trans path).allocated asserted
  refine ⟨retired.2.2, (reachable.trans run).reachable.faceInvariant.namesOnly.mono fun named present => ?_⟩
  rintro rfl
  simp [retired.2.2] at present

end Guarantees

section FaceChurn

def faceNew : Face := ⟨invalidFaceId, .nonLocal, .pointToPoint⟩

def churnHash : Component → HashValue := fun c => UInt64.ofNat c.type

/-- Face 256 added, then ‘/X’ inserted into the FIB with face 256 as its next hop. -/
def routedState : ForwardingState Unit Unit :=
  let added : ForwardingState Unit Unit :=
    { ForwardingState.initial 16 NameTree.sixteen_pos with faceTable := FaceTable.empty.add faceNew }
  let inserted := { added with tables := (Op.fibInsert [Fib.componentX]).apply churnHash added.tables }
  { inserted with tables := (Op.addOrUpdateNextHop 1 256 10).apply churnHash inserted.tables }

example : Fib.fibEntryAt routedState.tables.nameTree 1 = some ⟨[Fib.componentX], [⟨256, 10⟩]⟩ := by
  decide +kernel

def removedState : ForwardingState Unit Unit := routedState.remove 256

def readdedState : ForwardingState Unit Unit :=
  { removedState with faceTable := removedState.faceTable.add faceNew }

/-- Every step to ‘routedState’ keeps the assertion of ‘FaceTable::add’: the one add takes
id 256, and the FIB commands leave the face table alone. -/
theorem routedState_reachableAsserted : ReachableAsserted churnHash routedState := by
  refine ⟨16, NameTree.sixteen_pos, .tail (.tail (.single ⟨.add _ faceNew, fun _ => by decide⟩)
    ⟨.table _ (.fibInsert [Fib.componentX]) (by decide) ?_, fun moved => absurd rfl moved⟩)
    ⟨.table _ (.addOrUpdateNextHop 1 256 10) (by decide) ?_, fun moved => absurd rfl moved⟩⟩
  · intro id named
    cases named
  · rintro id ⟨⟩
    decide

theorem routedState_reachable : Reachable churnHash routedState :=
  routedState_reachableAsserted.reachable

theorem faces_named_of_reachable_routed :
    Reachable churnHash routedState ∧
      (∀ id face, routedState.faceTable.get id = some face → face.id = id) ∧
      (∀ nte fe, Fib.fibEntryAt routedState.tables.nameTree nte = some fe →
        ∀ nh ∈ fe.nextHops, (routedState.faceTable.get nh.face).isSome) ∧
      ∀ nte, ∀ pe ∈ ((entries routedState.tables.nameTree.ht.nodes nte).map Entry.pitEntries).getD [],
        (∀ r ∈ pe.inRecords, (routedState.faceTable.get r.face.id).isSome) ∧
          ∀ r ∈ pe.outRecords, (routedState.faceTable.get r.face.id).isSome :=
  ⟨routedState_reachable, faces_named_of_reachable routedState_reachable⟩

theorem removedState_reachableAsserted : ReachableAsserted churnHash removedState :=
  routedState_reachableAsserted.trans (.single ⟨.remove _ 256 (by decide), fun moved => absurd rfl moved⟩)

theorem add_assigns_fresh_id_removed :
    ReachableAsserted churnHash removedState ∧
      (faceNew.id = invalidFaceId ∨ removedState.faceTable.get faceNew.id = none) ∧
      removedState.faceTable.lastFaceId + 1 < FaceTable.faceIdBound ∧
      faceIdReservedMax < removedState.faceTable.lastFaceId + 1 ∧
      removedState.faceTable.get (removedState.faceTable.lastFaceId + 1) = none ∧
      NamesOnly (fun named => named ≠ removedState.faceTable.lastFaceId + 1) removedState.tables ∧
      (removedState.faceTable.add faceNew).lastFaceId = removedState.faceTable.lastFaceId + 1 ∧
      ∀ id, (removedState.faceTable.add faceNew).get id =
        if id = removedState.faceTable.lastFaceId + 1 then
          some { faceNew with id := removedState.faceTable.lastFaceId + 1 }
        else removedState.faceTable.get id :=
  have isNew : faceNew.id = invalidFaceId ∨ removedState.faceTable.get faceNew.id = none := Or.inl rfl
  have room : removedState.faceTable.lastFaceId + 1 < FaceTable.faceIdBound := by decide
  ⟨removedState_reachableAsserted, isNew, room, add_assigns_fresh_id removedState_reachableAsserted isNew room⟩

/-- Face 256 is removed, and the face added next takes 257. -/
theorem removed_faceId_not_reused_readded :
    ReachableAsserted churnHash removedState ∧
      Relation.ReflTransGen (AssertedStep churnHash) removedState readdedState ∧
      faceIdReservedMax < 256 ∧ 256 ≤ removedState.faceTable.lastFaceId ∧ removedState.faceTable.get 256 = none ∧
      readdedState.faceTable.get 256 = none ∧ NamesOnly (fun named => named ≠ 256) readdedState.tables :=
  have run : Relation.ReflTransGen (AssertedStep churnHash) removedState readdedState :=
    .single ⟨.add _ faceNew, fun _ => by decide⟩
  have aboveReserved : faceIdReservedMax < 256 := by decide
  have handedOut : 256 ≤ removedState.faceTable.lastFaceId := by decide
  have absent : removedState.faceTable.get 256 = none := by decide
  ⟨removedState_reachableAsserted, run, aboveReserved, handedOut, absent,
    removed_faceId_not_reused removedState_reachableAsserted run aboveReserved handedOut absent⟩

example : readdedState.faceTable.get 257 = some { faceNew with id := 257 } := by decide

end FaceChurn

end Nfd.Fw
