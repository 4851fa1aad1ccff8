import Nfd.Table.Cleanup
import Nfd.Fw.Forwarder

/-!
# Cleanup from every reachable state of the tables

The states of the tables that share a name tree are those a run of their operations reaches
from an empty name tree: `lookup` and `eraseIfEmpty`, the FIB's `insert`, `erase`,
`addOrUpdateNextHop` and `removeNextHop`, the insertion and erasure of PIT entries and the methods
of `pit::Entry` that edit them, the setters of the Measurements and StrategyChoice entries, and
`cleanupOnFaceRemoval` itself.  `Pit::insert` is a `lookup` followed by `insertPitEntry` at the
entry it returns, so each of its runs is a run of these operations.

Every such state keeps `Invariant`: a well-formed name tree whose FIB entries have next hops of
distinct faces and whose PIT entries have at most one in-record and one out-record per face.
From it `cleanupOnFaceRemoval_eq` gives what the cleanup does.
-/

set_option autoImplicit false

namespace Nfd.Cleanup

open NameTree

variable {M S : Type}

section Records

/-- The methods of `pit::Entry` the forwarding pipelines call, and the fields they set. -/
inductive RecordOp where
  | insertOrUpdateInRecord (face : Fw.Face) (interest : Fw.Interest) (now : Nat)
  | insertOrUpdateOutRecord (face : Fw.Face) (interest : Fw.Interest) (now : Nat)
  | deleteInRecord (face : Fw.Face)
  | deleteOutRecord (face : Fw.Face)
  | clearInRecords
  | setSatisfied (isSatisfied : Bool)
  | setDataFreshnessPeriod (dataFreshnessPeriod : Nat)
  | setExpiryTimer (duration : Nat)

def RecordOp.apply : RecordOp → Fw.PitEntry → Fw.PitEntry
  | .insertOrUpdateInRecord face interest now => Fw.PitEntry.insertOrUpdateInRecord face interest now
  | .insertOrUpdateOutRecord face interest now => Fw.PitEntry.insertOrUpdateOutRecord face interest now
  | .deleteInRecord face => Fw.PitEntry.deleteInRecord face
  | .deleteOutRecord face => Fw.PitEntry.deleteOutRecord face
  | .clearInRecords => Fw.PitEntry.clearInRecords
  | .setSatisfied isSatisfied => fun entry => { entry with isSatisfied := isSatisfied }
  | .setDataFreshnessPeriod dataFreshnessPeriod => fun entry =>
      { entry with dataFreshnessPeriod := dataFreshnessPeriod }
  | .setExpiryTimer duration => fun entry => Fw.Forwarder.setExpiryTimer entry duration

/-- Updating the elements of key `k` in place, or putting a new one of key `k` in front when
there is none, keeps the keys distinct. -/
theorem nodup_map_insertOrUpdate {α : Type} (key : α → Nat) (k : Nat) (update : α → α) (fresh : α)
    (keepsKey : ∀ r, key (update r) = key r) (freshKey : key fresh = k) {l : List α}
    (unique : (l.map key).Nodup) :
    ((if l.any (key · == k) then l.map fun r => if key r == k then update r else r
      else fresh :: l).map key).Nodup := by
  split
  · have sameKeys : (l.map fun r => if key r == k then update r else r).map key = l.map key := by
      rw [List.map_map]
      refine List.map_congr_left fun r _ => ?_
      simp only [Function.comp_apply]
      split <;> simp [keepsKey]
    rwa [sameKeys]
  · rename_i absent
    rw [List.map_cons, List.nodup_cons, freshKey]
    refine ⟨fun member => absent ?_, unique⟩
    obtain ⟨r, mem, keyIs⟩ := List.mem_map.mp member
    exact List.any_eq_true.mpr ⟨r, mem, by simp [keyIs]⟩

theorem inRecords_insertOrUpdateInRecord (face : Fw.Face) (interest : Fw.Interest) (now : Nat)
    (entry : Fw.PitEntry) :
    (entry.insertOrUpdateInRecord face interest now).inRecords =
      if entry.inRecords.any (·.face.id == face.id) then
        entry.inRecords.map fun r => if r.face.id == face.id then Fw.InRecord.update interest now r else r
      else Fw.InRecord.update interest now ⟨face, 0, 0, 0, interest⟩ :: entry.inRecords := by
  unfold Fw.PitEntry.insertOrUpdateInRecord
  split <;> rfl

theorem outRecords_insertOrUpdateOutRecord (face : Fw.Face) (interest : Fw.Interest) (now : Nat)
    (entry : Fw.PitEntry) :
    (entry.insertOrUpdateOutRecord face interest now).outRecords =
      if entry.outRecords.any (·.face.id == face.id) then
        entry.outRecords.map fun r => if r.face.id == face.id then Fw.OutRecord.update interest now r else r
      else Fw.OutRecord.update interest now ⟨face, 0, 0, 0⟩ :: entry.outRecords := by
  unfold Fw.PitEntry.insertOrUpdateOutRecord
  split <;> rfl

theorem outRecords_insertOrUpdateInRecord (face : Fw.Face) (interest : Fw.Interest) (now : Nat)
    (entry : Fw.PitEntry) : (entry.insertOrUpdateInRecord face interest now).outRecords = entry.outRecords := by
  unfold Fw.PitEntry.insertOrUpdateInRecord
  split <;> rfl

theorem inRecords_insertOrUpdateOutRecord (face : Fw.Face) (interest : Fw.Interest) (now : Nat)
    (entry : Fw.PitEntry) : (entry.insertOrUpdateOutRecord face interest now).inRecords = entry.inRecords := by
  unfold Fw.PitEntry.insertOrUpdateOutRecord
  split <;> rfl

/-- Each method keeps the records of a PIT entry unique per face. -/
theorem RecordOp.recordsUnique_apply (op : RecordOp) {entry : Fw.PitEntry} (unique : entry.RecordsUnique) :
    (op.apply entry).RecordsUnique := by
  cases op with
  | insertOrUpdateInRecord face interest now =>
      rw [RecordOp.apply]
      refine ⟨?_, by rw [outRecords_insertOrUpdateInRecord]; exact unique.outRecords⟩
      rw [inRecords_insertOrUpdateInRecord]
      exact nodup_map_insertOrUpdate (fun r : Fw.InRecord => r.face.id) face.id
        (Fw.InRecord.update interest now) _ (fun _ => rfl) rfl unique.inRecords
  | insertOrUpdateOutRecord face interest now =>
      rw [RecordOp.apply]
      refine ⟨by rw [inRecords_insertOrUpdateOutRecord]; exact unique.inRecords, ?_⟩
      rw [outRecords_insertOrUpdateOutRecord]
      exact nodup_map_insertOrUpdate (fun r : Fw.OutRecord => r.face.id) face.id
        (Fw.OutRecord.update interest now) _ (fun _ => rfl) rfl unique.outRecords
  | deleteInRecord face => exact unique.deleteInRecord face
  | deleteOutRecord face =>
      refine ⟨unique.inRecords, ?_⟩
      rw [RecordOp.apply, Fw.PitEntry.outRecords_deleteOutRecord unique]
      exact unique.outRecords.sublist (List.filter_sublist.map _)
  | clearInRecords => exact ⟨List.nodup_nil, unique.outRecords⟩
  | setSatisfied isSatisfied => exact ⟨unique.inRecords, unique.outRecords⟩
  | setDataFreshnessPeriod dataFreshnessPeriod => exact ⟨unique.inRecords, unique.outRecords⟩
  | setExpiryTimer duration => exact ⟨unique.inRecords, unique.outRecords⟩

end Records

section Operations

/-- The operations of the tables on the name tree they share. -/
inductive Op (M S : Type) where
  | lookup (name : Name) (prefixLen : Nat)
  | eraseIfEmpty (nte : NodeId) (canEraseAncestors : Bool)
  | fibInsert (prefixName : Name)
  | fibErase (prefixName : Name)
  | fibEraseOfEntry (nte : Option NodeId)
  | addOrUpdateNextHop (nte : NodeId) (face : Fib.FaceId) (cost : Nat)
  | removeNextHop (nte : NodeId) (face : Fib.FaceId)
  | insertPitEntry (nte : NodeId) (interest : Fw.Interest)
  | erasePitEntry (nte : NodeId) (entry : Fw.PitEntry) (canDeleteNte : Bool)
  | updatePitEntry (nte : NodeId) (index : Nat) (op : RecordOp)
  | setMeasurementsEntry (nte : NodeId) (measurementsEntry : Option M)
  | setStrategyChoiceEntry (nte : NodeId) (strategyChoiceEntry : Option S)
  | cleanup (face : Fw.Face)

/-- The assertions of `lookup`, which `Fib::insert` calls with the whole prefix. -/
def Op.allowed : Op M S → Bool
  | .lookup name prefixLen => decide (prefixLen ≤ name.length ∧ prefixLen ≤ getMaxDepth)
  | .fibInsert prefixName => decide (prefixName.length ≤ getMaxDepth)
  | _ => true

/-- `Pit::erase(entry, canDeleteNte)` on the PIT entries of `nte`. -/
def pitErase (nte : NodeId) (entry : Fw.PitEntry) (canDeleteNte : Bool) (tables : Tables M S) :
    Tables M S :=
  let nameTree : NameTree Fib.Entry Fw.PitEntry M S :=
    ⟨updateEntry nte (Entry.erasePitEntry entry) tables.nameTree.ht⟩
  { tables with nameTree := if canDeleteNte then (nameTree.eraseIfEmpty nte true).2 else nameTree }

/-- Edit the name tree entry `nte` of the tables. -/
def editEntry (nte : NodeId) (f : Entry Fib.Entry Fw.PitEntry M S → Entry Fib.Entry Fw.PitEntry M S)
    (tables : Tables M S) : Tables M S :=
  { tables with nameTree := ⟨updateEntry nte f tables.nameTree.ht⟩ }

def Op.apply (componentHash : Component → HashValue) : Op M S → Tables M S → Tables M S
  | .lookup name prefixLen, tables =>
      { tables with nameTree := (tables.nameTree.lookup componentHash name prefixLen).2 }
  | .eraseIfEmpty nte canEraseAncestors, tables =>
      { tables with nameTree := (tables.nameTree.eraseIfEmpty nte canEraseAncestors).2 }
  | .fibInsert prefixName, tables => (tables.insert componentHash prefixName).2
  | .fibErase prefixName, tables => tables.erase componentHash prefixName
  | .fibEraseOfEntry nte, tables => tables.eraseOfEntry nte
  | .addOrUpdateNextHop nte face cost, tables => (tables.addOrUpdateNextHop nte face cost).1
  | .removeNextHop nte face, tables => tables.removeNextHop nte face
  | .insertPitEntry nte interest, tables =>
      editEntry nte (Entry.insertPitEntry (Fw.PitEntry.ofInterest interest)) tables
  | .erasePitEntry nte entry canDeleteNte, tables => pitErase nte entry canDeleteNte tables
  | .updatePitEntry nte index op, tables =>
      editEntry nte (fun e => { e with pitEntries := e.pitEntries.modify index op.apply }) tables
  | .setMeasurementsEntry nte measurementsEntry, tables =>
      editEntry nte (Entry.setMeasurementsEntry measurementsEntry) tables
  | .setStrategyChoiceEntry nte strategyChoiceEntry, tables =>
      editEntry nte (Entry.setStrategyChoiceEntry strategyChoiceEntry) tables
  | .cleanup face, tables => cleanupOnFaceRemoval face tables

def run (componentHash : Component → HashValue) (ops : List (Op M S)) (tables : Tables M S) :
    Tables M S :=
  ops.foldl (fun tables op => op.apply componentHash tables) tables

/-- Tables some run of the operations, within their assertions, reaches from an empty name
tree. -/
def Reachable (componentHash : Component → HashValue) (tables : Tables M S) : Prop :=
  ∃ nBuckets positive ops, ops.all Op.allowed = true ∧
    tables = run componentHash ops ⟨NameTree.ofSize nBuckets positive, 0⟩

end Operations

section Preserve

variable {componentHash : Component → HashValue} {nt : NameTree Fib.Entry Fw.PitEntry M S}
  {tables : Tables M S}

theorem EntryOk.of_tables {e e' : Entry Fib.Entry Fw.PitEntry M S} (ok : EntryOk e)
    (same : e'.tables = e.tables) : EntryOk e' := by
  simp only [Entry.tables, Prod.mk.injEq] at same
  exact ⟨same.1 ▸ ok.facesDistinct, same.2.1 ▸ ok.recordsUnique⟩

theorem EntryOk.of_hasTableEntries {e : Entry Fib.Entry Fw.PitEntry M S}
    (holdsNone : e.hasTableEntries = false) : EntryOk e := by
  constructor
  · simp [Entry.fibEntry_of_hasTableEntries holdsNone]
  · simp [Entry.pitEntries_of_hasTableEntries holdsNone]

/-- The entries of a store are `EntryOk` when those of a store with the same view are: an entry
that holds table entries holds those of an entry of the other store, and one that holds none is
`EntryOk` as it is. -/
theorem entryOk_of_tablesView {E E' : NodeId → Option (Entry Fib.Entry Fw.PitEntry M S)}
    (same : tablesView E' = tablesView E) (ok : ∀ y e, E y = some e → EntryOk e) :
    ∀ y e, E' y = some e → EntryOk e :=
  forall_of_tablesView (fun _ _ sameTables ok => ok.of_tables sameTables)
    (fun _ holdsNone => EntryOk.of_hasTableEntries holdsNone) same ok

theorem Invariant.of_tablesView (inv : Invariant componentHash nt)
    {nt' : NameTree Fib.Entry Fw.PitEntry M S} (valid : Valid componentHash nt'.ht)
    (same : tablesView (entries nt'.ht.nodes) = tablesView (entries nt.ht.nodes)) :
    Invariant componentHash nt' :=
  ⟨valid, entryOk_of_tablesView same inv.entryOk⟩

theorem Invariant.updateEntry (inv : Invariant componentHash nt) (nte : NodeId)
    {f : Entry Fib.Entry Fw.PitEntry M S → Entry Fib.Entry Fw.PitEntry M S} (keeps : KeepsTree f)
    (keepsOk : ∀ e, EntryOk e → EntryOk (f e)) : Invariant componentHash ⟨updateEntry nte f nt.ht⟩ :=
  ⟨inv.valid.updateEntry nte keeps, entryOk_updateEntry inv.entryOk nte keepsOk⟩

theorem Invariant.lookup (inv : Invariant componentHash nt) {name : Name} {prefixLen : Nat}
    (withinName : prefixLen ≤ name.length) (shallow : prefixLen ≤ getMaxDepth) :
    Invariant componentHash (nt.lookup componentHash name prefixLen).2 := by
  obtain ⟨chains, layout⟩ := inv.valid.layout
  exact inv.of_tablesView (inv.valid.lookup withinName shallow).1 (layout.tablesView_lookup withinName)

theorem Invariant.eraseIfEmpty (inv : Invariant componentHash nt) (nte : NodeId)
    (canEraseAncestors : Bool) : Invariant componentHash (nt.eraseIfEmpty nte canEraseAncestors).2 :=
  inv.of_tablesView (inv.valid.eraseIfEmpty nte canEraseAncestors)
    (tablesView_eraseIfEmpty nt nte canEraseAncestors)

theorem entries_ofSize (nBuckets : Nat) (positive : 0 < nBuckets) (y : NodeId) :
    entries (NameTree.ofSize nBuckets positive : NameTree Fib.Entry Fw.PitEntry M S).ht.nodes y = none := by
  simp [entries, NameTree.ofSize, Hashtable.ofOptions, Hashtable.computeThresholds]

theorem Invariant.empty (nBuckets : Nat) (positive : 0 < nBuckets) :
    Invariant componentHash (NameTree.ofSize nBuckets positive : NameTree Fib.Entry Fw.PitEntry M S) := by
  refine ⟨Valid.ofOptions _, fun y e stored => ?_⟩
  rw [entries_ofSize] at stored
  cases stored

end Preserve

section Fib

variable {componentHash : Component → HashValue} {nt : NameTree Fib.Entry Fw.PitEntry M S}
  {tables : Tables M S}

theorem Invariant.facesDistinct (inv : Invariant componentHash nt) {nte : NodeId} {fe : Fib.Entry}
    (found : Fib.fibEntryAt nt nte = some fe) : fe.FacesDistinct := by
  rw [fibEntryAt_eq, Option.bind_eq_some_iff] at found
  obtain ⟨e, stored, held⟩ := found
  exact (inv.entryOk nte e stored).facesDistinct fe held

theorem Invariant.setFibEntry (inv : Invariant componentHash nt) (nte : NodeId)
    {fibEntry : Option Fib.Entry} (distinct : ∀ fe ∈ fibEntry, fe.FacesDistinct) :
    Invariant componentHash ⟨NameTree.updateEntry nte (Entry.setFibEntry fibEntry) nt.ht⟩ :=
  inv.updateEntry nte (keepsTree_setFibEntry fibEntry) fun _ ok => ⟨distinct, ok.recordsUnique⟩

/-- `Entry::addOrUpdateNextHop` keeps the faces of the next hops distinct: up to order they are
those of the other faces and the face. -/
theorem facesDistinct_addOrUpdateNextHop {entry : Fib.Entry} (distinct : entry.FacesDistinct)
    (face : Fib.FaceId) (cost : Nat) : (entry.addOrUpdateNextHop face cost).1.FacesDistinct := by
  unfold Fib.Entry.FacesDistinct
  rw [((Fib.Entry.addOrUpdateNextHop_perm face cost distinct).map Fib.NextHop.face).nodup_iff,
    List.map_append, List.nodup_append]
  refine ⟨distinct.sublist (List.filter_sublist.map _), List.nodup_singleton _, fun a inKept b inNew => ?_⟩
  obtain ⟨nh, kept, rfl⟩ := List.mem_map.mp inKept
  rw [List.map_singleton, List.mem_singleton] at inNew
  subst inNew
  simpa using (List.mem_filter.mp kept).2

theorem Invariant.insert (inv : Invariant componentHash tables.nameTree) {prefixName : Name}
    (shallow : prefixName.length ≤ getMaxDepth) :
    Invariant componentHash (tables.insert componentHash prefixName).2.nameTree := by
  have looked := inv.lookup (le_refl prefixName.length) shallow
  unfold Fib.insert
  generalize tables.nameTree.lookup componentHash prefixName prefixName.length = result at looked
  obtain ⟨nte, nameTree⟩ := result
  dsimp only at looked ⊢
  -- the entry `lookup` returns gets a FIB entry without next hops, unless it has one
  split
  · exact looked
  · split
    · exact looked
    · exact looked.setFibEntry _ fun fe held => by
        cases held
        exact List.nodup_nil

theorem Invariant.eraseEntry (inv : Invariant componentHash tables.nameTree) (nte : NodeId)
    (canDeleteNte : Bool) : Invariant componentHash (tables.eraseEntry nte canDeleteNte).nameTree := by
  have cleared := inv.setFibEntry nte fun fe (held : fe ∈ (none : Option Fib.Entry)) => by cases held
  unfold Fib.eraseEntry
  dsimp only
  split
  · exact cleared.eraseIfEmpty nte true
  · exact cleared

theorem Invariant.erase (inv : Invariant componentHash tables.nameTree) (prefixName : Name) :
    Invariant componentHash (tables.erase componentHash prefixName).nameTree := by
  unfold Fib.erase
  split
  · exact inv
  · exact inv.eraseEntry _ true

theorem Invariant.eraseOfEntry (inv : Invariant componentHash tables.nameTree) (nte : Option NodeId) :
    Invariant componentHash (tables.eraseOfEntry nte).nameTree := by
  unfold Fib.eraseOfEntry
  split
  · exact inv
  · exact inv.eraseEntry _ true

theorem Invariant.addOrUpdateNextHop (inv : Invariant componentHash tables.nameTree) (nte : NodeId)
    (face : Fib.FaceId) (cost : Nat) :
    Invariant componentHash (tables.addOrUpdateNextHop nte face cost).1.nameTree := by
  unfold Fib.addOrUpdateNextHop
  split
  · exact inv
  · rename_i entry found
    exact inv.setFibEntry nte fun fe held => by
      cases held
      exact facesDistinct_addOrUpdateNextHop (inv.facesDistinct found) face cost

theorem Invariant.removeNextHop (inv : Invariant componentHash tables.nameTree) (nte : NodeId)
    (face : Fib.FaceId) : Invariant componentHash (tables.removeNextHop nte face).nameTree := by
  cases found : Fib.fibEntryAt tables.nameTree nte with
  | none =>
      simp only [Fib.removeNextHop, found]
      exact inv
  | some fe =>
      have distinct := inv.facesDistinct found
      rw [removeNextHop_eq_without found distinct face]
      exact inv.setFibEntry nte (facesDistinct_fibEntryWithout distinct face)

end Fib

section Pit

variable {componentHash : Component → HashValue} {nt : NameTree Fib.Entry Fw.PitEntry M S}
  {tables : Tables M S}

/-- `erasePitEntry` leaves PIT entries of the entry only. -/
theorem mem_erasePitEntry {F P : Type} [DecidableEq P] {p q : P} {e : Entry F P M S}
    (member : p ∈ (Entry.erasePitEntry q e).pitEntries) : p ∈ e.pitEntries := by
  unfold Entry.erasePitEntry at member
  split at member
  · exact member
  · rename_i i found
    exact List.erase_subset ((SwapPop.perm_erase found _).mem_iff.mp member)

/-- An element of `l.modify i f` is an element of `l` or the image of one. -/
theorem mem_modify {α : Type} {f : α → α} {l : List α} {i : Nat} {x : α} (member : x ∈ l.modify i f) :
    x ∈ l ∨ ∃ y ∈ l, x = f y := by
  obtain ⟨j, within, rfl⟩ := List.getElem_of_mem member
  have inside : j < l.length := by simpa using within
  rw [List.getElem_modify]
  split
  · exact Or.inr ⟨l[j], List.getElem_mem inside, rfl⟩
  · exact Or.inl (List.getElem_mem inside)

/-- An edit of the PIT entries of an entry that leaves only PIT entries with unique records
keeps it `EntryOk`. -/
theorem EntryOk.editPitEntries {e : Entry Fib.Entry Fw.PitEntry M S} (ok : EntryOk e)
    {pitEntries : List Fw.PitEntry} (unique : ∀ pe ∈ pitEntries, pe.RecordsUnique) :
    EntryOk { e with pitEntries := pitEntries } :=
  ⟨ok.facesDistinct, unique⟩

theorem Invariant.insertPitEntry (inv : Invariant componentHash nt) (nte : NodeId) (interest : Fw.Interest) :
    Invariant componentHash
      ⟨NameTree.updateEntry nte (Entry.insertPitEntry (Fw.PitEntry.ofInterest interest)) nt.ht⟩ :=
  inv.updateEntry nte (keepsTree_insertPitEntry _) fun _ ok => ok.editPitEntries fun pe member => by
    rcases List.mem_append.mp member with old | new
    · exact ok.recordsUnique pe old
    · rw [List.mem_singleton.mp new]
      exact ⟨List.nodup_nil, List.nodup_nil⟩

theorem Invariant.erasePitEntry (inv : Invariant componentHash nt) (nte : NodeId) (entry : Fw.PitEntry) :
    Invariant componentHash ⟨NameTree.updateEntry nte (Entry.erasePitEntry entry) nt.ht⟩ :=
  inv.updateEntry nte (keepsTree_erasePitEntry _) fun e ok =>
    have kept : EntryOk { e with pitEntries := (Entry.erasePitEntry entry e).pitEntries } :=
      ok.editPitEntries fun pe member => ok.recordsUnique pe (mem_erasePitEntry member)
    -- `erasePitEntry` edits the PIT entries only
    have same : (Entry.erasePitEntry entry e) = { e with pitEntries := (Entry.erasePitEntry entry e).pitEntries } := by
      unfold Entry.erasePitEntry
      split <;> rfl
    same ▸ kept

theorem Invariant.pitErase (inv : Invariant componentHash tables.nameTree) (nte : NodeId)
    (entry : Fw.PitEntry) (canDeleteNte : Bool) :
    Invariant componentHash (pitErase nte entry canDeleteNte tables).nameTree := by
  have erased := inv.erasePitEntry nte entry
  unfold Cleanup.pitErase
  dsimp only
  split
  · exact erased.eraseIfEmpty nte true
  · exact erased

theorem Invariant.updatePitEntry (inv : Invariant componentHash nt) (nte index : NodeId) (op : RecordOp) :
    Invariant componentHash
      ⟨NameTree.updateEntry nte (fun e => { e with pitEntries := e.pitEntries.modify index op.apply }) nt.ht⟩ :=
  inv.updateEntry nte (fun _ => ⟨rfl, rfl, rfl⟩) fun _ ok => ok.editPitEntries fun pe member => by
    rcases mem_modify member with old | ⟨pe0, old, rfl⟩
    · exact ok.recordsUnique pe old
    · exact op.recordsUnique_apply (ok.recordsUnique pe0 old)

end Pit

section Run

variable {componentHash : Component → HashValue} {tables : Tables M S}

/-- The cleanup keeps the invariant: the tables then see the entries as `entryWithout` leaves
them, and those are `EntryOk`. -/
theorem Invariant.cleanupOnFaceRemoval (inv : Invariant componentHash tables.nameTree) (face : Fw.Face) :
    Invariant componentHash (cleanupOnFaceRemoval face tables).nameTree := by
  obtain ⟨valid, same, -, -⟩ := cleanupOnFaceRemoval_eq inv face
  refine ⟨valid, entryOk_of_tablesView same fun y e stored => ?_⟩
  obtain ⟨e0, stored0, rfl⟩ := Option.map_eq_some_iff.mp stored
  exact (inv.entryOk y e0 stored0).entryWithout face.id

theorem Invariant.apply (inv : Invariant componentHash tables.nameTree) (op : Op M S)
    (allowed : op.allowed = true) : Invariant componentHash (op.apply componentHash tables).nameTree := by
  cases op with
  | lookup name prefixLen =>
      simp only [Op.allowed, decide_eq_true_eq] at allowed
      exact inv.lookup allowed.1 allowed.2
  | eraseIfEmpty nte canEraseAncestors => exact inv.eraseIfEmpty nte canEraseAncestors
  | fibInsert prefixName =>
      simp only [Op.allowed, decide_eq_true_eq] at allowed
      exact inv.insert allowed
  | fibErase prefixName => exact inv.erase prefixName
  | fibEraseOfEntry nte => exact inv.eraseOfEntry nte
  | addOrUpdateNextHop nte face cost => exact inv.addOrUpdateNextHop nte face cost
  | removeNextHop nte face => exact inv.removeNextHop nte face
  | insertPitEntry nte interest => exact inv.insertPitEntry nte interest
  | erasePitEntry nte entry canDeleteNte => exact inv.pitErase nte entry canDeleteNte
  | updatePitEntry nte index op => exact inv.updatePitEntry nte index op
  | setMeasurementsEntry nte measurementsEntry =>
      exact inv.updateEntry nte (keepsTree_setMeasurementsEntry _) fun _ ok =>
        ⟨ok.facesDistinct, ok.recordsUnique⟩
  | setStrategyChoiceEntry nte strategyChoiceEntry =>
      exact inv.updateEntry nte (keepsTree_setStrategyChoiceEntry _) fun _ ok =>
        ⟨ok.facesDistinct, ok.recordsUnique⟩
  | cleanup face => exact inv.cleanupOnFaceRemoval face

theorem Invariant.run (inv : Invariant componentHash tables.nameTree) (ops : List (Op M S))
    (allowed : ops.all Op.allowed = true) : Invariant componentHash (run componentHash ops tables).nameTree := by
  induction ops generalizing tables with
  | nil => exact inv
  | cons op rest inductionHypothesis =>
      simp only [List.all_cons, Bool.and_eq_true] at allowed
      exact inductionHypothesis (inv.apply op allowed.1) allowed.2

theorem Reachable.invariant (reachable : Reachable componentHash tables) :
    Invariant componentHash tables.nameTree := by
  obtain ⟨nBuckets, positive, ops, allowed, rfl⟩ := reachable
  exact (Invariant.empty nBuckets positive).run ops allowed

end Run

section Edits

/-! What each operation can make of the FIB entry and the PIT entries of an entry: the cleanup
edits every entry, each other operation at most one, and an entry that holds table entries
afterwards holds them at the address it had, or was new.  A property of entries that these two
decide is kept by every operation that keeps it under its edits. -/

variable {componentHash : Component → HashValue} {tables : Tables M S}

/-- The FIB entry and the PIT entries an entry holds. -/
def held (e : Entry Fib.Entry Fw.PitEntry M S) : Option Fib.Entry × List Fw.PitEntry :=
  (e.fibEntry, e.pitEntries)

/-- What an operation can make of the FIB entry and the PIT entries of an entry. -/
def Op.edits : Op M S → Option Fib.Entry × List Fw.PitEntry → Option Fib.Entry × List Fw.PitEntry → Prop
  | .fibInsert prefixName, (fib, pit), (fib', pit') =>
      pit' = pit ∧ (fib' = fib ∨ fib' = some ⟨prefixName, []⟩)
  | .fibErase _, (fib, pit), (fib', pit') => pit' = pit ∧ (fib' = fib ∨ fib' = none)
  | .fibEraseOfEntry _, (fib, pit), (fib', pit') => pit' = pit ∧ (fib' = fib ∨ fib' = none)
  | .addOrUpdateNextHop _ face cost, (fib, pit), (fib', pit') =>
      pit' = pit ∧ (fib' = fib ∨ ∃ fe, fib = some fe ∧ fib' = some (fe.addOrUpdateNextHop face cost).1)
  | .removeNextHop _ face, (fib, pit), (fib', pit') =>
      pit' = pit ∧ (fib' = fib ∨ ∃ fe, fib = some fe ∧ fib' = fibEntryWithout face fe)
  | .insertPitEntry _ interest, (fib, pit), (fib', pit') =>
      fib' = fib ∧ (pit' = pit ∨ pit' = pit ++ [Fw.PitEntry.ofInterest interest])
  | .erasePitEntry _ _ _, (fib, pit), (fib', pit') => fib' = fib ∧ ∀ pe ∈ pit', pe ∈ pit
  | .updatePitEntry _ index op, (fib, pit), (fib', pit') =>
      fib' = fib ∧ (pit' = pit ∨ pit' = pit.modify index op.apply)
  | .cleanup face, (fib, pit), (fib', pit') =>
      fib' = fib.bind (fibEntryWithout face.id) ∧ pit' = pit.map (pitEntryWithout face.id)
  | _, (fib, pit), (fib', pit') => fib' = fib ∧ pit' = pit

/-- Each entry of `E'` holds what `R` makes of what the entry of `E` at its address holds, or of
nothing. -/
def Traced (E E' : NodeId → Option (Entry Fib.Entry Fw.PitEntry M S))
    (R : Option Fib.Entry × List Fw.PitEntry → Option Fib.Entry × List Fw.PitEntry → Prop) : Prop :=
  ∀ y e', E' y = some e' → ∃ s, (s = (none, []) ∨ ∃ e, E y = some e ∧ s = held e) ∧ R s (held e')

variable {E E' E'' : NodeId → Option (Entry Fib.Entry Fw.PitEntry M S)}
  {R R' : Option Fib.Entry × List Fw.PitEntry → Option Fib.Entry × List Fw.PitEntry → Prop}

theorem held_of_hasTableEntries {e : Entry Fib.Entry Fw.PitEntry M S} (holdsNone : e.hasTableEntries = false) :
    held e = (none, []) := by
  rw [held, Entry.fibEntry_of_hasTableEntries holdsNone, Entry.pitEntries_of_hasTableEntries holdsNone]

theorem held_of_tables {e e' : Entry Fib.Entry Fw.PitEntry M S} (same : e'.tables = e.tables) :
    held e' = held e := by
  simp only [Entry.tables, Prod.mk.injEq] at same
  rw [held, held, same.1, same.2.1]

theorem traced_of_tablesView (same : tablesView E' = tablesView E) : Traced E E' Eq := by
  intro y e' stored'
  cases holds : e'.hasTableEntries
  · exact ⟨_, Or.inl rfl, (held_of_hasTableEntries holds).symm⟩
  · obtain ⟨e, stored, -, sameTables⟩ := tablesView_stored same.symm stored' holds
    exact ⟨held e, Or.inr ⟨e, stored, rfl⟩, held_of_tables sameTables⟩

theorem Traced.mono (traced : Traced E E' R) (weaker : ∀ s s', R s s' → R' s s') : Traced E E' R' := by
  intro y e' stored'
  obtain ⟨s, source, related⟩ := traced y e' stored'
  exact ⟨s, source, weaker s _ related⟩

theorem traced_self (E : NodeId → Option (Entry Fib.Entry Fw.PitEntry M S)) (refl : ∀ s, R s s) :
    Traced E E R :=
  (traced_of_tablesView rfl).mono fun s _ same => same ▸ refl s

/-- A store seen the same as a traced one is traced the same. -/
theorem Traced.trans_tablesView (traced : Traced E E' R) (same : tablesView E'' = tablesView E')
    (vacant : R (none, []) (none, [])) : Traced E E'' R := by
  intro y e'' stored''
  obtain ⟨s, source, sameHeld⟩ := traced_of_tablesView same y e'' stored''
  rcases source with rfl | ⟨e', stored', rfl⟩
  · exact ⟨_, Or.inl rfl, sameHeld ▸ vacant⟩
  · obtain ⟨s, source, related⟩ := traced y e' stored'
    exact ⟨s, source, sameHeld ▸ related⟩

/-- What is traced from a store seen the same as `E` is traced from `E`. -/
theorem Traced.tablesView_trans (same : tablesView E' = tablesView E) (traced : Traced E' E'' R) :
    Traced E E'' R := by
  intro y e'' stored''
  obtain ⟨s', source', related⟩ := traced y e'' stored''
  rcases source' with rfl | ⟨e', stored', rfl⟩
  · exact ⟨_, Or.inl rfl, related⟩
  · obtain ⟨s, source, sameHeld⟩ := traced_of_tablesView same y e' stored'
    exact ⟨s, source, sameHeld ▸ related⟩

/-- An edit of the entry at `id` is traced by a relation that holds of it and of every entry
left as it is. -/
theorem traced_updateEntry (ht : Hashtable Fib.Entry Fw.PitEntry M S) (id : NodeId)
    {f : Entry Fib.Entry Fw.PitEntry M S → Entry Fib.Entry Fw.PitEntry M S}
    (step : ∀ e, entries ht.nodes id = some e → R (held e) (held (f e))) (refl : ∀ s, R s s) :
    Traced (entries ht.nodes) (entries (updateEntry id f ht).nodes) R := by
  intro y e' stored'
  rw [entries_updateEntry, update_eq_some_iff] at stored'
  rcases stored' with ⟨rfl, edited⟩ | ⟨-, stored⟩
  · obtain ⟨e, stored, rfl⟩ := Option.map_eq_some_iff.mp edited
    exact ⟨held e, Or.inr ⟨e, stored, rfl⟩, step e stored⟩
  · exact ⟨held e', Or.inr ⟨e', stored, rfl⟩, refl _⟩

/-- Every entry traced from entries with a property has it, when the relation keeps it and an
entry without table entries has it. -/
theorem Traced.forall (traced : Traced E E' R) (Q : Option Fib.Entry × List Fw.PitEntry → Prop)
    (vacant : Q (none, [])) (all : ∀ y e, E y = some e → Q (held e)) (keeps : ∀ s s', Q s → R s s' → Q s') :
    ∀ y e', E' y = some e' → Q (held e') := by
  intro y e' stored'
  obtain ⟨s, source, related⟩ := traced y e' stored'
  rcases source with rfl | ⟨e, stored, rfl⟩
  · exact keeps _ _ vacant related
  · exact keeps _ _ (all y e stored) related

end Edits


section Traces

variable {componentHash : Component → HashValue} {tables : Tables M S}

theorem traced_eraseEntry (nte : NodeId) (canDeleteNte : Bool)
    {R : Option Fib.Entry × List Fw.PitEntry → Option Fib.Entry × List Fw.PitEntry → Prop}
    (cleared : ∀ e : Entry Fib.Entry Fw.PitEntry M S, R (held e) (held (Entry.setFibEntry none e)))
    (refl : ∀ s, R s s) :
    Traced (entries tables.nameTree.ht.nodes) (entries (tables.eraseEntry nte canDeleteNte).nameTree.ht.nodes) R := by
  have updated := traced_updateEntry tables.nameTree.ht nte (fun e _ => cleared e) refl
  unfold Fib.eraseEntry
  dsimp only
  split
  · exact updated.trans_tablesView (tablesView_eraseIfEmpty _ nte true) (refl _)
  · exact updated

theorem traced_insert (valid : Valid componentHash tables.nameTree.ht) (prefixName : Name) :
    Traced (entries tables.nameTree.ht.nodes) (entries (tables.insert componentHash prefixName).2.nameTree.ht.nodes)
      (Op.edits (.fibInsert prefixName : Op M S)) := by
  obtain ⟨chains, layout⟩ := valid.layout
  have viewed : tablesView (entries (tables.nameTree.lookup componentHash prefixName prefixName.length).2.ht.nodes) =
      tablesView (entries tables.nameTree.ht.nodes) :=
    layout.tablesView_lookup (le_refl prefixName.length)
  unfold Fib.insert
  generalize tables.nameTree.lookup componentHash prefixName prefixName.length = result at viewed
  obtain ⟨nte, nameTree⟩ := result
  dsimp only at viewed ⊢
  have kept : Traced (entries tables.nameTree.ht.nodes) (entries nameTree.ht.nodes)
      (Op.edits (.fibInsert prefixName : Op M S)) :=
    (traced_of_tablesView viewed).mono fun s s' same => by
      subst same
      exact ⟨rfl, Or.inl rfl⟩
  -- the entry `lookup` returns gets a FIB entry without next hops, unless it has one
  split
  · exact kept
  · split
    · exact kept
    · exact Traced.tablesView_trans viewed
        (traced_updateEntry _ _ (fun e _ => ⟨rfl, Or.inr rfl⟩) fun _ => ⟨rfl, Or.inl rfl⟩)

theorem traced_erase (prefixName : Name) :
    Traced (entries tables.nameTree.ht.nodes) (entries (tables.erase componentHash prefixName).nameTree.ht.nodes)
      (Op.edits (.fibErase prefixName : Op M S)) := by
  have kept : Traced (entries tables.nameTree.ht.nodes) (entries tables.nameTree.ht.nodes)
      (Op.edits (.fibErase prefixName : Op M S)) :=
    traced_self _ fun _ => ⟨rfl, Or.inl rfl⟩
  unfold Fib.erase
  split
  · exact kept
  · exact traced_eraseEntry _ true (fun _ => ⟨rfl, Or.inr rfl⟩) fun _ => ⟨rfl, Or.inl rfl⟩

theorem traced_eraseOfEntry (nte : Option NodeId) :
    Traced (entries tables.nameTree.ht.nodes) (entries (tables.eraseOfEntry nte).nameTree.ht.nodes)
      (Op.edits (.fibEraseOfEntry nte : Op M S)) := by
  unfold Fib.eraseOfEntry
  split
  · exact traced_self _ fun _ => ⟨rfl, Or.inl rfl⟩
  · exact traced_eraseEntry _ true (fun _ => ⟨rfl, Or.inr rfl⟩) fun _ => ⟨rfl, Or.inl rfl⟩

theorem traced_addOrUpdateNextHop (nte : NodeId) (face : Fib.FaceId) (cost : Nat) :
    Traced (entries tables.nameTree.ht.nodes)
      (entries (tables.addOrUpdateNextHop nte face cost).1.nameTree.ht.nodes)
      (Op.edits (.addOrUpdateNextHop nte face cost : Op M S)) := by
  unfold Fib.addOrUpdateNextHop
  split
  · exact traced_self _ fun _ => ⟨rfl, Or.inl rfl⟩
  · rename_i entry found
    refine traced_updateEntry _ nte (fun e stored => ⟨rfl, Or.inr ⟨entry, ?_, rfl⟩⟩) fun _ => ⟨rfl, Or.inl rfl⟩
    rw [fibEntryAt_eq, stored, Option.bind_some] at found
    exact found

theorem traced_removeNextHop (inv : Invariant componentHash tables.nameTree) (nte : NodeId) (face : Fib.FaceId) :
    Traced (entries tables.nameTree.ht.nodes) (entries (tables.removeNextHop nte face).nameTree.ht.nodes)
      (Op.edits (.removeNextHop nte face : Op M S)) := by
  cases found : Fib.fibEntryAt tables.nameTree nte with
  | none =>
      simp only [Fib.removeNextHop, found]
      exact traced_self _ fun _ => ⟨rfl, Or.inl rfl⟩
  | some fe =>
      rw [removeNextHop_eq_without found (inv.facesDistinct found) face]
      refine traced_updateEntry _ nte (fun e stored => ⟨rfl, Or.inr ⟨fe, ?_, rfl⟩⟩) fun _ => ⟨rfl, Or.inl rfl⟩
      rw [fibEntryAt_eq, stored, Option.bind_some] at found
      exact found

theorem erasePitEntry_fibEntry (entry : Fw.PitEntry) (e : Entry Fib.Entry Fw.PitEntry M S) :
    (Entry.erasePitEntry entry e).fibEntry = e.fibEntry := by
  unfold Entry.erasePitEntry
  split <;> rfl

theorem traced_pitErase (nte : NodeId) (entry : Fw.PitEntry) (canDeleteNte : Bool) :
    Traced (entries tables.nameTree.ht.nodes) (entries (pitErase nte entry canDeleteNte tables).nameTree.ht.nodes)
      (Op.edits (.erasePitEntry nte entry canDeleteNte : Op M S)) := by
  have updated : Traced (entries tables.nameTree.ht.nodes)
      (entries (updateEntry nte (Entry.erasePitEntry entry) tables.nameTree.ht).nodes)
      (Op.edits (.erasePitEntry nte entry canDeleteNte : Op M S)) :=
    traced_updateEntry _ nte (fun e _ => ⟨erasePitEntry_fibEntry entry e, fun _ member => mem_erasePitEntry member⟩)
      fun _ => ⟨rfl, fun _ member => member⟩
  unfold Cleanup.pitErase
  dsimp only
  split
  · exact updated.trans_tablesView (tablesView_eraseIfEmpty _ nte true) ⟨rfl, fun _ member => member⟩
  · exact updated

/-- What every operation makes of the entries, from a state that keeps the invariant. -/
theorem Invariant.traced_apply (inv : Invariant componentHash tables.nameTree) (op : Op M S)
    (allowed : op.allowed = true) :
    Traced (entries tables.nameTree.ht.nodes) (entries (op.apply componentHash tables).nameTree.ht.nodes)
      op.edits := by
  cases op with
  | lookup name prefixLen =>
      simp only [Op.allowed, decide_eq_true_eq] at allowed
      obtain ⟨chains, layout⟩ := inv.valid.layout
      exact (traced_of_tablesView (layout.tablesView_lookup allowed.1)).mono fun s s' same => by
        subst same
        exact ⟨rfl, rfl⟩
  | eraseIfEmpty nte canEraseAncestors =>
      exact (traced_of_tablesView (tablesView_eraseIfEmpty _ nte canEraseAncestors)).mono fun s s' same => by
        subst same
        exact ⟨rfl, rfl⟩
  | fibInsert prefixName => exact traced_insert inv.valid prefixName
  | fibErase prefixName => exact traced_erase prefixName
  | fibEraseOfEntry nte => exact traced_eraseOfEntry nte
  | addOrUpdateNextHop nte face cost => exact traced_addOrUpdateNextHop nte face cost
  | removeNextHop nte face => exact traced_removeNextHop inv nte face
  | insertPitEntry nte interest =>
      exact traced_updateEntry _ nte (fun _ _ => ⟨rfl, Or.inr rfl⟩) fun _ => ⟨rfl, Or.inl rfl⟩
  | erasePitEntry nte entry canDeleteNte => exact traced_pitErase nte entry canDeleteNte
  | updatePitEntry nte index op =>
      exact traced_updateEntry _ nte (fun _ _ => ⟨rfl, Or.inr rfl⟩) fun _ => ⟨rfl, Or.inl rfl⟩
  | setMeasurementsEntry nte measurementsEntry =>
      exact traced_updateEntry _ nte (fun _ _ => ⟨rfl, rfl⟩) fun _ => ⟨rfl, rfl⟩
  | setStrategyChoiceEntry nte strategyChoiceEntry =>
      exact traced_updateEntry _ nte (fun _ _ => ⟨rfl, rfl⟩) fun _ => ⟨rfl, rfl⟩
  | cleanup face =>
      obtain ⟨-, same, -, -⟩ := cleanupOnFaceRemoval_eq inv face
      have mapped : Traced (entries tables.nameTree.ht.nodes)
          (fun y => (entries tables.nameTree.ht.nodes y).map (entryWithout face.id))
          (Op.edits (.cleanup face : Op M S)) := by
        intro y e' stored'
        obtain ⟨e, stored, rfl⟩ := Option.map_eq_some_iff.mp stored'
        exact ⟨held e, Or.inr ⟨e, stored, rfl⟩, rfl, rfl⟩
      exact mapped.trans_tablesView same ⟨rfl, rfl⟩

end Traces

section Guarantees

variable {componentHash : Component → HashValue} {tables : Tables M S}

/-- The FIB entries whose only next hop is on `face`, among the allocated addresses. -/
def removedCount (face : Fw.Face) (tables : Tables M S) : Nat :=
  ((List.range tables.nameTree.ht.nextNodeId).filter fun nte =>
    (Fib.fibEntryAt tables.nameTree nte).any fun fe =>
      decide (fe.nextHops.map Fib.NextHop.face = [face.id])).length

theorem ne_face_of_fibEntryWithout {face : Nat} {fe fe' : Fib.Entry} (without : fibEntryWithout face fe = some fe') :
    ∀ nh ∈ fe'.nextHops, nh.face ≠ face := by
  unfold fibEntryWithout at without
  split at without
  · cases without
  · cases without
    intro nh member
    simpa using (List.mem_filter.mp member).2

theorem fibEntryWithout_eq_none_iff {face : Nat} {fe : Fib.Entry} :
    fibEntryWithout face fe = none ↔ fe.nextHops.map Fib.NextHop.face = [face] := by
  unfold fibEntryWithout
  split
  · rename_i only
    exact ⟨fun _ => only, fun _ => rfl⟩
  · rename_i notOnly
    constructor
    · intro gone
      cases gone
    · intro only
      exact absurd only notOnly

theorem ne_face_of_pitEntryWithout (face : Nat) (pe : Fw.PitEntry) :
    (∀ r ∈ (pitEntryWithout face pe).inRecords, r.face.id ≠ face) ∧
      ∀ r ∈ (pitEntryWithout face pe).outRecords, r.face.id ≠ face := by
  constructor <;> intro r member <;> simpa using (List.mem_filter.mp member).2

theorem fibEntryAt_cleanupOnFaceRemoval (inv : Invariant componentHash tables.nameTree) (face : Fw.Face)
    (nte : NodeId) :
    Fib.fibEntryAt (cleanupOnFaceRemoval face tables).nameTree nte =
      (Fib.fibEntryAt tables.nameTree nte).bind (fibEntryWithout face.id) := by
  obtain ⟨-, same, -, -⟩ := cleanupOnFaceRemoval_eq inv face
  rw [fibEntryAt_eq, fibEntryAt_eq, fibEntry_of_tablesView same nte]
  cases entries tables.nameTree.ht.nodes nte <;> rfl

theorem pitEntries_cleanupOnFaceRemoval (inv : Invariant componentHash tables.nameTree) (face : Fw.Face)
    (nte : NodeId) :
    ((entries (cleanupOnFaceRemoval face tables).nameTree.ht.nodes nte).map Entry.pitEntries).getD [] =
      (((entries tables.nameTree.ht.nodes nte).map Entry.pitEntries).getD []).map (pitEntryWithout face.id) := by
  obtain ⟨-, same, -, -⟩ := cleanupOnFaceRemoval_eq inv face
  rw [pitEntries_of_tablesView same nte]
  cases entries tables.nameTree.ht.nodes nte <;> rfl

variable (componentHash) in
/-- What `cleanupOnFaceRemoval` leaves of the tables: no next hop and no record of the face, the
FIB entries and the PIT entries as they were without them, exactly the FIB entries whose only
next hop was on the face erased and counted off `m_nItems` in `size_t` arithmetic, no empty name
tree entry, and a well-formed name tree. -/
structure CleanupSpec (face : Fw.Face) (tables : Tables M S) : Prop where
  noNextHop : ∀ nte fe, Fib.fibEntryAt (cleanupOnFaceRemoval face tables).nameTree nte = some fe →
    ∀ nh ∈ fe.nextHops, nh.face ≠ face.id
  noRecord : ∀ nte, ∀ pe ∈ ((entries (cleanupOnFaceRemoval face tables).nameTree.ht.nodes nte).map
      Entry.pitEntries).getD [],
    (∀ r ∈ pe.inRecords, r.face.id ≠ face.id) ∧ ∀ r ∈ pe.outRecords, r.face.id ≠ face.id
  fibEntries : ∀ nte, Fib.fibEntryAt (cleanupOnFaceRemoval face tables).nameTree nte =
    (Fib.fibEntryAt tables.nameTree nte).bind (fibEntryWithout face.id)
  removed : ∀ nte, ((Fib.fibEntryAt tables.nameTree nte).isSome ∧
      Fib.fibEntryAt (cleanupOnFaceRemoval face tables).nameTree nte = none) ↔
    (Fib.fibEntryAt tables.nameTree nte).any fun fe => decide (fe.nextHops.map Fib.NextHop.face = [face.id])
  pitEntries : ∀ nte, ((entries (cleanupOnFaceRemoval face tables).nameTree.ht.nodes nte).map
      Entry.pitEntries).getD [] =
    (((entries tables.nameTree.ht.nodes nte).map Entry.pitEntries).getD []).map (pitEntryWithout face.id)
  nItems : (cleanupOnFaceRemoval face tables).nItems =
    tables.nItems - Fin.ofNat Fib.sizeBound (removedCount face tables)
  nonEmpty : ∀ nte e, entries (cleanupOnFaceRemoval face tables).nameTree.ht.nodes nte = some e →
    e.isEmpty = false
  wellFormed : WellFormed componentHash (cleanupOnFaceRemoval face tables).nameTree

theorem cleanupOnFaceRemoval_spec (reachable : Reachable componentHash tables) (face : Fw.Face) :
    CleanupSpec componentHash face tables := by
  have inv := reachable.invariant
  obtain ⟨valid, -, counted, nonEmpty⟩ := cleanupOnFaceRemoval_eq inv face
  have fibEntries := fibEntryAt_cleanupOnFaceRemoval inv face
  have pitEntries := pitEntries_cleanupOnFaceRemoval inv face
  refine ⟨fun nte fe found => ?_, fun nte pe member => ?_, fibEntries, fun nte => ?_, pitEntries,
    counted, nonEmpty, valid.wellFormed⟩
  · rw [fibEntries, Option.bind_eq_some_iff] at found
    obtain ⟨fe0, -, without⟩ := found
    exact ne_face_of_fibEntryWithout without
  · rw [pitEntries] at member
    obtain ⟨pe0, -, rfl⟩ := List.mem_map.mp member
    exact ne_face_of_pitEntryWithout face.id pe0
  · -- a FIB entry goes exactly when `fibEntryWithout` leaves nothing of it
    rw [fibEntries]
    cases Fib.fibEntryAt tables.nameTree nte with
    | none => simp
    | some fe => simp [fibEntryWithout_eq_none_iff]

/-- In every reachable state of the tables the name tree is well formed, the next hops of each FIB
entry are on distinct faces, and each PIT entry has at most one in-record and one out-record per
face. -/
theorem tables_wellFormed_of_reachable (reachable : Reachable componentHash tables) :
    WellFormed componentHash tables.nameTree ∧
      (∀ nte fe, Fib.fibEntryAt tables.nameTree nte = some fe → fe.FacesDistinct) ∧
      ∀ nte, ∀ pe ∈ ((entries tables.nameTree.ht.nodes nte).map Entry.pitEntries).getD [],
        pe.RecordsUnique := by
  have inv := reachable.invariant
  refine ⟨inv.valid.wellFormed, fun _ _ found => inv.facesDistinct found, fun nte pe member => ?_⟩
  cases stored : entries tables.nameTree.ht.nodes nte with
  | none => simp [stored] at member
  | some e =>
      rw [stored, Option.map_some, Option.getD_some] at member
      exact (inv.entryOk nte e stored).recordsUnique pe member

end Guarantees

section FaceGap

/-- `insert(/X)`, `insert(/X/Y/Z)` and `erase(/X/Y)`, then face 1 at cost 10 as the only next hop
of the FIB entries of `/X` and `/X/Y/Z`. -/
def faceGapOps : List (Op Unit Unit) :=
  [.fibInsert [Fib.componentX], .fibInsert [Fib.componentX, Fib.componentY, Fib.componentZ],
    .fibErase [Fib.componentX, Fib.componentY], .addOrUpdateNextHop 1 1 10, .addOrUpdateNextHop 3 1 10]

def faceGapTables : Tables Unit Unit :=
  run (fun c => UInt64.ofNat c.type) faceGapOps ⟨NameTree.ofSize 16 NameTree.sixteen_pos, 0⟩

def faceOne : Fw.Face := ⟨1, .nonLocal, .pointToPoint⟩

theorem cleanupOnFaceRemoval_spec_faceGap :
    Reachable (fun c => UInt64.ofNat c.type) faceGapTables ∧
      CleanupSpec (fun c => UInt64.ofNat c.type) faceOne faceGapTables :=
  have reachable : Reachable (fun c => UInt64.ofNat c.type) faceGapTables :=
    ⟨16, NameTree.sixteen_pos, faceGapOps, by decide, rfl⟩
  ⟨reachable, cleanupOnFaceRemoval_spec reachable faceOne⟩

theorem tables_wellFormed_of_reachable_faceGap :
    Reachable (fun c => UInt64.ofNat c.type) faceGapTables ∧
      WellFormed (fun c => UInt64.ofNat c.type) faceGapTables.nameTree ∧
      (∀ nte fe, Fib.fibEntryAt faceGapTables.nameTree nte = some fe → fe.FacesDistinct) ∧
      ∀ nte, ∀ pe ∈ ((entries faceGapTables.nameTree.ht.nodes nte).map Entry.pitEntries).getD [],
        pe.RecordsUnique :=
  have reachable : Reachable (fun c => UInt64.ofNat c.type) faceGapTables :=
    ⟨16, NameTree.sixteen_pos, faceGapOps, by decide, rfl⟩
  ⟨reachable, tables_wellFormed_of_reachable reachable⟩

/- After the gap of `Fib::erase(prefix)`, `m_nItems` is below the number of FIB entries the
cleanup erases, so its decrements run past zero and it wraps to the largest `size_t`. -/
example : faceGapTables.size = 1 ∧ removedCount faceOne faceGapTables = 2 ∧
    (cleanupOnFaceRemoval faceOne faceGapTables).size = 2 ^ 64 - 1 := by
  decide +kernel

end FaceGap

end Nfd.Cleanup
