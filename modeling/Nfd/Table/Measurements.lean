import Nfd.Table.CleanupRun

/-!
# The Measurements table

`Measurements` keeps its entries on the name tree that the FIB, the PIT and the
StrategyChoice share.  `get` attaches an entry to a name tree entry that has none, with
`m_expiry` at `getInitialLifetime()` from now and a cleanup scheduled then; `extendLifetime`
moves `m_expiry` later, never earlier, cancelling the pending cleanup and scheduling one at the
new expiry; the cleanup detaches the entry, erases the name tree entry if it is left empty and
decrements `m_nItems`.

The scheduler is the one of ndn-cxx: a steady clock that never goes back, and a queue of events,
each run at or after its time.  Its only events here are the cleanups of the Measurements
entries.  Times are in milliseconds.  The strategy information an entry carries (its
`StrategyInfoHost` part) is left out.
-/

set_option autoImplicit false

namespace Nfd.Measurements

open NameTree hiding Entry
open Cleanup (Tables Op editEntry)

/-- `Measurements::getInitialLifetime()`, 4 s. -/
def initialLifetime : Nat := 4000

/-- `measurements::Entry`: its name, `m_expiry`, and `m_cleanup`, the id of its cleanup. -/
structure Entry where
  name : Name
  expiry : Nat
  cleanup : Nat
deriving DecidableEq, Repr

/-- A scheduled event: its id, its time, and the name tree entry whose Measurements entry its
callback cleans up. -/
structure Event where
  id : Nat
  time : Nat
  nte : NodeId
deriving DecidableEq, Repr

structure Scheduler where
  now : Nat
  events : List Event
  nextEventId : Nat

namespace Scheduler

/-- `schedule(after, callback)`: an event `after` from now, and its id. -/
def schedule (after : Nat) (nte : NodeId) (scheduler : Scheduler) : Nat × Scheduler :=
  (scheduler.nextEventId,
    { scheduler with
      events := scheduler.events ++ [⟨scheduler.nextEventId, scheduler.now + after, nte⟩]
      nextEventId := scheduler.nextEventId + 1 })

/-- `EventId::cancel()`. -/
def cancel (id : Nat) (scheduler : Scheduler) : Scheduler :=
  { scheduler with events := scheduler.events.filter fun event => event.id != id }

end Scheduler

/-- `nte.getMeasurementsEntry()`. -/
def getMeasurementsEntry {F P S : Type} (nt : NameTree F P Entry S) (nte : NodeId) : Option Entry :=
  (entries nt.ht.nodes nte).bind NameTree.Entry.measurementsEntry

/-- The operations of the other tables: every one but the setter only `Measurements` calls. -/
def writesMeasurements {S : Type} : Op Entry S → Bool
  | .setMeasurementsEntry _ _ => true
  | _ => false

end Nfd.Measurements

namespace Nfd

/-- The tables on the shared name tree, `m_nItems`, and the scheduler. -/
structure Measurements (S : Type) where
  tables : Cleanup.Tables Measurements.Entry S
  nItems : Nat
  scheduler : Measurements.Scheduler

end Nfd

namespace Nfd.Measurements

open NameTree hiding Entry
open Cleanup (Tables Op editEntry)

section Table

variable {S : Type}

/-- `get(nte)`. -/
def get (nte : NodeId) (m : Measurements S) : Measurements S :=
  match entries m.tables.nameTree.ht.nodes nte with
  | none => m
  | some e =>
      match e.measurementsEntry with
      | some _ => m
      | none =>
          let (cleanup, scheduler) := m.scheduler.schedule initialLifetime nte
          { tables := editEntry nte (NameTree.Entry.setMeasurementsEntry
              (some ⟨e.name, m.scheduler.now + initialLifetime, cleanup⟩)) m.tables
            nItems := m.nItems + 1
            scheduler := scheduler }

/-- `get(name)`: `get` of `lookup(name, min(name.size(), getMaxDepth()))`. -/
def getName (componentHash : Component → HashValue) (name : Name) (m : Measurements S) :
    Option NodeId × Measurements S :=
  let (nte, nameTree) := m.tables.nameTree.lookup componentHash name (min name.length getMaxDepth)
  let m := { m with tables := { m.tables with nameTree := nameTree } }
  match nte with
  | none => (none, m)
  | some nte => (some nte, m.get nte)

/-- `getParent(child)`, for the entry `child` of the name tree entry `child`: none for the root
entry, else `get` of the parent name tree entry. -/
def getParent (child : NodeId) (m : Measurements S) : Option NodeId × Measurements S :=
  match getMeasurementsEntry m.tables.nameTree child with
  | none => (none, m)
  | some entry =>
      if entry.name = [] then (none, m)
      else
        match (entries m.tables.nameTree.ht.nodes child).bind NameTree.Entry.parent with
        | none => (none, m)
        | some parent => (some parent, m.get parent)

/-- `extendLifetime(entry, lifetime)`. -/
def extendLifetime (nte : NodeId) (lifetime : Nat) (m : Measurements S) : Measurements S :=
  match getMeasurementsEntry m.tables.nameTree nte with
  | none => m
  | some entry =>
      let expiry := m.scheduler.now + lifetime
      if entry.expiry ≥ expiry then m
      else
        let (cleanup, scheduler) := (m.scheduler.cancel entry.cleanup).schedule lifetime nte
        { m with
          tables := editEntry nte
            (NameTree.Entry.setMeasurementsEntry (some { entry with expiry := expiry, cleanup := cleanup })) m.tables
          scheduler := scheduler }

/-- `cleanup(entry)`: `eraseIfEmpty` with its default `canEraseAncestors`. -/
def cleanup (nte : NodeId) (m : Measurements S) : Measurements S :=
  match entries m.tables.nameTree.ht.nodes nte with
  | none => m
  | some _ =>
      let tables := editEntry nte (NameTree.Entry.setMeasurementsEntry none) m.tables
      { m with
        tables := { tables with nameTree := (tables.nameTree.eraseIfEmpty nte true).2 }
        nItems := m.nItems - 1 }

/-- The scheduler runs an event: it leaves the queue, and its callback cleans up its entry. -/
def fire (event : Event) (m : Measurements S) : Measurements S :=
  cleanup event.nte { m with scheduler := { m.scheduler with events := m.scheduler.events.erase event } }

/-- `findExactMatch(name)`. -/
def findExactMatch (componentHash : Component → HashValue) (name : Name) (m : Measurements S) : Option Entry :=
  (m.tables.nameTree.findExactMatch componentHash name name.length).bind (getMeasurementsEntry m.tables.nameTree)

/-- `findLongestPrefixMatch(name, pred)`: the longest prefix, up to `getMaxDepth()` components,
whose name tree entry holds a Measurements entry that `pred` accepts. -/
def findLongestPrefixMatch (componentHash : Component → HashValue) (name : Name) (pred : Entry → Bool)
    (m : Measurements S) : Option Entry :=
  (m.tables.nameTree.findLongestPrefixMatch componentHash (name.take getMaxDepth)
    fun nte => nte.measurementsEntry.any pred).bind (getMeasurementsEntry m.tables.nameTree)

/-- `findLongestPrefixMatch(pitEntry, pred)`: the longest prefix match of the PIT entry's name. -/
def findLongestPrefixMatchOfPitEntry (componentHash : Component → HashValue) (pitEntry : Fw.PitEntry)
    (pred : Entry → Bool) (m : Measurements S) : Option Entry :=
  findLongestPrefixMatch componentHash pitEntry.interest.name pred m

/-- A new forwarder's tables, over an empty name tree of `nBuckets` buckets. -/
def initial (nBuckets : Nat) (positive : 0 < nBuckets) : Measurements S :=
  ⟨⟨NameTree.ofSize nBuckets positive, 0⟩, 0, ⟨0, [], 0⟩⟩

end Table

/-- The name and the Measurements entry of each name tree entry that holds one. -/
def measurementsView {F P S : Type} (nt : NameTree F P Entry S) (nte : NodeId) : Option (Name × Entry) :=
  (entries nt.ht.nodes nte).bind fun e => e.measurementsEntry.map (e.name, ·)

section Frame

variable {componentHash : Component → HashValue} {F P S : Type}

theorem getMeasurementsEntry_eq_view (nt : NameTree F P Entry S) :
    getMeasurementsEntry nt = fun nte => (measurementsView nt nte).map Prod.snd := by
  funext nte
  unfold getMeasurementsEntry measurementsView
  cases entries nt.ht.nodes nte with
  | none => rfl
  | some e =>
      simp only [Option.bind_some]
      cases e.measurementsEntry <;> rfl

theorem getMeasurementsEntry_of_view {nt nt' : NameTree F P Entry S}
    (same : measurementsView nt' = measurementsView nt) : getMeasurementsEntry nt' = getMeasurementsEntry nt := by
  rw [getMeasurementsEntry_eq_view, getMeasurementsEntry_eq_view, same]

theorem measurementsView_of_tablesView {nt nt' : NameTree F P Entry S}
    (same : tablesView (entries nt'.ht.nodes) = tablesView (entries nt.ht.nodes)) :
    measurementsView nt' = measurementsView nt :=
  funext (measurementsEntry_of_tablesView same)

theorem measurementsView_updateEntry (nt : NameTree F P Entry S) (nte : NodeId)
    (f : NameTree.Entry F P Entry S → NameTree.Entry F P Entry S)
    (keeps : ∀ e, (f e).name = e.name ∧ (f e).measurementsEntry = e.measurementsEntry) :
    measurementsView (⟨updateEntry nte f nt.ht⟩ : NameTree F P Entry S) = measurementsView nt := by
  funext y
  unfold measurementsView
  rw [entries_updateEntry]
  by_cases isNte : y = nte
  · subst isNte
    rw [Function.update_self]
    cases entries nt.ht.nodes y with
    | none => rfl
    | some e => simp [(keeps e).1, (keeps e).2]
  · rw [Function.update_of_ne isNte]

theorem measurementsView_eraseIfEmpty (nt : NameTree F P Entry S) (nte : NodeId) (canEraseAncestors : Bool) :
    measurementsView (nt.eraseIfEmpty nte canEraseAncestors).2 = measurementsView nt :=
  measurementsView_of_tablesView (tablesView_eraseIfEmpty nt nte canEraseAncestors)

theorem getMeasurementsEntry_eraseIfEmpty (nt : NameTree F P Entry S) (nte : NodeId) (canEraseAncestors : Bool) :
    getMeasurementsEntry (nt.eraseIfEmpty nte canEraseAncestors).2 = getMeasurementsEntry nt :=
  getMeasurementsEntry_of_view (measurementsView_eraseIfEmpty nt nte canEraseAncestors)

variable {tables : Tables Entry S}

theorem measurementsView_eraseEntry (nte : NodeId) (canDeleteNte : Bool) :
    measurementsView (tables.eraseEntry nte canDeleteNte).nameTree = measurementsView tables.nameTree := by
  have cleared : measurementsView (⟨updateEntry nte (NameTree.Entry.setFibEntry none) tables.nameTree.ht⟩ :
      NameTree Fib.Entry Fw.PitEntry Entry S) = measurementsView tables.nameTree :=
    measurementsView_updateEntry _ _ _ fun _ => ⟨rfl, rfl⟩
  unfold Fib.eraseEntry
  dsimp only
  split
  · rw [measurementsView_eraseIfEmpty, cleared]
  · exact cleared

theorem measurementsView_insert (valid : Valid componentHash tables.nameTree.ht) (prefixName : Name) :
    measurementsView (tables.insert componentHash prefixName).2.nameTree = measurementsView tables.nameTree := by
  obtain ⟨chains, layout⟩ := valid.layout
  have viewed := measurementsView_of_tablesView (layout.tablesView_lookup (le_refl prefixName.length))
  unfold Fib.insert
  generalize tables.nameTree.lookup componentHash prefixName prefixName.length = result at viewed
  obtain ⟨nte, nameTree⟩ := result
  dsimp only at viewed ⊢
  split
  · exact viewed
  · split
    · exact viewed
    · exact (measurementsView_updateEntry nameTree _ (NameTree.Entry.setFibEntry _) fun _ => ⟨rfl, rfl⟩).trans
        viewed

theorem measurementsView_removeNextHop (nte : NodeId) (face : Fib.FaceId) :
    measurementsView (tables.removeNextHop nte face).nameTree = measurementsView tables.nameTree := by
  unfold Fib.removeNextHop
  split
  · rfl
  · rename_i entry found
    have updated : measurementsView (⟨updateEntry nte (NameTree.Entry.setFibEntry
        (some (entry.removeNextHop face).1)) tables.nameTree.ht⟩ : NameTree Fib.Entry Fw.PitEntry Entry S) =
        measurementsView tables.nameTree :=
      measurementsView_updateEntry _ _ _ fun _ => ⟨rfl, rfl⟩
    dsimp only
    split
    · exact updated
    · split
      · exact (measurementsView_eraseEntry nte false).trans updated
      · exact updated

/-- No operation of the other tables changes a Measurements entry, or the name it is under. -/
theorem measurementsView_apply (inv : Cleanup.Invariant componentHash tables.nameTree) (op : Op Entry S)
    (allowed : op.allowed = true) (others : writesMeasurements op = false) :
    measurementsView (op.apply componentHash tables).nameTree = measurementsView tables.nameTree := by
  cases op with
  | lookup name prefixLen =>
      simp only [Cleanup.Op.allowed, decide_eq_true_eq] at allowed
      obtain ⟨chains, layout⟩ := inv.valid.layout
      exact measurementsView_of_tablesView (layout.tablesView_lookup allowed.1)
  | eraseIfEmpty nte canEraseAncestors => exact measurementsView_eraseIfEmpty _ nte canEraseAncestors
  | fibInsert prefixName => exact measurementsView_insert inv.valid prefixName
  | fibErase prefixName =>
      show measurementsView (tables.erase componentHash prefixName).nameTree = _
      unfold Fib.erase
      split
      · rfl
      · exact measurementsView_eraseEntry _ true
  | fibEraseOfEntry nte =>
      show measurementsView (tables.eraseOfEntry nte).nameTree = _
      unfold Fib.eraseOfEntry
      split
      · rfl
      · exact measurementsView_eraseEntry _ true
  | addOrUpdateNextHop nte face cost =>
      show measurementsView (tables.addOrUpdateNextHop nte face cost).1.nameTree = _
      unfold Fib.addOrUpdateNextHop
      split
      · rfl
      · refine measurementsView_updateEntry _ _ _ ?_
        intro e
        exact ⟨rfl, rfl⟩
  | removeNextHop nte face => exact measurementsView_removeNextHop nte face
  | insertPitEntry nte interest =>
      refine measurementsView_updateEntry _ _ _ ?_
      intro e
      exact ⟨rfl, rfl⟩
  | erasePitEntry nte entry canDeleteNte =>
      have erased := measurementsView_updateEntry tables.nameTree nte (NameTree.Entry.erasePitEntry entry)
        fun e => by
          unfold NameTree.Entry.erasePitEntry
          split <;> exact ⟨rfl, rfl⟩
      show measurementsView (Cleanup.pitErase nte entry canDeleteNte tables).nameTree = _
      unfold Cleanup.pitErase
      dsimp only
      split
      · exact (measurementsView_eraseIfEmpty _ nte true).trans erased
      · exact erased
  | updatePitEntry nte index op =>
      refine measurementsView_updateEntry _ _ _ ?_
      intro e
      exact ⟨rfl, rfl⟩
  | setMeasurementsEntry nte measurementsEntry => cases others
  | setStrategyChoiceEntry nte strategyChoiceEntry =>
      refine measurementsView_updateEntry _ _ _ ?_
      intro e
      exact ⟨rfl, rfl⟩
  | cleanup face =>
      -- the cleanup edits only FIB and PIT entries, and erases only entries left empty
      obtain ⟨-, same, -, -⟩ := Cleanup.cleanupOnFaceRemoval_eq inv face
      funext y
      calc measurementsView (Cleanup.cleanupOnFaceRemoval face tables).nameTree y
          = ((entries tables.nameTree.ht.nodes y).map (Cleanup.entryWithout face.id)).bind
              (fun e => e.measurementsEntry.map (e.name, ·)) := measurementsEntry_of_tablesView same y
        _ = measurementsView tables.nameTree y := by
          unfold measurementsView
          cases entries tables.nameTree.ht.nodes y <;> rfl

theorem getMeasurementsEntry_apply (inv : Cleanup.Invariant componentHash tables.nameTree) (op : Op Entry S)
    (allowed : op.allowed = true) (others : writesMeasurements op = false) :
    getMeasurementsEntry (op.apply componentHash tables).nameTree = getMeasurementsEntry tables.nameTree :=
  getMeasurementsEntry_of_view (measurementsView_apply inv op allowed others)

end Frame

section Edits

variable {F P S : Type}

/-- The name tree entries that hold a Measurements entry. -/
def holders (nt : NameTree F P Entry S) : Set NodeId := {nte | (getMeasurementsEntry nt nte).isSome}

theorem getMeasurementsEntry_setMeasurementsEntry (nt : NameTree F P Entry S) {nte : NodeId}
    {e : NameTree.Entry F P Entry S} (stored : entries nt.ht.nodes nte = some e) (entry : Option Entry) :
    getMeasurementsEntry (⟨updateEntry nte (NameTree.Entry.setMeasurementsEntry entry) nt.ht⟩ : NameTree F P Entry S) =
      Function.update (getMeasurementsEntry nt) nte entry := by
  funext y
  unfold getMeasurementsEntry
  rw [entries_updateEntry]
  by_cases isNte : y = nte
  · subst isNte
    simp [stored, NameTree.Entry.setMeasurementsEntry]
  · rw [Function.update_of_ne isNte, Function.update_of_ne isNte]

theorem measurementsView_setMeasurementsEntry (nt : NameTree F P Entry S) {nte : NodeId}
    {e : NameTree.Entry F P Entry S} (stored : entries nt.ht.nodes nte = some e) (entry : Option Entry) :
    measurementsView (⟨updateEntry nte (NameTree.Entry.setMeasurementsEntry entry) nt.ht⟩ : NameTree F P Entry S) =
      Function.update (measurementsView nt) nte (entry.map (e.name, ·)) := by
  funext y
  unfold measurementsView
  rw [entries_updateEntry]
  by_cases isNte : y = nte
  · subst isNte
    simp [stored, NameTree.Entry.setMeasurementsEntry]
  · rw [Function.update_of_ne isNte, Function.update_of_ne isNte]

theorem holders_setMeasurementsEntry_some (nt : NameTree F P Entry S) {nte : NodeId}
    {e : NameTree.Entry F P Entry S} (stored : entries nt.ht.nodes nte = some e) (entry : Entry) :
    holders (⟨updateEntry nte (NameTree.Entry.setMeasurementsEntry (some entry)) nt.ht⟩ : NameTree F P Entry S) =
      insert nte (holders nt) := by
  ext y
  simp only [holders, getMeasurementsEntry_setMeasurementsEntry nt stored, Set.mem_ofPred_eq, Set.mem_insert_iff]
  by_cases isNte : y = nte
  · subst isNte
    simp
  · simp [isNte]

theorem holders_setMeasurementsEntry_none (nt : NameTree F P Entry S) {nte : NodeId}
    {e : NameTree.Entry F P Entry S} (stored : entries nt.ht.nodes nte = some e) :
    holders (⟨updateEntry nte (NameTree.Entry.setMeasurementsEntry none) nt.ht⟩ : NameTree F P Entry S) =
      holders nt \ {nte} := by
  ext y
  simp only [holders, getMeasurementsEntry_setMeasurementsEntry nt stored, Set.mem_ofPred_eq, Set.mem_sdiff,
    Set.mem_singleton_iff]
  by_cases isNte : y = nte
  · subst isNte
    simp
  · simp [isNte]

/-- An entry that holds a Measurements entry is allocated, so there are finitely many. -/
theorem holders_finite {componentHash : Component → HashValue} {nt : NameTree F P Entry S}
    (valid : Valid componentHash nt.ht) : (holders nt).Finite := by
  obtain ⟨chains, layout⟩ := valid.layout
  refine (Set.finite_Iio nt.ht.nextNodeId).subset fun y held => ?_
  by_contra beyond
  have vacant := layout.unallocated y (Nat.le_of_not_lt beyond)
  simp [holders, getMeasurementsEntry, entries, vacant] at held

end Edits

section Lifetime

variable {S : Type} {m : Measurements S} {nte : NodeId}

theorem get_of_vacant {e : NameTree.Entry Fib.Entry Fw.PitEntry Entry S}
    (stored : entries m.tables.nameTree.ht.nodes nte = some e) (vacant : e.measurementsEntry = none) :
    m.get nte =
      ⟨editEntry nte (NameTree.Entry.setMeasurementsEntry
          (some ⟨e.name, m.scheduler.now + initialLifetime, m.scheduler.nextEventId⟩)) m.tables,
        m.nItems + 1,
        ⟨m.scheduler.now,
          m.scheduler.events ++ [⟨m.scheduler.nextEventId, m.scheduler.now + initialLifetime, nte⟩],
          m.scheduler.nextEventId + 1⟩⟩ := by
  simp only [get, stored, vacant]
  rfl

/-- `get` attaches an entry to `nte` when it holds none, and otherwise changes nothing. -/
theorem get_eq_or_attach (m : Measurements S) (nte : NodeId) :
    m.get nte = m ∨ ∃ e, entries m.tables.nameTree.ht.nodes nte = some e ∧
      getMeasurementsEntry m.tables.nameTree nte = none ∧
      m.get nte =
        ⟨editEntry nte (NameTree.Entry.setMeasurementsEntry
            (some ⟨e.name, m.scheduler.now + initialLifetime, m.scheduler.nextEventId⟩)) m.tables,
          m.nItems + 1,
          ⟨m.scheduler.now,
            m.scheduler.events ++ [⟨m.scheduler.nextEventId, m.scheduler.now + initialLifetime, nte⟩],
            m.scheduler.nextEventId + 1⟩⟩ := by
  cases stored : entries m.tables.nameTree.ht.nodes nte with
  | none =>
      left
      simp only [get, stored]
  | some e =>
      cases vacant : e.measurementsEntry with
      | some held =>
          left
          simp only [get, stored, vacant]
      | none =>
          right
          refine ⟨e, rfl, ?_, get_of_vacant stored vacant⟩
          simp [getMeasurementsEntry, stored, vacant]

theorem extendLifetime_of_later {lifetime : Nat} {entry : Entry}
    (found : getMeasurementsEntry m.tables.nameTree nte = some entry)
    (later : entry.expiry < m.scheduler.now + lifetime) :
    m.extendLifetime nte lifetime =
      ⟨editEntry nte (NameTree.Entry.setMeasurementsEntry
          (some { entry with expiry := m.scheduler.now + lifetime, cleanup := m.scheduler.nextEventId })) m.tables,
        m.nItems,
        ⟨m.scheduler.now,
          m.scheduler.events.filter (fun event => event.id != entry.cleanup) ++
            [⟨m.scheduler.nextEventId, m.scheduler.now + lifetime, nte⟩],
          m.scheduler.nextEventId + 1⟩⟩ := by
  simp only [extendLifetime, found]
  rw [if_neg (Nat.not_le_of_lt later)]
  rfl

/-- `extendLifetime` moves a later expiry in, and otherwise changes nothing. -/
theorem extendLifetime_eq_or_later (m : Measurements S) (nte : NodeId) (lifetime : Nat) :
    m.extendLifetime nte lifetime = m ∨ ∃ entry, getMeasurementsEntry m.tables.nameTree nte = some entry ∧
      entry.expiry < m.scheduler.now + lifetime ∧
      m.extendLifetime nte lifetime =
        ⟨editEntry nte (NameTree.Entry.setMeasurementsEntry
            (some { entry with expiry := m.scheduler.now + lifetime, cleanup := m.scheduler.nextEventId })) m.tables,
          m.nItems,
          ⟨m.scheduler.now,
            m.scheduler.events.filter (fun event => event.id != entry.cleanup) ++
              [⟨m.scheduler.nextEventId, m.scheduler.now + lifetime, nte⟩],
            m.scheduler.nextEventId + 1⟩⟩ := by
  cases found : getMeasurementsEntry m.tables.nameTree nte with
  | none =>
      left
      simp only [extendLifetime, found]
  | some entry =>
      by_cases later : entry.expiry < m.scheduler.now + lifetime
      · exact Or.inr ⟨entry, rfl, later, extendLifetime_of_later found later⟩
      · left
        simp only [extendLifetime, found]
        rw [if_pos (Nat.le_of_not_lt later)]

theorem cleanup_of_stored {e : NameTree.Entry Fib.Entry Fw.PitEntry Entry S}
    (stored : entries m.tables.nameTree.ht.nodes nte = some e) :
    m.cleanup nte =
      { m with
        tables := { m.tables with
          nameTree := ((editEntry nte (NameTree.Entry.setMeasurementsEntry none) m.tables).nameTree.eraseIfEmpty
            nte true).2 }
        nItems := m.nItems - 1 } := by
  simp only [cleanup, stored]
  rfl

end Lifetime

section Consistency

variable {componentHash : Component → HashValue} {S : Type} {m : Measurements S}

/-- The cleanup event of the Measurements entry of `nte`. -/
def eventOf (nte : NodeId) (entry : Entry) : Event := ⟨entry.cleanup, entry.expiry, nte⟩

/-- What every reachable state keeps: the invariant of the tables; `m_nItems` counts the name
tree entries holding a Measurements entry; the cleanup of each entry is pending, at its
`m_expiry`; every pending event is the cleanup of the entry it names; and the ids of the
events are distinct and below the next one; and each entry has the name of its name tree
entry. -/
structure Consistent (componentHash : Component → HashValue) (m : Measurements S) : Prop where
  tables : Cleanup.Invariant componentHash m.tables.nameTree
  nItems : m.nItems = (holders m.tables.nameTree).ncard
  pending : ∀ nte entry, getMeasurementsEntry m.tables.nameTree nte = some entry →
    eventOf nte entry ∈ m.scheduler.events
  ofEntry : ∀ event ∈ m.scheduler.events,
    ∃ entry, getMeasurementsEntry m.tables.nameTree event.nte = some entry ∧ eventOf event.nte entry = event
  distinct : (m.scheduler.events.map Event.id).Nodup
  fresh : ∀ event ∈ m.scheduler.events, event.id < m.scheduler.nextEventId
  named : ∀ nte name entry, measurementsView m.tables.nameTree nte = some (name, entry) → entry.name = name

/-- The only pending event that names an entry is its cleanup. -/
theorem Consistent.eq_eventOf (consistent : Consistent componentHash m) {event : Event}
    (member : event ∈ m.scheduler.events) {nte : NodeId} (names : event.nte = nte) {entry : Entry}
    (found : getMeasurementsEntry m.tables.nameTree nte = some entry) : event = eventOf nte entry := by
  obtain ⟨entry', found', isEvent⟩ := consistent.ofEntry event member
  rw [names, found] at found'
  cases found'
  rw [← isEvent, names]

/-- Two pending events with one id are one event. -/
theorem Consistent.eq_of_id (consistent : Consistent componentHash m) {event event' : Event}
    (member : event ∈ m.scheduler.events) (member' : event' ∈ m.scheduler.events) (sameId : event.id = event'.id) :
    event = event' :=
  List.inj_on_of_nodup_map consistent.distinct member member' sameId

theorem getMeasurementsEntry_stored {F P : Type} {nt : NameTree F P Entry S} {nte : NodeId} {entry : Entry}
    (found : getMeasurementsEntry nt nte = some entry) :
    ∃ e, entries nt.ht.nodes nte = some e ∧ e.measurementsEntry = some entry :=
  Option.bind_eq_some_iff.mp found

/-- Attaching an entry to `nte` with a cleanup of the next id, the events of `nte` replaced by
it: the common step of `get` and `extendLifetime`. -/
theorem Consistent.attach (consistent : Consistent componentHash m) {nte : NodeId}
    {e : NameTree.Entry Fib.Entry Fw.PitEntry Entry S} (stored : entries m.tables.nameTree.ht.nodes nte = some e)
    (entry : Entry) (fresh : entry.cleanup = m.scheduler.nextEventId) (named : entry.name = e.name)
    {kept : List Event}
    (sub : kept.Sublist m.scheduler.events) (others : ∀ event ∈ m.scheduler.events, event.nte ≠ nte → event ∈ kept)
    (gone : ∀ event ∈ kept, event.nte ≠ nte) {nItems : Nat}
    (counted : nItems = (insert nte (holders m.tables.nameTree)).ncard) :
    Consistent componentHash
      ⟨editEntry nte (NameTree.Entry.setMeasurementsEntry (some entry)) m.tables, nItems,
        ⟨m.scheduler.now, kept ++ [eventOf nte entry], m.scheduler.nextEventId + 1⟩⟩ := by
  have view := getMeasurementsEntry_setMeasurementsEntry m.tables.nameTree stored (some entry)
  constructor
  · exact consistent.tables.apply (.setMeasurementsEntry nte (some entry)) rfl
  · rw [counted]
    exact congrArg Set.ncard (holders_setMeasurementsEntry_some m.tables.nameTree stored entry).symm
  · intro y entry' found'
    simp only [editEntry, view] at found'
    by_cases isNte : y = nte
    · subst isNte
      rw [Function.update_self, Option.some.injEq] at found'
      subst found'
      exact List.mem_append_right _ (List.mem_singleton_self _)
    · rw [Function.update_of_ne isNte] at found'
      exact List.mem_append_left _ (others _ (consistent.pending y entry' found') isNte)
  · intro event member
    rcases List.mem_append.mp member with kept' | added
    · obtain ⟨entry', found', isEvent⟩ := consistent.ofEntry event (sub.subset kept')
      refine ⟨entry', ?_, isEvent⟩
      simp only [editEntry, view]
      rw [Function.update_of_ne (gone event kept')]
      exact found'
    · rw [List.mem_singleton] at added
      subst added
      refine ⟨entry, ?_, rfl⟩
      simp only [editEntry, view]
      exact Function.update_self _ _ _
  · -- the new cleanup takes the next id, above every pending one
    rw [List.map_append, List.nodup_append]
    refine ⟨(sub.map Event.id).nodup consistent.distinct, List.nodup_singleton _, ?_⟩
    intro a ofKept b ofNew
    obtain ⟨event, member, rfl⟩ := List.mem_map.mp ofKept
    rw [List.map_singleton, List.mem_singleton] at ofNew
    rw [ofNew, eventOf, fresh]
    exact Nat.ne_of_lt (consistent.fresh event (sub.subset member))
  · intro event member
    rcases List.mem_append.mp member with kept' | added
    · exact Nat.lt_succ_of_lt (consistent.fresh event (sub.subset kept'))
    · rw [List.mem_singleton] at added
      subst added
      rw [eventOf, fresh]
      exact Nat.lt_succ_self _
  · intro y name entry' viewed
    simp only [editEntry, measurementsView_setMeasurementsEntry m.tables.nameTree stored (some entry)] at viewed
    by_cases isNte : y = nte
    · subst isNte
      rw [Function.update_self, Option.map_some, Option.some.injEq, Prod.mk.injEq] at viewed
      obtain ⟨rfl, rfl⟩ := viewed
      exact named
    · rw [Function.update_of_ne isNte] at viewed
      exact consistent.named y name entry' viewed

theorem Consistent.get (consistent : Consistent componentHash m) (nte : NodeId) :
    Consistent componentHash (m.get nte) := by
  rcases Measurements.get_eq_or_attach m nte with same | ⟨e, stored, absent, attached⟩
  · rw [same]
    exact consistent
  · rw [attached]
    refine consistent.attach stored _ rfl rfl (List.Sublist.refl _) (fun event member _ => member) ?_ ?_
    · -- no pending event names an entry without a Measurements entry
      intro event member names
      obtain ⟨entry, found, -⟩ := consistent.ofEntry event member
      rw [names, absent] at found
      cases found
    · have notHeld : nte ∉ holders m.tables.nameTree := by simp [holders, absent]
      rw [Set.ncard_insert_of_notMem notHeld (holders_finite consistent.tables.valid), consistent.nItems]

theorem Consistent.extendLifetime (consistent : Consistent componentHash m) (nte : NodeId) (lifetime : Nat) :
    Consistent componentHash (m.extendLifetime nte lifetime) := by
  rcases Measurements.extendLifetime_eq_or_later m nte lifetime with same | ⟨entry, found, -, extended⟩
  · rw [same]
    exact consistent
  · obtain ⟨e, stored, held⟩ := getMeasurementsEntry_stored found
    have own := consistent.pending nte entry found
    have named : entry.name = e.name :=
      consistent.named nte e.name entry (by simp [measurementsView, stored, held])
    rw [extended]
    refine consistent.attach stored
      { entry with expiry := m.scheduler.now + lifetime, cleanup := m.scheduler.nextEventId } rfl named
      List.filter_sublist ?_ ?_ ?_
    · -- the cancel removes the cleanup of this entry only: the ids are distinct
      intro event member names
      refine List.mem_filter.mpr ⟨member, bne_iff_ne.mpr fun sameId => names ?_⟩
      rw [consistent.eq_of_id member own sameId]
      rfl
    · intro event member names
      obtain ⟨member, kept⟩ := List.mem_filter.mp member
      rw [consistent.eq_eventOf member names found] at kept
      simp [eventOf] at kept
    · rw [Set.insert_eq_of_mem (by simp [holders, found]), consistent.nItems]

theorem Consistent.fire (consistent : Consistent componentHash m) {event : Event}
    (member : event ∈ m.scheduler.events) : Consistent componentHash (m.fire event) := by
  obtain ⟨entry, found, isEvent⟩ := consistent.ofEntry event member
  obtain ⟨e, stored, -⟩ := getMeasurementsEntry_stored found
  have nodup : m.scheduler.events.Nodup := List.Nodup.of_map Event.id consistent.distinct
  have view : getMeasurementsEntry ((editEntry event.nte (NameTree.Entry.setMeasurementsEntry none)
      m.tables).nameTree.eraseIfEmpty event.nte true).2 =
      Function.update (getMeasurementsEntry m.tables.nameTree) event.nte none :=
    (getMeasurementsEntry_eraseIfEmpty _ _ _).trans (getMeasurementsEntry_setMeasurementsEntry _ stored none)
  have stored' : entries ({ m with scheduler := { m.scheduler with events := m.scheduler.events.erase event } } :
      Measurements S).tables.nameTree.ht.nodes event.nte = some e := stored
  unfold Measurements.fire
  rw [Measurements.cleanup_of_stored stored']
  constructor
  · exact (consistent.tables.apply (.setMeasurementsEntry event.nte none) rfl).eraseIfEmpty event.nte true
  · have held : event.nte ∈ holders m.tables.nameTree := by simp [holders, found]
    have detached : holders ((editEntry event.nte (NameTree.Entry.setMeasurementsEntry none)
        m.tables).nameTree.eraseIfEmpty event.nte true).2 = holders m.tables.nameTree \ {event.nte} := by
      unfold holders
      rw [getMeasurementsEntry_eraseIfEmpty]
      exact holders_setMeasurementsEntry_none m.tables.nameTree stored
    rw [detached, Set.ncard_sdiff_singleton_of_mem held, consistent.nItems]
  · intro y entry' found'
    rw [view] at found'
    by_cases isNte : y = event.nte
    · rw [isNte, Function.update_self] at found'
      cases found'
    · rw [Function.update_of_ne isNte] at found'
      refine List.mem_erase_of_ne (fun same => isNte ?_) |>.mpr (consistent.pending y entry' found')
      rw [← same]
      rfl
  · intro event' member'
    obtain ⟨other, member'⟩ := (nodup.mem_erase_iff).mp member'
    obtain ⟨entry', found', isEvent'⟩ := consistent.ofEntry event' member'
    refine ⟨entry', ?_, isEvent'⟩
    rw [view, Function.update_of_ne]
    · exact found'
    · -- the one pending event that names the entry is the one that ran
      intro names
      exact other ((consistent.eq_eventOf member' names found).trans isEvent)
  · exact ((List.erase_sublist).map Event.id).nodup consistent.distinct
  · intro event' member'
    exact consistent.fresh event' (List.mem_of_mem_erase member')
  · intro y name entry' viewed
    rw [measurementsView_eraseIfEmpty, editEntry, measurementsView_setMeasurementsEntry _ stored none,
      Option.map_none] at viewed
    by_cases isNte : y = event.nte
    · rw [isNte, Function.update_self] at viewed
      cases viewed
    · rw [Function.update_of_ne isNte] at viewed
      exact consistent.named y name entry' viewed

theorem Consistent.apply (consistent : Consistent componentHash m) (op : Op Entry S) (allowed : op.allowed = true)
    (others : writesMeasurements op = false) :
    Consistent componentHash { m with tables := op.apply componentHash m.tables } := by
  have pairs := measurementsView_apply consistent.tables op allowed others
  have view := getMeasurementsEntry_of_view pairs
  have sameHolders : holders (op.apply componentHash m.tables).nameTree = holders m.tables.nameTree := by
    unfold holders
    rw [view]
  refine ⟨consistent.tables.apply op allowed, ?_, ?_, ?_, consistent.distinct, consistent.fresh, ?_⟩
  · rw [sameHolders]
    exact consistent.nItems
  · intro nte entry found
    rw [view] at found
    exact consistent.pending nte entry found
  · intro event member
    rw [view]
    exact consistent.ofEntry event member
  · intro nte name entry viewed
    rw [pairs] at viewed
    exact consistent.named nte name entry viewed

theorem Consistent.getName (consistent : Consistent componentHash m) (name : Name) :
    Consistent componentHash (m.getName componentHash name).2 := by
  have looked : Consistent componentHash { m with tables := { m.tables with
      nameTree := (m.tables.nameTree.lookup componentHash name (min name.length getMaxDepth)).2 } } :=
    consistent.apply (.lookup name (min name.length getMaxDepth))
      (by simp [Cleanup.Op.allowed]) rfl
  unfold Measurements.getName
  generalize found : m.tables.nameTree.lookup componentHash name (min name.length getMaxDepth) = result at looked
  obtain ⟨nte, nameTree⟩ := result
  cases nte with
  | none => exact looked
  | some nte => exact looked.get nte

theorem Consistent.getParent (consistent : Consistent componentHash m) (child : NodeId) :
    Consistent componentHash (m.getParent child).2 := by
  unfold Measurements.getParent
  split
  · exact consistent
  · split
    · exact consistent
    · split
      · exact consistent
      · exact consistent.get _

theorem Consistent.advance (consistent : Consistent componentHash m) (now : Nat) :
    Consistent componentHash { m with scheduler := { m.scheduler with now := now } } :=
  ⟨consistent.tables, consistent.nItems, consistent.pending, consistent.ofEntry, consistent.distinct,
    consistent.fresh, consistent.named⟩

theorem Consistent.initial (nBuckets : Nat) (positive : 0 < nBuckets) :
    Consistent componentHash (Measurements.initial nBuckets positive : Measurements S) := by
  have vacant : ∀ nte, getMeasurementsEntry (NameTree.ofSize nBuckets positive :
      NameTree Fib.Entry Fw.PitEntry Entry S) nte = none := by
    intro nte
    simp only [getMeasurementsEntry, Cleanup.entries_ofSize, Option.bind_none]
  refine ⟨Cleanup.Invariant.empty nBuckets positive, ?_, ?_, ?_, List.nodup_nil, ?_, ?_⟩
  · have none : holders (NameTree.ofSize nBuckets positive : NameTree Fib.Entry Fw.PitEntry Entry S) = ∅ := by
      ext nte
      simp [holders, vacant nte]
    simp only [Measurements.initial, none, Set.ncard_empty]
  · intro nte entry found
    simp only [Measurements.initial, vacant nte] at found
    cases found
  · intro event member
    cases member
  · intro event member
    cases member
  · intro nte name entry viewed
    simp [Measurements.initial, measurementsView, Cleanup.entries_ofSize] at viewed

end Consistency

section Runs

variable {componentHash : Component → HashValue} {S : Type} {m m' : Measurements S}

variable (componentHash) in
/-- One step: an operation of the other tables on the name tree, a call of `Measurements`, the
clock going on, or the scheduler running a pending event whose time has come. -/
inductive Step : Measurements S → Measurements S → Prop
  | table (m : Measurements S) (op : Op Entry S) (allowed : op.allowed = true)
      (others : writesMeasurements op = false) : Step m { m with tables := op.apply componentHash m.tables }
  | getName (m : Measurements S) (name : Name) : Step m (m.getName componentHash name).2
  | get (m : Measurements S) (nte : NodeId) : Step m (m.get nte)
  | getParent (m : Measurements S) (child : NodeId) : Step m (m.getParent child).2
  | extendLifetime (m : Measurements S) (nte : NodeId) (lifetime : Nat) :
      Step m (m.extendLifetime nte lifetime)
  | advance (m : Measurements S) (now : Nat) (later : m.scheduler.now ≤ now) :
      Step m { m with scheduler := { m.scheduler with now := now } }
  | fire (m : Measurements S) (event : Event) (pending : event ∈ m.scheduler.events)
      (due : event.time ≤ m.scheduler.now) : Step m (m.fire event)

/-- The states a run of steps reaches from a new forwarder. -/
def Reachable (componentHash : Component → HashValue) (m : Measurements S) : Prop :=
  ∃ nBuckets positive, Relation.ReflTransGen (Step componentHash) (Measurements.initial nBuckets positive) m

theorem Consistent.step (consistent : Consistent componentHash m) (step : Step componentHash m m') :
    Consistent componentHash m' := by
  cases step with
  | table op allowed others => exact consistent.apply op allowed others
  | getName name => exact consistent.getName name
  | get nte => exact consistent.get nte
  | getParent child => exact consistent.getParent child
  | extendLifetime nte lifetime => exact consistent.extendLifetime nte lifetime
  | advance now later => exact consistent.advance now
  | fire event pending due => exact consistent.fire pending

theorem Reachable.step (reachable : Reachable componentHash m) (step : Step componentHash m m') :
    Reachable componentHash m' := by
  obtain ⟨nBuckets, positive, run⟩ := reachable
  exact ⟨nBuckets, positive, run.tail step⟩

theorem Reachable.trans (reachable : Reachable componentHash m)
    (run : Relation.ReflTransGen (Step componentHash) m m') : Reachable componentHash m' := by
  induction run with
  | refl => exact reachable
  | tail _ step reachable' => exact reachable'.step step

theorem Reachable.consistent (reachable : Reachable componentHash m) : Consistent componentHash m := by
  obtain ⟨nBuckets, positive, run⟩ := reachable
  induction run with
  | refl => exact Consistent.initial nBuckets positive
  | tail _ step consistent => exact consistent.step step

/-- What a step can do to the Measurements entry of one name tree entry: leave it, attach one
where there was none, move its expiry later, or detach it once its expiry has come. -/
inductive EntryChange (now : Nat) : Option Entry → Option Entry → Prop
  | keep (entry : Option Entry) : EntryChange now entry entry
  | attach (entry : Entry) : EntryChange now none (some entry)
  | extend (entry entry' : Entry) (later : entry.expiry ≤ entry'.expiry) :
      EntryChange now (some entry) (some entry')
  | detach (entry : Entry) (due : entry.expiry ≤ now) : EntryChange now (some entry) none

theorem entryChange_get (now : Nat) (m : Measurements S) (nte y : NodeId) :
    EntryChange now (getMeasurementsEntry m.tables.nameTree y) (getMeasurementsEntry (m.get nte).tables.nameTree y) := by
  rcases Measurements.get_eq_or_attach m nte with same | ⟨e, stored, absent, attached⟩
  · rw [same]
    exact .keep _
  · rw [attached]
    simp only [editEntry, getMeasurementsEntry_setMeasurementsEntry _ stored]
    by_cases isNte : y = nte
    · subst isNte
      rw [Function.update_self, absent]
      exact .attach _
    · rw [Function.update_of_ne isNte]
      exact .keep _

theorem entryChange_extendLifetime (m : Measurements S) (nte : NodeId) (lifetime : Nat) (y : NodeId) :
    EntryChange m.scheduler.now (getMeasurementsEntry m.tables.nameTree y)
      (getMeasurementsEntry (m.extendLifetime nte lifetime).tables.nameTree y) := by
  rcases Measurements.extendLifetime_eq_or_later m nte lifetime with same | ⟨entry, found, later, extended⟩
  · rw [same]
    exact .keep _
  · obtain ⟨e, stored, -⟩ := getMeasurementsEntry_stored found
    rw [extended]
    simp only [editEntry, getMeasurementsEntry_setMeasurementsEntry _ stored]
    by_cases isNte : y = nte
    · subst isNte
      rw [Function.update_self, found]
      exact .extend _ _ (Nat.le_of_lt later)
    · rw [Function.update_of_ne isNte]
      exact .keep _

/-- The scheduler runs only the cleanup of an entry, and only once its expiry has come. -/
theorem Consistent.entryChange_fire (consistent : Consistent componentHash m) {event : Event}
    (member : event ∈ m.scheduler.events) (due : event.time ≤ m.scheduler.now) (y : NodeId) :
    EntryChange m.scheduler.now (getMeasurementsEntry m.tables.nameTree y)
      (getMeasurementsEntry (m.fire event).tables.nameTree y) := by
  obtain ⟨entry, found, isEvent⟩ := consistent.ofEntry event member
  obtain ⟨e, stored, -⟩ := getMeasurementsEntry_stored found
  have stored' : entries ({ m with scheduler := { m.scheduler with events := m.scheduler.events.erase event } } :
      Measurements S).tables.nameTree.ht.nodes event.nte = some e := stored
  unfold Measurements.fire
  rw [Measurements.cleanup_of_stored stored']
  simp only [getMeasurementsEntry_eraseIfEmpty, editEntry, getMeasurementsEntry_setMeasurementsEntry _ stored]
  by_cases isNte : y = event.nte
  · rw [isNte, Function.update_self, found]
    refine .detach entry ?_
    rw [← isEvent] at due
    exact due
  · rw [Function.update_of_ne isNte]
    exact .keep _

theorem Consistent.entryChange (consistent : Consistent componentHash m) (step : Step componentHash m m')
    (y : NodeId) :
    EntryChange m.scheduler.now (getMeasurementsEntry m.tables.nameTree y) (getMeasurementsEntry m'.tables.nameTree y) := by
  cases step with
  | table op allowed others =>
      rw [getMeasurementsEntry_apply consistent.tables op allowed others]
      exact .keep _
  | getName name =>
      unfold Measurements.getName
      have looked : getMeasurementsEntry (m.tables.nameTree.lookup componentHash name (min name.length getMaxDepth)).2 =
          getMeasurementsEntry m.tables.nameTree :=
        getMeasurementsEntry_apply consistent.tables (.lookup name (min name.length getMaxDepth))
          (by simp [Cleanup.Op.allowed]) rfl
      generalize m.tables.nameTree.lookup componentHash name (min name.length getMaxDepth) = result at looked
      obtain ⟨nte, nameTree⟩ := result
      cases nte with
      | none =>
          dsimp only
          rw [looked]
          exact .keep _
      | some nte =>
          have change := entryChange_get m.scheduler.now { m with tables := { m.tables with nameTree := nameTree } } nte y
          rw [show getMeasurementsEntry ({ m with tables := { m.tables with nameTree := nameTree } } :
              Measurements S).tables.nameTree y = getMeasurementsEntry m.tables.nameTree y from congrFun looked y] at change
          exact change
  | get nte => exact entryChange_get _ m nte y
  | getParent child =>
      unfold Measurements.getParent
      split
      · exact .keep _
      · split
        · exact .keep _
        · split
          · exact .keep _
          · exact entryChange_get _ m _ y
  | extendLifetime nte lifetime => exact entryChange_extendLifetime m nte lifetime y
  | advance now later => exact .keep _
  | fire event pending due => exact consistent.entryChange_fire pending due y

theorem now_get (m : Measurements S) (nte : NodeId) : (m.get nte).scheduler.now = m.scheduler.now := by
  rcases Measurements.get_eq_or_attach m nte with same | ⟨e, -, -, attached⟩
  · rw [same]
  · rw [attached]

theorem now_extendLifetime (m : Measurements S) (nte : NodeId) (lifetime : Nat) :
    (m.extendLifetime nte lifetime).scheduler.now = m.scheduler.now := by
  rcases Measurements.extendLifetime_eq_or_later m nte lifetime with same | ⟨entry, -, -, extended⟩
  · rw [same]
  · rw [extended]

/-- The clock never goes back. -/
theorem now_le_of_step (step : Step componentHash m m') : m.scheduler.now ≤ m'.scheduler.now := by
  cases step with
  | advance now later => exact later
  | table op allowed others => exact le_rfl
  | getName name =>
      unfold Measurements.getName
      split
      split
      · exact le_rfl
      · dsimp only
        rw [now_get]
  | get nte => rw [now_get]
  | getParent child =>
      unfold Measurements.getParent
      split
      · exact le_rfl
      · split
        · exact le_rfl
        · split
          · exact le_rfl
          · dsimp only
            rw [now_get]
  | extendLifetime nte lifetime => rw [now_extendLifetime]
  | fire event pending due =>
      unfold Measurements.fire Measurements.cleanup
      split <;> exact le_rfl

end Runs

section Guarantees

variable {componentHash : Component → HashValue} {S : Type} {m m' : Measurements S}

/-- Exactly one pending event names an entry: its cleanup. -/
theorem Consistent.filter_nte (consistent : Consistent componentHash m) {nte : NodeId} {entry : Entry}
    (found : getMeasurementsEntry m.tables.nameTree nte = some entry) :
    m.scheduler.events.filter (fun event => event.nte == nte) = [eventOf nte entry] := by
  have nodup := (List.Nodup.of_map Event.id consistent.distinct).filter fun event => event.nte == nte
  have all : ∀ event ∈ m.scheduler.events.filter (fun event => event.nte == nte), event = eventOf nte entry := by
    intro event member
    obtain ⟨member, names⟩ := List.mem_filter.mp member
    exact consistent.eq_eventOf member (beq_iff_eq.mp names) found
  have present : eventOf nte entry ∈ m.scheduler.events.filter (fun event => event.nte == nte) :=
    List.mem_filter.mpr ⟨consistent.pending nte entry found, beq_self_eq_true nte⟩
  -- a list without duplicates whose members are all one event, which it holds, is that event
  have replicated := List.eq_replicate_iff.mpr ⟨rfl, all⟩
  rw [replicated] at nodup present ⊢
  have one : (m.scheduler.events.filter fun event => event.nte == nte).length = 1 :=
    Nat.le_antisymm (List.nodup_replicate.mp nodup) (Nat.pos_of_ne_zero (List.mem_replicate.mp present).1)
  rw [one, List.replicate_one]

/-- In every reachable state `m_nItems` is the number of name tree entries holding a
Measurements entry; each entry has the name of its name tree entry and exactly one pending
event, its cleanup, at its `m_expiry`; and every pending event names an entry, so the assertion
of `cleanup` holds and `--m_nItems` never runs below zero. -/
theorem measurements_consistent_of_reachable (reachable : Reachable componentHash m) :
    m.nItems = (holders m.tables.nameTree).ncard ∧
      (∀ nte e entry, entries m.tables.nameTree.ht.nodes nte = some e → e.measurementsEntry = some entry →
        entry.name = e.name ∧
          m.scheduler.events.filter (fun event => event.nte == nte) = [⟨entry.cleanup, entry.expiry, nte⟩]) ∧
      ∀ event ∈ m.scheduler.events, (getMeasurementsEntry m.tables.nameTree event.nte).isSome := by
  have consistent := reachable.consistent
  refine ⟨consistent.nItems, fun nte e entry stored held => ⟨?_, ?_⟩, fun event member => ?_⟩
  · exact consistent.named nte e.name entry (by simp [measurementsView, stored, held])
  · exact consistent.filter_nte (by simp [getMeasurementsEntry, stored, held])
  · obtain ⟨entry, found, -⟩ := consistent.ofEntry event member
    rw [found]
    rfl

/-- In every reachable state, `findLongestPrefixMatch` keyed by a name or by a PIT entry finds the
Measurements entry of the name tree's longest prefix match, whichever overload of the name tree
is asked: by the whole name, from the name tree entry of the name, or from the entry of a prefix
of the name a PIT entry is attached to. -/
theorem findLongestPrefixMatch_byEntry (reachable : Reachable componentHash m) (pred : Entry → Bool) :
    (∀ name, Measurements.findLongestPrefixMatch componentHash name pred m =
        (m.tables.nameTree.findLongestPrefixMatch componentHash name fun nte => nte.measurementsEntry.any pred).bind
          (getMeasurementsEntry m.tables.nameTree)) ∧
      (∀ nte e, entries m.tables.nameTree.ht.nodes nte = some e →
        Measurements.findLongestPrefixMatch componentHash e.name pred m =
          (m.tables.nameTree.findLongestPrefixMatchOfEntry nte fun nte => nte.measurementsEntry.any pred).bind
            (getMeasurementsEntry m.tables.nameTree)) ∧
      ∀ (pitEntry : Fw.PitEntry) nte k e, k ≤ min pitEntry.interest.name.length getMaxDepth →
        entries m.tables.nameTree.ht.nodes nte = some e → e.name = pitEntry.interest.name.take k →
        Measurements.findLongestPrefixMatchOfPitEntry componentHash pitEntry pred m =
          (m.tables.nameTree.findLongestPrefixMatchOfPitEntry componentHash nte pitEntry.interest.name
            fun nte => nte.measurementsEntry.any pred).bind (getMeasurementsEntry m.tables.nameTree) := by
  have valid := reachable.consistent.tables.valid
  -- the name cut to `getMaxDepth()` components has the longest prefix match of the whole name
  have byName : ∀ name, Measurements.findLongestPrefixMatch componentHash name pred m =
      (m.tables.nameTree.findLongestPrefixMatch componentHash name fun nte => nte.measurementsEntry.any pred).bind
        (getMeasurementsEntry m.tables.nameTree) := by
    intro name
    rw [Measurements.findLongestPrefixMatch, valid.findLongestPrefixMatch_take]
  refine ⟨byName, fun nte e stored => ?_, fun pitEntry nte k e within stored named => ?_⟩
  · rw [byName, valid.findLongestPrefixMatchOfEntry_eq stored]
  · rw [Measurements.findLongestPrefixMatchOfPitEntry, byName, valid.findLongestPrefixMatchOfPitEntry_eq within stored named]

/-- Until the clock reaches `expiry`, the name tree entry `nte` holds a Measurements entry that
expires no earlier. -/
def Kept (expiry : Nat) (nte : NodeId) (m : Measurements S) : Prop :=
  m.scheduler.now < expiry → ∃ entry, getMeasurementsEntry m.tables.nameTree nte = some entry ∧ expiry ≤ entry.expiry

theorem Kept.step {expiry : Nat} {nte : NodeId} (consistent : Consistent componentHash m) (kept : Kept expiry nte m)
    (step : Step componentHash m m') : Kept expiry nte m' := by
  intro early
  have clock := now_le_of_step step
  obtain ⟨entry, found, within⟩ := kept (Nat.lt_of_le_of_lt clock early)
  have change := consistent.entryChange step nte
  rw [found] at change
  generalize getMeasurementsEntry m'.tables.nameTree nte = after at change ⊢
  cases change with
  | keep => exact ⟨entry, rfl, within⟩
  | extend _ entry' later => exact ⟨entry', rfl, within.trans later⟩
  | detach _ due =>
      -- a cleanup runs only once its time has come, and the clock has not reached it
      exact absurd (within.trans due) (Nat.not_le_of_lt (Nat.lt_of_le_of_lt clock early))

theorem Kept.run {expiry : Nat} {nte : NodeId} (reachable : Reachable componentHash m) (kept : Kept expiry nte m)
    (run : Relation.ReflTransGen (Step componentHash) m m') : Kept expiry nte m' := by
  induction run with
  | refl => exact kept
  | tail path step kept' => exact kept'.step (reachable.trans path).consistent step

/-- From any reachable state, a Measurements entry stays, and its `m_expiry` never moves earlier,
over every run until the clock reaches its `m_expiry`: only its own cleanup removes it, and the
scheduler runs that at its time or later. -/
theorem entry_kept_until_expiry (reachable : Reachable componentHash m) {nte : NodeId} {entry : Entry}
    (found : getMeasurementsEntry m.tables.nameTree nte = some entry)
    (run : Relation.ReflTransGen (Step componentHash) m m') (early : m'.scheduler.now < entry.expiry) :
    ∃ entry', getMeasurementsEntry m'.tables.nameTree nte = some entry' ∧ entry.expiry ≤ entry'.expiry :=
  (Kept.run reachable (fun _ => ⟨entry, found, le_rfl⟩) run) early

theorem extendLifetime_kept {nte : NodeId} {entry : Entry}
    (found : getMeasurementsEntry m.tables.nameTree nte = some entry) (lifetime : Nat) :
    Kept (m.scheduler.now + lifetime) nte (m.extendLifetime nte lifetime) := by
  intro _
  by_cases later : entry.expiry < m.scheduler.now + lifetime
  · obtain ⟨e, stored, -⟩ := getMeasurementsEntry_stored found
    rw [Measurements.extendLifetime_of_later found later]
    refine ⟨{ entry with expiry := m.scheduler.now + lifetime, cleanup := m.scheduler.nextEventId }, ?_, le_rfl⟩
    simp only [editEntry, getMeasurementsEntry_setMeasurementsEntry _ stored, Function.update_self]
  · have same : m.extendLifetime nte lifetime = m := by
      simp only [Measurements.extendLifetime, found]
      rw [if_pos (Nat.le_of_not_lt later)]
    rw [same]
    exact ⟨entry, found, Nat.le_of_not_lt later⟩

/-- After `extendLifetime(entry, lifetime)` from a reachable state, the entry stays, expiring no
earlier than `lifetime` from then, over every run until the clock gets there. -/
theorem extendLifetime_keeps_entry (reachable : Reachable componentHash m) {nte : NodeId} {entry : Entry}
    (found : getMeasurementsEntry m.tables.nameTree nte = some entry) (lifetime : Nat)
    (run : Relation.ReflTransGen (Step componentHash) (m.extendLifetime nte lifetime) m')
    (early : m'.scheduler.now < m.scheduler.now + lifetime) :
    ∃ entry', getMeasurementsEntry m'.tables.nameTree nte = some entry' ∧ m.scheduler.now + lifetime ≤ entry'.expiry :=
  (Kept.run (reachable.step (.extendLifetime m nte lifetime)) (extendLifetime_kept found lifetime) run) early

theorem getName_of_lookup {name : Name} {nte : NodeId}
    (returned : (m.tables.nameTree.lookup componentHash name (min name.length getMaxDepth)).1 = some nte) :
    m.getName componentHash name =
      (some nte, Measurements.get nte { m with tables := { m.tables with
        nameTree := (m.tables.nameTree.lookup componentHash name (min name.length getMaxDepth)).2 } }) := by
  have pair : m.tables.nameTree.lookup componentHash name (min name.length getMaxDepth) =
      (some nte, (m.tables.nameTree.lookup componentHash name (min name.length getMaxDepth)).2) :=
    Prod.ext returned rfl
  unfold Measurements.getName
  rw [pair]

theorem get_holds {nte : NodeId} {e : NameTree.Entry Fib.Entry Fw.PitEntry Entry S}
    (stored : entries m.tables.nameTree.ht.nodes nte = some e) :
    (getMeasurementsEntry (m.get nte).tables.nameTree nte).isSome := by
  cases vacant : e.measurementsEntry with
  | some entry =>
      have same : m.get nte = m := by simp only [Measurements.get, stored, vacant]
      rw [same]
      simp [getMeasurementsEntry, stored, vacant]
  | none =>
      rw [Measurements.get_of_vacant stored vacant]
      simp only [editEntry, getMeasurementsEntry_setMeasurementsEntry _ stored, Function.update_self]
      rfl

/-- `get` renames nothing. -/
theorem names_get (m : Measurements S) (nte y : NodeId) :
    (entries (m.get nte).tables.nameTree.ht.nodes y).map NameTree.Entry.name =
      (entries m.tables.nameTree.ht.nodes y).map NameTree.Entry.name := by
  rcases Measurements.get_eq_or_attach m nte with same | ⟨e, stored, -, attached⟩
  · rw [same]
  · rw [attached]
    simp only [editEntry, entries_updateEntry]
    by_cases isNte : y = nte
    · subst isNte
      simp [stored, NameTree.Entry.setMeasurementsEntry]
    · rw [Function.update_of_ne isNte]

/-- `get(name)`, from any reachable state, for a name within `getMaxDepth()`: it returns the name
tree entry of the name, which then holds a Measurements entry of that name, and
`findExactMatch(name)` finds that entry. -/
theorem getName_findExactMatch (reachable : Reachable componentHash m) {name : Name}
    (short : name.length ≤ getMaxDepth) :
    ∃ nte entry, (m.getName componentHash name).1 = some nte ∧
      getMeasurementsEntry (m.getName componentHash name).2.tables.nameTree nte = some entry ∧
      entry.name = name ∧ (m.getName componentHash name).2.findExactMatch componentHash name = some entry := by
  have consistent := reachable.consistent
  have consistent' := consistent.getName name
  obtain ⟨-, q, e, returned, stored, named⟩ :
      Valid componentHash (m.tables.nameTree.lookup componentHash name (min name.length getMaxDepth)).2.ht ∧
        ∃ q e, (m.tables.nameTree.lookup componentHash name (min name.length getMaxDepth)).1 = some q ∧
          entries (m.tables.nameTree.lookup componentHash name (min name.length getMaxDepth)).2.ht.nodes q = some e ∧
          e.name = name.take (min name.length getMaxDepth) :=
    consistent.tables.valid.lookup (Nat.min_le_left _ _) (Nat.min_le_right _ _)
  rw [Nat.min_eq_left short, List.take_length] at named
  rw [getName_of_lookup returned] at consistent' ⊢
  dsimp only at consistent' ⊢
  generalize (m.tables.nameTree.lookup componentHash name (min name.length getMaxDepth)).2 = nameTree at stored consistent' ⊢
  have storedLooked : entries ({ m with tables := { m.tables with nameTree := nameTree } } :
      Measurements S).tables.nameTree.ht.nodes q = some e := stored
  -- the entry of the name keeps its name through get, and holds a Measurements entry after it
  obtain ⟨entry, found⟩ := Option.isSome_iff_exists.mp (get_holds storedLooked)
  obtain ⟨e', stored', held⟩ := getMeasurementsEntry_stored found
  have renamed : e'.name = name := by
    have sameName := names_get { m with tables := { m.tables with nameTree := nameTree } } q q
    rw [stored', storedLooked, Option.map_some, Option.map_some, Option.some.injEq] at sameName
    rw [sameName, named]
  refine ⟨q, entry, rfl, found, ?_, ?_⟩
  · rw [← renamed]
    exact consistent'.named q e'.name entry (by simp [measurementsView, stored', held])
  · have exact := (consistent'.tables.valid.findExactMatch_eq_some_iff_name name q).mpr ⟨e', stored', renamed⟩
    simp only [Measurements.findExactMatch, exact, Option.bind_some]
    exact found

end Guarantees

section LifetimeRun

def measurementsHash : Component → HashValue := fun c => UInt64.ofNat c.type

/-- `get(/X)` at time 0: the entry of ‘/X’, name tree entry 1, expires at 4000. -/
def measuredState : Measurements Unit :=
  ((Measurements.initial 16 NameTree.sixteen_pos : Measurements Unit).getName measurementsHash [Fib.componentX]).2

def laterState : Measurements Unit :=
  { measuredState with scheduler := { measuredState.scheduler with now := 1000 } }

/-- At 1000, `extendLifetime` by 8 s. -/
def extendedState : Measurements Unit := laterState.extendLifetime 1 8000

/-- At 5000, past the first expiry. -/
def pastState : Measurements Unit :=
  { extendedState with scheduler := { extendedState.scheduler with now := 5000 } }

theorem laterState_reachable : Reachable measurementsHash laterState :=
  ⟨16, NameTree.sixteen_pos, .tail (.single (.getName _ [Fib.componentX])) (.advance _ 1000 (by decide +kernel))⟩

theorem measurements_consistent_of_reachable_extended :
    Reachable measurementsHash extendedState ∧
      extendedState.nItems = (holders extendedState.tables.nameTree).ncard ∧
      (∀ nte e entry, entries extendedState.tables.nameTree.ht.nodes nte = some e →
        e.measurementsEntry = some entry → entry.name = e.name ∧
          extendedState.scheduler.events.filter (fun event => event.nte == nte) =
            [⟨entry.cleanup, entry.expiry, nte⟩]) ∧
      ∀ event ∈ extendedState.scheduler.events, (getMeasurementsEntry extendedState.tables.nameTree event.nte).isSome :=
  have reachable : Reachable measurementsHash extendedState := laterState_reachable.step (.extendLifetime _ 1 8000)
  ⟨reachable, measurements_consistent_of_reachable reachable⟩

theorem entry_kept_until_expiry_extended :
    Reachable measurementsHash laterState ∧
      getMeasurementsEntry laterState.tables.nameTree 1 = some ⟨[Fib.componentX], 4000, 0⟩ ∧
      Relation.ReflTransGen (Step measurementsHash) laterState extendedState ∧
      extendedState.scheduler.now < 4000 ∧
      ∃ entry', getMeasurementsEntry extendedState.tables.nameTree 1 = some entry' ∧ 4000 ≤ entry'.expiry :=
  have found : getMeasurementsEntry laterState.tables.nameTree 1 = some ⟨[Fib.componentX], 4000, 0⟩ := by
    decide +kernel
  have run : Relation.ReflTransGen (Step measurementsHash) laterState extendedState :=
    .single (.extendLifetime _ 1 8000)
  have early : extendedState.scheduler.now < 4000 := by decide +kernel
  ⟨laterState_reachable, found, run, early, entry_kept_until_expiry laterState_reachable found run early⟩

/-- At 5000 the entry, which `get` gave 4000, is there, and expires at 9000. -/
theorem extendLifetime_keeps_entry_past :
    Reachable measurementsHash laterState ∧
      getMeasurementsEntry laterState.tables.nameTree 1 = some ⟨[Fib.componentX], 4000, 0⟩ ∧
      Relation.ReflTransGen (Step measurementsHash) (laterState.extendLifetime 1 8000) pastState ∧
      pastState.scheduler.now < laterState.scheduler.now + 8000 ∧
      ∃ entry', getMeasurementsEntry pastState.tables.nameTree 1 = some entry' ∧
        laterState.scheduler.now + 8000 ≤ entry'.expiry :=
  have found : getMeasurementsEntry laterState.tables.nameTree 1 = some ⟨[Fib.componentX], 4000, 0⟩ := by
    decide +kernel
  have run : Relation.ReflTransGen (Step measurementsHash) (laterState.extendLifetime 1 8000) pastState :=
    .single (.advance _ 5000 (by decide +kernel))
  have early : pastState.scheduler.now < laterState.scheduler.now + 8000 := by decide +kernel
  ⟨laterState_reachable, found, run, early, extendLifetime_keeps_entry laterState_reachable found 8000 run early⟩

example : getMeasurementsEntry pastState.tables.nameTree 1 = some ⟨[Fib.componentX], 9000, 1⟩ ∧
    pastState.scheduler.events = [⟨1, 9000, 1⟩] := by
  decide +kernel

theorem getName_findExactMatch_later :
    Reachable measurementsHash laterState ∧ [Fib.componentY].length ≤ getMaxDepth ∧
      ∃ nte entry, (laterState.getName measurementsHash [Fib.componentY]).1 = some nte ∧
        getMeasurementsEntry (laterState.getName measurementsHash [Fib.componentY]).2.tables.nameTree nte =
          some entry ∧
        entry.name = [Fib.componentY] ∧
        (laterState.getName measurementsHash [Fib.componentY]).2.findExactMatch measurementsHash
          [Fib.componentY] = some entry :=
  have short : [Fib.componentY].length ≤ getMaxDepth := by decide
  ⟨laterState_reachable, short, getName_findExactMatch laterState_reachable short⟩

end LifetimeRun

end Nfd.Measurements
