import Nfd.Table.Cs
import Mathlib.Data.List.Nodup

/-!
# The priority-FIFO policy

`PriorityFifoPolicy` keeps three queues, in the order of eviction: unsolicited entries,
stale entries, fresh entries; `m_entryInfoMap` records the queue of each entry.  An entry
is attached to the back of the queue its flags choose when it is inserted or refreshed,
a fresh entry moves to the back of the stale queue when its freshness timer fires, and the
front of the first nonempty queue is evicted while the table is over the limit.  An
attached fresh entry holds a timer, cancelled when the entry is detached, so a timer fires
only for an entry of the fresh queue.

The monitor (`observe`) ranks an entry 0 when unsolicited, 1 when stale, 2 when fresh,
and ages it from when it took that rank; a fresh entry becomes stale on the table's event
for the end of its freshness, not on anything the policy does.  The bookkeeping is the table, each entry once in
the queue of its rank, ordered by age (`Books`), so the front of the first nonempty queue
is the designated entry.
-/

set_option autoImplicit false

namespace Nfd.Cs.PriorityFifo

inductive QueueType where
  | unsolicited
  | stale
  | fifo
deriving DecidableEq, Repr

/-- The index of the queue in `m_queues`, which is the order of eviction. -/
def QueueType.rank : QueueType → Nat
  | .unsolicited => 0
  | .stale => 1
  | .fifo => 2

/-- `m_queues` and `m_entryInfoMap`, the latter with the queue of each entry; the
position in the queue and the timer of an `EntryInfo` are where the key sits in its queue
and whether that queue is the fresh one. -/
structure State where
  queues : QueueType → List Key
  entryInfoMap : Key → Option QueueType

def State.empty : State := ⟨fun _ => [], fun _ => none⟩

namespace State

/-- The bookkeeping half of `attachQueue`: append to the queue, and record it. -/
def attach (key : Key) (queueType : QueueType) (s : State) : State where
  queues := Function.update s.queues queueType (s.queues queueType ++ [key])
  entryInfoMap := Function.update s.entryInfoMap key (some queueType)

/-- `detachQueue(i)`: leave the recorded queue and the map. -/
def detach (key : Key) (s : State) : State :=
  match s.entryInfoMap key with
  | none => s
  | some queueType =>
      { queues := Function.update s.queues queueType ((s.queues queueType).erase key)
        entryInfoMap := Function.update s.entryInfoMap key none }

/-- The entry `evictOne()` picks: the front of the first nonempty queue. -/
def front (s : State) : Option Key :=
  match s.queues .unsolicited, s.queues .stale, s.queues .fifo with
  | key :: _, _, _ => some key
  | [], key :: _, _ => some key
  | [], [], key :: _ => some key
  | [], [], [] => none

end State

/-- The queue `attachQueue` chooses for an entry. -/
def queueTypeOf (now : Time) (entry : Entry) : QueueType :=
  if entry.isUnsolicited then .unsolicited
  else if !entry.isFresh now then .stale
  else .fifo

/-- `attachQueue(i)`, for the table entry of `key`. -/
def attachQueue (now : Time) (key : Key) (cs : Cs State) : Cs State :=
  match cs.table.find? fun entry => entry.key == key with
  | none => cs
  | some entry => { cs with policy := cs.policy.attach key (queueTypeOf now entry) }

def detachQueue (key : Key) (cs : Cs State) : Cs State :=
  { cs with policy := cs.policy.detach key }

/-- `moveToStaleQueue(i)`, the freshness timer of an entry of the fresh queue; the timer of
any other entry was cancelled and does not fire. -/
def moveToStaleQueue (key : Key) (cs : Cs State) : Cs State :=
  match cs.policy.entryInfoMap key with
  | some .fifo => { cs with policy := (cs.policy.detach key).attach key .stale }
  | _ => cs

/-- The loop of `evictEntries`: `evictOne()` while the table is over the limit. -/
def evictLoop : Nat → Cs State → Cs State × List Event
  | 0, cs => (cs, [])
  | fuel + 1, cs =>
      if cs.table.length > cs.limit then
        match cs.policy.front with
        | none => (cs, [])
        | some key =>
            let later := evictLoop fuel (evict key (detachQueue key cs))
            (later.1, .beforeEvict key :: later.2)
      else (cs, [])

/-- `evictEntries()`: each round evicts one entry, so the table's size bounds the rounds. -/
def evictEntries (cs : Cs State) : Cs State × List Event := evictLoop cs.table.length cs

/-- `PriorityFifoPolicy`. -/
def policy : Policy State where
  doAfterInsert now key cs := evictEntries (attachQueue now key cs)
  doAfterRefresh now key cs := (attachQueue now key (detachQueue key cs), [])
  doBeforeErase key cs := (detachQueue key cs, [])
  doBeforeUse _ cs := (cs, [])
  evictEntries := evictEntries
  afterFreshnessExpiry key cs := (moveToStaleQueue key cs, [])

/-- The rank of an entry as it is inserted or refreshed: unsolicited first, then stale,
then fresh. -/
def rankAt (now : Time) (entry : Entry) : Nat :=
  if entry.isUnsolicited then 0 else if entry.isFresh now then 2 else 1

/-- The priority-FIFO monitor: an entry takes its rank when inserted or refreshed, and a
fresh entry rank 1 when the table announces the end of its freshness; its age is when it
took the rank. -/
def observe (r : Ranking) : Event → Ranking
  | .afterInsert entry now | .afterRefresh entry now =>
      r.set entry.key (some (rankAt now entry, r.clock))
  | .beforeUse _ => r.tick
  | .beforeErase key | .beforeEvict key => r.set key none
  | .freshnessExpired key =>
      match r.live key with
      | some (2, _) => r.set key (some (1, r.clock))
      | _ => r

theorem rank_queueTypeOf (now : Time) (entry : Entry) :
    (queueTypeOf now entry).rank = rankAt now entry := by
  unfold queueTypeOf rankAt
  split
  · rfl
  · cases entry.isFresh now <;> rfl

/-- The bookkeeping holds the entries of `cached`, each once, in the queue of its rank in
the monitor, ordered by age; the monitor knows exactly those entries, all older than its
clock. -/
structure Books (s : State) (r : Ranking) (cached : Key → Prop) : Prop where
  queuesNodup : ∀ queueType, (s.queues queueType).Nodup
  inQueue : ∀ key queueType, key ∈ s.queues queueType ↔ s.entryInfoMap key = some queueType
  recorded : ∀ key, (s.entryInfoMap key).isSome ↔ cached key
  ranked : ∀ key, (r.live key).map Prod.fst = (s.entryInfoMap key).map QueueType.rank
  aged : ∀ key v, r.live key = some v → v.2 < r.clock
  ordered : ∀ queueType, (s.queues queueType).Pairwise fun a b => r.age a < r.age b

/-- The bookkeeping of the Content Store is its table. -/
structure Tracks (cs : Cs State) (r : Ranking) : Prop where
  keysNodup : (cs.table.map Entry.key).Nodup
  books : Books cs.policy r fun key => key ∈ cs.table.map Entry.key

/-- The monitor with an entry dropped and no event counted: where the bookkeeping is between
detaching an entry and the event that reattaches or erases it. -/
def forget (key : Key) (r : Ranking) : Ranking := ⟨r.clock, Function.update r.live key none⟩

section Forget

variable (key : Key) (r : Ranking)

@[simp] theorem forget_clock : (forget key r).clock = r.clock := rfl

@[simp] theorem forget_live : (forget key r).live = Function.update r.live key none := rfl

theorem forget_age_of_ne {other : Key} (different : other ≠ key) :
    (forget key r).age other = r.age other := by
  simp [Ranking.age, Function.update_of_ne different]

theorem set_forget (v : Option (Nat × Nat)) : (forget key r).set key v = r.set key v := by
  simp only [Ranking.set, forget, Function.update_idem]

end Forget

section Front

variable {s : State}

/-- `evictOne()` picks the front of a queue all of whose predecessors are empty. -/
theorem State.front_spec {key : Key} (front : s.front = some key) :
    ∃ queueType rest, s.queues queueType = key :: rest ∧
      ∀ t, t.rank < queueType.rank → s.queues t = [] := by
  unfold State.front at front
  cases unsolicitedIs : s.queues .unsolicited with
  | cons k rest =>
      rw [unsolicitedIs] at front
      cases front
      exact ⟨.unsolicited, rest, unsolicitedIs, fun t below => by
        cases t <;> simp [QueueType.rank] at below⟩
  | nil =>
      cases staleIs : s.queues .stale with
      | cons k rest =>
          rw [unsolicitedIs, staleIs] at front
          cases front
          exact ⟨.stale, rest, staleIs, fun t below => by
            cases t <;> simp_all [QueueType.rank]⟩
      | nil =>
          cases fifoIs : s.queues .fifo with
          | cons k rest =>
              rw [unsolicitedIs, staleIs, fifoIs] at front
              cases front
              exact ⟨.fifo, rest, fifoIs, fun t below => by cases t <;> simp_all [QueueType.rank]⟩
          | nil =>
              rw [unsolicitedIs, staleIs, fifoIs] at front
              cases front

/-- `evictOne()` finds nothing only when every queue is empty. -/
theorem State.front_eq_none (front : s.front = none) (queueType : QueueType) :
    s.queues queueType = [] := by
  unfold State.front at front
  cases unsolicitedIs : s.queues .unsolicited with
  | cons k rest => simp [unsolicitedIs] at front
  | nil =>
      cases staleIs : s.queues .stale with
      | cons k rest => simp [unsolicitedIs, staleIs] at front
      | nil =>
          cases fifoIs : s.queues .fifo with
          | cons k rest => simp [unsolicitedIs, staleIs, fifoIs] at front
          | nil => cases queueType <;> assumption

end Front

section Books

variable {s : State} {r : Ranking} {cached : Key → Prop}

/-- The bookkeeping does not depend on how the monitor's clock has advanced. -/
theorem Books.congr (books : Books s r cached) {cached' : Key → Prop}
    (same : ∀ key, cached key ↔ cached' key) {r' : Ranking} (sameLive : r'.live = r.live)
    (later : r.clock ≤ r'.clock) : Books s r' cached' := by
  obtain ⟨queuesNodup, inQueue, recorded, ranked, aged, ordered⟩ := books
  have sameAge : r'.age = r.age := funext fun key => by simp [Ranking.age, sameLive]
  refine ⟨queuesNodup, inQueue, fun key => (recorded key).trans (same key), ?_, ?_, ?_⟩
  · simpa [sameLive] using ranked
  · intro key v liveK
    rw [sameLive] at liveK
    have := aged key v liveK
    omega
  · simpa [sameAge] using ordered

theorem Books.age_lt (books : Books s r cached) {key : Key} {queueType : QueueType}
    (inQueue : key ∈ s.queues queueType) : r.age key < r.clock := by
  have recorded := (books.inQueue key queueType).mp inQueue
  have liveIs : ((r.live key).map Prod.fst).isSome := by simp [books.ranked key, recorded]
  obtain ⟨v, liveK⟩ := Option.isSome_iff_exists.mp (by simpa using liveIs)
  simpa [Ranking.age, liveK] using books.aged key v liveK

theorem Books.cached_of_mem (books : Books s r cached) {key : Key} {queueType : QueueType}
    (inQueue : key ∈ s.queues queueType) : cached key :=
  (books.recorded key).mp (by simp [(books.inQueue key queueType).mp inQueue])

theorem Books.not_cached_of_front (books : Books s r cached) (front : s.front = none) (key : Key) :
    ¬ cached key := fun cachedKey => by
  obtain ⟨queueType, recordedIs⟩ := Option.isSome_iff_exists.mp ((books.recorded key).mpr cachedKey)
  have inQueue := (books.inQueue key queueType).mpr recordedIs
  rw [State.front_eq_none front] at inQueue
  cases inQueue

/-- Detaching an entry drops it from its queue and from the map. -/
theorem Books.detach (books : Books s r cached) (key : Key) :
    Books (s.detach key) (forget key r) fun k => cached k ∧ k ≠ key := by
  cases recordedIs : s.entryInfoMap key with
  | none =>
      -- not attached: nothing moves, and the monitor does not know the entry either
      have notCached : ¬ cached key := fun cachedKey => by
        simpa [recordedIs] using (books.recorded key).mpr cachedKey
      have notLive : r.live key = none := by simpa [recordedIs] using books.ranked key
      have unchanged : forget key r = r := by
        have same : Function.update r.live key none = r.live := by
          rw [← notLive, Function.update_eq_self]
        unfold forget
        rw [same]
      simp only [State.detach, recordedIs, unchanged]
      exact books.congr (fun k => ⟨fun c => ⟨c, fun same => notCached (same ▸ c)⟩, And.left⟩)
        rfl (Nat.le_refl _)
  | some queueType =>
      -- the entry sits in its own queue only, so every queue loses it
      have erased : Function.update s.queues queueType ((s.queues queueType).erase key) =
          fun t => (s.queues t).erase key := funext fun t => by
        by_cases isType : t = queueType
        · subst isType
          rw [Function.update_self]
        · rw [Function.update_of_ne isType, List.erase_of_not_mem]
          rw [books.inQueue, recordedIs]
          exact fun same => isType (Option.some.inj same).symm
      simp only [State.detach, recordedIs, erased]
      refine ⟨fun t => (books.queuesNodup t).erase key, fun k t => ?_, fun k => ?_, fun k => ?_,
        fun k v liveK => ?_, fun t => ?_⟩
      · dsimp only
        rw [(books.queuesNodup t).mem_erase_iff, books.inQueue]
        by_cases isKey : k = key
        · subst isKey
          simp
        · simp [isKey]
      · by_cases isKey : k = key
        · subst isKey
          simp
        · simp [isKey, books.recorded k]
      · by_cases isKey : k = key
        · subst isKey
          simp
        · simp [Function.update_of_ne isKey, books.ranked k]
      · by_cases isKey : k = key
        · subst isKey
          simp at liveK
        · simp only [forget_live, Function.update_of_ne isKey] at liveK
          exact books.aged k v liveK
      · dsimp only
        refine ((books.ordered t).sublist List.erase_sublist).imp_of_mem fun {a b} inA inB older => ?_
        rwa [forget_age_of_ne _ _ ((books.queuesNodup t).mem_erase_iff.mp inA).1,
          forget_age_of_ne _ _ ((books.queuesNodup t).mem_erase_iff.mp inB).1]

/-- Attaching an entry not attached puts it at the back of the queue of its rank, with the
newest age. -/
theorem Books.attach (books : Books s r cached) {key : Key} (absent : ¬ cached key)
    (queueType : QueueType) :
    Books (s.attach key queueType) (r.set key (some (queueType.rank, r.clock)))
      fun k => cached k ∨ k = key := by
  have notRecorded : s.entryInfoMap key = none := by
    cases recordedIs : s.entryInfoMap key with
    | none => rfl
    | some t => exact absurd ((books.recorded key).mp (by simp [recordedIs])) absent
  have notQueued : ∀ t, key ∉ s.queues t := fun t inQueue => absent (books.cached_of_mem inQueue)
  have kept : ∀ t, (s.queues t).Pairwise fun a b =>
      (r.set key (some (queueType.rank, r.clock))).age a <
        (r.set key (some (queueType.rank, r.clock))).age b := fun t =>
    (books.ordered t).imp_of_mem fun {a b} inA inB older => by
      rwa [Ranking.age_set_other _ _ _ (fun same : a = key => notQueued t (same ▸ inA)),
        Ranking.age_set_other _ _ _ (fun same : b = key => notQueued t (same ▸ inB))]
  refine ⟨fun t => ?_, fun k t => ?_, fun k => ?_, fun k => ?_, fun k v liveK => ?_, fun t => ?_⟩
  · by_cases isType : t = queueType
    · subst isType
      simp only [State.attach, Function.update_self]
      exact (books.queuesNodup t).append (List.nodup_singleton key)
        (List.disjoint_singleton.mpr (notQueued t))
    · simpa [State.attach, Function.update_of_ne isType] using books.queuesNodup t
  · simp only [State.attach]
    by_cases isKey : k = key
    · subst isKey
      by_cases isType : t = queueType
      · subst isType
        simp
      · simp [Function.update_of_ne isType, notQueued t, Ne.symm isType]
    · by_cases isType : t = queueType
      · subst isType
        simp [isKey, books.inQueue]
      · simp [Function.update_of_ne isType, isKey, books.inQueue]
  · by_cases isKey : k = key
    · subst isKey
      simp [State.attach]
    · simp [State.attach, isKey, books.recorded k]
  · by_cases isKey : k = key
    · subst isKey
      simp [State.attach]
    · simp [State.attach, Function.update_of_ne isKey, books.ranked k]
  · by_cases isKey : k = key
    · subst isKey
      simp only [Ranking.set_live, Function.update_self, Option.some.injEq] at liveK
      subst liveK
      simp
    · simp only [Ranking.set_live, Function.update_of_ne isKey] at liveK
      have := books.aged k v liveK
      simp only [Ranking.set_clock]
      omega
  · by_cases isType : t = queueType
    · subst isType
      simp only [State.attach, Function.update_self, List.pairwise_append, List.pairwise_singleton,
        List.mem_singleton, true_and]
      refine ⟨kept t, fun a inQueue b isNew => ?_⟩
      rw [isNew, Ranking.age_set_other _ _ _ (fun same : a = key => notQueued t (same ▸ inQueue)),
        Ranking.age_set_self]
      exact books.age_lt inQueue
    · simpa [State.attach, Function.update_of_ne isType] using kept t

/-- Detaching and attaching again moves a cached entry to the back of a queue, the newest of
its rank. -/
theorem Books.reattach (books : Books s r cached) {key : Key} (cachedKey : cached key)
    (queueType : QueueType) :
    Books ((s.detach key).attach key queueType) (r.set key (some (queueType.rank, r.clock)))
      cached := by
  have reattached := (books.detach key).attach (fun detached => detached.2 rfl) queueType
  rw [forget_clock, set_forget] at reattached
  refine reattached.congr (fun k => ?_) rfl (Nat.le_refl _)
  by_cases isKey : k = key
  · subst isKey
    simp [cachedKey]
  · simp [isKey]

/-- A detached entry is dropped by the next event. -/
theorem Books.remove (books : Books s r cached) (key : Key) :
    Books (s.detach key) (r.set key none) fun k => cached k ∧ k ≠ key :=
  (books.detach key).congr (fun _ => Iff.rfl) rfl (Nat.le_succ _)

/-- The front of the first nonempty queue is the designated entry. -/
theorem Books.designated_front (books : Books s r cached) {key : Key} (front : s.front = some key) :
    r.Designated key := by
  obtain ⟨queueType, rest, queueIs, earlierEmpty⟩ := State.front_spec front
  have rankKey := books.ranked key
  rw [(books.inQueue key queueType).mp (by simp [queueIs])] at rankKey
  obtain ⟨v, liveKey, rankV⟩ : ∃ v, r.live key = some v ∧ v.1 = queueType.rank := by
    cases liveIs : r.live key with
    | none => simp [liveIs] at rankKey
    | some v => exact ⟨v, rfl, by simpa [liveIs] using rankKey⟩
  refine ⟨v, liveKey, fun k v' liveK different => ?_⟩
  have rankK := books.ranked k
  rw [liveK] at rankK
  obtain ⟨t, recordedK, rankV'⟩ : ∃ t, s.entryInfoMap k = some t ∧ v'.1 = t.rank := by
    cases recordedIs : s.entryInfoMap k with
    | none => simp [recordedIs] at rankK
    | some t => exact ⟨t, rfl, by simpa [recordedIs] using rankK⟩
  have inK := (books.inQueue k t).mpr recordedK
  by_cases sameType : t = queueType
  · -- the same queue: the front is older
    subst sameType
    rw [queueIs] at inK
    have ordered := books.ordered t
    rw [queueIs, List.pairwise_cons] at ordered
    have older := ordered.1 k ((List.mem_cons.mp inK).resolve_left different)
    simp only [Ranking.age, liveKey, liveK, Option.map_some, Option.getD_some] at older
    exact .inr ⟨rankV.trans rankV'.symm, older⟩
  · -- another queue: a later one, since the earlier ones are empty
    have notEarlier : ¬ t.rank < queueType.rank := fun below => by
      rw [earlierEmpty t below] at inK
      cases inK
    have differentRank : t.rank ≠ queueType.rank := fun same => sameType (by
      cases t <;> cases queueType <;> simp_all [QueueType.rank])
    exact .inl (by omega)

end Books

section Preserve

variable {cs : Cs State} {r : Ranking}

@[simp] theorem table_attachQueue (now : Time) (key : Key) (cs : Cs State) :
    (attachQueue now key cs).table = cs.table := by
  unfold attachQueue
  split <;> rfl

@[simp] theorem limit_attachQueue (now : Time) (key : Key) (cs : Cs State) :
    (attachQueue now key cs).limit = cs.limit := by
  unfold attachQueue
  split <;> rfl

theorem attachQueue_of_mem (cs : Cs State) (nodup : (cs.table.map Entry.key).Nodup) {entry : Entry}
    (member : entry ∈ cs.table) (now : Time) :
    attachQueue now entry.key cs = { cs with policy := cs.policy.attach entry.key (queueTypeOf now entry) } := by
  simp only [attachQueue, find?_key_of_mem _ nodup member]

/-- A new entry goes to the back of the queue of its rank. -/
theorem Tracks.insertNew (tracks : Tracks cs r) {entry : Entry}
    (absent : entry.key ∉ cs.table.map Entry.key) (now : Time) :
    Tracks (attachQueue now entry.key { cs with table := insertSorted entry cs.table })
      (r.set entry.key (some (rankAt now entry, r.clock))) := by
  have perm := keys_insertSorted cs.table entry
  have nodup : ((insertSorted entry cs.table).map Entry.key).Nodup :=
    perm.nodup_iff.mpr (List.nodup_cons.mpr ⟨absent, tracks.keysNodup⟩)
  have member : entry ∈ insertSorted entry cs.table := (mem_insertSorted _ _).mpr (.inl rfl)
  rw [attachQueue_of_mem { cs with table := insertSorted entry cs.table } nodup member,
    ← rank_queueTypeOf]
  refine ⟨nodup, (tracks.books.attach absent (queueTypeOf now entry)).congr (fun k => ?_) rfl
    (Nat.le_refl _)⟩
  rw [perm.mem_iff, List.mem_cons, or_comm]

/-- A refreshed entry goes to the back of the queue of its new rank. -/
theorem Tracks.refresh (tracks : Tracks cs r) {entry : Entry}
    (cached : entry.key ∈ cs.table.map Entry.key) (now : Time) :
    Tracks (attachQueue now entry.key
        (detachQueue entry.key { cs with table := replaceEntry entry cs.table }))
      (r.set entry.key (some (rankAt now entry, r.clock))) := by
  have keysAfter := keys_replaceEntry cs.table entry
  have nodup : ((replaceEntry entry cs.table).map Entry.key).Nodup := keysAfter ▸ tracks.keysNodup
  rw [attachQueue_of_mem (detachQueue entry.key { cs with table := replaceEntry entry cs.table })
    nodup (mem_replaceEntry _ cached), ← rank_queueTypeOf]
  exact ⟨nodup, keysAfter ▸ tracks.books.reattach cached (queueTypeOf now entry)⟩

/-- An entry erased or evicted leaves its queue and the monitor. -/
theorem Tracks.remove (tracks : Tracks cs r) (key : Key) :
    Tracks (evict key (detachQueue key cs)) (r.set key none) := by
  have keysAfter := keys_evict (detachQueue key cs) key
  refine ⟨keysAfter ▸ tracks.keysNodup.erase key, (tracks.books.remove key).congr (fun k => ?_) rfl
    (Nat.le_refl _)⟩
  simp only [evict, detachQueue] at keysAfter ⊢
  rw [keysAfter, tracks.keysNodup.mem_erase_iff, and_comm]

/-- The evictions pick designated entries until the table is within the limit. -/
theorem Tracks.evictLoop : ∀ (fuel : Nat) (cs : Cs State) (r : Ranking), Tracks cs r →
    cs.table.length ≤ fuel + cs.limit →
    Monitor.Accepts observe evictionOk r (evictLoop fuel cs).2 ∧
      Tracks (evictLoop fuel cs).1 ((evictLoop fuel cs).2.foldl observe r) ∧
      (evictLoop fuel cs).1.table.length ≤ (evictLoop fuel cs).1.limit ∧
      (evictLoop fuel cs).1.limit = cs.limit
  | 0, cs, r, tracks, bounded => ⟨trivial, tracks, by simpa [PriorityFifo.evictLoop] using bounded, rfl⟩
  | fuel + 1, cs, r, tracks, bounded => by
      simp only [PriorityFifo.evictLoop]
      split
      · rename_i overLimit
        cases front : cs.policy.front with
        | none =>
            -- a table over the limit is not empty, and neither is some queue
            obtain ⟨e, member⟩ := List.exists_mem_of_length_pos (by omega : 0 < cs.table.length)
            exact absurd (List.mem_map_of_mem member) (tracks.books.not_cached_of_front front e.key)
        | some key =>
            obtain ⟨queueType, rest, queueIs, -⟩ := State.front_spec front
            have cached : key ∈ cs.table.map Entry.key :=
              tracks.books.cached_of_mem (show key ∈ cs.policy.queues queueType by simp [queueIs])
            have shorter := length_evict (detachQueue key cs) cached
            obtain ⟨accepted, tracksAfter, within, sameLimit⟩ :=
              Tracks.evictLoop fuel _ _ (tracks.remove key)
                (by simp only [evict, detachQueue] at shorter ⊢; omega)
            exact ⟨⟨tracks.books.designated_front front, accepted⟩, tracksAfter, within, sameLimit⟩
      · exact ⟨trivial, tracks, by dsimp only; omega, rfl⟩

theorem Tracks.evictEntries (tracks : Tracks cs r) :
    Monitor.Accepts observe evictionOk r (PriorityFifo.evictEntries cs).2 ∧
      Tracks (PriorityFifo.evictEntries cs).1 ((PriorityFifo.evictEntries cs).2.foldl observe r) ∧
      (PriorityFifo.evictEntries cs).1.table.length ≤ (PriorityFifo.evictEntries cs).1.limit ∧
      (PriorityFifo.evictEntries cs).1.limit = cs.limit :=
  Tracks.evictLoop _ cs r tracks (Nat.le_add_right _ _)

end Preserve

/-- What the priority-FIFO Content Store keeps with its monitor: `Tracks`, and the table
within the limit. -/
def Related (cs : Cs State) (r : Ranking) : Prop := Tracks cs r ∧ cs.table.length ≤ cs.limit

section Operations

variable {cs : Cs State} {r : Ranking}

theorem Related.insert (related : Related cs r) (now : Time) (data : Data) (isUnsolicited : Bool) :
    Monitor.Accepts observe evictionOk r (Cs.insert policy now data isUnsolicited cs).2 ∧
      Related (Cs.insert policy now data isUnsolicited cs).1
        ((Cs.insert policy now data isUnsolicited cs).2.foldl observe r) := by
  obtain ⟨tracks, within⟩ := related
  unfold Cs.insert
  split
  · exact ⟨trivial, tracks, within⟩
  · split
    · exact ⟨trivial, tracks, within⟩
    · split
      · -- a new entry is attached, then the front is evicted while over the limit
        rename_i missing
        have absent := key_not_mem_of_find? cs.table missing
        rw [← Entry.key_ofData now data isUnsolicited,
          ← Entry.key_updateFreshUntil now (Entry.ofData now data isUnsolicited)] at absent
        obtain ⟨accepted, tracksAfter, withinAfter, -⟩ := (tracks.insertNew absent now).evictEntries
        simp only [policy, Monitor.accepts_cons, List.foldl_cons, observe]
        exact ⟨⟨trivial, accepted⟩, tracksAfter, withinAfter⟩
      · -- an existing entry is refreshed in place and attached again
        rename_i existing found
        obtain ⟨member, keyIs⟩ := key_of_find? cs.table found
        have refreshedKey : ∀ clear : Bool, (if clear then (existing.updateFreshUntil now).clearUnsolicited
            else existing.updateFreshUntil now).key = existing.key := by
          intro clear
          split <;> simp
        have cached : ∀ clear : Bool, (if clear then (existing.updateFreshUntil now).clearUnsolicited
            else existing.updateFreshUntil now).key ∈ cs.table.map Entry.key := fun clear =>
          refreshedKey clear ▸ List.mem_map_of_mem member
        simp only [policy, Monitor.accepts_cons, List.foldl_cons, Monitor.accepts_nil, List.foldl_nil,
          observe]
        refine ⟨⟨trivial, trivial⟩, tracks.refresh (cached _) now, ?_⟩
        simp only [table_attachQueue, limit_attachQueue, detachQueue, length_replaceEntry]
        exact within

theorem Related.find (related : Related cs r) (now : Time) (interestName : Name)
    (mustBeFresh : Bool) (matchesData : Data → Bool) :
    Monitor.Accepts observe evictionOk r
        (Cs.find policy now interestName mustBeFresh matchesData cs).2 ∧
      Related (Cs.find policy now interestName mustBeFresh matchesData cs).1
        ((Cs.find policy now interestName mustBeFresh matchesData cs).2.foldl observe r) := by
  obtain ⟨tracks, within⟩ := related
  unfold Cs.find
  split
  · exact ⟨trivial, tracks, within⟩
  · -- a use moves nothing: the queues are by insertion, not by use
    simp only [policy, Monitor.accepts_cons, List.foldl_cons, Monitor.accepts_nil, List.foldl_nil,
      observe]
    exact ⟨⟨trivial, trivial⟩, ⟨tracks.keysNodup, tracks.books.congr (fun _ => Iff.rfl) rfl
      (Nat.le_succ _)⟩, within⟩

theorem Related.eraseEntries : ∀ (keys : List Key) (cs : Cs State) (r : Ranking), Related cs r →
    Monitor.Accepts observe evictionOk r (Cs.eraseEntries policy keys cs).2 ∧
      Related (Cs.eraseEntries policy keys cs).1
        ((Cs.eraseEntries policy keys cs).2.foldl observe r)
  | [], _, _, related => ⟨trivial, related⟩
  | key :: rest, cs, r, ⟨tracks, within⟩ => by
      have shorter : (evict key (detachQueue key cs)).table.length ≤ cs.table.length :=
        List.length_eraseP_le
      obtain ⟨accepted, relatedRest⟩ := Related.eraseEntries rest _ _
        ⟨tracks.remove key, by simp only [evict, detachQueue] at shorter ⊢; omega⟩
      simp only [Cs.eraseEntries, policy, List.cons_append, List.nil_append, Monitor.accepts_cons,
        List.foldl_cons]
      exact ⟨⟨trivial, accepted⟩, relatedRest⟩

/-- The monitor moves an entry to rank 1 exactly when the bookkeeping has it in the fresh
queue. -/
theorem Books.observe_freshnessExpired {s : State} {cached : Key → Prop} (books : Books s r cached)
    (key : Key) :
    observe r (.freshnessExpired key) =
      if s.entryInfoMap key = some .fifo then r.set key (some (1, r.clock)) else r := by
  have ranked := books.ranked key
  simp only [observe]
  split
  · rename_i age liveIs
    rw [liveIs] at ranked
    -- rank 2 is the fresh queue's
    have fresh : s.entryInfoMap key = some .fifo := by
      cases recordedIs : s.entryInfoMap key with
      | none => simp [recordedIs] at ranked
      | some queueType => cases queueType <;> simp_all [QueueType.rank]
    rw [if_pos fresh]
  · rename_i notFresh
    have other : s.entryInfoMap key ≠ some .fifo := by
      intro fresh
      rw [fresh] at ranked
      cases liveIs : r.live key with
      | none => simp [liveIs] at ranked
      | some v =>
          obtain ⟨rank, age⟩ := v
          simp only [liveIs, Option.map_some, Option.some.injEq, QueueType.rank] at ranked
          exact notFresh age (by rw [liveIs, ranked])
    rw [if_neg other]

theorem Related.freshnessExpiry (related : Related cs r) (key : Key) :
    Monitor.Accepts observe evictionOk r [.freshnessExpired key] ∧
      Related (moveToStaleQueue key cs) (observe r (.freshnessExpired key)) := by
  obtain ⟨tracks, within⟩ := related
  rw [tracks.books.observe_freshnessExpired key]
  refine ⟨⟨trivial, trivial⟩, ?_⟩
  unfold moveToStaleQueue
  split
  · -- a fresh entry moves to the back of the stale queue
    rename_i recordedIs
    have cached := (tracks.books.recorded key).mp (by simp [recordedIs])
    rw [if_pos recordedIs]
    exact ⟨⟨tracks.keysNodup, tracks.books.reattach cached .stale⟩, within⟩
  · rename_i notFresh
    rw [if_neg notFresh]
    exact ⟨tracks, within⟩

theorem Related.step (related : Related cs r) (op : Op) :
    Monitor.Accepts observe evictionOk r (Cs.step policy cs op).2 ∧
      Related (Cs.step policy cs op).1 ((Cs.step policy cs op).2.foldl observe r) := by
  cases op with
  | insert now data isUnsolicited => exact related.insert now data isUnsolicited
  | find now interestName mustBeFresh matchesData =>
      exact related.find now interestName mustBeFresh matchesData
  | erase prefixName limit => exact Related.eraseEntries _ cs r related
  | setLimit nMaxPackets =>
      have tracks : Tracks { cs with limit := nMaxPackets } r := ⟨related.1.1, related.1.2⟩
      obtain ⟨accepted, tracksAfter, within, -⟩ := tracks.evictEntries
      exact ⟨accepted, tracksAfter, within⟩
  | enableAdmit shouldAdmit => exact ⟨trivial, ⟨related.1.1, related.1.2⟩, related.2⟩
  | enableServe shouldServe => exact ⟨trivial, ⟨related.1.1, related.1.2⟩, related.2⟩
  | freshnessExpiry key =>
      simpa only [Cs.step, policy, List.foldl_cons, List.foldl_nil, List.append_nil]
        using related.freshnessExpiry key

theorem Related.new (nMaxPackets : Nat) : Related (Cs.new State.empty nMaxPackets) Ranking.empty :=
  ⟨⟨List.nodup_nil, ⟨fun _ => List.nodup_nil, by simp [State.empty, Cs.new],
    by simp [State.empty, Cs.new], by simp [State.empty, Cs.new, Ranking.empty],
    by simp [Ranking.empty], fun _ => List.Pairwise.nil⟩⟩,
    Nat.zero_le _⟩

/-- Every run of the priority-FIFO Content Store keeps the table within the limit and the
queues equal to the table, each entry once, and evicts only designated entries: unsolicited
before stale before fresh, and the oldest of a rank first. -/
theorem Related.run (ops : List Op) (nMaxPackets : Nat) :
    Monitor.Accepts observe evictionOk Ranking.empty
        (Cs.run policy ops (Cs.new State.empty nMaxPackets)).2 ∧
      Related (Cs.run policy ops (Cs.new State.empty nMaxPackets)).1
        ((Cs.run policy ops (Cs.new State.empty nMaxPackets)).2.foldl observe Ranking.empty) :=
  Monitor.run_simulation (Cs.step policy) Related (fun _ _ op related => related.step op) ops _ _
    (Related.new nMaxPackets)

end Operations

end Nfd.Cs.PriorityFifo
