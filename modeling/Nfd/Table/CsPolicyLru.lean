import Nfd.Table.Cs
import Mathlib.Data.List.Nodup

/-!
# The LRU policy

`LruPolicy` keeps one queue of the cached entries, least recently used first: an inserted
entry joins the back, an entry refreshed or used moves to the back, an erased entry leaves,
and while the table holds more than the limit the front is popped and evicted.

The monitor (`observe`) gives every cached entry rank 0 and, as its age, the time of its
last insertion, refresh or use.  The queue lists exactly the cached entries, each once, by
age (`Tracks`), so its front is the designated entry.
-/

set_option autoImplicit false

namespace Nfd.Cs.Lru

/-- `m_queue`: the cached keys, least recently used first. -/
abbrev Queue := List Key

/-- `insertToQueue(i, isNewEntry)`: `push_back` adds an absent key at the back, and a key
that is not new is relocated to the back. -/
def insertToQueue (key : Key) (isNewEntry : Bool) (queue : Queue) : Queue :=
  let queue := if key ∈ queue then queue else queue ++ [key]
  if !isNewEntry then queue.erase key ++ [key] else queue

/-- The loop of `evictEntries`: while the table is over the limit, pop the front and
signal `beforeEvict`. -/
def evictLoop : Nat → Cs Queue → Cs Queue × List Event
  | 0, cs => (cs, [])
  | fuel + 1, cs =>
      if cs.table.length > cs.limit then
        match cs.policy with
        | [] => (cs, [])
        | key :: rest =>
            let later := evictLoop fuel (evict key { cs with policy := rest })
            (later.1, .beforeEvict key :: later.2)
      else (cs, [])

/-- `evictEntries()`: each round evicts one entry, so the table's size bounds the rounds. -/
def evictEntries (cs : Cs Queue) : Cs Queue × List Event := evictLoop cs.table.length cs

/-- `LruPolicy`. -/
def policy : Policy Queue where
  doAfterInsert _ key cs := evictEntries { cs with policy := insertToQueue key true cs.policy }
  doAfterRefresh _ key cs := ({ cs with policy := insertToQueue key false cs.policy }, [])
  doBeforeErase key cs := ({ cs with policy := cs.policy.erase key }, [])
  doBeforeUse key cs := ({ cs with policy := insertToQueue key false cs.policy }, [])
  evictEntries := evictEntries
  afterFreshnessExpiry _ cs := (cs, [])

/-- The LRU monitor: inserting, refreshing or using an entry makes it the most recent; the
end of its freshness does not move it. -/
def observe (r : Ranking) : Event → Ranking
  | .afterInsert entry _ | .afterRefresh entry _ => r.set entry.key (some (0, r.clock))
  | .beforeUse key => r.set key (some (0, r.clock))
  | .beforeErase key | .beforeEvict key => r.set key none
  | .freshnessExpired _ => r

/-- The queue lists the cached entries, each once, in the order of their ages in the
monitor; the monitor knows exactly the cached entries, all of rank 0 and older than its
clock. -/
structure Tracks (cs : Cs Queue) (r : Ranking) : Prop where
  keysNodup : (cs.table.map Entry.key).Nodup
  queueNodup : cs.policy.Nodup
  queueKeys : ∀ key, key ∈ cs.policy ↔ key ∈ cs.table.map Entry.key
  live : ∀ key, (r.live key).isSome ↔ key ∈ cs.table.map Entry.key
  ranked : ∀ key v, r.live key = some v → v.1 = 0 ∧ v.2 < r.clock
  ordered : cs.policy.Pairwise fun a b => r.age a < r.age b

section Queue

variable {key : Key} {queue : Queue}

theorem insertToQueue_new (absent : key ∉ queue) : insertToQueue key true queue = queue ++ [key] := by
  simp [insertToQueue, absent]

theorem insertToQueue_relocate (present : key ∈ queue) :
    insertToQueue key false queue = queue.erase key ++ [key] := by
  simp [insertToQueue, present]

end Queue

section Preserve

variable {cs : Cs Queue} {r : Ranking}

/-- The relation reads only the table and the queue. -/
theorem Tracks.congr (tracks : Tracks cs r) {cs' : Cs Queue} (sameTable : cs'.table = cs.table)
    (sameQueue : cs'.policy = cs.policy) : Tracks cs' r := by
  obtain ⟨keysNodup, queueNodup, queueKeys, live, ranked, ordered⟩ := tracks
  rw [← sameTable, ← sameQueue] at *
  exact ⟨keysNodup, queueNodup, queueKeys, live, ranked, ordered⟩

theorem Tracks.age_lt (tracks : Tracks cs r) {key : Key} (cached : key ∈ cs.policy) :
    r.age key < r.clock := by
  obtain ⟨v, liveIs⟩ := Option.isSome_iff_exists.mp
    ((tracks.live key).mpr ((tracks.queueKeys key).mp cached))
  simpa [Ranking.age, liveIs] using (tracks.ranked key v liveIs).2

/-- An entry inserted, refreshed or used goes to the back of the queue with the newest age. -/
theorem Tracks.toBack (tracks : Tracks cs r) (key : Key) {table : List Entry}
    (nodup : (table.map Entry.key).Nodup)
    (newKeys : ∀ k, k ∈ table.map Entry.key ↔ k = key ∨ k ∈ cs.table.map Entry.key) :
    Tracks { cs with table, policy := cs.policy.erase key ++ [key] }
      (r.set key (some (0, r.clock))) := by
  refine ⟨nodup, ?_, fun k => ?_, fun k => ?_, fun k v liveK => ?_, ?_⟩
  · refine List.nodup_append.mpr ⟨tracks.queueNodup.erase key, List.nodup_singleton key,
      fun a inErase b isNew same => ?_⟩
    rw [List.mem_singleton] at isNew
    exact tracks.queueNodup.not_mem_erase (same ▸ isNew ▸ inErase)
  · rw [newKeys, ← tracks.queueKeys k, List.mem_append, List.mem_singleton,
      tracks.queueNodup.mem_erase_iff]
    by_cases isKey : k = key <;> simp [isKey]
  · rw [newKeys, ← tracks.live k]
    by_cases isKey : k = key
    · simp [isKey]
    · simp [isKey]
  · by_cases isKey : k = key
    · subst isKey
      simp only [Ranking.set_live, Function.update_self, Option.some.injEq] at liveK
      subst liveK
      simp
    · simp only [Ranking.set_live, Function.update_of_ne isKey] at liveK
      have older := tracks.ranked k v liveK
      simp only [Ranking.set_clock]
      omega
  · rw [List.pairwise_append]
    refine ⟨?_, List.pairwise_singleton _ _, fun a inErase b isNew => ?_⟩
    · -- the others keep their ages and their order
      refine ((tracks.ordered.sublist List.erase_sublist).imp_of_mem fun {a b} inA inB older => ?_)
      have aNe := (tracks.queueNodup.mem_erase_iff.mp inA).1
      have bNe := (tracks.queueNodup.mem_erase_iff.mp inB).1
      rwa [Ranking.age_set_other _ _ _ aNe, Ranking.age_set_other _ _ _ bNe]
    · rw [List.mem_singleton] at isNew
      subst isNew
      have aNe := (tracks.queueNodup.mem_erase_iff.mp inErase).1
      rw [Ranking.age_set_other _ _ _ aNe, Ranking.age_set_self]
      exact tracks.age_lt (List.mem_of_mem_erase inErase)

/-- An entry that leaves the table leaves the queue and the monitor. -/
theorem Tracks.remove (tracks : Tracks cs r) (key : Key) :
    Tracks (evict key { cs with policy := cs.policy.erase key }) (r.set key none) := by
  have keysAfter := keys_evict { cs with policy := cs.policy.erase key } key
  refine ⟨keysAfter ▸ tracks.keysNodup.erase key, tracks.queueNodup.erase key,
    fun k => ?_, fun k => ?_, fun k v liveK => ?_, ?_⟩
  · simp only [evict] at keysAfter ⊢
    rw [keysAfter, tracks.queueNodup.mem_erase_iff, tracks.keysNodup.mem_erase_iff,
      tracks.queueKeys k]
  · simp only [evict] at keysAfter ⊢
    rw [keysAfter, tracks.keysNodup.mem_erase_iff]
    by_cases isKey : k = key
    · simp [isKey]
    · simp [isKey, tracks.live k]
  · by_cases isKey : k = key
    · subst isKey
      simp at liveK
    · simp only [Ranking.set_live, Function.update_of_ne isKey] at liveK
      have older := tracks.ranked k v liveK
      simp only [Ranking.set_clock]
      omega
  · refine (tracks.ordered.sublist List.erase_sublist).imp_of_mem fun {a b} inA inB older => ?_
    have aNe := (tracks.queueNodup.mem_erase_iff.mp inA).1
    have bNe := (tracks.queueNodup.mem_erase_iff.mp inB).1
    rwa [Ranking.age_set_other _ _ _ aNe, Ranking.age_set_other _ _ _ bNe]

/-- The front of the queue is the least recently used entry. -/
theorem Tracks.designated_front (tracks : Tracks cs r) {key : Key} {rest : Queue}
    (front : cs.policy = key :: rest) : r.Designated key := by
  have inQueue : key ∈ cs.policy := by simp [front]
  obtain ⟨v, liveIs⟩ := Option.isSome_iff_exists.mp
    ((tracks.live key).mpr ((tracks.queueKeys key).mp inQueue))
  refine ⟨v, liveIs, fun k v' liveK different => ?_⟩
  have inRest : k ∈ rest := by
    have inQueue' := (tracks.queueKeys k).mpr ((tracks.live k).mp (by simp [liveK]))
    rw [front] at inQueue'
    exact (List.mem_cons.mp inQueue').resolve_left different
  have ordered := tracks.ordered
  rw [front, List.pairwise_cons] at ordered
  have older := ordered.1 k inRest
  have rankV := (tracks.ranked key v liveIs).1
  have rankV' := (tracks.ranked k v' liveK).1
  simp only [Ranking.age, liveIs, liveK, Option.map_some, Option.getD_some] at older
  exact .inr ⟨rankV.trans rankV'.symm, older⟩

/-- The evictions pop designated entries until the table is within the limit. -/
theorem Tracks.evictLoop : ∀ (fuel : Nat) (cs : Cs Queue) (r : Ranking), Tracks cs r →
    cs.table.length ≤ fuel + cs.limit →
    Monitor.Accepts observe evictionOk r (evictLoop fuel cs).2 ∧
      Tracks (evictLoop fuel cs).1 ((evictLoop fuel cs).2.foldl observe r) ∧
      (evictLoop fuel cs).1.table.length ≤ (evictLoop fuel cs).1.limit ∧
      (evictLoop fuel cs).1.limit = cs.limit
  | 0, cs, r, tracks, bounded => ⟨trivial, tracks, by simpa [Lru.evictLoop] using bounded, rfl⟩
  | fuel + 1, cs, r, tracks, bounded => by
      simp only [Lru.evictLoop]
      split
      · rename_i overLimit
        cases front : cs.policy with
        | nil =>
            -- a table over the limit is not empty, and neither is the queue
            obtain ⟨e, member⟩ := List.exists_mem_of_length_pos (by omega : 0 < cs.table.length)
            have inQueue := (tracks.queueKeys e.key).mpr (List.mem_map_of_mem member)
            rw [front] at inQueue
            cases inQueue
        | cons key rest =>
            have removed : Tracks (evict key { cs with policy := rest }) (r.set key none) := by
              have erased : cs.policy.erase key = rest := by simp [front]
              simpa [erased] using tracks.remove key
            have cached : key ∈ cs.table.map Entry.key :=
              (tracks.queueKeys key).mp (by simp [front])
            have shorter := length_evict { cs with policy := rest } cached
            obtain ⟨accepted, tracksAfter, within, sameLimit⟩ :=
              Tracks.evictLoop fuel _ _ removed (by simp only [evict] at shorter ⊢; omega)
            exact ⟨⟨tracks.designated_front front, accepted⟩, tracksAfter, within, sameLimit⟩
      · exact ⟨trivial, tracks, by dsimp only; omega, rfl⟩

theorem Tracks.evictEntries (tracks : Tracks cs r) :
    Monitor.Accepts observe evictionOk r (Lru.evictEntries cs).2 ∧
      Tracks (Lru.evictEntries cs).1 ((Lru.evictEntries cs).2.foldl observe r) ∧
      (Lru.evictEntries cs).1.table.length ≤ (Lru.evictEntries cs).1.limit ∧
      (Lru.evictEntries cs).1.limit = cs.limit :=
  Tracks.evictLoop _ cs r tracks (Nat.le_add_right _ _)

end Preserve

/-- What the LRU Content Store keeps with its monitor: `Tracks`, and the table within the
limit. -/
def Related (cs : Cs Queue) (r : Ranking) : Prop := Tracks cs r ∧ cs.table.length ≤ cs.limit

section Operations

variable {cs : Cs Queue} {r : Ranking}

theorem Related.insert (related : Related cs r) (now : Time) (data : Data) (isUnsolicited : Bool) :
    Monitor.Accepts observe evictionOk r (Cs.insert policy now data isUnsolicited cs).2 ∧
      Related (Cs.insert policy now data isUnsolicited cs).1
        ((Cs.insert policy now data isUnsolicited cs).2.foldl observe r) := by
  obtain ⟨tracks, within⟩ := related
  unfold Cs.insert
  split
  · exact ⟨trivial, tracks, within⟩
  · split
    · exact ⟨trivial, tracks, within⟩
    · split
      · -- a new entry joins the back, then the front is evicted while over the limit
        rename_i missing
        have absent := key_not_mem_of_find? cs.table missing
        have added : Tracks { cs with
            table := insertSorted ((Entry.ofData now data isUnsolicited).updateFreshUntil now) cs.table,
            policy := cs.policy ++ [data.key] } (r.set data.key (some (0, r.clock))) := by
          have queueIs : cs.policy.erase data.key = cs.policy :=
            List.erase_of_not_mem fun inQueue => absent ((tracks.queueKeys _).mp inQueue)
          have perm := keys_insertSorted cs.table ((Entry.ofData now data isUnsolicited).updateFreshUntil now)
          simp only [Entry.key_updateFreshUntil, Entry.key_ofData] at perm
          have toBack := tracks.toBack data.key
            (perm.nodup_iff.mpr (List.nodup_cons.mpr ⟨absent, tracks.keysNodup⟩))
            fun k => by rw [perm.mem_iff, List.mem_cons]
          rwa [queueIs] at toBack
        obtain ⟨accepted, tracksAfter, withinAfter, -⟩ := added.evictEntries
        simp only [policy, insertToQueue_new (fun inQueue => absent ((tracks.queueKeys _).mp inQueue)),
          Entry.key_updateFreshUntil, Entry.key_ofData, Monitor.accepts_cons, List.foldl_cons, observe]
        exact ⟨⟨trivial, accepted⟩, tracksAfter, withinAfter⟩
      · -- an existing entry is refreshed in place and moves to the back
        rename_i existing found
        obtain ⟨member, keyIs⟩ := key_of_find? cs.table found
        have cached : data.key ∈ cs.table.map Entry.key := keyIs ▸ List.mem_map_of_mem member
        have refreshedKey : ∀ clear : Bool, (if clear then (existing.updateFreshUntil now).clearUnsolicited
            else existing.updateFreshUntil now).key = data.key := by
          intro clear
          split <;> simp [keyIs]
        simp only [policy, insertToQueue_relocate ((tracks.queueKeys _).mpr cached),
          Monitor.accepts_cons, List.foldl_cons, Monitor.accepts_nil, List.foldl_nil, observe,
          refreshedKey]
        refine ⟨⟨trivial, trivial⟩, tracks.toBack data.key ?_ fun k => ?_, ?_⟩
        · rw [keys_replaceEntry]
          exact tracks.keysNodup
        · rw [keys_replaceEntry]
          constructor
          · exact .inr
          · rintro (rfl | inTable)
            · exact cached
            · exact inTable
        · rw [length_replaceEntry]
          exact within

theorem Related.find (related : Related cs r) (now : Time) (interestName : Name)
    (mustBeFresh : Bool) (matchesData : Data → Bool) :
    Monitor.Accepts observe evictionOk r
        (Cs.find policy now interestName mustBeFresh matchesData cs).2 ∧
      Related (Cs.find policy now interestName mustBeFresh matchesData cs).1
        ((Cs.find policy now interestName mustBeFresh matchesData cs).2.foldl observe r) := by
  obtain ⟨tracks, within⟩ := related
  unfold Cs.find
  split
  · exact ⟨trivial, tracks, within⟩
  · -- the match moves to the back
    rename_i entry found
    have cached : entry.key ∈ cs.table.map Entry.key := List.mem_map_of_mem (mem_of_findMatch found)
    simp only [policy, insertToQueue_relocate ((tracks.queueKeys _).mpr cached),
      Monitor.accepts_cons, List.foldl_cons, Monitor.accepts_nil, List.foldl_nil, observe]
    refine ⟨⟨trivial, trivial⟩, tracks.toBack entry.key tracks.keysNodup fun k => ?_, within⟩
    constructor
    · exact .inr
    · rintro (rfl | inTable)
      · exact cached
      · exact inTable

theorem Related.eraseEntries : ∀ (keys : List Key) (cs : Cs Queue) (r : Ranking), Related cs r →
    Monitor.Accepts observe evictionOk r (Cs.eraseEntries policy keys cs).2 ∧
      Related (Cs.eraseEntries policy keys cs).1
        ((Cs.eraseEntries policy keys cs).2.foldl observe r)
  | [], _, _, related => ⟨trivial, related⟩
  | key :: rest, cs, r, ⟨tracks, within⟩ => by
      have shorter : (evict key { cs with policy := cs.policy.erase key }).table.length ≤
          cs.table.length := List.length_eraseP_le
      obtain ⟨accepted, relatedRest⟩ := Related.eraseEntries rest _ _
        ⟨tracks.remove key, by simp only [evict] at shorter ⊢; omega⟩
      simp only [Cs.eraseEntries, policy, List.cons_append, List.nil_append, Monitor.accepts_cons,
        List.foldl_cons]
      exact ⟨⟨trivial, accepted⟩, relatedRest⟩

theorem Related.step (related : Related cs r) (op : Op) :
    Monitor.Accepts observe evictionOk r (Cs.step policy cs op).2 ∧
      Related (Cs.step policy cs op).1 ((Cs.step policy cs op).2.foldl observe r) := by
  cases op with
  | insert now data isUnsolicited => exact related.insert now data isUnsolicited
  | find now interestName mustBeFresh matchesData =>
      exact related.find now interestName mustBeFresh matchesData
  | erase prefixName limit => exact Related.eraseEntries _ cs r related
  | setLimit nMaxPackets =>
      have tracks : Tracks { cs with limit := nMaxPackets } r := related.1.congr rfl rfl
      obtain ⟨accepted, tracksAfter, within, -⟩ := tracks.evictEntries
      exact ⟨accepted, tracksAfter, within⟩
  | enableAdmit shouldAdmit => exact ⟨trivial, related.1.congr rfl rfl, related.2⟩
  | enableServe shouldServe => exact ⟨trivial, related.1.congr rfl rfl, related.2⟩
  | freshnessExpiry key => exact ⟨⟨trivial, trivial⟩, related⟩

theorem Related.new (nMaxPackets : Nat) : Related (Cs.new [] nMaxPackets) Ranking.empty :=
  ⟨⟨List.nodup_nil, List.nodup_nil, by simp [Cs.new], by simp [Cs.new, Ranking.empty],
    by simp [Ranking.empty], List.Pairwise.nil⟩, Nat.zero_le _⟩

/-- Every run of the LRU Content Store keeps the table within the limit and the queue equal
to the table, each entry once, and evicts only least recently used entries. -/
theorem Related.run (ops : List Op) (nMaxPackets : Nat) :
    Monitor.Accepts observe evictionOk Ranking.empty (Cs.run policy ops (Cs.new [] nMaxPackets)).2 ∧
      Related (Cs.run policy ops (Cs.new [] nMaxPackets)).1
        ((Cs.run policy ops (Cs.new [] nMaxPackets)).2.foldl observe Ranking.empty) :=
  Monitor.run_simulation (Cs.step policy) Related (fun _ _ op related => related.step op) ops _ _
    (Related.new nMaxPackets)

end Operations

end Nfd.Cs.Lru
