import Nfd.Name
import Nfd.Lib.Monitor

/-!
# The Content Store

`Cs` keeps Data packets in a table sorted by full name and leaves the choice of what to
evict to a replacement policy.  The table calls the policy's hooks (`afterInsert`,
`afterRefresh`, `beforeUse`, `beforeErase`); the policy keeps its own bookkeeping and, when
the table holds more than the limit, emits `beforeEvict`, on which the table erases the
entry.  The model records these calls and signals as `Event`s, together with the end of an
entry's FreshnessPeriod, on which the policy's freshness timer fires: the event comes from
the operation, so a monitor learns that an entry is stale whatever the policy does.

A Data packet is modelled by its name, its implicit digest, its FreshnessPeriod and whether
its CachePolicy tag says NO_CACHE.  Time is the steady clock in milliseconds, one instant
per operation.  `findPrefixRange(prefix)`, the range between `lower_bound(prefix)` and
`lower_bound(prefix.getSuccessor())`, is modelled by the entries under the prefix: for a
full name, the Data of that name and digest, otherwise the Data whose names start with it.
`Interest::matchesData` belongs to the packet library and is a parameter of `find`.

What a policy is for is stated by a monitor (`Ranking`): every cached entry has a rank and
an age, and an eviction must take the entry of least rank, the oldest among those.
-/

set_option autoImplicit false

namespace Nfd.Cs

/-- The steady clock, in milliseconds. -/
abbrev Time := Nat

structure Data where
  name : Name
  digest : Component
  freshnessPeriod : Nat
  noCache : Bool
deriving DecidableEq, Repr

/-- Where a Data packet sits in the table: its name, then its implicit digest. -/
abbrev Key := Name × Component

def Data.key (data : Data) : Key := (data.name, data.digest)

/-- `cs::Entry`. -/
structure Entry where
  data : Data
  isUnsolicited : Bool
  freshUntil : Time
deriving DecidableEq, Repr

namespace Entry

def key (entry : Entry) : Key := entry.data.key

/-- `Entry(data, isUnsolicited)`. -/
def ofData (now : Time) (data : Data) (isUnsolicited : Bool) : Entry :=
  ⟨data, isUnsolicited, now + data.freshnessPeriod⟩

/-- `isFresh()`: `m_freshUntil >= now`. -/
def isFresh (now : Time) (entry : Entry) : Bool := decide (now ≤ entry.freshUntil)

def updateFreshUntil (now : Time) (entry : Entry) : Entry :=
  { entry with freshUntil := now + entry.data.freshnessPeriod }

def clearUnsolicited (entry : Entry) : Entry := { entry with isUnsolicited := false }

/-- `canSatisfy(interest)`, for an Interest with MustBeFresh `mustBeFresh` whose
`matchesData` is given. -/
def canSatisfy (now : Time) (mustBeFresh : Bool) (matchesData : Data → Bool) (entry : Entry) :
    Bool :=
  matchesData entry.data && (!mustBeFresh || entry.isFresh now)

@[simp] theorem key_updateFreshUntil (now : Time) (entry : Entry) :
    (entry.updateFreshUntil now).key = entry.key := rfl

@[simp] theorem key_clearUnsolicited (entry : Entry) : entry.clearUnsolicited.key = entry.key := rfl

@[simp] theorem key_ofData (now : Time) (data : Data) (isUnsolicited : Bool) :
    (ofData now data isUnsolicited).key = data.key := rfl

end Entry

/-- `compareDataWithData`: by name, then by implicit digest. -/
def compareKeys (a b : Key) : Ordering :=
  (Name.compare a.1 b.1).then (Component.compare a.2 b.2)

/-- `m_table.emplace` of a new entry: before the first entry with a greater key. -/
def insertSorted (entry : Entry) : List Entry → List Entry
  | [] => [entry]
  | e :: rest =>
      if compareKeys entry.key e.key == .lt then entry :: e :: rest else e :: insertSorted entry rest

/-- The table entry of `entry`'s key updated in place. -/
def replaceEntry (entry : Entry) (table : List Entry) : List Entry :=
  table.map fun e => if e.key == entry.key then entry else e

/-- Whether `findPrefixRange(prefix)` holds the Data. -/
def underPrefix (prefixName : Name) (data : Data) : Bool :=
  match prefixName.getLast? with
  | none => true
  | some last =>
      if last.isImplicitSha256Digest then prefixName.dropLast == data.name && last == data.digest
      else prefixName.isPrefixOf data.name

/-- `findPrefixRange(prefix)`, in table order. -/
def findPrefixRange (prefixName : Name) (table : List Entry) : List Entry :=
  table.filter fun entry => underPrefix prefixName entry.data

/-- The hook calls of the table, the signal of the policy, and the end of an entry's
freshness. -/
inductive Event where
  | afterInsert (entry : Entry) (now : Time)
  | afterRefresh (entry : Entry) (now : Time)
  | beforeUse (key : Key)
  | beforeErase (key : Key)
  | beforeEvict (key : Key)
  | freshnessExpired (key : Key)
deriving DecidableEq, Repr

end Nfd.Cs

namespace Nfd

/-- The Content Store with a policy whose bookkeeping has type `σ`; `limit` is the
policy's `m_limit`. -/
structure Cs (σ : Type) where
  table : List Cs.Entry
  policy : σ
  limit : Nat
  shouldAdmit : Bool
  shouldServe : Bool

end Nfd

namespace Nfd.Cs

/-- The virtual functions of `Policy`, with the events each emits.  `afterFreshnessExpiry`
is the policy's freshness timer firing for an entry. -/
structure Policy (σ : Type) where
  doAfterInsert : Time → Key → Cs σ → Cs σ × List Event
  doAfterRefresh : Time → Key → Cs σ → Cs σ × List Event
  doBeforeErase : Key → Cs σ → Cs σ × List Event
  doBeforeUse : Key → Cs σ → Cs σ × List Event
  evictEntries : Cs σ → Cs σ × List Event
  afterFreshnessExpiry : Key → Cs σ → Cs σ × List Event

variable {σ : Type}

/-- `size()`: the number of table entries. -/
def size (cs : Cs σ) : Nat := cs.table.length

/-- The table's handler of `beforeEvict`: `m_table.erase(it)`. -/
def evict (key : Key) (cs : Cs σ) : Cs σ :=
  { cs with table := cs.table.eraseP fun entry => entry.key == key }

/-- `Cs(nMaxPackets)` with the policy's bookkeeping `initial`. -/
def new (initial : σ) (nMaxPackets : Nat) : Cs σ := ⟨[], initial, nMaxPackets, true, true⟩

section Operations

variable (policy : Policy σ)

/-- `insert(data, isUnsolicited)`. -/
def insert (now : Time) (data : Data) (isUnsolicited : Bool) (cs : Cs σ) : Cs σ × List Event :=
  if !cs.shouldAdmit || cs.limit == 0 then (cs, [])
  else if data.noCache then (cs, [])
  else
    match cs.table.find? fun entry => entry.key == data.key with
    | none =>
        let entry := (Entry.ofData now data isUnsolicited).updateFreshUntil now
        let result := policy.doAfterInsert now entry.key { cs with table := insertSorted entry cs.table }
        (result.1, .afterInsert entry now :: result.2)
    | some existing =>
        let entry := existing.updateFreshUntil now
        let entry := if entry.isUnsolicited && !isUnsolicited then entry.clearUnsolicited else entry
        let result := policy.doAfterRefresh now entry.key { cs with table := replaceEntry entry cs.table }
        (result.1, .afterRefresh entry now :: result.2)

/-- `findImpl(interest)`: the first entry under the Interest's name that can satisfy it. -/
def findMatch (now : Time) (interestName : Name) (mustBeFresh : Bool)
    (matchesData : Data → Bool) (cs : Cs σ) : Option Entry :=
  if !cs.shouldServe || cs.limit == 0 then none
  else (findPrefixRange interestName cs.table).find? (Entry.canSatisfy now mustBeFresh matchesData)

/-- `find(interest, hit, miss)`: a match is announced to the policy before it is used. -/
def find (now : Time) (interestName : Name) (mustBeFresh : Bool) (matchesData : Data → Bool)
    (cs : Cs σ) : Cs σ × List Event :=
  match findMatch now interestName mustBeFresh matchesData cs with
  | none => (cs, [])
  | some entry =>
      let result := policy.doBeforeUse entry.key cs
      (result.1, .beforeUse entry.key :: result.2)

/-- The loop of `eraseImpl`: each entry is announced to the policy, then erased. -/
def eraseEntries : List Key → Cs σ → Cs σ × List Event
  | [], cs => (cs, [])
  | key :: rest, cs =>
      let result := policy.doBeforeErase key cs
      let later := eraseEntries rest (evict key result.1)
      (later.1, .beforeErase key :: result.2 ++ later.2)

/-- `erase(prefix, limit, cb)`: the first `limit` entries under the prefix. -/
def erase (prefixName : Name) (limit : Nat) (cs : Cs σ) : Cs σ × List Event :=
  eraseEntries policy (((findPrefixRange prefixName cs.table).take limit).map Entry.key) cs

/-- `setLimit(nMaxPackets)`. -/
def setLimit (nMaxPackets : Nat) (cs : Cs σ) : Cs σ × List Event :=
  policy.evictEntries { cs with limit := nMaxPackets }

/-- The operations on the Content Store, and the end of an entry's FreshnessPeriod, on which
the policy's freshness timer fires. -/
inductive Op where
  | insert (now : Time) (data : Data) (isUnsolicited : Bool)
  | find (now : Time) (interestName : Name) (mustBeFresh : Bool) (matchesData : Data → Bool)
  | erase (prefixName : Name) (limit : Nat)
  | setLimit (nMaxPackets : Nat)
  | enableAdmit (shouldAdmit : Bool)
  | enableServe (shouldServe : Bool)
  | freshnessExpiry (key : Key)

def step (cs : Cs σ) : Op → Cs σ × List Event
  | .insert now data isUnsolicited => insert policy now data isUnsolicited cs
  | .find now interestName mustBeFresh matchesData =>
      find policy now interestName mustBeFresh matchesData cs
  | .erase prefixName limit => erase policy prefixName limit cs
  | .setLimit nMaxPackets => setLimit policy nMaxPackets cs
  | .enableAdmit shouldAdmit => ({ cs with shouldAdmit }, [])
  | .enableServe shouldServe => ({ cs with shouldServe }, [])
  | .freshnessExpiry key =>
      -- the entry goes stale whatever the policy does with its timer
      let result := policy.afterFreshnessExpiry key cs
      (result.1, .freshnessExpired key :: result.2)

/-- A run of operations from `cs`, with the events it emits. -/
def run (ops : List Op) (cs : Cs σ) : Cs σ × List Event :=
  Monitor.run (step policy) cs ops

end Operations

/-! ## What a policy is for -/

/-- The monitor of a replacement policy: the rank and the age of each cached entry, and a
clock that counts the events. -/
structure Ranking where
  clock : Nat
  live : Key → Option (Nat × Nat)

/-- `(rank, age)` comes before `(rank', age')`: a lower rank, or the same rank and older. -/
def Before (a b : Nat × Nat) : Prop := a.1 < b.1 ∨ (a.1 = b.1 ∧ a.2 < b.2)

/-- The entry the policy must evict: cached, and before every other cached entry. -/
def Ranking.Designated (r : Ranking) (key : Key) : Prop :=
  ∃ v, r.live key = some v ∧ ∀ key' v', r.live key' = some v' → key' ≠ key → Before v v'

/-- Only the designated entry may be evicted. -/
def evictionOk (r : Ranking) : Event → Prop
  | .beforeEvict key => r.Designated key
  | _ => True

/-- The event that sets an entry's rank and age, or forgets it. -/
def Ranking.set (key : Key) (v : Option (Nat × Nat)) (r : Ranking) : Ranking :=
  ⟨r.clock + 1, Function.update r.live key v⟩

def Ranking.tick (r : Ranking) : Ranking := { r with clock := r.clock + 1 }

/-- The age of an entry, 0 when it is not cached. -/
def Ranking.age (r : Ranking) (key : Key) : Nat := ((r.live key).map Prod.snd).getD 0

/-- The empty monitor. -/
def Ranking.empty : Ranking := ⟨0, fun _ => none⟩

section RankingLemmas

variable (r : Ranking) (key : Key) (v : Option (Nat × Nat))

@[simp] theorem Ranking.set_clock : (r.set key v).clock = r.clock + 1 := rfl

@[simp] theorem Ranking.set_live : (r.set key v).live = Function.update r.live key v := rfl

@[simp] theorem Ranking.tick_clock : r.tick.clock = r.clock + 1 := rfl

@[simp] theorem Ranking.tick_live : r.tick.live = r.live := rfl

theorem Ranking.age_set_other {other : Key} (different : other ≠ key) :
    (r.set key v).age other = r.age other := by
  simp [Ranking.age, Function.update_of_ne different]

theorem Ranking.age_set_self (rank age : Nat) : (r.set key (some (rank, age))).age key = age := by
  simp [Ranking.age]

end RankingLemmas

section TableLemmas

variable (table : List Entry)

theorem keys_insertSorted (entry : Entry) :
    ((insertSorted entry table).map Entry.key).Perm (entry.key :: table.map Entry.key) := by
  induction table with
  | nil => rfl
  | cons e rest inductionHypothesis =>
      simp only [insertSorted]
      split
      · rfl
      · exact ((inductionHypothesis.cons e.key).trans (List.Perm.swap _ _ _))

theorem mem_insertSorted (entry : Entry) {e : Entry} :
    e ∈ insertSorted entry table ↔ e = entry ∨ e ∈ table := by
  induction table with
  | nil => simp [insertSorted]
  | cons x rest inductionHypothesis =>
      simp only [insertSorted]
      split <;> simp [inductionHypothesis, or_left_comm]

theorem keys_replaceEntry (entry : Entry) :
    (replaceEntry entry table).map Entry.key = table.map Entry.key := by
  simp only [replaceEntry, List.map_map]
  congr 1
  funext e
  simp only [Function.comp_apply]
  split
  · rename_i same
    exact (beq_iff_eq.mp same).symm
  · rfl

theorem keys_evict (cs : Cs σ) (key : Key) :
    (evict key cs).table.map Entry.key = (cs.table.map Entry.key).erase key := by
  have sameTest : ((fun k => key == k) ∘ Entry.key) = fun entry : Entry => entry.key == key :=
    funext fun entry => by rw [Function.comp_apply, Bool.eq_iff_iff, beq_iff_eq, beq_iff_eq, eq_comm]
  simp only [evict, List.erase_eq_eraseP, List.eraseP_map, sameTest]

theorem length_evict (cs : Cs σ) {key : Key} (cached : key ∈ cs.table.map Entry.key) :
    (evict key cs).table.length + 1 = cs.table.length := by
  have lengths := congrArg List.length (keys_evict cs key)
  simp only [List.length_map] at lengths
  rw [lengths, List.length_erase_of_mem cached, List.length_map]
  have := List.length_pos_of_mem cached
  simp only [List.length_map] at this
  omega

theorem length_replaceEntry (entry : Entry) : (replaceEntry entry table).length = table.length :=
  List.length_map _

theorem mem_replaceEntry {entry : Entry} (cached : entry.key ∈ table.map Entry.key) :
    entry ∈ replaceEntry entry table := by
  obtain ⟨e, member, keyIs⟩ := List.mem_map.mp cached
  exact List.mem_map.mpr ⟨e, member, by simp [keyIs]⟩

theorem mem_of_findMatch {now : Time} {interestName : Name} {mustBeFresh : Bool}
    {matchesData : Data → Bool} {cs : Cs σ} {entry : Entry}
    (found : findMatch now interestName mustBeFresh matchesData cs = some entry) :
    entry ∈ cs.table := by
  unfold findMatch at found
  split at found
  · cases found
  · exact (List.mem_filter.mp (List.mem_of_find?_eq_some found)).1

theorem key_of_find? {data : Data} {existing : Entry}
    (found : table.find? (fun entry => entry.key == data.key) = some existing) :
    existing ∈ table ∧ existing.key = data.key := by
  have matched := List.find?_some found
  exact ⟨List.mem_of_find?_eq_some found, beq_iff_eq.mp matched⟩

theorem key_not_mem_of_find? {data : Data}
    (missing : table.find? (fun entry => entry.key == data.key) = none) :
    data.key ∉ table.map Entry.key := by
  rw [List.mem_map]
  rintro ⟨e, member, same⟩
  have := List.find?_eq_none.mp missing e member
  simp [same] at this

/-- The entry of a key in a table whose keys are distinct. -/
theorem find?_key_of_mem (nodup : (table.map Entry.key).Nodup) {entry : Entry}
    (member : entry ∈ table) :
    table.find? (fun e => e.key == entry.key) = some entry := by
  induction table with
  | nil => cases member
  | cons e rest inductionHypothesis =>
      simp only [List.map_cons, List.nodup_cons, List.mem_map] at nodup
      rcases List.mem_cons.mp member with rfl | inRest
      · simp
      · have different : e.key ≠ entry.key := fun same => nodup.1 ⟨entry, inRest, same.symm⟩
        simp [different, inductionHypothesis nodup.2 inRest]

end TableLemmas

end Nfd.Cs
