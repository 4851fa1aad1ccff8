import Mathlib

/-! # The Dead Nonce List

A FIFO queue of 64-bit entries, each the hash of a name and a nonce (`makeEntry`, CityHash,
is outside the model: `add` and `has` take the entry).  `add` of an entry already present
moves it to the back, otherwise appends it and evicts from the front while over capacity,
at most `EVICT_LIMIT` entries at a time and never below the capacity.  `mark` appends a MARK
and records how many MARKs the queue holds; `adjustCapacity` moves the capacity down when
every recorded count was above `EXPECTED_MARK_COUNT`, up when every one was below, then
evicts.

The queue never holds two equal entries other than MARKs (`run_noDuplicates`).  An entry
just added stays in the queue while fewer entries are appended behind it than the capacity
is at its lowest (`has_after_add`): it sits among the last entries, and eviction never goes
below the capacity. -/
set_option autoImplicit false
namespace Nfd

namespace DeadNonceList

abbrev Entry := UInt64

/-- `MARK`. -/
def markEntry : Entry := 0

def initialCapacity : Nat := 2 ^ 14
def minCapacity : Nat := 2 ^ 10
def maxCapacity : Nat := 2 ^ 24
def expectedMarkCount : Nat := 5
def evictLimit : Nat := 64

end DeadNonceList

/-- `m_index` as its queue, front first, with `m_capacity` and `m_actualMarkCounts`. -/
structure DeadNonceList where
  queue : List DeadNonceList.Entry
  capacity : Nat
  actualMarkCounts : List Nat
deriving DecidableEq, Repr

namespace DeadNonceList

/-- The constructor: `EXPECTED_MARK_COUNT` MARKs. -/
def initial : DeadNonceList := ⟨List.replicate expectedMarkCount markEntry, initialCapacity, []⟩

def has (entry : Entry) (d : DeadNonceList) : Bool := d.queue.contains entry

def countMarks (d : DeadNonceList) : Nat := d.queue.count markEntry

def evictEntries (d : DeadNonceList) : DeadNonceList :=
  if d.queue.length ≤ d.capacity then d
  else { d with queue := d.queue.drop (min (d.queue.length - d.capacity) evictLimit) }

/-- `add`: the hash index finds a present entry, which `relocate` moves to the back; of equal
entries (only MARKs) the model moves the first. -/
def add (entry : Entry) (d : DeadNonceList) : DeadNonceList :=
  if entry ∈ d.queue then { d with queue := d.queue.erase entry ++ [entry] }
  else evictEntries { d with queue := d.queue ++ [entry] }

def mark (d : DeadNonceList) : DeadNonceList :=
  let d := { d with queue := d.queue ++ [markEntry] }
  { d with actualMarkCounts := d.actualMarkCounts ++ [d.countMarks] }

/-- `adjustCapacity`, with `CAPACITY_DOWN` 0.9 and `CAPACITY_UP` 1.2 as exact fractions.  An
empty record counts as every count above the expected one, as `equal_range` finds it. -/
def adjustCapacity (d : DeadNonceList) : DeadNonceList :=
  let capacity :=
    if d.actualMarkCounts.all (· > expectedMarkCount) then max minCapacity (d.capacity * 9 / 10)
    else if d.actualMarkCounts.all (· < expectedMarkCount) then min maxCapacity (d.capacity * 6 / 5)
    else d.capacity
  evictEntries { d with capacity := capacity, actualMarkCounts := [] }

inductive Op where
  | add (entry : Entry)
  | mark
  | adjustCapacity
deriving DecidableEq, Repr

def step (d : DeadNonceList) : Op → DeadNonceList
  | .add entry => d.add entry
  | .mark => d.mark
  | .adjustCapacity => d.adjustCapacity

def run (d : DeadNonceList) (ops : List Op) : DeadNonceList := ops.foldl step d

/-- The capacities of the states a run goes through, the first included. -/
def capacities : DeadNonceList → List Op → List Nat
  | d, [] => [d.capacity]
  | d, op :: rest => d.capacity :: capacities (step d op) rest

/-- The operations that append to the queue. -/
def Op.appends : Op → Bool
  | .add _ => true
  | .mark => true
  | .adjustCapacity => false

@[simp] theorem run_nil (d : DeadNonceList) : run d [] = d := rfl

theorem run_cons (d : DeadNonceList) (op : Op) (rest : List Op) : run d (op :: rest) = run (step d op) rest := rfl

/-! ## No two equal entries besides MARKs -/

def NoDuplicates (d : DeadNonceList) : Prop := (d.queue.filter (· ≠ markEntry)).Nodup

theorem noDuplicates_initial : NoDuplicates initial := by
  simp [NoDuplicates, initial]

theorem NoDuplicates.evictEntries {d : DeadNonceList} (unique : NoDuplicates d) : NoDuplicates d.evictEntries := by
  unfold DeadNonceList.evictEntries
  split
  · exact unique
  · exact unique.sublist ((List.drop_sublist _ _).filter _)

theorem NoDuplicates.add {d : DeadNonceList} (unique : NoDuplicates d) (entry : Entry) :
    NoDuplicates (d.add entry) := by
  unfold DeadNonceList.add
  split
  · rename_i present
    by_cases isMark : entry = markEntry
    · -- a MARK moved to the back: the entries besides MARKs keep their order
      subst isMark
      have same : (d.queue.erase markEntry).filter (· ≠ markEntry) = d.queue.filter (· ≠ markEntry) := by
        rw [← List.erase_filter]
        exact List.erase_of_not_mem (by simp)
      show ((d.queue.erase markEntry ++ [markEntry]).filter (· ≠ markEntry)).Nodup
      rw [List.filter_append, same]
      simpa [NoDuplicates] using unique
    · have moved : ((d.queue.erase entry).filter (· ≠ markEntry)) = (d.queue.filter (· ≠ markEntry)).erase entry := by
        rw [List.erase_filter]
      simp only [NoDuplicates, List.filter_append, moved]
      refine List.nodup_append.mpr ⟨unique.erase entry, by simp [isMark], ?_⟩
      intro other inErased last inLast
      simp only [List.filter_cons, List.filter_nil, decide_not, isMark] at inLast
      simp at inLast
      subst inLast
      exact fun same => (List.Nodup.not_mem_erase unique) (same ▸ inErased)
  · rename_i absent
    apply NoDuplicates.evictEntries
    simp only [NoDuplicates, List.filter_append]
    refine List.nodup_append.mpr ⟨unique, (List.nodup_singleton entry).sublist List.filter_sublist, ?_⟩
    intro other inQueue last inLast same
    simp only [List.filter_cons, List.filter_nil] at inLast
    split at inLast
    · simp only [List.mem_singleton] at inLast
      subst inLast same
      exact absent (List.mem_filter.mp inQueue).1
    · cases inLast

theorem NoDuplicates.mark {d : DeadNonceList} (unique : NoDuplicates d) : NoDuplicates d.mark := by
  simpa [NoDuplicates, DeadNonceList.mark, List.filter_append] using unique

theorem NoDuplicates.step {d : DeadNonceList} (unique : NoDuplicates d) (op : Op) : NoDuplicates (step d op) := by
  cases op with
  | add entry => exact unique.add entry
  | mark => exact unique.mark
  | adjustCapacity => exact NoDuplicates.evictEntries unique

theorem NoDuplicates.run {d : DeadNonceList} (unique : NoDuplicates d) (ops : List Op) : NoDuplicates (run d ops) := by
  induction ops generalizing d with
  | nil => exact unique
  | cons op rest ih => exact ih (unique.step op)

theorem run_noDuplicates (ops : List Op) : NoDuplicates (run initial ops) := noDuplicates_initial.run ops

/-! ## Retention of an added entry -/

@[simp] theorem capacity_evictEntries (d : DeadNonceList) : d.evictEntries.capacity = d.capacity := by
  unfold DeadNonceList.evictEntries
  split <;> rfl

@[simp] theorem capacity_add (d : DeadNonceList) (entry : Entry) : (d.add entry).capacity = d.capacity := by
  unfold DeadNonceList.add
  split
  · rfl
  · exact capacity_evictEntries _

@[simp] theorem capacity_mark (d : DeadNonceList) : d.mark.capacity = d.capacity := rfl

theorem capacity_mem_capacities (d : DeadNonceList) (ops : List Op) : d.capacity ∈ capacities d ops := by
  cases ops <;> simp [capacities]

/-- The entry is in the queue with at most `n` entries behind it. -/
def Retains (n : Nat) (entry : Entry) (d : DeadNonceList) : Prop :=
  ∃ front behind, d.queue = front ++ entry :: behind ∧ behind.length ≤ n

theorem Retains.has {n : Nat} {entry : Entry} {d : DeadNonceList} (retains : Retains n entry d) :
    d.has entry = true := by
  obtain ⟨front, behind, queue, _⟩ := retains
  simp [DeadNonceList.has, queue]

theorem Retains.mono {n m : Nat} {entry : Entry} {d : DeadNonceList} (retains : Retains n entry d) (le : n ≤ m) :
    Retains m entry d := by
  obtain ⟨front, behind, queue, short⟩ := retains
  exact ⟨front, behind, queue, by omega⟩

theorem Retains.push {n : Nat} {entry : Entry} {d : DeadNonceList} (retains : Retains n entry d) (last : Entry) :
    ∃ front behind, d.queue ++ [last] = front ++ entry :: behind ∧ behind.length ≤ n + 1 := by
  obtain ⟨front, behind, queue, short⟩ := retains
  exact ⟨front, behind ++ [last], by simp [queue], by simp; omega⟩

/-- Eviction keeps the last `capacity` entries, so an entry with fewer behind it stays. -/
theorem Retains.evictEntries {n : Nat} {entry : Entry} {d : DeadNonceList} (retains : Retains n entry d)
    (room : n < d.capacity) : Retains n entry d.evictEntries := by
  unfold DeadNonceList.evictEntries
  split
  · exact retains
  · obtain ⟨front, behind, queue, short⟩ := retains
    have length : d.queue.length = front.length + 1 + behind.length := by simp [queue]; omega
    refine ⟨front.drop (min (d.queue.length - d.capacity) evictLimit), behind, ?_, short⟩
    rw [queue, List.drop_append_of_le_length (by rw [← queue]; omega)]

/-- Relocating another entry to the back puts at most one more entry behind this one. -/
theorem Retains.relocate {n : Nat} {entry : Entry} {d : DeadNonceList} (retains : Retains n entry d)
    {other : Entry} (different : other ≠ entry) :
    ∃ front behind, d.queue.erase other ++ [other] = front ++ entry :: behind ∧ behind.length ≤ n + 1 := by
  obtain ⟨front, behind, queue, short⟩ := retains
  rw [queue]
  by_cases inFront : other ∈ front
  · refine ⟨front.erase other, behind ++ [other], ?_, by simp; omega⟩
    simp [List.erase_append_left _ inFront]
  · refine ⟨front, behind.erase other ++ [other], ?_, ?_⟩
    · rw [List.erase_append_right _ inFront, List.erase_cons, if_neg (by simpa using different.symm)]
      simp
    · have := List.length_erase_le (l := behind) (a := other)
      simp; omega

theorem retains_add {d : DeadNonceList} (entry : Entry) (positive : 0 < d.capacity) :
    Retains 0 entry (d.add entry) := by
  unfold DeadNonceList.add
  split
  · exact ⟨d.queue.erase entry, [], rfl, Nat.le_refl _⟩
  · exact Retains.evictEntries ⟨d.queue, [], rfl, Nat.le_refl _⟩ positive

/-- One operation puts at most one entry behind a retained one, and its eviction keeps it while
the capacity after the operation exceeds the count. -/
theorem Retains.step {n : Nat} {entry : Entry} {d : DeadNonceList} (retains : Retains n entry d) (op : Op)
    (room : n + (if op.appends then 1 else 0) < (step d op).capacity) :
    Retains (n + if op.appends then 1 else 0) entry (step d op) := by
  cases op with
  | add other =>
    simp only [DeadNonceList.step, capacity_add, Op.appends, if_true] at room ⊢
    unfold DeadNonceList.add
    split
    · by_cases same : other = entry
      · subst same
        exact ⟨d.queue.erase other, [], rfl, Nat.zero_le _⟩
      · exact retains.relocate same
    · exact Retains.evictEntries (retains.push other) room
  | mark =>
    simp only [DeadNonceList.step, Op.appends, if_true]
    exact retains.push markEntry
  | adjustCapacity =>
    simp only [DeadNonceList.step, Op.appends, Bool.false_eq_true, if_false, Nat.add_zero] at room ⊢
    unfold DeadNonceList.adjustCapacity at room
    rw [capacity_evictEntries] at room
    exact Retains.evictEntries retains room

/-- The run lemma: through a run, the entries put behind a retained one are at most the
operations that append, and it stays while that count is below every capacity on the way. -/
theorem Retains.run {n : Nat} {entry : Entry} {d : DeadNonceList} (retains : Retains n entry d) (ops : List Op)
    (room : ∀ c ∈ capacities d ops, n + ops.countP Op.appends < c) :
    Retains (n + ops.countP Op.appends) entry (run d ops) := by
  induction ops generalizing n d with
  | nil => simpa using retains
  | cons op rest ih =>
    have counted : (op :: rest).countP Op.appends = rest.countP Op.appends + if op.appends then 1 else 0 :=
      List.countP_cons
    have next : Retains (n + if op.appends then 1 else 0) entry (DeadNonceList.step d op) := by
      apply retains.step op
      have := room _ (List.mem_cons_of_mem _ (capacity_mem_capacities (DeadNonceList.step d op) rest))
      omega
    have later := ih next (fun c within => by
      have := room c (List.mem_cons_of_mem _ within)
      omega)
    rw [run_cons, counted]
    exact later.mono (by omega)

theorem has_after_add (d : DeadNonceList) (entry : Entry) (ops : List Op)
    (room : ∀ c ∈ capacities (d.add entry) ops, ops.countP Op.appends < c) :
    (run (d.add entry) ops).has entry = true := by
  have positive : 0 < d.capacity := by
    have := room _ (capacity_mem_capacities (d.add entry) ops)
    rw [capacity_add] at this
    omega
  exact ((retains_add entry positive).run ops (by simpa using room)).has

/-! ## A run of adds

`insertDeadNonceList` adds the Nonces of all out-records of an entry one after another. -/

theorem run_append (d : DeadNonceList) (ops more : List Op) : run d (ops ++ more) = run (run d ops) more :=
  List.foldl_append

theorem capacity_run_adds (d : DeadNonceList) (entries : List Entry) :
    (run d (entries.map Op.add)).capacity = d.capacity := by
  induction entries generalizing d with
  | nil => rfl
  | cons entry rest ih =>
    rw [List.map_cons, run_cons, ih]
    exact capacity_add d entry

theorem capacities_adds (d : DeadNonceList) (entries : List Entry) :
    ∀ c ∈ capacities d (entries.map Op.add), c = d.capacity := by
  induction entries generalizing d with
  | nil =>
    intro c mem
    simpa [capacities] using mem
  | cons entry rest ih =>
    intro c mem
    rw [List.map_cons, capacities, List.mem_cons] at mem
    rcases mem with first | later
    · exact first
    · rw [ih _ c later]
      exact capacity_add d entry

theorem mem_capacities_append {d : DeadNonceList} {ops more : List Op} {c : Nat}
    (mem : c ∈ capacities d (ops ++ more)) : c ∈ capacities d ops ∨ c ∈ capacities (run d ops) more := by
  induction ops generalizing d with
  | nil => exact Or.inr mem
  | cons op rest ih =>
    rw [List.cons_append, capacities, List.mem_cons] at mem
    rcases mem with first | later
    · left
      rw [capacities, first]
      exact List.mem_cons_self
    · rcases ih later with early | late
      · exact Or.inl (List.mem_cons_of_mem _ early)
      · exact Or.inr late

theorem countP_appends_adds (entries : List Entry) : (entries.map Op.add).countP Op.appends = entries.length := by
  rw [List.countP_map]
  exact List.countP_eq_length.mpr fun _ _ => rfl

/-- An entry added in a run of adds stays through later operations while the adds after it and
the later appends stay below every capacity on the way. -/
theorem has_after_adds (d : DeadNonceList) (front behind : List Entry) (entry : Entry) (ops : List Op)
    (room : ∀ c ∈ capacities (run d ((front ++ entry :: behind).map Op.add)) ops,
      behind.length + 1 + ops.countP Op.appends ≤ c) :
    (run (run d ((front ++ entry :: behind).map Op.add)) ops).has entry = true := by
  have capacityAfter : (run d ((front ++ entry :: behind).map Op.add)).capacity = d.capacity :=
    capacity_run_adds d _
  have enough : behind.length + 1 + ops.countP Op.appends ≤ d.capacity := by
    have := room _ (capacity_mem_capacities _ ops)
    rwa [capacityAfter] at this
  -- the entry goes to the state the adds in front of it leave
  have split : run d ((front ++ entry :: behind).map Op.add) =
      run ((run d (front.map Op.add)).add entry) (behind.map Op.add) := by
    rw [List.map_append, List.map_cons, run_append, run_cons]
    rfl
  have positive : 0 < (run d (front.map Op.add)).capacity := by
    rw [capacity_run_adds]
    omega
  have retained := (retains_add entry positive).run (behind.map Op.add ++ ops) (by
    intro c mem
    rw [List.countP_append, countP_appends_adds]
    rcases mem_capacities_append mem with early | late
    · rw [capacities_adds _ behind c early, capacity_add, capacity_run_adds]
      omega
    · rw [← split] at late
      have := room c late
      omega)
  rw [split, ← run_append]
  exact retained.has

theorem add_keeps_unique_and_retains :
    (∀ ops : List Op, NoDuplicates (run initial ops)) ∧
    ∀ (d : DeadNonceList) (entry : Entry) (ops : List Op),
      (∀ c ∈ capacities (d.add entry) ops, ops.countP Op.appends < c) →
      (run (d.add entry) ops).has entry = true :=
  ⟨run_noDuplicates, has_after_add⟩

end DeadNonceList

end Nfd
