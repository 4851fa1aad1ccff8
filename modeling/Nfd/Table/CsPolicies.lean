import Nfd.Table.CsPolicyLru
import Nfd.Table.CsPolicyPriorityFifo

/-!
# Capacity and bookkeeping under the registered policies

The Content Store runs with one of the policies `Policy::create` finds in the registry,
`lru` or `priority_fifo`.  Under either, every run from an empty store keeps the table
within the limit, keeps the policy's bookkeeping equal to the table with each entry once,
and evicts only the entries the policy's monitor designates.  Every prefix of a run is a
run, so these hold after every operation.
-/

set_option autoImplicit false

namespace Nfd.Cs

/-- The LRU queue holds each table entry once and nothing else. -/
def Lru.QueueExact (cs : Cs Lru.Queue) : Prop :=
  (cs.table.map Entry.key).Nodup ∧ cs.policy.Nodup ∧
    ∀ key, key ∈ cs.policy ↔ key ∈ cs.table.map Entry.key

/-- The three queues and `m_entryInfoMap` hold each table entry once, in the queue the map
records, and nothing else. -/
def PriorityFifo.QueuesExact (cs : Cs PriorityFifo.State) : Prop :=
  (cs.table.map Entry.key).Nodup ∧ (∀ queueType, (cs.policy.queues queueType).Nodup) ∧
    (∀ key queueType, key ∈ cs.policy.queues queueType ↔
      cs.policy.entryInfoMap key = some queueType) ∧
    ∀ key, (cs.policy.entryInfoMap key).isSome ↔ key ∈ cs.table.map Entry.key

theorem Lru.Tracks.queueExact {cs : Cs Lru.Queue} {r : Ranking} (tracks : Lru.Tracks cs r) :
    Lru.QueueExact cs :=
  ⟨tracks.keysNodup, tracks.queueNodup, tracks.queueKeys⟩

theorem PriorityFifo.Tracks.queuesExact {cs : Cs PriorityFifo.State} {r : Ranking}
    (tracks : PriorityFifo.Tracks cs r) : PriorityFifo.QueuesExact cs :=
  ⟨tracks.keysNodup, tracks.books.queuesNodup, tracks.books.inQueue, tracks.books.recorded⟩

/-- Every run of operations, under `lru` and under `priority_fifo`, ends with the table
within the limit and the bookkeeping exact, and each of its evictions is of the designated
entry. -/
theorem capacity_and_bookkeeping (ops : List Op) (nMaxPackets : Nat) :
    let lru := Cs.run Lru.policy ops (Cs.new [] nMaxPackets)
    let priorityFifo := Cs.run PriorityFifo.policy ops (Cs.new PriorityFifo.State.empty nMaxPackets)
    (lru.1.size ≤ lru.1.limit ∧ Lru.QueueExact lru.1 ∧
        Monitor.Accepts Lru.observe evictionOk Ranking.empty lru.2) ∧
      (priorityFifo.1.size ≤ priorityFifo.1.limit ∧ PriorityFifo.QueuesExact priorityFifo.1 ∧
        Monitor.Accepts PriorityFifo.observe evictionOk Ranking.empty priorityFifo.2) := by
  intro lru priorityFifo
  obtain ⟨acceptedLru, tracksLru, withinLru⟩ := Lru.Related.run ops nMaxPackets
  obtain ⟨acceptedFifo, tracksFifo, withinFifo⟩ := PriorityFifo.Related.run ops nMaxPackets
  exact ⟨⟨withinLru, tracksLru.queueExact, acceptedLru⟩,
    ⟨withinFifo, tracksFifo.queuesExact, acceptedFifo⟩⟩

end Nfd.Cs
