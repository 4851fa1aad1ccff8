import Mathlib
import Nfd.Table.Fib
import Nfd.Table.Pit
import Nfd.Table.NameTreeIterator
import Nfd.Table.NameTreeLpm

/-!
# New nexthops

`Forwarder::onNewNextHop(prefix, nextHop)` enumerates the name tree below the entry of the
prefix, skipping every entry with a FIB entry of its own below the prefix together with its
subtree, and calls `afterNewNextHop` for every PIT entry attached to the entries it visits.
`Fib::findLongestPrefixMatch(pitEntry)` starts from the entry the PIT entry is attached to and
goes deeper along the PIT entry's name.  The PIT entry of a name that ends in an implicit digest
is attached one level above its name; when the full name has a FIB entry, the enumeration from
the full name never reaches the PIT entry, and the one from the level above reaches it although
its longest match is the full name (`onNewNextHop_misses_full_name`).
-/

set_option autoImplicit false

namespace Nfd

open NameTree PrunedTree

variable {M S : Type} (componentHash : Component → HashValue)

namespace Fib

/-- `Fib::findLongestPrefixMatch(pitEntry)`. -/
def findLongestPrefixMatchOfPitEntry (nameTree : NameTree Entry Pit.Entry M S) (pitEntry : Pit.Entry) : Entry :=
  match nameTree.findLongestPrefixMatchOfPitEntry componentHash pitEntry.nameTreeEntry pitEntry.interest.name
      nteHasFibEntry with
  | some nte => (fibEntryAt nameTree nte).getD emptyEntry
  | none => emptyEntry

/-- `Fib::findLongestPrefixMatch(measurementsEntry)`, for the Measurements entry held by the
name tree entry `nte`: the walk up from that entry. -/
def findLongestPrefixMatchOfMeasurementsEntry (nameTree : NameTree Entry Pit.Entry M S) (nte : NodeId) : Entry :=
  match nameTree.findLongestPrefixMatchOfEntry nte nteHasFibEntry with
  | some nte => (fibEntryAt nameTree nte).getD emptyEntry
  | none => emptyEntry

/-- In every reachable name tree, `Fib::findLongestPrefixMatch` finds the same FIB entry keyed by a
PIT entry, from the entry of a prefix of its name it is attached to, or by a Measurements entry,
as keyed by their names. -/
theorem findLongestPrefixMatch_byEntry {fib : Fib Pit.Entry M S} (reachable : Reachable componentHash fib.nameTree) :
    (∀ (pitEntry : Pit.Entry) k e, k ≤ min pitEntry.interest.name.length getMaxDepth →
        entries fib.nameTree.ht.nodes pitEntry.nameTreeEntry = some e → e.name = pitEntry.interest.name.take k →
        findLongestPrefixMatchOfPitEntry componentHash fib.nameTree pitEntry =
          fib.findLongestPrefixMatch componentHash pitEntry.interest.name) ∧
      ∀ nte e, entries fib.nameTree.ht.nodes nte = some e →
        findLongestPrefixMatchOfMeasurementsEntry fib.nameTree nte = fib.findLongestPrefixMatch componentHash e.name := by
  have valid := reachable.valid
  constructor
  · intro pitEntry k e within stored named
    rw [findLongestPrefixMatchOfPitEntry, valid.findLongestPrefixMatchOfPitEntry_eq within stored named]
    rfl
  · intro nte e stored
    rw [findLongestPrefixMatchOfMeasurementsEntry, valid.findLongestPrefixMatchOfEntry_eq stored]
    rfl

end Fib

namespace Fw.Forwarder

/-- The selector of `onNewNextHop`: an entry with a FIB entry below the prefix is skipped with
its descendants; the others are visited when they have PIT entries. -/
def newNextHopSelector (prefixName : Name) (nte : NameTree.Entry Fib.Entry Pit.Entry M S) : Bool × Bool :=
  if nte.fibEntry.isSome ∧ nte.name.length > prefixName.length then (false, false)
  else (Pit.nteHasPitEntries nte, true)

/-- `onNewNextHop(prefix, nextHop)`: the PIT entries `afterNewNextHop` is invoked for, in order. -/
def onNewNextHop (nameTree : NameTree Fib.Entry Pit.Entry M S) (prefixName : Name) : Option (List Pit.Entry) :=
  (nameTree.partialEnumerate componentHash prefixName (newNextHopSelector prefixName)).map
    fun affectedEntries => affectedEntries.flatMap (Pit.pitEntriesAt nameTree)

section Reachable

variable {nt : NameTree Fib.Entry Pit.Entry M S}

/-- The PIT entries `onNewNextHop` notifies are those attached to the entries the pruned
enumeration visits. -/
theorem mem_onNewNextHop (reachable : Reachable componentHash nt) (prefixName : Name) :
    ∃ notified, Fw.Forwarder.onNewNextHop componentHash nt prefixName = some notified ∧
      ∀ e, e ∈ notified ↔ ∃ x, (∃ ref, (∃ er, entries nt.ht.nodes ref = some er ∧ er.name = prefixName) ∧
        Reaches (childrenOf (entries nt.ht.nodes))
          (fun a => (selectAt (entries nt.ht.nodes) (Fw.Forwarder.newNextHopSelector prefixName) a).2) ref x ∧
        (selectAt (entries nt.ht.nodes) (Fw.Forwarder.newNextHopSelector prefixName) x).1 = true) ∧
        e ∈ Pit.pitEntriesAt nt x := by
  obtain ⟨visited, enumerated, -, visits⟩ :=
    reachable.valid.partialEnumerate_visits prefixName (Fw.Forwarder.newNextHopSelector prefixName)
  refine ⟨_, by rw [Fw.Forwarder.onNewNextHop, enumerated]; rfl, fun e => ?_⟩
  rw [List.mem_flatMap]
  constructor
  · rintro ⟨x, member, attached⟩
    exact ⟨x, (visits x).mp member, attached⟩
  · rintro ⟨x, member, attached⟩
    exact ⟨x, (visits x).mpr member, attached⟩

/-- The longest prefix match of a PIT entry attached one level above its name is the entry of
the full name when that entry has a FIB entry. -/
theorem findLongestPrefixMatchOfPitEntry_full (valid : Valid componentHash nt.ht) {e : Pit.Entry}
    {attachedAt full : NodeId} {eN eFull : NameTree.Entry Fib.Entry Pit.Entry M S}
    (storedN : entries nt.ht.nodes attachedAt = some eN) (storedFull : entries nt.ht.nodes full = some eFull)
    (namedFull : eFull.name = e.interest.name) (namedN : eN.name = e.interest.name.dropLast)
    (hasFibEntry : eFull.fibEntry.isSome = true) (attached : e.nameTreeEntry = attachedAt) :
    nt.findLongestPrefixMatchOfPitEntry componentHash e.nameTreeEntry e.interest.name Fib.nteHasFibEntry =
      some full := by
  have deep := valid.shape.depth_le full eFull storedFull
  rw [namedFull] at deep
  have within : e.interest.name.dropLast.length ≤ min e.interest.name.length getMaxDepth := by
    rw [List.length_dropLast]
    omega
  rw [attached, valid.findLongestPrefixMatchOfPitEntry_eq within storedN
    (by rw [namedN, List.length_dropLast, List.dropLast_eq_take])]
  -- the full name is the longest prefix of itself
  have longest : LongestMatch (entries nt.ht.nodes) e.interest.name Fib.nteHasFibEntry (some full) := by
    refine ⟨e.interest.name.length, by omega, ⟨eFull, storedFull, by rw [namedFull, List.take_length], hasFibEntry⟩, ?_⟩
    intro j id within matched
    omega
  exact LongestMatch.unique valid.shape (valid.findLongestPrefixMatch_longest _) longest

theorem fibEntryAt_of_entries {x : NodeId} {ex : NameTree.Entry Fib.Entry Pit.Entry M S}
    (stored : entries nt.ht.nodes x = some ex) : Fib.fibEntryAt nt x = ex.fibEntry := by
  obtain ⟨n, storedNode, rfl⟩ := Option.map_eq_some_iff.mp stored
  rw [Fib.fibEntryAt, storedNode]
  rfl

/-- A PIT entry attached one level above its name, whose full name has a FIB entry: its longest
prefix match is that FIB entry, yet `onNewNextHop` on the full name does not notify it, and
`onNewNextHop` on the level above does. -/
theorem onNewNextHop_misses_full_name (reachable : Reachable componentHash nt) {e : Pit.Entry}
    {attachedAt full : NodeId} {eN eFull : NameTree.Entry Fib.Entry Pit.Entry M S} {fibEntry : Fib.Entry}
    (nonEmpty : e.interest.name ≠ [])
    (storedN : entries nt.ht.nodes attachedAt = some eN) (storedFull : entries nt.ht.nodes full = some eFull)
    (namedN : eN.name = e.interest.name.dropLast) (namedFull : eFull.name = e.interest.name)
    (fullFib : eFull.fibEntry = some fibEntry) (fibNamed : fibEntry.prefixName = e.interest.name)
    (attached : e.nameTreeEntry = attachedAt) (atN : e ∈ eN.pitEntries)
    (onlyThere : ∀ x, e ∈ Pit.pitEntriesAt nt x → x = attachedAt) :
    (Fib.findLongestPrefixMatchOfPitEntry componentHash nt e).prefixName = e.interest.name ∧
      (∃ notified, Fw.Forwarder.onNewNextHop componentHash nt e.interest.name = some notified ∧ e ∉ notified) ∧
      ∃ notified, Fw.Forwarder.onNewNextHop componentHash nt e.interest.name.dropLast = some notified ∧
        e ∈ notified := by
  have valid := reachable.valid
  refine ⟨?_, ?_, ?_⟩
  · have found := findLongestPrefixMatchOfPitEntry_full componentHash valid storedN storedFull namedFull namedN
      (by rw [fullFib]; rfl) attached
    rw [Fib.findLongestPrefixMatchOfPitEntry, found]
    dsimp only
    rw [fibEntryAt_of_entries storedFull, fullFib, Option.getD_some, fibNamed]
  · -- the enumeration from the full name stays among names that extend it
    obtain ⟨notified, result, members⟩ := mem_onNewNextHop componentHash reachable e.interest.name
    refine ⟨notified, result, fun member => ?_⟩
    obtain ⟨x, ⟨ref, ⟨er, storedRef, namedRef⟩, reach, -⟩, attachedX⟩ := (members e).mp member
    rw [onlyThere x attachedX] at reach
    obtain ⟨ey, storedY, isPrefix⟩ := valid.shape.prefix_of_reaches reach storedRef
    rw [storedN, Option.some.injEq] at storedY
    subst storedY
    rw [namedRef, namedN] at isPrefix
    have shorter := isPrefix.length_le
    rw [List.length_dropLast] at shorter
    have positive := List.length_pos_of_ne_nil nonEmpty
    omega
  · -- the enumeration from the level above visits that entry first
    obtain ⟨notified, result, members⟩ := mem_onNewNextHop componentHash reachable e.interest.name.dropLast
    refine ⟨notified, result, (members e).mpr ⟨attachedAt, ⟨attachedAt, ⟨eN, storedN, namedN⟩, Reaches.refl _, ?_⟩,
      Pit.mem_pitEntriesAt.mpr ⟨eN, storedN, atN⟩⟩⟩
    have hasPitEntries : eN.pitEntries.isEmpty = false := List.isEmpty_eq_false_iff.mpr (List.ne_nil_of_mem atN)
    simp [selectAt, storedN, Fw.Forwarder.newNextHopSelector, namedN, Pit.nteHasPitEntries, hasPitEntries]

end Reachable

/-- The Interest for `/a` followed by an implicit digest, attached at node 1. -/
def digestInterest : Pit.Entry := ⟨⟨[⟨8, [97]⟩, ⟨1, List.replicate 32 0⟩], false, false⟩, 1⟩

/-- In `NameTree(16)`: `/a` (node 1) and the full name (node 2) both have FIB entries, and the PIT
entry of `digestInterest` is attached at `/a`. -/
def digestRun : NameTree Fib.Entry Pit.Entry Unit Unit :=
  (NameTree.ofSize 16 NameTree.sixteen_pos).run (fun c => UInt64.ofNat c.type)
    [.lookup digestInterest.interest.name 2, .setFibEntry 1 (some ⟨[⟨8, [97]⟩], []⟩),
      .setFibEntry 2 (some ⟨digestInterest.interest.name, []⟩), .insertPitEntry 1 digestInterest]

theorem onNewNextHop_misses_full_name_digest :
    (Fib.findLongestPrefixMatchOfPitEntry (fun c => UInt64.ofNat c.type) digestRun digestInterest).prefixName =
        digestInterest.interest.name ∧
      (∃ notified, onNewNextHop (fun c => UInt64.ofNat c.type) digestRun digestInterest.interest.name =
        some notified ∧ digestInterest ∉ notified) ∧
      ∃ notified, onNewNextHop (fun c => UInt64.ofNat c.type) digestRun digestInterest.interest.name.dropLast =
        some notified ∧ digestInterest ∈ notified := by
  have reachable : Reachable (fun c => UInt64.ofNat c.type) digestRun := ⟨16, by decide, _, by decide, rfl⟩
  have onlyThere : ∀ x, digestInterest ∈ Pit.pitEntriesAt digestRun x → x = 1 := by
    intro x attached
    have allocated : x < digestRun.ht.nextNodeId := by
      by_contra beyond
      rw [Pit.pitEntriesAt_unallocated reachable.valid (Nat.le_of_not_lt beyond)] at attached
      exact List.not_mem_nil attached
    have three : digestRun.ht.nextNodeId = 3 := by decide +kernel
    rw [three] at allocated
    -- the root and the full name hold no PIT entry
    match x, allocated, attached with
    | 0, _, attached => exact absurd attached (by decide +kernel)
    | 1, _, _ => rfl
    | 2, _, attached => exact absurd attached (by decide +kernel)
  exact onNewNextHop_misses_full_name _ reachable (by decide)
    (Option.some_get (by decide +kernel : (entries digestRun.ht.nodes 1).isSome)).symm
    (Option.some_get (by decide +kernel : (entries digestRun.ht.nodes 2).isSome)).symm
    (by decide +kernel) (by decide +kernel) (Option.some_get (by decide +kernel)).symm (by decide +kernel) rfl
    (by decide +kernel) onlyThere

end Fw.Forwarder

end Nfd
