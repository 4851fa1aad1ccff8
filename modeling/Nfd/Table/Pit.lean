import Nfd.Table.NameTreeLpm
import Nfd.Table.NameTreeTables
import Nfd.Lib.SwapPop
import Mathlib.Algebra.BigOperators.Group.Finset.Basic

/-!
# The PIT

`Pit` keeps its entries in the name tree: a PIT entry is one of the `pitEntries` of the
name tree entry of `name.getPrefix(nteDepth)`, where `nteDepth` leaves out a trailing
implicit digest and is capped at `getMaxDepth()`.  Interests that agree on those components
share the name tree entry, and `canMatch` tells them apart by the rest of the name,
CanBePrefix and MustBeFresh.  `findAllDataMatches` reads the PIT entries of the name tree
entries, holding PIT entries, of the prefixes of the Data name.

An Interest is modelled by the fields `canMatch` compares: its name, CanBePrefix and
MustBeFresh.  A PIT entry is modelled by its Interest and `m_nameTreeEntry`; its in-records,
out-records and timers are not read here.  `Interest::matchesData` belongs to the packet
library and is a parameter.
-/

set_option autoImplicit false
namespace Nfd.Pit

open NameTree

structure Interest where
  name : Name
  canBePrefix : Bool
  mustBeFresh : Bool
deriving DecidableEq, Repr

/-- `pit::Entry`: the Interest, and `m_nameTreeEntry`, the name tree entry the PIT entry is
attached to. -/
structure Entry where
  interest : Interest
  nameTreeEntry : NodeId
deriving DecidableEq, Repr

/-- `canMatch(interest, nEqualNameComps)`: the name tree guarantees that the first
`nEqualNameComps` components are equal. -/
def Entry.canMatch (entry : Entry) (interest : Interest) (nEqualNameComps : Nat) : Bool :=
  entry.interest.name.drop nEqualNameComps == interest.name.drop nEqualNameComps &&
    entry.interest.canBePrefix == interest.canBePrefix &&
    entry.interest.mustBeFresh == interest.mustBeFresh

/-- `name.size() > 0 && name[-1].isImplicitSha256Digest()`. -/
def hasDigest (name : Name) : Bool :=
  match name.getLast? with
  | some last => last.isImplicitSha256Digest
  | none => false

/-- The depth of the name tree entry that the PIT entries of `name` are attached to. -/
def nteDepth (name : Name) : Nat :=
  min (name.length - if hasDigest name then 1 else 0) getMaxDepth

end Nfd.Pit

namespace Nfd

structure Pit (F M S : Type) where
  nameTree : NameTree F Pit.Entry M S
  nItems : Nat

end Nfd

namespace Nfd.Pit

open NameTree

variable {F M S : Type}

/-- `getPitEntries()` of the name tree entry at `nte`. -/
def pitEntriesAt (nameTree : NameTree F Entry M S) (nte : NodeId) : List Entry :=
  ((entries nameTree.ht.nodes nte).map NameTree.Entry.pitEntries).getD []

/-- `nteHasPitEntries`. -/
def nteHasPitEntries (nte : NameTree.Entry F Entry M S) : Bool := !nte.pitEntries.isEmpty

section Table

def size (pit : Pit F M S) : Nat := pit.nItems

/-- The part of `findOrInsert` after the name tree entry is determined: search its PIT
entries for one that can match, and attach a new one when allowed. -/
def findOrInsertAt (interest : Interest) (allowInsert : Bool) (nte : Option NodeId)
    (pit : Pit F M S) : (Option Entry × Bool) × Pit F M S :=
  match nte with
  | none => ((none, true), pit)
  | some nte =>
      match (pitEntriesAt pit.nameTree nte).find? fun entry =>
          entry.canMatch interest (nteDepth interest.name) with
      | some entry => ((some entry, false), pit)
      | none =>
          if !allowInsert then ((none, true), pit)
          else
            let entry : Entry := ⟨interest, nte⟩
            ((some entry, true),
              { nameTree := ⟨updateEntry nte (NameTree.Entry.insertPitEntry entry) pit.nameTree.ht⟩
                nItems := pit.nItems + 1 })

section Keyed

variable (componentHash : Component → HashValue)

/-- `findOrInsert(interest, allowInsert)`. -/
def findOrInsert (interest : Interest) (allowInsert : Bool) (pit : Pit F M S) :
    (Option Entry × Bool) × Pit F M S :=
  let name := interest.name
  if allowInsert then
    let result := pit.nameTree.lookup componentHash name (nteDepth name)
    findOrInsertAt interest true result.1 { pit with nameTree := result.2 }
  else
    findOrInsertAt interest false (pit.nameTree.findExactMatch componentHash name (nteDepth name)) pit

/-- `find(interest)`. -/
def find (interest : Interest) (pit : Pit F M S) : Option Entry :=
  (pit.findOrInsert componentHash interest false).1.1

/-- `insert(interest)`. -/
def insert (interest : Interest) (pit : Pit F M S) : (Option Entry × Bool) × Pit F M S :=
  pit.findOrInsert componentHash interest true

/-- `findAllDataMatches(data)` for a Data packet named `dataName`; `matchesData interest`
stands for `interest.matchesData(data)`. -/
def findAllDataMatches (dataName : Name) (matchesData : Interest → Bool) (pit : Pit F M S) :
    List Entry :=
  (pit.nameTree.findAllMatches componentHash dataName nteHasPitEntries).flatMap fun nte =>
    (pitEntriesAt pit.nameTree nte).filter fun entry => matchesData entry.interest

end Keyed

/-- `erase(entry, canDeleteNte)`: `getEntry(*entry)` is `m_nameTreeEntry`. -/
def erase (entry : Entry) (canDeleteNte : Bool) (pit : Pit F M S) : Pit F M S :=
  let nte := entry.nameTreeEntry
  let nameTree : NameTree F Entry M S :=
    ⟨updateEntry nte (NameTree.Entry.erasePitEntry entry) pit.nameTree.ht⟩
  let nameTree := if canDeleteNte then (nameTree.eraseIfEmpty nte true).2 else nameTree
  { nameTree := nameTree, nItems := pit.nItems - 1 }

/-- `Pit(nameTree)` over an empty name tree of `nBuckets` buckets. -/
def empty (nBuckets : Nat) (positive : 0 < nBuckets) : Pit F M S :=
  ⟨NameTree.ofSize nBuckets positive, 0⟩

end Table

/-- The name without a trailing implicit digest. -/
def withoutDigest (name : Name) : Name :=
  name.take (name.length - if hasDigest name then 1 else 0)

/-- `entry` is a PIT entry: it is among the PIT entries of some name tree entry. -/
def Attached (pit : Pit F M S) (entry : Entry) : Prop :=
  ∃ nte, entry ∈ pitEntriesAt pit.nameTree nte

/-- The number of PIT entries attached to the name tree. -/
def attachedCount (nameTree : NameTree F Entry M S) : Nat :=
  ∑ nte ∈ Finset.range nameTree.ht.nextNodeId, (pitEntriesAt nameTree nte).length

section Invariant

variable (componentHash : Component → HashValue)

/-- The invariant of the PIT: a well-formed name tree; each PIT entry points back at the name
tree entry that holds it, whose name is `getPrefix(nteDepth)` of the Interest's name; the
Interests of the PIT entries of one name tree entry are distinct; `m_nItems` counts the PIT
entries. -/
structure Invariant (pit : Pit F M S) : Prop where
  valid : NameTree.Valid componentHash pit.nameTree.ht
  attached : ∀ nte entry, entry ∈ pitEntriesAt pit.nameTree nte → entry.nameTreeEntry = nte ∧
    ∃ e, entries pit.nameTree.ht.nodes nte = some e ∧
      e.name = entry.interest.name.take (nteDepth entry.interest.name)
  distinct : ∀ nte, ((pitEntriesAt pit.nameTree nte).map Entry.interest).Nodup
  count : pit.nItems = attachedCount pit.nameTree

/-- The PITs that `insert`, `find` and `erase` reach from an empty one; `erase` is called,
as its assertion requires, on an entry attached to the name tree. -/
inductive Reachable : Pit F M S → Prop
  | empty (nBuckets : Nat) (positive : 0 < nBuckets) : Reachable (Pit.empty nBuckets positive)
  | insert {pit : Pit F M S} (interest : Interest) :
      Reachable pit → Reachable (pit.insert componentHash interest).2
  | find {pit : Pit F M S} (interest : Interest) :
      Reachable pit → Reachable (pit.findOrInsert componentHash interest false).2
  | erase {pit : Pit F M S} (entry : Entry) (canDeleteNte : Bool) :
      Reachable pit → entry ∈ pitEntriesAt pit.nameTree entry.nameTreeEntry →
        Reachable (pit.erase entry canDeleteNte)

end Invariant

section Depth

variable (name : Name)

theorem nteDepth_within : nteDepth name ≤ min name.length getMaxDepth := by
  unfold nteDepth
  omega

theorem length_take_nteDepth : (name.take (nteDepth name)).length = nteDepth name := by
  have within := nteDepth_within name
  rw [List.length_take]
  omega

/-- PIT entries are attached under a prefix of the name without its digest. -/
theorem take_nteDepth_prefix_withoutDigest : name.take (nteDepth name) <+: withoutDigest name :=
  List.take_prefix_take_left (Nat.min_le_left _ _)

end Depth

/-- Interests whose names agree on the first `n` components can match exactly when they are
equal. -/
theorem Entry.canMatch_iff {entry : Entry} {interest : Interest} {n : Nat}
    (samePrefix : entry.interest.name.take n = interest.name.take n) :
    entry.canMatch interest n = true ↔ entry.interest = interest := by
  obtain ⟨⟨name, canBePrefix, mustBeFresh⟩, nte⟩ := entry
  obtain ⟨name', canBePrefix', mustBeFresh'⟩ := interest
  simp only [Entry.canMatch, Bool.and_eq_true, beq_iff_eq, Interest.mk.injEq] at samePrefix ⊢
  constructor
  · rintro ⟨⟨sameRest, rfl⟩, rfl⟩
    refine ⟨?_, rfl, rfl⟩
    rw [← List.take_append_drop n name, samePrefix, sameRest, List.take_append_drop]
  · rintro ⟨rfl, rfl, rfl⟩
    exact ⟨⟨rfl, rfl⟩, rfl⟩

section Counting

/-- A sum over `range` of a function that vanishes from some bound on does not depend on how
far past the bound the range goes. -/
theorem sum_range_eq_of_vanish {f : Nat → Nat} {N N' : Nat} (vanish : ∀ y, N ≤ y → f y = 0)
    (vanish' : ∀ y, N' ≤ y → f y = 0) :
    ∑ y ∈ Finset.range N, f y = ∑ y ∈ Finset.range N', f y := by
  rcases le_total N N' with below | above
  · exact Finset.sum_subset (Finset.range_subset_range.mpr below) fun y _ outside =>
      vanish y (by simpa using outside)
  · exact (Finset.sum_subset (Finset.range_subset_range.mpr above) fun y _ outside =>
      vanish' y (by simpa using outside)).symm

/-- Changing a function at one point of the range changes its sum by the difference. -/
theorem sum_range_update {f g : Nat → Nat} {N x : Nat} (inside : x < N)
    (other : ∀ y, y ≠ x → g y = f y) :
    ∑ y ∈ Finset.range N, g y + f x = ∑ y ∈ Finset.range N, f y + g x := by
  have member : x ∈ Finset.range N := Finset.mem_range.mpr inside
  have splitG := Finset.add_sum_erase _ g member
  have splitF := Finset.add_sum_erase _ f member
  have rest : ∑ y ∈ (Finset.range N).erase x, g y = ∑ y ∈ (Finset.range N).erase x, f y :=
    Finset.sum_congr rfl fun y inErase => other y (Finset.ne_of_mem_erase inErase)
  omega

end Counting

section Entries

variable {nt nt' : NameTree F Entry M S}

theorem mem_pitEntriesAt {nte : NodeId} {entry : Entry} :
    entry ∈ pitEntriesAt nt nte ↔ ∃ e, entries nt.ht.nodes nte = some e ∧ entry ∈ e.pitEntries := by
  unfold pitEntriesAt
  cases entries nt.ht.nodes nte <;> simp

theorem pitEntriesAt_of_tablesView
    (same : tablesView (entries nt'.ht.nodes) = tablesView (entries nt.ht.nodes)) :
    pitEntriesAt nt' = pitEntriesAt nt :=
  funext (pitEntries_of_tablesView same)

theorem pitEntriesAt_updateEntry_self {nte : NodeId} {e : NameTree.Entry F Entry M S}
    (f : NameTree.Entry F Entry M S → NameTree.Entry F Entry M S)
    (stored : entries nt.ht.nodes nte = some e) :
    pitEntriesAt ⟨updateEntry nte f nt.ht⟩ nte = (f e).pitEntries := by
  simp [pitEntriesAt, stored]

theorem pitEntriesAt_updateEntry_other {nte y : NodeId}
    (f : NameTree.Entry F Entry M S → NameTree.Entry F Entry M S) (other : y ≠ nte) :
    pitEntriesAt ⟨updateEntry nte f nt.ht⟩ y = pitEntriesAt nt y := by
  simp [pitEntriesAt, Function.update_of_ne other]

variable {componentHash : Component → HashValue}

theorem pitEntriesAt_unallocated (valid : NameTree.Valid componentHash nt.ht) {y : NodeId}
    (beyond : nt.ht.nextNodeId ≤ y) : pitEntriesAt nt y = [] := by
  obtain ⟨chains, layout⟩ := valid.layout
  simp [pitEntriesAt, entries, layout.unallocated y beyond]

theorem lt_nextNodeId (valid : NameTree.Valid componentHash nt.ht) {y : NodeId}
    {e : NameTree.Entry F Entry M S} (stored : entries nt.ht.nodes y = some e) :
    y < nt.ht.nextNodeId := by
  obtain ⟨chains, layout⟩ := valid.layout
  by_contra beyond
  simp [entries, layout.unallocated y (Nat.le_of_not_lt beyond)] at stored

/-- Tables that see the same PIT entries count the same. -/
theorem attachedCount_of_tablesView (valid : NameTree.Valid componentHash nt.ht)
    (valid' : NameTree.Valid componentHash nt'.ht)
    (same : tablesView (entries nt'.ht.nodes) = tablesView (entries nt.ht.nodes)) :
    attachedCount nt' = attachedCount nt := by
  have sameAt := pitEntriesAt_of_tablesView same
  unfold attachedCount
  rw [sameAt]
  refine sum_range_eq_of_vanish (fun y beyond => ?_) (fun y beyond => ?_)
  · rw [← sameAt, pitEntriesAt_unallocated valid' beyond, List.length_nil]
  · rw [pitEntriesAt_unallocated valid beyond, List.length_nil]

end Entries

/-- `erasePitEntry` removes one occurrence of the PIT entry, up to order. -/
theorem erasePitEntry_perm {entry : Entry} {e : NameTree.Entry F Entry M S}
    (member : entry ∈ e.pitEntries) :
    (NameTree.Entry.erasePitEntry entry e).pitEntries.Perm (e.pitEntries.erase entry) := by
  obtain ⟨i, found⟩ := Option.isSome_iff_exists.mp (List.isSome_idxOf?.mpr member)
  simp only [NameTree.Entry.erasePitEntry, found]
  exact SwapPop.perm_erase found _

section Preserve

variable {componentHash : Component → HashValue} {pit : Pit F M S}

/-- The invariant only reads what the tables see of the name tree. -/
theorem Invariant.of_tablesView (inv : Invariant componentHash pit) {nt' : NameTree F Entry M S}
    (valid' : NameTree.Valid componentHash nt'.ht)
    (same : tablesView (entries nt'.ht.nodes) = tablesView (entries pit.nameTree.ht.nodes)) :
    Invariant componentHash { pit with nameTree := nt' } where
  valid := valid'
  attached := by
    intro nte entry member
    rw [pitEntriesAt_of_tablesView same] at member
    obtain ⟨pointsBack, e, stored, named⟩ := inv.attached nte entry member
    obtain ⟨e'', storedE, inE⟩ := mem_pitEntriesAt.mp member
    rw [stored, Option.some.injEq] at storedE
    subst storedE
    obtain ⟨e', stored', sameName, -⟩ :=
      tablesView_stored same stored (Entry.hasTableEntries_of_mem_pitEntries inE)
    exact ⟨pointsBack, e', stored', sameName.trans named⟩
  distinct := by
    rw [pitEntriesAt_of_tablesView same]
    exact inv.distinct
  count := by
    rw [inv.count]
    exact (attachedCount_of_tablesView inv.valid valid' same).symm

/-- A PIT entry of the name tree entry `q`, named by `getPrefix(nteDepth)` of the Interest's
name, can match the Interest exactly when its own Interest is that Interest. -/
theorem Invariant.canMatch_iff (inv : Invariant componentHash pit) {interest : Interest}
    {q : NodeId} {e : NameTree.Entry F Entry M S} (stored : entries pit.nameTree.ht.nodes q = some e)
    (named : e.name = interest.name.take (nteDepth interest.name)) {entry : Entry}
    (member : entry ∈ pitEntriesAt pit.nameTree q) :
    entry.canMatch interest (nteDepth interest.name) = true ↔ entry.interest = interest := by
  obtain ⟨-, e', stored', named'⟩ := inv.attached q entry member
  rw [stored, Option.some.injEq] at stored'
  subst stored'
  have sameDepth : nteDepth entry.interest.name = nteDepth interest.name := by
    rw [← length_take_nteDepth entry.interest.name, ← named', named, length_take_nteDepth]
  rw [sameDepth] at named'
  exact Entry.canMatch_iff (named'.symm.trans named)

/-- Two PIT entries with the same Interest are the same entry of the same name tree entry. -/
theorem Invariant.key_unique (inv : Invariant componentHash pit) {nte nte' : NodeId} {a b : Entry}
    (memberA : a ∈ pitEntriesAt pit.nameTree nte) (memberB : b ∈ pitEntriesAt pit.nameTree nte')
    (sameKey : a.interest = b.interest) : nte = nte' ∧ a = b := by
  obtain ⟨-, ea, storedA, namedA⟩ := inv.attached nte a memberA
  obtain ⟨-, eb, storedB, namedB⟩ := inv.attached nte' b memberB
  have sameNte : nte = nte' := inv.valid.shape.name_injective nte nte' ea eb storedA storedB
    (by rw [namedA, namedB, sameKey])
  subst sameNte
  exact ⟨rfl, List.inj_on_of_nodup_map (inv.distinct nte) memberA memberB sameKey⟩

/-- Attaching a PIT entry for an Interest none of the PIT entries of `q` has. -/
theorem Invariant.insertPitEntry (inv : Invariant componentHash pit) {interest : Interest}
    {q : NodeId} {e : NameTree.Entry F Entry M S} (stored : entries pit.nameTree.ht.nodes q = some e)
    (named : e.name = interest.name.take (nteDepth interest.name))
    (fresh : ∀ entry ∈ pitEntriesAt pit.nameTree q, entry.interest ≠ interest) :
    Invariant componentHash
      { nameTree := ⟨updateEntry q (NameTree.Entry.insertPitEntry ⟨interest, q⟩) pit.nameTree.ht⟩
        nItems := pit.nItems + 1 } := by
  have atQ := pitEntriesAt_updateEntry_self (NameTree.Entry.insertPitEntry ⟨interest, q⟩) stored
  have oldAtQ : pitEntriesAt pit.nameTree q = e.pitEntries := by simp [pitEntriesAt, stored]
  refine ⟨inv.valid.updateEntry q (keepsTree_insertPitEntry _), fun nte entry member => ?_,
    fun nte => ?_, ?_⟩
  · simp only [entries_updateEntry]
    by_cases isQ : nte = q
    · subst isQ
      rw [atQ] at member
      simp only [NameTree.Entry.insertPitEntry, List.mem_append, List.mem_singleton] at member
      simp only [Function.update_self, stored, Option.map_some, Option.some.injEq,
        exists_eq_left', NameTree.Entry.insertPitEntry]
      rcases member with old | rfl
      · obtain ⟨pointsBack, e', stored', named'⟩ :=
          inv.attached nte entry (by rw [oldAtQ]; exact old)
        rw [stored, Option.some.injEq] at stored'
        subst stored'
        exact ⟨pointsBack, named'⟩
      · exact ⟨rfl, named⟩
    · rw [pitEntriesAt_updateEntry_other _ isQ] at member
      rw [Function.update_of_ne isQ]
      exact inv.attached nte entry member
  · by_cases isQ : nte = q
    · subst isQ
      rw [atQ]
      simp only [NameTree.Entry.insertPitEntry, List.map_append, List.map_singleton,
        List.nodup_append, List.nodup_singleton, List.mem_singleton]
      rw [← oldAtQ]
      refine ⟨inv.distinct nte, trivial, fun k inOld k' isNew same => ?_⟩
      obtain ⟨entry, member, rfl⟩ := List.mem_map.mp inOld
      exact fresh entry member (same.trans isNew)
    · rw [pitEntriesAt_updateEntry_other _ isQ]
      exact inv.distinct nte
  · -- one more PIT entry at `q`, none elsewhere
    have counted := sum_range_update (f := fun y => (pitEntriesAt pit.nameTree y).length)
      (g := fun y => (pitEntriesAt ⟨updateEntry q (NameTree.Entry.insertPitEntry ⟨interest, q⟩)
        pit.nameTree.ht⟩ y).length)
      (lt_nextNodeId inv.valid stored) fun y other =>
        congrArg List.length (pitEntriesAt_updateEntry_other _ other)
    simp only [atQ, oldAtQ, NameTree.Entry.insertPitEntry, List.length_append,
      List.length_singleton] at counted
    simp only [attachedCount, (updateEntry_fields pit.nameTree.ht q _).2.2.2.1, inv.count]
    omega

/-- Detaching an attached PIT entry from its name tree entry. -/
theorem Invariant.erasePitEntry (inv : Invariant componentHash pit) {entry : Entry}
    (member : entry ∈ pitEntriesAt pit.nameTree entry.nameTreeEntry) :
    Invariant componentHash
      { nameTree := ⟨updateEntry entry.nameTreeEntry (NameTree.Entry.erasePitEntry entry)
          pit.nameTree.ht⟩
        nItems := pit.nItems - 1 } := by
  obtain ⟨e, stored, inE⟩ := mem_pitEntriesAt.mp member
  have atX := pitEntriesAt_updateEntry_self (NameTree.Entry.erasePitEntry entry) stored
  have perm := erasePitEntry_perm inE
  have oldAtX : pitEntriesAt pit.nameTree entry.nameTreeEntry = e.pitEntries := by
    simp [pitEntriesAt, stored]
  refine ⟨inv.valid.updateEntry _ (keepsTree_erasePitEntry _), fun nte entry' member' => ?_,
    fun nte => ?_, ?_⟩
  · simp only [entries_updateEntry]
    by_cases isX : nte = entry.nameTreeEntry
    · subst isX
      rw [atX] at member'
      have old := List.mem_of_mem_erase (perm.mem_iff.mp member')
      obtain ⟨pointsBack, e', stored', named'⟩ :=
        inv.attached _ entry' (by rw [oldAtX]; exact old)
      rw [stored, Option.some.injEq] at stored'
      subst stored'
      refine ⟨pointsBack, _, by rw [Function.update_self, stored, Option.map_some], ?_⟩
      rw [((keepsTree_erasePitEntry entry) e).1]
      exact named'
    · rw [pitEntriesAt_updateEntry_other _ isX] at member'
      rw [Function.update_of_ne isX]
      exact inv.attached nte entry' member'
  · by_cases isX : nte = entry.nameTreeEntry
    · subst isX
      rw [atX, (perm.map Entry.interest).nodup_iff]
      have distinctX := inv.distinct entry.nameTreeEntry
      rw [oldAtX] at distinctX
      exact distinctX.sublist (List.erase_sublist.map _)
    · rw [pitEntriesAt_updateEntry_other _ isX]
      exact inv.distinct nte
  · -- one fewer PIT entry at the entry's name tree entry, none elsewhere
    have counted := sum_range_update (f := fun y => (pitEntriesAt pit.nameTree y).length)
      (g := fun y => (pitEntriesAt ⟨updateEntry entry.nameTreeEntry
        (NameTree.Entry.erasePitEntry entry) pit.nameTree.ht⟩ y).length)
      (lt_nextNodeId inv.valid stored) fun y other =>
        congrArg List.length (pitEntriesAt_updateEntry_other _ other)
    have fewer : (NameTree.Entry.erasePitEntry entry e).pitEntries.length + 1 =
        e.pitEntries.length := by
      rw [perm.length_eq, List.length_erase_of_mem inE]
      have := List.length_pos_of_mem inE
      omega
    simp only [atX, oldAtX] at counted
    simp only [attachedCount, (updateEntry_fields pit.nameTree.ht _ _).2.2.2.1, inv.count]
    omega

theorem Invariant.erase (inv : Invariant componentHash pit) {entry : Entry}
    (member : entry ∈ pitEntriesAt pit.nameTree entry.nameTreeEntry) (canDeleteNte : Bool) :
    Invariant componentHash (pit.erase entry canDeleteNte) := by
  have detached := inv.erasePitEntry member
  cases canDeleteNte with
  | false => exact detached
  | true =>
      exact detached.of_tablesView (detached.valid.eraseIfEmpty _ true)
        (tablesView_eraseIfEmpty _ _ true)

theorem Invariant.empty (nBuckets : Nat) (positive : 0 < nBuckets) :
    Invariant componentHash (Pit.empty nBuckets positive : Pit F M S) := by
  have noEntries : ∀ nte, pitEntriesAt (Pit.empty nBuckets positive : Pit F M S).nameTree nte = [] :=
    fun nte => by
      simp [Pit.empty, NameTree.ofSize, pitEntriesAt, entries, Hashtable.ofOptions,
        Hashtable.computeThresholds]
  refine ⟨Valid.ofOptions _, fun nte entry member => ?_, fun nte => ?_, ?_⟩
  · rw [noEntries] at member
    cases member
  · rw [noEntries]
    exact List.nodup_nil
  · show 0 = attachedCount (Pit.empty nBuckets positive : Pit F M S).nameTree
    simp only [attachedCount, noEntries, List.length_nil, Finset.sum_const_zero]

end Preserve

section Operations

variable {componentHash : Component → HashValue} {pit : Pit F M S}

/-- `findOrInsert` finds an attached PIT entry with the Interest. -/
theorem Invariant.findOrInsertAt_found (inv : Invariant componentHash pit) {interest : Interest}
    {q : NodeId} {e : NameTree.Entry F Entry M S} (stored : entries pit.nameTree.ht.nodes q = some e)
    (named : e.name = interest.name.take (nteDepth interest.name)) {entry : Entry}
    (member : entry ∈ pitEntriesAt pit.nameTree q) (sameKey : entry.interest = interest)
    (allowInsert : Bool) :
    Pit.findOrInsertAt interest allowInsert (some q) pit = ((some entry, false), pit) := by
  simp only [Pit.findOrInsertAt]
  cases found : (pitEntriesAt pit.nameTree q).find? fun entry =>
      entry.canMatch interest (nteDepth interest.name) with
  | none =>
      have missed := List.find?_eq_none.mp found entry member
      exact absurd ((inv.canMatch_iff stored named member).mpr sameKey) missed
  | some entry' =>
      have member' := List.mem_of_find?_eq_some found
      have matched := List.find?_some found
      have sameKey' := (inv.canMatch_iff stored named member').mp matched
      rw [(inv.key_unique member' member (sameKey'.trans sameKey.symm)).2]

/-- `findOrInsert` finds no PIT entry with the Interest. -/
theorem Invariant.find?_canMatch_none (inv : Invariant componentHash pit) {interest : Interest}
    {q : NodeId} {e : NameTree.Entry F Entry M S} (stored : entries pit.nameTree.ht.nodes q = some e)
    (named : e.name = interest.name.take (nteDepth interest.name))
    (fresh : ∀ entry ∈ pitEntriesAt pit.nameTree q, entry.interest ≠ interest) :
    (pitEntriesAt pit.nameTree q).find? (fun entry =>
      entry.canMatch interest (nteDepth interest.name)) = none :=
  List.find?_eq_none.mpr fun entry member matched =>
    fresh entry member ((inv.canMatch_iff stored named member).mp matched)

/-- Every PIT entry with the Interest sits in the name tree entry of its key. -/
theorem Invariant.attached_at (inv : Invariant componentHash pit) {interest : Interest}
    {q : NodeId} {e : NameTree.Entry F Entry M S} (stored : entries pit.nameTree.ht.nodes q = some e)
    (named : e.name = interest.name.take (nteDepth interest.name)) {nte : NodeId} {entry : Entry}
    (member : entry ∈ pitEntriesAt pit.nameTree nte) (sameKey : entry.interest = interest) :
    nte = q := by
  obtain ⟨-, e', stored', named'⟩ := inv.attached nte entry member
  exact inv.valid.shape.name_injective nte q e' e stored' stored (by rw [named', named, sameKey])

theorem findOrInsertAt_false_state (interest : Interest) (nte : Option NodeId) :
    (Pit.findOrInsertAt interest false nte pit).2 = pit := by
  unfold Pit.findOrInsertAt
  split
  · rfl
  · split <;> rfl

/-- `find` changes nothing. -/
theorem find_state (interest : Interest) :
    (pit.findOrInsert componentHash interest false).2 = pit :=
  findOrInsertAt_false_state interest _

theorem Invariant.find_eq_some_iff (inv : Invariant componentHash pit) (interest : Interest)
    (entry : Entry) :
    pit.find componentHash interest = some entry ↔ Attached pit entry ∧ entry.interest = interest := by
  simp only [Pit.find, Pit.findOrInsert, Bool.false_eq_true, if_false]
  cases exact : pit.nameTree.findExactMatch componentHash interest.name (nteDepth interest.name) with
  | none =>
      simp only [Pit.findOrInsertAt, reduceCtorEq, false_iff, not_and]
      rintro ⟨nte, member⟩ sameKey
      obtain ⟨-, e, stored, named⟩ := inv.attached nte entry member
      have hit := (inv.valid.findExactMatch_eq_some_iff (nteDepth_within _) nte).mpr
        ⟨e, stored, by rw [named, sameKey]⟩
      rw [exact] at hit
      cases hit
  | some q =>
      obtain ⟨e, stored, named⟩ :=
        (inv.valid.findExactMatch_eq_some_iff (nteDepth_within _) q).mp exact
      constructor
      · simp only [Pit.findOrInsertAt]
        cases found : (pitEntriesAt pit.nameTree q).find? fun entry =>
            entry.canMatch interest (nteDepth interest.name) with
        | none => simp
        | some entry' =>
            rintro ⟨⟩
            have member := List.mem_of_find?_eq_some found
            have matched := List.find?_some found
            exact ⟨⟨q, member⟩, (inv.canMatch_iff stored named member).mp matched⟩
      · rintro ⟨⟨nte, member⟩, sameKey⟩
        have atQ := inv.attached_at stored named member sameKey
        subst atQ
        rw [inv.findOrInsertAt_found stored named member sameKey false]

/-- What `insert` does before it searches: `lookup` of the name tree entry of the key. -/
theorem Invariant.lookup (inv : Invariant componentHash pit) (interest : Interest) :
    Invariant componentHash { pit with
      nameTree := (pit.nameTree.lookup componentHash interest.name (nteDepth interest.name)).2 } ∧
      ∃ q e, (pit.nameTree.lookup componentHash interest.name (nteDepth interest.name)).1 = some q ∧
        entries (pit.nameTree.lookup componentHash interest.name (nteDepth interest.name)).2.ht.nodes q =
          some e ∧ e.name = interest.name.take (nteDepth interest.name) := by
  have within := nteDepth_within interest.name
  obtain ⟨valid', q, e, found, stored, named⟩ :=
    inv.valid.lookup (Nat.le_min.mp within).1 (Nat.le_min.mp within).2
  obtain ⟨chains, layout⟩ := inv.valid.layout
  exact ⟨inv.of_tablesView valid' (layout.tablesView_lookup (Nat.le_min.mp within).1),
    q, e, found, stored, named⟩

/-- `lookup` moves no PIT entry. -/
theorem Invariant.pitEntriesAt_lookup (inv : Invariant componentHash pit) (interest : Interest) :
    pitEntriesAt (pit.nameTree.lookup componentHash interest.name (nteDepth interest.name)).2 =
      pitEntriesAt pit.nameTree := by
  obtain ⟨chains, layout⟩ := inv.valid.layout
  exact pitEntriesAt_of_tablesView
    (layout.tablesView_lookup (Nat.le_min.mp (nteDepth_within interest.name)).1)

/-- `insert` of an Interest that a PIT entry has returns that entry, not new, and attaches
nothing. -/
theorem Invariant.insert_existing (inv : Invariant componentHash pit) {interest : Interest}
    {entry : Entry} (attached : Attached pit entry) (sameKey : entry.interest = interest) :
    (pit.insert componentHash interest).1 = (some entry, false) ∧
      ∀ e, Attached (pit.insert componentHash interest).2 e ↔ Attached pit e := by
  obtain ⟨looked, q, e, found, stored, named⟩ := inv.lookup interest
  have sameAt := inv.pitEntriesAt_lookup interest
  obtain ⟨nte, member⟩ := attached
  have member' : entry ∈ pitEntriesAt (pit.nameTree.lookup componentHash interest.name
      (nteDepth interest.name)).2 nte := by
    rw [sameAt]
    exact member
  have atQ := looked.attached_at stored named member' sameKey
  subst atQ
  have result : pit.insert componentHash interest = ((some entry, false), { pit with
      nameTree := (pit.nameTree.lookup componentHash interest.name (nteDepth interest.name)).2 }) := by
    simp only [Pit.insert, Pit.findOrInsert, if_true, found,
      looked.findOrInsertAt_found stored named member' sameKey true]
  rw [result]
  exact ⟨rfl, fun e => by simp only [Attached, sameAt]⟩

/-- `insert` of an Interest no PIT entry has attaches one new PIT entry with it. -/
theorem Invariant.insert_new (inv : Invariant componentHash pit) {interest : Interest}
    (fresh : ∀ entry, Attached pit entry → entry.interest ≠ interest) :
    ∃ entry, (pit.insert componentHash interest).1 = (some entry, true) ∧
      entry.interest = interest ∧
      ∀ e, Attached (pit.insert componentHash interest).2 e ↔ Attached pit e ∨ e = entry := by
  obtain ⟨looked, q, e, found, stored, named⟩ := inv.lookup interest
  have sameAt := inv.pitEntriesAt_lookup interest
  have freshAtQ : ∀ entry ∈ pitEntriesAt (pit.nameTree.lookup componentHash interest.name
      (nteDepth interest.name)).2 q, entry.interest ≠ interest := by
    rw [sameAt]
    exact fun entry member => fresh entry ⟨q, member⟩
  refine ⟨⟨interest, q⟩, ?_, rfl, fun e' => ?_⟩
  · simp only [Pit.insert, Pit.findOrInsert, if_true, found, Pit.findOrInsertAt,
      looked.find?_canMatch_none stored named freshAtQ, Bool.not_true, Bool.false_eq_true, if_false]
  · simp only [Pit.insert, Pit.findOrInsert, if_true, found, Pit.findOrInsertAt,
      looked.find?_canMatch_none stored named freshAtQ, Bool.not_true, Bool.false_eq_true, if_false,
      Attached]
    have atQ := pitEntriesAt_updateEntry_self (NameTree.Entry.insertPitEntry ⟨interest, q⟩) stored
    have oldAtQ : pitEntriesAt (pit.nameTree.lookup componentHash interest.name
        (nteDepth interest.name)).2 q = e.pitEntries := by
      simp [pitEntriesAt, stored]
    -- the new PIT entry joins those of `q`; the other name tree entries keep theirs
    constructor
    · rintro ⟨nte, member⟩
      by_cases isQ : nte = q
      · subst isQ
        rw [atQ] at member
        simp only [NameTree.Entry.insertPitEntry, List.mem_append, List.mem_singleton] at member
        rcases member with old | isNew
        · rw [← oldAtQ, sameAt] at old
          exact .inl ⟨nte, old⟩
        · exact .inr isNew
      · rw [pitEntriesAt_updateEntry_other _ isQ, sameAt] at member
        exact .inl ⟨nte, member⟩
    · rintro (⟨nte, member⟩ | rfl)
      · by_cases isQ : nte = q
        · subst isQ
          refine ⟨nte, ?_⟩
          rw [atQ]
          simp only [NameTree.Entry.insertPitEntry, List.mem_append]
          rw [← oldAtQ, sameAt]
          exact .inl member
        · refine ⟨nte, ?_⟩
          rw [pitEntriesAt_updateEntry_other _ isQ, sameAt]
          exact member
      · refine ⟨q, ?_⟩
        rw [atQ]
        simp [NameTree.Entry.insertPitEntry]

theorem Invariant.insert (inv : Invariant componentHash pit) (interest : Interest) :
    Invariant componentHash (pit.insert componentHash interest).2 := by
  obtain ⟨looked, q, e, found, stored, named⟩ := inv.lookup interest
  simp only [Pit.insert, Pit.findOrInsert, if_true, found]
  by_cases exists_ : ∃ entry ∈ pitEntriesAt (pit.nameTree.lookup componentHash interest.name
      (nteDepth interest.name)).2 q, entry.interest = interest
  · obtain ⟨entry, member, sameKey⟩ := exists_
    rw [looked.findOrInsertAt_found stored named member sameKey true]
    exact looked
  · have fresh : ∀ entry ∈ pitEntriesAt (pit.nameTree.lookup componentHash interest.name
        (nteDepth interest.name)).2 q, entry.interest ≠ interest :=
      fun entry member sameKey => exists_ ⟨entry, member, sameKey⟩
    simp only [Pit.findOrInsertAt, looked.find?_canMatch_none stored named fresh, Bool.not_true,
      Bool.false_eq_true, if_false]
    exact looked.insertPitEntry stored named fresh

/-- `findAllDataMatches` returns, each once, the PIT entries whose Interests the Data
satisfies, when the Data satisfies only Interests whose names without digest are prefixes of
its name. -/
theorem Invariant.findAllDataMatches_spec (inv : Invariant componentHash pit) (dataName : Name)
    (matchesData : Interest → Bool)
    (accepts : ∀ interest, matchesData interest = true → withoutDigest interest.name <+: dataName) :
    (pit.findAllDataMatches componentHash dataName matchesData).Nodup ∧
      ∀ entry, entry ∈ pit.findAllDataMatches componentHash dataName matchesData ↔
        Attached pit entry ∧ matchesData entry.interest = true := by
  have spec : (pit.nameTree.findAllMatches componentHash dataName nteHasPitEntries).Nodup ∧
      ∀ x, x ∈ pit.nameTree.findAllMatches componentHash dataName nteHasPitEntries ↔
        ∃ ex, entries pit.nameTree.ht.nodes x = some ex ∧ ex.name <+: dataName ∧
          ex.name.length ≤ getMaxDepth ∧ nteHasPitEntries ex = true :=
    inv.valid.findAllMatches_spec dataName
  obtain ⟨nodupNtes, memberNtes⟩ := spec
  refine ⟨List.nodup_flatMap.mpr ⟨fun nte _ => ((inv.distinct nte).of_map _).filter _,
    nodupNtes.imp fun {a b} different => ?_⟩, fun entry => ?_⟩
  · -- a PIT entry sits in one name tree entry only
    intro entry inA inB
    have pointsA := (inv.attached a entry (List.mem_filter.mp inA).1).1
    have pointsB := (inv.attached b entry (List.mem_filter.mp inB).1).1
    exact different (pointsA.symm.trans pointsB)
  · simp only [Pit.findAllDataMatches, List.mem_flatMap, List.mem_filter]
    constructor
    · rintro ⟨nte, -, member, matched⟩
      exact ⟨⟨nte, member⟩, matched⟩
    · rintro ⟨⟨nte, member⟩, matched⟩
      obtain ⟨-, e, stored, named⟩ := inv.attached nte entry member
      obtain ⟨e', stored', inE⟩ := mem_pitEntriesAt.mp member
      rw [stored, Option.some.injEq] at stored'
      subst stored'
      -- the name tree entry of the PIT entry is a selected prefix of the Data name
      refine ⟨nte, (memberNtes nte).mpr ⟨e, stored, ?_, ?_, ?_⟩, member, matched⟩
      · rw [named]
        exact (take_nteDepth_prefix_withoutDigest _).trans (accepts _ matched)
      · rw [named, length_take_nteDepth]
        exact (nteDepth_within _).trans (Nat.min_le_right _ _)
      · simp only [nteHasPitEntries, Bool.not_eq_true', List.isEmpty_eq_false_iff]
        exact List.ne_nil_of_mem inE

end Operations

theorem Reachable.invariant {componentHash : Component → HashValue} {pit : Pit F M S}
    (reachable : Reachable componentHash pit) : Invariant componentHash pit := by
  induction reachable with
  | empty nBuckets positive => exact Invariant.empty nBuckets positive
  | insert interest _ inv => exact inv.insert interest
  | find interest _ inv =>
      rw [find_state]
      exact inv
  | erase entry canDeleteNte _ member inv => exact inv.erase member canDeleteNte

/-- In every PIT reached by `insert`, `find` and `erase`: no two PIT entries have the same
Interest, and none is attached twice; `insert` returns the PIT entry with the Interest, not
new, when there is one, and otherwise attaches a new one; `find` changes nothing and returns
the PIT entry with the Interest, if any; `size()` counts the attached PIT entries; and
`findAllDataMatches` returns, each once, the PIT entries whose Interests the Data satisfies,
when the Data satisfies only Interests whose names without digest are prefixes of its
name. -/
theorem keying_and_matching {componentHash : Component → HashValue} {pit : Pit F M S}
    (reachable : Reachable componentHash pit) :
    (∀ nte nte' a b, a ∈ pitEntriesAt pit.nameTree nte → b ∈ pitEntriesAt pit.nameTree nte' →
        a.interest = b.interest → nte = nte' ∧ a = b) ∧
      (∀ nte, (pitEntriesAt pit.nameTree nte).Nodup) ∧
      (∀ interest entry, Attached pit entry → entry.interest = interest →
        (pit.insert componentHash interest).1 = (some entry, false) ∧
          ∀ e, Attached (pit.insert componentHash interest).2 e ↔ Attached pit e) ∧
      (∀ interest, (∀ entry, Attached pit entry → entry.interest ≠ interest) →
        ∃ entry, (pit.insert componentHash interest).1 = (some entry, true) ∧
          entry.interest = interest ∧
          ∀ e, Attached (pit.insert componentHash interest).2 e ↔ Attached pit e ∨ e = entry) ∧
      (∀ interest, (pit.findOrInsert componentHash interest false).2 = pit ∧
        ∀ entry, pit.find componentHash interest = some entry ↔
          Attached pit entry ∧ entry.interest = interest) ∧
      pit.size = attachedCount pit.nameTree ∧
      (∀ dataName matchesData, (∀ interest, matchesData interest = true →
          withoutDigest interest.name <+: dataName) →
        (pit.findAllDataMatches componentHash dataName matchesData).Nodup ∧
          ∀ entry, entry ∈ pit.findAllDataMatches componentHash dataName matchesData ↔
            Attached pit entry ∧ matchesData entry.interest = true) := by
  have inv := reachable.invariant
  refine ⟨fun _ _ _ _ memberA memberB sameKey => inv.key_unique memberA memberB sameKey,
    fun nte => (inv.distinct nte).of_map _,
    fun _ _ attached sameKey => inv.insert_existing attached sameKey,
    fun _ fresh => inv.insert_new fresh,
    fun interest => ⟨find_state interest, inv.find_eq_some_iff interest⟩,
    inv.count,
    fun dataName matchesData accepts => inv.findAllDataMatches_spec dataName matchesData accepts⟩

theorem keying_and_matching_afterInserts :
    Reachable (fun c => UInt64.ofNat c.type)
        (((Pit.empty 16 (by decide) : Pit Unit Unit Unit).insert (fun c => UInt64.ofNat c.type)
          ⟨[⟨8, [97]⟩, ⟨8, [98]⟩], false, false⟩).2) ∧
      ((Pit.empty 16 (by decide) : Pit Unit Unit Unit).insert (fun c => UInt64.ofNat c.type)
          ⟨[⟨8, [97]⟩, ⟨8, [98]⟩], false, false⟩).2.size =
        attachedCount ((Pit.empty 16 (by decide) : Pit Unit Unit Unit).insert
          (fun c => UInt64.ofNat c.type) ⟨[⟨8, [97]⟩, ⟨8, [98]⟩], false, false⟩).2.nameTree :=
  have reachable : Reachable (fun c => UInt64.ofNat c.type)
      (((Pit.empty 16 (by decide) : Pit Unit Unit Unit).insert (fun c => UInt64.ofNat c.type)
        ⟨[⟨8, [97]⟩, ⟨8, [98]⟩], false, false⟩).2) :=
    .insert _ (.empty 16 (by decide))
  ⟨reachable, (keying_and_matching reachable).2.2.2.2.2.1⟩

end Nfd.Pit
