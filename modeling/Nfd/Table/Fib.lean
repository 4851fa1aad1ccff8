import Nfd.Table.NameTreeLpm
import Nfd.Lib.Slicing
import Mathlib.Algebra.Group.Fin.Basic

/-!
# The FIB

`Fib` keeps its entries in the name tree it shares with the PIT, the Measurements and
the StrategyChoice tables: a FIB entry is the `fibEntry` of the name tree entry of its
prefix, and `m_nItems` counts the FIB entries.  A FIB entry is addressed here by the name
tree entry that holds it, since that is where `NameTree::getEntry(const fib::Entry&)`
leads; `s_emptyEntry` is held by none.

`Entry::sortNextHops` is `std::sort` by cost, which leaves the order of next hops of equal
cost unspecified; the model sorts stably (`List.mergeSort`), one of the orders it allows.
-/

set_option autoImplicit false
namespace Nfd.Fib

open NameTree

/-- Faces are named by their `FaceId`. -/
abbrev FaceId := Nat

structure NextHop where
  face : FaceId
  cost : Nat
deriving DecidableEq, Repr

/-- `fib::Entry`. -/
structure Entry where
  prefixName : Name
  nextHops : List NextHop
deriving DecidableEq, Repr

namespace Entry

def sortNextHops (entry : Entry) : Entry :=
  { entry with nextHops := entry.nextHops.mergeSort fun a b => a.cost ≤ b.cost }

def hasNextHop (entry : Entry) (face : FaceId) : Bool :=
  entry.nextHops.any fun nh => nh.face == face

def hasNextHops (entry : Entry) : Bool := !entry.nextHops.isEmpty

/-- `addOrUpdateNextHop(face, cost)`: the entry, the position the returned iterator points
at, and whether the next hop is new.  The iterator is taken before `sortNextHops` reorders
the vector, so it keeps its position while the next hops move. -/
def addOrUpdateNextHop (face : FaceId) (cost : Nat) (entry : Entry) : Entry × Nat × Bool :=
  match entry.nextHops.findIdx? fun nh => nh.face == face with
  | none =>
      (sortNextHops { entry with nextHops := entry.nextHops ++ [⟨face, cost⟩] },
        entry.nextHops.length, true)
  | some i =>
      (sortNextHops
        { entry with nextHops := entry.nextHops.modify i fun nh => { nh with cost := cost } }, i, false)

/-- `removeNextHop(face)`: the entry, and whether a next hop was removed. -/
def removeNextHop (face : FaceId) (entry : Entry) : Entry × Bool :=
  match entry.nextHops.findIdx? fun nh => nh.face == face with
  | none => (entry, false)
  | some i => ({ entry with nextHops := entry.nextHops.eraseIdx i }, true)

section NextHops

/-- The next hops are sorted by non-decreasing cost. -/
def SortedByCost (entry : Entry) : Prop := entry.nextHops.Pairwise fun a b => a.cost ≤ b.cost

/-- No two next hops share a face. -/
def FacesDistinct (entry : Entry) : Prop := (entry.nextHops.map NextHop.face).Nodup

theorem sortNextHops_perm (entry : Entry) : (sortNextHops entry).nextHops.Perm entry.nextHops :=
  List.mergeSort_perm _ _

theorem sortNextHops_sorted (entry : Entry) : (sortNextHops entry).SortedByCost := by
  have sorted : (entry.nextHops.mergeSort fun a b => decide (a.cost ≤ b.cost)).Pairwise
      fun a b => decide (a.cost ≤ b.cost) = true :=
    List.pairwise_mergeSort (fun a b c ab bc => by simp at *; omega) (fun a b => by simp; omega) _
  simpa [SortedByCost, sortNextHops] using sorted

/-- Changing the cost of the one next hop of a face, cut out of the list. -/
theorem modify_perm_of_cut (pre post : List NextHop) {x : NextHop} {face : FaceId} (cost : Nat)
    (onFace : x.face = face) (distinct : ((pre ++ x :: post).map NextHop.face).Nodup) :
    ((pre ++ x :: post).modify pre.length fun nh => { nh with cost := cost }).Perm
      ((pre ++ x :: post).filter (fun nh => nh.face != face) ++ [⟨face, cost⟩]) := by
  have elsewhere : ∀ nh ∈ pre ++ post, nh.face ≠ face := by
    intro nh mem same
    simp only [List.map_append, List.map_cons, List.nodup_append, List.nodup_cons, List.mem_map] at distinct
    rcases List.mem_append.mp mem with inPre | inPost
    · exact distinct.2.2 _ ⟨nh, inPre, rfl⟩ _ (List.mem_cons_self ..) (same.trans onFace.symm)
    · exact distinct.2.1.1 ⟨nh, inPost, same.trans onFace.symm⟩
  have kept : (pre ++ x :: post).filter (fun nh => nh.face != face) = pre ++ post := by
    rw [List.filter_append, List.filter_cons, if_neg (by simp [onFace]), List.filter_eq_self.mpr,
      List.filter_eq_self.mpr]
    · intro nh mem
      simpa using elsewhere nh (List.mem_append_right _ mem)
    · intro nh mem
      simpa using elsewhere nh (List.mem_append_left _ mem)
  have updated : ({ x with cost := cost } : NextHop) = ⟨face, cost⟩ := by
    rw [← onFace]
  rw [Slicing.modify_append_cons, kept, updated]
  exact List.perm_middle.trans (List.perm_append_singleton _ _).symm

/-- Changing the cost of the next hop of a face at the position `findIdx?` gives, when no
other next hop has that face. -/
theorem modify_perm {hops : List NextHop} {i : Nat} {face : FaceId} (cost : Nat)
    (found : hops.findIdx? (fun nh => nh.face == face) = some i) (distinct : (hops.map NextHop.face).Nodup) :
    (hops.modify i fun nh => { nh with cost := cost }).Perm
      (hops.filter (fun nh => nh.face != face) ++ [⟨face, cost⟩]) := by
  obtain ⟨within, hit, -⟩ := List.findIdx?_eq_some_iff_getElem.mp found
  have onFace : hops[i].face = face := by simpa using hit
  -- cut the list at the next hop of the face
  have split : hops = hops.take i ++ hops[i] :: hops.drop (i + 1) := by
    rw [List.getElem_cons_drop, List.take_append_drop]
  have atCut : (hops.take i).length = i := by simp; omega
  have cut := modify_perm_of_cut (hops.take i) (hops.drop (i + 1)) cost onFace (split ▸ distinct)
  rwa [atCut, ← split] at cut

theorem addOrUpdateNextHop_perm (face : FaceId) (cost : Nat) {entry : Entry} (distinct : entry.FacesDistinct) :
    (entry.addOrUpdateNextHop face cost).1.nextHops.Perm
      (entry.nextHops.filter (fun nh => nh.face != face) ++ [⟨face, cost⟩]) := by
  unfold addOrUpdateNextHop
  split
  · rename_i missing
    have none : entry.nextHops.filter (fun nh => nh.face != face) = entry.nextHops := by
      rw [List.filter_eq_self]
      intro nh mem
      have := List.findIdx?_eq_none_iff.mp missing nh mem
      simpa using this
    rw [none]
    exact sortNextHops_perm _
  · rename_i i found
    exact (sortNextHops_perm _).trans (modify_perm cost found distinct)

theorem addOrUpdateNextHop_sorted (face : FaceId) (cost : Nat) (entry : Entry) :
    (entry.addOrUpdateNextHop face cost).1.SortedByCost := by
  unfold addOrUpdateNextHop
  split <;> exact sortNextHops_sorted _

theorem addOrUpdateNextHop_isNew (face : FaceId) (cost : Nat) (entry : Entry) :
    (entry.addOrUpdateNextHop face cost).2.2 = !entry.hasNextHop face := by
  unfold addOrUpdateNextHop hasNextHop
  split
  · rename_i missing
    have absent : entry.nextHops.any (fun nh => nh.face == face) = false :=
      List.any_eq_false.mpr fun nh mem => by simpa using List.findIdx?_eq_none_iff.mp missing nh mem
    rw [absent]
    rfl
  · rename_i i found
    obtain ⟨within, hit, -⟩ := List.findIdx?_eq_some_iff_getElem.mp found
    have present : entry.nextHops.any (fun nh => nh.face == face) = true :=
      List.any_eq_true.mpr ⟨_, List.getElem_mem within, hit⟩
    rw [present]
    rfl

/-- `addOrUpdateNextHop` keeps the next hops sorted by cost and of distinct faces: `face`
has exactly one next hop, at `cost`, and the next hops of the other faces are the entry's. -/
theorem addOrUpdateNextHop_nextHops (face : FaceId) (cost : Nat) {entry : Entry}
    (distinct : entry.FacesDistinct) :
    (entry.addOrUpdateNextHop face cost).1.SortedByCost ∧
      (entry.addOrUpdateNextHop face cost).1.FacesDistinct ∧
      (entry.addOrUpdateNextHop face cost).1.nextHops.filter (fun nh => nh.face == face) = [⟨face, cost⟩] ∧
      ((entry.addOrUpdateNextHop face cost).1.nextHops.filter fun nh => nh.face != face).Perm
        (entry.nextHops.filter fun nh => nh.face != face) := by
  have perm := addOrUpdateNextHop_perm face cost distinct
  have others : ∀ nh ∈ entry.nextHops.filter (fun nh => nh.face != face), nh.face ≠ face := by
    intro nh mem
    simpa using (List.mem_filter.mp mem).2
  refine ⟨addOrUpdateNextHop_sorted face cost entry, ?_, ?_, ?_⟩
  · -- the faces are those of a sublist of the entry's, and `face`, which it lacks
    unfold FacesDistinct
    rw [(perm.map NextHop.face).nodup_iff, List.map_append, List.nodup_append]
    refine ⟨(List.filter_sublist.map NextHop.face).nodup distinct, by simp, ?_⟩
    intro a inFiltered b inNew
    obtain ⟨nh, mem, rfl⟩ := List.mem_map.mp inFiltered
    simp only [List.map_cons, List.map_nil, List.mem_singleton] at inNew
    rw [inNew]
    exact others nh mem
  · have filtered := perm.filter fun nh => nh.face == face
    have none : (entry.nextHops.filter fun nh => nh.face != face).filter (fun nh => nh.face == face) = [] :=
      List.filter_eq_nil_iff.mpr fun nh mem => by simpa using others nh mem
    rw [List.filter_append, none] at filtered
    simpa using filtered
  · have filtered := perm.filter fun nh => nh.face != face
    rw [List.filter_append, List.filter_filter] at filtered
    simp at filtered
    exact filtered

/-- The returned iterator points into the next hops. -/
theorem addOrUpdateNextHop_position_lt (face : FaceId) (cost : Nat) (entry : Entry) :
    (entry.addOrUpdateNextHop face cost).2.1 < (entry.addOrUpdateNextHop face cost).1.nextHops.length := by
  unfold addOrUpdateNextHop
  split
  · simp [sortNextHops]
  · rename_i i found
    obtain ⟨within, -, -⟩ := List.findIdx?_eq_some_iff_getElem.mp found
    simpa [sortNextHops] using within

/-- A new next hop whose cost is not below any other stays last through the stable sort, so
the iterator, taken before the sort, points at it. -/
theorem addOrUpdateNextHop_new_of_le {face : FaceId} {cost : Nat} {entry : Entry}
    (sorted : entry.SortedByCost) (missing : entry.hasNextHop face = false)
    (above : ∀ nh ∈ entry.nextHops, nh.cost ≤ cost) :
    (entry.addOrUpdateNextHop face cost).1.nextHops[(entry.addOrUpdateNextHop face cost).2.1]? =
      some ⟨face, cost⟩ := by
  have absent : entry.nextHops.findIdx? (fun nh => nh.face == face) = none := by
    rw [List.findIdx?_eq_none_iff]
    intro nh mem
    simpa using List.any_eq_false.mp missing nh mem
  -- the appended list is already sorted, and the merge sort leaves a sorted list alone
  have appended : (entry.nextHops ++ [(⟨face, cost⟩ : NextHop)]).Pairwise
      fun a b => decide (a.cost ≤ b.cost) = true := by
    rw [List.pairwise_append]
    refine ⟨?_, List.pairwise_singleton _ _, ?_⟩
    · simpa [SortedByCost] using sorted
    · intro a mem b isNew
      simp only [List.mem_singleton] at isNew
      simpa [isNew] using above a mem
  unfold addOrUpdateNextHop
  rw [absent]
  simp only [sortNextHops, List.mergeSort_of_pairwise appended]
  simp

end NextHops

end Entry

/-- `Fib::s_emptyEntry`, returned when no prefix has a FIB entry. -/
def emptyEntry : Entry := ⟨[], []⟩

/-- `size_t`, the type of `m_nItems`, has 64 bits: its arithmetic is modulo `2^64`. -/
def sizeBound : Nat := 2 ^ 64

instance : NeZero sizeBound := ⟨Nat.pos_iff_ne_zero.mp (Nat.two_pow_pos 64)⟩

/-- A decrement of ‘m_nItems’ after ‘k’ others takes ‘k + 1’ off it, modulo ‘2^64’. -/
theorem sub_one_sub_ofNat (n : Fin sizeBound) (k : Nat) :
    n - 1 - Fin.ofNat sizeBound k = n - Fin.ofNat sizeBound (k + 1) := by
  rw [sub_sub]
  congr 1
  open Fin.NatCast in simp [Fin.ofNat_eq_cast, add_comm]

end Nfd.Fib

namespace Nfd

structure Fib (P M S : Type) where
  nameTree : NameTree Fib.Entry P M S
  nItems : Fin Fib.sizeBound

end Nfd

namespace Nfd.Fib

open NameTree

variable {P M S : Type}

/-- The FIB entry held by the name tree entry `nte`. -/
def fibEntryAt (nameTree : NameTree Entry P M S) (nte : NodeId) : Option Entry :=
  (nameTree.ht.nodes nte).bind fun n => n.entry.fibEntry

theorem fibEntryAt_setFibEntry {nameTree : NameTree Entry P M S} {nte : NodeId} {entry : Entry}
    (found : fibEntryAt nameTree nte = some entry) (updated : Entry) :
    fibEntryAt ⟨updateEntry nte (Entry.setFibEntry (some updated)) nameTree.ht⟩ nte = some updated := by
  unfold fibEntryAt at found ⊢
  cases stored : nameTree.ht.nodes nte with
  | none => simp [stored] at found
  | some n => simp [updateEntry, stored, NameTree.Entry.setFibEntry]

/-- `nteHasFibEntry`. -/
def nteHasFibEntry (nte : NameTree.Entry Entry P M S) : Bool := nte.fibEntry.isSome

section Table

def size (fib : Fib P M S) : Nat := fib.nItems.val

/-- `erase(nte, canDeleteNte)`. -/
def eraseEntry (nte : NodeId) (canDeleteNte : Bool) (fib : Fib P M S) : Fib P M S :=
  let nameTree : NameTree Entry P M S := ⟨updateEntry nte (Entry.setFibEntry none) fib.nameTree.ht⟩
  let nameTree := if canDeleteNte then (nameTree.eraseIfEmpty nte true).2 else nameTree
  -- ‘--m_nItems’ runs whether or not ‘nte’ held a FIB entry, and wraps below zero
  { nameTree := nameTree, nItems := fib.nItems - 1 }

section Keyed

variable (componentHash : Component → HashValue)

/-- `insert(prefix)`: the name tree entry holding the FIB entry, and whether it is new. -/
def insert (prefixName : Name) (fib : Fib P M S) : (Option NodeId × Bool) × Fib P M S :=
  let (nte, nameTree) := fib.nameTree.lookup componentHash prefixName prefixName.length
  match nte with
  | none => ((none, false), { fib with nameTree := nameTree })
  | some nte =>
      match fibEntryAt nameTree nte with
      | some _ => ((some nte, false), { fib with nameTree := nameTree })
      | none =>
          ((some nte, true),
            { nameTree :=
                ⟨updateEntry nte (Entry.setFibEntry (some ⟨prefixName, []⟩)) nameTree.ht⟩,
              nItems := fib.nItems + 1 })

/-- `erase(const Name& prefix)`. -/
def erase (prefixName : Name) (fib : Fib P M S) : Fib P M S :=
  match fib.nameTree.findExactMatch componentHash prefixName prefixName.length with
  | none => fib
  | some nte => fib.eraseEntry nte true

/-- `findExactMatch(prefix)`. -/
def findExactMatch (prefixName : Name) (fib : Fib P M S) : Option Entry :=
  (fib.nameTree.findExactMatch componentHash prefixName prefixName.length).bind
    (fibEntryAt fib.nameTree)

/-- `findLongestPrefixMatch(prefix)`. -/
def findLongestPrefixMatch (prefixName : Name) (fib : Fib P M S) : Entry :=
  match fib.nameTree.findLongestPrefixMatch componentHash prefixName nteHasFibEntry with
  | some nte => (fibEntryAt fib.nameTree nte).getD emptyEntry
  | none => emptyEntry

end Keyed

/-- `erase(const Entry& entry)`: `s_emptyEntry` is attached to no name tree entry. -/
def eraseOfEntry (nte : Option NodeId) (fib : Fib P M S) : Fib P M S :=
  match nte with
  | none => fib
  | some nte => fib.eraseEntry nte true

/-- `addOrUpdateNextHop(entry, face, cost)` on the FIB entry held by `nte`, and the
`afterNewNextHop` signal it emits for a new next hop: the prefix, and the next hop the
returned iterator points at. -/
def addOrUpdateNextHop (nte : NodeId) (face : FaceId) (cost : Nat) (fib : Fib P M S) :
    Fib P M S × Option (Name × NextHop) :=
  match fibEntryAt fib.nameTree nte with
  | none => (fib, none)
  | some entry =>
      let (updated, it, isNew) := entry.addOrUpdateNextHop face cost
      ({ fib with
          nameTree := ⟨updateEntry nte (Entry.setFibEntry (some updated)) fib.nameTree.ht⟩ },
        if isNew then updated.nextHops[it]?.map fun nh => (entry.prefixName, nh) else none)

/-- `removeNextHop(entry, face)`: the FIB entry is erased, keeping its name tree entry, when
its last next hop goes. -/
def removeNextHop (nte : NodeId) (face : FaceId) (fib : Fib P M S) : Fib P M S :=
  match fibEntryAt fib.nameTree nte with
  | none => fib
  | some entry =>
      let (entry, isRemoved) := entry.removeNextHop face
      let fib := { fib with
        nameTree := ⟨updateEntry nte (Entry.setFibEntry (some entry)) fib.nameTree.ht⟩ }
      if !isRemoved then fib
      else if !entry.hasNextHops then fib.eraseEntry nte false
      else fib

theorem addOrUpdateNextHop_found {fib : Fib P M S} {nte : NodeId} {entry : Entry} (face : FaceId)
    (cost : Nat) (found : fibEntryAt fib.nameTree nte = some entry) :
    fibEntryAt (fib.addOrUpdateNextHop nte face cost).1.nameTree nte =
        some (entry.addOrUpdateNextHop face cost).1 ∧
      (fib.addOrUpdateNextHop nte face cost).2 =
        if (entry.addOrUpdateNextHop face cost).2.2 then
          (entry.addOrUpdateNextHop face cost).1.nextHops[(entry.addOrUpdateNextHop face cost).2.1]?.map
            fun nh => (entry.prefixName, nh)
        else none := by
  unfold addOrUpdateNextHop
  rw [found]
  exact ⟨fibEntryAt_setFibEntry found _, rfl⟩

/-- `Fib(nameTree)` over an empty name tree with the default `NameTree(1024)`. -/
def empty : Fib P M S := ⟨NameTree.ofSize 1024 (by decide), 0⟩

/-- `afterNewNextHop` is emitted exactly when the FIB entry exists and had no next hop on the
face. -/
theorem addOrUpdateNextHop_signals_iff (nte : NodeId) (face : FaceId) (cost : Nat) (fib : Fib P M S) :
    (fib.addOrUpdateNextHop nte face cost).2.isSome =
      (fibEntryAt fib.nameTree nte).any fun entry => !entry.hasNextHop face := by
  cases found : fibEntryAt fib.nameTree nte with
  | none => simp [addOrUpdateNextHop, found]
  | some entry =>
    rw [(addOrUpdateNextHop_found face cost found).2, Option.any_some,
      ← Entry.addOrUpdateNextHop_isNew face cost entry]
    split
    · rename_i isNew
      have within := Entry.addOrUpdateNextHop_position_lt face cost entry
      simp [isNew, List.getElem?_eq_getElem within]
    · rename_i notNew
      simpa using notNew

end Table

/-- The name tree entries that carry a FIB entry, among the allocated addresses. -/
def fibEntryCount (fib : Fib P M S) : Nat :=
  ((List.range fib.nameTree.ht.nextNodeId).filter fun nte =>
    (fibEntryAt fib.nameTree nte).isSome).length

section EraseGap

/-- Generic name components `X`, `Y` and `Z`. -/
def componentX : Component := ⟨8, [88]⟩
def componentY : Component := ⟨8, [89]⟩
def componentZ : Component := ⟨8, [90]⟩

/-- The FIB after `insert(/X)`, `insert(/X/Y/Z)` and `erase(/X/Y)`, for any hash of the
components. -/
def eraseGapRun (componentHash : Component → HashValue) : Fib Unit Unit Unit :=
  (((Fib.empty.insert componentHash [componentX]).2.insert componentHash
    [componentX, componentY, componentZ]).2).erase componentHash [componentX, componentY]

/-- `erase(/X/Y)` finds the name tree entry `lookup(/X/Y/Z)` created for `/X/Y`, which
holds no FIB entry, and decrements `m_nItems` all the same: `size()` is 1 while two name
tree entries carry FIB entries. -/
theorem eraseGap_size_ne_count :
    (eraseGapRun fun c => UInt64.ofNat c.type).size = 1 ∧
      fibEntryCount (eraseGapRun fun c => UInt64.ofNat c.type) = 2 := by
  decide +kernel

end EraseGap

/-- The FIB after `insert(/X)` and `addOrUpdateNextHop` on its entry of face 1 at cost 10,
then of face 2 at cost 5: the entry's address, the FIB, and the `afterNewNextHop` signal of
the second call. -/
def movedNextHopRun (componentHash : Component → HashValue) :
    NodeId × Fib Unit Unit Unit × Option (Name × NextHop) :=
  let ((nte, _), fib) := (Fib.empty : Fib Unit Unit Unit).insert componentHash [componentX]
  let (fib, _) := fib.addOrUpdateNextHop (nte.getD 0) 1 10
  let (fib, signal) := fib.addOrUpdateNextHop (nte.getD 0) 2 5
  (nte.getD 0, fib, signal)

/-- The sort puts face 2 first, and `afterNewNextHop` is emitted with the next hop the
iterator still points at, face 1 at cost 10. -/
theorem addOrUpdateNextHop_signalsMovedNextHop :
    fibEntryAt (movedNextHopRun fun c => UInt64.ofNat c.type).2.1.nameTree
        (movedNextHopRun fun c => UInt64.ofNat c.type).1 =
          some ⟨[componentX], [⟨2, 5⟩, ⟨1, 10⟩]⟩ ∧
      (movedNextHopRun fun c => UInt64.ofNat c.type).2.2 = some ([componentX], ⟨1, 10⟩) := by
  have inserted : fibEntryAt
      ((Fib.empty : Fib Unit Unit Unit).insert (fun c => UInt64.ofNat c.type) [componentX]).2.nameTree
      (((Fib.empty : Fib Unit Unit Unit).insert (fun c => UInt64.ofNat c.type) [componentX]).1.1.getD 0) =
        some ⟨[componentX], []⟩ := by
    decide +kernel
  -- the two calls of the entry, evaluated through the merge sort's equations
  have first : Entry.addOrUpdateNextHop 1 10 ⟨[componentX], []⟩ = (⟨[componentX], [⟨1, 10⟩]⟩, 0, true) := by
    simp [Entry.addOrUpdateNextHop, Entry.sortNextHops]
  have second : Entry.addOrUpdateNextHop 2 5 ⟨[componentX], [⟨1, 10⟩]⟩ =
      (⟨[componentX], [⟨2, 5⟩, ⟨1, 10⟩]⟩, 1, true) := by
    simp [Entry.addOrUpdateNextHop, Entry.sortNextHops, List.mergeSort]
  unfold movedNextHopRun
  generalize (Fib.empty : Fib Unit Unit Unit).insert (fun c => UInt64.ofNat c.type) [componentX] = run
    at inserted
  obtain ⟨⟨nte, _⟩, fib⟩ := run
  have afterFirst := (Fib.addOrUpdateNextHop_found 1 10 inserted).1
  rw [first] at afterFirst
  have afterSecond := Fib.addOrUpdateNextHop_found 2 5 afterFirst
  rw [second] at afterSecond
  exact ⟨afterSecond.1, afterSecond.2⟩

end Nfd.Fib
