import Nfd.Table.Fib
import Nfd.Table.NameTreeEnumeration
import Nfd.Fw.PitEntry
import Nfd.Lib.SortedMap

/-!
# Cleanup on face removal

`cleanupOnFaceRemoval(nt, fib, pit, face)` takes a face out of the tables that share the name
tree.  In one pass of the enumeration of the name tree it removes the face's next hop from each
FIB entry, which `Fib::removeNextHop` erases with its last next hop, and the face's in-records and
out-records from each PIT entry; it records the name tree entries left without table entries in
a multimap keyed by the length of their names.  Then, longest names first, it erases those of
them that are empty, so that an entry is checked only after its children were.

The name tree entries hold the FIB entries and the PIT entries with their records; the FIB
carries the name tree and its `m_nItems`.  The PIT's `m_nItems` is not touched.  The first loop
writes table entries only, so the range it iterates is the enumeration of the tree it started
on.
-/

set_option autoImplicit false

namespace Nfd.Cleanup

open NameTree

variable {M S : Type}

/-- The tables `cleanupOnFaceRemoval` edits: the name tree, whose entries hold the FIB entries
and the PIT entries, and the FIB's `m_nItems`. -/
abbrev Tables (M S : Type) := Fib Fw.PitEntry M S

/-- `Pit::deleteInOutRecords(entry, face)`. -/
def deleteInOutRecords (face : Fw.Face) (entry : Fw.PitEntry) : Fw.PitEntry :=
  (entry.deleteInRecord face).deleteOutRecord face

/-- The body of the first loop at the name tree entry `nte`, with `maybeEmptyNtes`. -/
def visitEntry (face : Fw.Face) (state : Tables M S × List (Nat × NodeId)) (nte : NodeId) :
    Tables M S × List (Nat × NodeId) :=
  let (tables, maybeEmptyNtes) := state
  let tables :=
    if (Fib.fibEntryAt tables.nameTree nte).isSome then tables.removeNextHop nte face.id else tables
  let tables := { tables with nameTree := ⟨updateEntry nte
    (fun e => { e with pitEntries := e.pitEntries.map (deleteInOutRecords face) }) tables.nameTree.ht⟩ }
  match entries tables.nameTree.ht.nodes nte with
  | some e =>
      if !e.hasTableEntries then (tables, SortedMultimap.emplace e.name.length nte maybeEmptyNtes)
      else (tables, maybeEmptyNtes)
  | none => (tables, maybeEmptyNtes)

/-- The body of the second loop: `nt.eraseIfEmpty(nte, false)`. -/
def eraseRecorded (tables : Tables M S) (recorded : Nat × NodeId) : Tables M S :=
  { tables with nameTree := (tables.nameTree.eraseIfEmpty recorded.2 false).2 }

/-- `cleanupOnFaceRemoval(nt, fib, pit, face)`. -/
def cleanupOnFaceRemoval (face : Fw.Face) (tables : Tables M S) : Tables M S :=
  -- visit FIB and PIT entries in one pass of NameTree enumeration
  let visited := (tables.nameTree.fullEnumerate fun _ => true).getD []
  let (tables, maybeEmptyNtes) := visited.foldl (visitEntry face) (tables, [])
  -- try to erase longer names first, so that children are erased before parent is checked
  maybeEmptyNtes.reverse.foldl eraseRecorded tables

section Spec

/-! What the cleanup leaves of each table entry. -/

/-- Nothing when `face` was the only next hop of `fe`; else its next hops without `face`'s. -/
def fibEntryWithout (face : Nat) (fe : Fib.Entry) : Option Fib.Entry :=
  if fe.nextHops.map Fib.NextHop.face = [face] then none
  else some { fe with nextHops := fe.nextHops.filter fun nh => nh.face != face }

/-- The records of `pe` without those of `face`. -/
def pitEntryWithout (face : Nat) (pe : Fw.PitEntry) : Fw.PitEntry :=
  { pe with
    inRecords := pe.inRecords.filter fun r => r.face.id != face
    outRecords := pe.outRecords.filter fun r => r.face.id != face }

def entryWithout (face : Nat) (e : Entry Fib.Entry Fw.PitEntry M S) : Entry Fib.Entry Fw.PitEntry M S :=
  { e with
    fibEntry := e.fibEntry.bind (fibEntryWithout face)
    pitEntries := e.pitEntries.map (pitEntryWithout face) }

/-- What every entry of a reachable state keeps: the next hops of its FIB entry are of distinct
faces, and each of its PIT entries has at most one in-record and one out-record per face. -/
structure EntryOk (e : Entry Fib.Entry Fw.PitEntry M S) : Prop where
  facesDistinct : ∀ fe ∈ e.fibEntry, fe.FacesDistinct
  recordsUnique : ∀ pe ∈ e.pitEntries, pe.RecordsUnique

end Spec

section Round

theorem updateEntry_updateEntry {F P : Type} (ht : Hashtable F P M S) (id : NodeId)
    (f g : Entry F P M S → Entry F P M S) :
    updateEntry id g (updateEntry id f ht) = updateEntry id (g ∘ f) ht := by
  cases stored : ht.nodes id <;> simp [updateEntry, modifyNode, stored, Function.update_idem]

theorem updateEntry_congr {F P : Type} {ht : Hashtable F P M S} {id : NodeId}
    {f g : Entry F P M S → Entry F P M S} {e : Entry F P M S}
    (stored : entries ht.nodes id = some e) (same : f e = g e) :
    updateEntry id f ht = updateEntry id g ht := by
  obtain ⟨n, storedNode, rfl⟩ := Option.map_eq_some_iff.mp stored
  simp [updateEntry, modifyNode, storedNode, same]

/-- An edit that leaves the stored entry as it is leaves the table as it is. -/
theorem updateEntry_of_fixed {F P : Type} {ht : Hashtable F P M S} {id : NodeId}
    {f : Entry F P M S → Entry F P M S} {e : Entry F P M S}
    (stored : entries ht.nodes id = some e) (fixed : f e = e) : updateEntry id f ht = ht := by
  obtain ⟨n, storedNode, rfl⟩ := Option.map_eq_some_iff.mp stored
  have same : modifyNode ht.nodes id (fun n => { n with entry := f n.entry }) = ht.nodes := by
    rw [modifyNode, storedNode, Option.map_some, fixed, ← storedNode]
    exact Function.update_eq_self _ _
  simp only [updateEntry, same]

theorem fibEntryAt_eq {P : Type} {nt : NameTree Fib.Entry P M S} {nte : NodeId} :
    Fib.fibEntryAt nt nte = (entries nt.ht.nodes nte).bind Entry.fibEntry := by
  cases stored : nt.ht.nodes nte <;> simp [Fib.fibEntryAt, entries, stored]

/-- With the faces of its next hops distinct, `Entry::removeNextHop` removes every next hop of
the face. -/
theorem removeNextHop_eq_filter {fe : Fib.Entry} (distinct : fe.FacesDistinct) (face : Nat) :
    fe.removeNextHop face =
      ({ fe with nextHops := fe.nextHops.filter fun nh => nh.face != face }, fe.hasNextHop face) := by
  have erased : fe.nextHops.eraseP (fun nh => nh.face == face) =
      fe.nextHops.filter fun nh => nh.face != face :=
    Fw.eraseP_key_eq_filter Fib.NextHop.face distinct face
  rw [List.eraseP_eq_eraseIdx] at erased
  unfold Fib.Entry.removeNextHop Fib.Entry.hasNextHop
  split
  · rename_i missing
    rw [missing] at erased
    have absent : fe.nextHops.any (fun nh => nh.face == face) = false :=
      List.any_eq_false.mpr fun nh mem => by simpa using List.findIdx?_eq_none_iff.mp missing nh mem
    rw [← erased, absent]
  · rename_i i found
    rw [found] at erased
    dsimp only at erased
    obtain ⟨within, hit, -⟩ := List.findIdx?_eq_some_iff_getElem.mp found
    have present : fe.nextHops.any (fun nh => nh.face == face) = true :=
      List.any_eq_true.mpr ⟨_, List.getElem_mem within, hit⟩
    rw [erased, present]

/-- With distinct faces, `face` is the only next hop exactly when it has one and no other. -/
theorem map_face_eq_singleton_iff {fe : Fib.Entry} (distinct : fe.FacesDistinct) (face : Nat) :
    fe.nextHops.map Fib.NextHop.face = [face] ↔
      fe.hasNextHop face = true ∧ fe.nextHops.filter (fun nh => nh.face != face) = [] := by
  unfold Fib.Entry.hasNextHop
  constructor
  · intro only
    obtain ⟨nh, single, onFace⟩ : ∃ nh, fe.nextHops = [nh] ∧ nh.face = face := by
      rcases List.map_eq_singleton_iff.mp only with ⟨nh, single, onFace⟩
      exact ⟨nh, single, onFace⟩
    simp [single, onFace]
  · rintro ⟨present, noOther⟩
    have allOnFace : ∀ nh ∈ fe.nextHops, nh.face = face := by
      intro nh mem
      simpa using List.filter_eq_nil_iff.mp noOther nh mem
    obtain ⟨nh, mem, -⟩ := List.any_eq_true.mp present
    -- the faces are all `face`, and distinct, so there is one next hop
    have faces : fe.nextHops.map Fib.NextHop.face = List.replicate fe.nextHops.length face := by
      rw [List.eq_replicate_iff]
      exact ⟨List.length_map _, fun x member => by
        obtain ⟨nh', mem', rfl⟩ := List.mem_map.mp member
        exact allOnFace nh' mem'⟩
    have single : fe.nextHops.length = 1 := by
      have nodup : (List.replicate fe.nextHops.length face).Nodup := by
        rw [← faces]
        exact distinct
      have positive := List.length_pos_of_mem mem
      rw [List.nodup_replicate] at nodup
      omega
    rw [faces, single, List.replicate_one]

/-- `Fib::removeNextHop` on a FIB entry of distinct faces leaves `fibEntryWithout`, and counts
the erased FIB entry off `m_nItems`. -/
theorem removeNextHop_eq_without {tables : Tables M S} {nte : NodeId} {fe : Fib.Entry}
    (found : Fib.fibEntryAt tables.nameTree nte = some fe) (distinct : fe.FacesDistinct) (face : Nat) :
    tables.removeNextHop nte face =
      { nameTree := ⟨updateEntry nte (Entry.setFibEntry (fibEntryWithout face fe)) tables.nameTree.ht⟩
        nItems := tables.nItems - if fe.nextHops.map Fib.NextHop.face = [face] then 1 else 0 } := by
  unfold Fib.removeNextHop
  rw [found]
  dsimp only
  rw [removeNextHop_eq_filter distinct face]
  dsimp only
  by_cases only : fe.nextHops.map Fib.NextHop.face = [face]
  · -- the face was the only next hop: the FIB entry is set, then erased
    obtain ⟨present, noOther⟩ := (map_face_eq_singleton_iff distinct face).mp only
    have emptied : ({ fe with nextHops := fe.nextHops.filter fun nh => nh.face != face } : Fib.Entry).hasNextHops =
        false := by
      simp [Fib.Entry.hasNextHops, noOther]
    rw [if_pos only, present, emptied]
    simp only [Bool.not_true, Bool.false_eq_true, if_false, Bool.not_false, if_true,
      Fib.eraseEntry, fibEntryWithout, if_pos only, updateEntry_updateEntry]
    rfl
  · have kept : fibEntryWithout face fe = some { fe with nextHops := fe.nextHops.filter fun nh => nh.face != face } :=
      if_neg only
    rw [if_neg only, kept, sub_zero]
    cases present : fe.hasNextHop face
    · rfl
    · have remaining : ({ fe with nextHops := fe.nextHops.filter fun nh => nh.face != face } : Fib.Entry).hasNextHops =
          true := by
        have notAlone := mt (map_face_eq_singleton_iff distinct face).mpr only
        simp only [present, true_and] at notAlone
        simpa [Fib.Entry.hasNextHops] using notAlone
      simp only [Bool.not_true, Bool.false_eq_true, if_false, remaining, Bool.not_true]

theorem deleteInOutRecords_of_unique {pe : Fw.PitEntry} (unique : pe.RecordsUnique) (face : Fw.Face) :
    deleteInOutRecords face pe = pitEntryWithout face.id pe := by
  unfold deleteInOutRecords
  rw [Fw.PitEntry.deleteInRecord_eq unique]
  have outUnique : (pe.deleteInRecord face).RecordsUnique := unique.deleteInRecord face
  rw [Fw.PitEntry.deleteInRecord_eq unique] at outUnique
  unfold Fw.PitEntry.deleteOutRecord
  rw [Fw.eraseP_key_eq_filter (fun r : Fw.OutRecord => r.face.id) outUnique.outRecords face.id]
  rfl

/-- One round of the first loop: the entry at `nte` becomes `entryWithout`, `m_nItems` loses the
FIB entry whose only next hop was the face, and `nte` is recorded when it is left without table
entries. -/
theorem visitEntry_eq (face : Fw.Face) (tables : Tables M S) (maybeEmptyNtes : List (Nat × NodeId))
    {nte : NodeId} {e : Entry Fib.Entry Fw.PitEntry M S}
    (stored : entries tables.nameTree.ht.nodes nte = some e) (ok : EntryOk e) :
    visitEntry face (tables, maybeEmptyNtes) nte =
      ({ nameTree := ⟨updateEntry nte (entryWithout face.id) tables.nameTree.ht⟩
         nItems := tables.nItems -
           if e.fibEntry.any fun fe => decide (fe.nextHops.map Fib.NextHop.face = [face.id]) then 1 else 0 },
       if (entryWithout face.id e).hasTableEntries then maybeEmptyNtes
       else SortedMultimap.emplace e.name.length nte maybeEmptyNtes) := by
  have records : e.pitEntries.map (deleteInOutRecords face) = e.pitEntries.map (pitEntryWithout face.id) :=
    List.map_congr_left fun pe member => deleteInOutRecords_of_unique (ok.recordsUnique pe member) face
  -- the tables after both edits of the entry at `nte`
  have edited : (if (Fib.fibEntryAt tables.nameTree nte).isSome then tables.removeNextHop nte face.id
      else tables) =
        { nameTree := ⟨updateEntry nte (Entry.setFibEntry (e.fibEntry.bind (fibEntryWithout face.id)))
            tables.nameTree.ht⟩
          nItems := tables.nItems -
            if e.fibEntry.any fun fe => decide (fe.nextHops.map Fib.NextHop.face = [face.id]) then 1 else 0 } := by
    rw [fibEntryAt_eq, stored, Option.bind_some]
    cases holds : e.fibEntry with
    | none =>
        have unchanged : updateEntry nte (Entry.setFibEntry none) tables.nameTree.ht = tables.nameTree.ht :=
          updateEntry_of_fixed stored (by rw [Entry.setFibEntry, ← holds])
        simp [unchanged]
    | some fe =>
        have found : Fib.fibEntryAt tables.nameTree nte = some fe := by rw [fibEntryAt_eq, stored]; exact holds
        simp only [Option.isSome_some, if_true, Option.bind_some, Option.any_some, decide_eq_true_eq]
        exact removeNextHop_eq_without found (ok.facesDistinct fe holds) face.id
  have written : updateEntry nte (fun e => { e with pitEntries := e.pitEntries.map (deleteInOutRecords face) })
      (updateEntry nte (Entry.setFibEntry (e.fibEntry.bind (fibEntryWithout face.id))) tables.nameTree.ht) =
        updateEntry nte (entryWithout face.id) tables.nameTree.ht := by
    rw [updateEntry_updateEntry]
    exact updateEntry_congr stored (by simp [Entry.setFibEntry, entryWithout, records])
  have storedAfter : entries (updateEntry nte (entryWithout face.id) tables.nameTree.ht).nodes nte =
      some (entryWithout face.id e) := by
    simp [stored]
  unfold visitEntry
  dsimp only
  rw [edited]
  dsimp only
  rw [written, storedAfter]
  dsimp only
  cases (entryWithout face.id e).hasTableEntries <;> rfl

end Round

section FirstLoop

theorem facesDistinct_fibEntryWithout {fe : Fib.Entry} (distinct : fe.FacesDistinct) (face : Nat) :
    ∀ fe' ∈ fibEntryWithout face fe, fe'.FacesDistinct := by
  intro fe' without
  unfold fibEntryWithout at without
  split at without
  · cases without
  · cases without
    exact distinct.sublist (List.filter_sublist.map _)

theorem EntryOk.entryWithout {e : Entry Fib.Entry Fw.PitEntry M S} (ok : EntryOk e) (face : Nat) :
    EntryOk (entryWithout face e) := by
  constructor
  · intro fe' member
    obtain ⟨fe, held, without⟩ := Option.bind_eq_some_iff.mp member
    exact facesDistinct_fibEntryWithout (ok.facesDistinct fe held) face fe' without
  · intro pe' member
    obtain ⟨pe, held, rfl⟩ := List.mem_map.mp member
    have unique := ok.recordsUnique pe held
    exact ⟨unique.inRecords.sublist (List.filter_sublist.map _),
      unique.outRecords.sublist (List.filter_sublist.map _)⟩

theorem keepsTree_entryWithout (face : Nat) : KeepsTree (entryWithout (M := M) (S := S) face) :=
  fun _ => ⟨rfl, rfl, rfl⟩

/-- Editing each entry of a list of distinct addresses in turn edits exactly those. -/
theorem entries_foldl_updateEntry {F P : Type} (g : Entry F P M S → Entry F P M S) :
    ∀ (l : List NodeId) (ht : Hashtable F P M S), l.Nodup →
      entries (l.foldl (fun ht y => updateEntry y g ht) ht).nodes =
        fun y => if y ∈ l then (entries ht.nodes y).map g else entries ht.nodes y
  | [], ht, _ => by simp
  | y0 :: rest, ht, distinct => by
      rw [List.nodup_cons] at distinct
      rw [List.foldl_cons, entries_foldl_updateEntry g rest _ distinct.2]
      funext y
      by_cases later : y ∈ rest
      · have other : y ≠ y0 := fun same => distinct.1 (same ▸ later)
        simp [later, other]
      · by_cases first : y = y0
        · subst first
          simp [later]
        · simp [later, first]

theorem valid_foldl_updateEntry {F P : Type} {componentHash : Component → HashValue}
    {g : Entry F P M S → Entry F P M S} (keeps : KeepsTree g) :
    ∀ (l : List NodeId) {ht : Hashtable F P M S}, Valid componentHash ht →
      Valid componentHash (l.foldl (fun ht y => updateEntry y g ht) ht)
  | [], _, valid => valid
  | y :: rest, _, valid => valid_foldl_updateEntry keeps rest (valid.updateEntry y keeps)

/-- An edit of one entry that keeps `EntryOk` keeps every entry `EntryOk`. -/
theorem entryOk_updateEntry {ht : Hashtable Fib.Entry Fw.PitEntry M S}
    (ok : ∀ y e, entries ht.nodes y = some e → EntryOk e) (y0 : NodeId)
    {f : Entry Fib.Entry Fw.PitEntry M S → Entry Fib.Entry Fw.PitEntry M S} (keepsOk : ∀ e, EntryOk e → EntryOk (f e)) :
    ∀ y e, entries (updateEntry y0 f ht).nodes y = some e → EntryOk e :=
  forall_updateEntry _ ok y0 keepsOk

theorem isSome_entries_updateEntry {F P : Type} (ht : Hashtable F P M S) (y0 : NodeId)
    (g : Entry F P M S → Entry F P M S) (y : NodeId) :
    (entries (updateEntry y0 g ht).nodes y).isSome = (entries ht.nodes y).isSome := by
  by_cases same : y = y0
  · subst same
    simp
  · simp [Function.update_of_ne same]

/-- The run of the first loop over distinct entries it finds in the tree: each becomes
`entryWithout`, and `m_nItems` loses the FIB entries whose only next hop was the face. -/
theorem foldl_visitEntry_fst (face : Fw.Face) :
    ∀ (l : List NodeId) (tables : Tables M S) (maybeEmptyNtes : List (Nat × NodeId)), l.Nodup →
      (∀ y ∈ l, (entries tables.nameTree.ht.nodes y).isSome) →
      (∀ y e, entries tables.nameTree.ht.nodes y = some e → EntryOk e) →
      (l.foldl (visitEntry face) (tables, maybeEmptyNtes)).1 =
        { nameTree := ⟨l.foldl (fun ht y => updateEntry y (entryWithout face.id) ht) tables.nameTree.ht⟩
          nItems := tables.nItems - Fin.ofNat Fib.sizeBound (l.filter fun y => (Fib.fibEntryAt tables.nameTree y).any
            fun fe => decide (fe.nextHops.map Fib.NextHop.face = [face.id])).length }
  | [], tables, _, _, _, _ => by simp
  | y0 :: rest, tables, maybeEmptyNtes, distinct, stored, ok => by
      rw [List.nodup_cons] at distinct
      obtain ⟨e0, stored0⟩ := Option.isSome_iff_exists.mp (stored y0 List.mem_cons_self)
      rw [List.foldl_cons, visitEntry_eq face tables maybeEmptyNtes stored0 (ok y0 e0 stored0)]
      -- the round leaves the FIB entries of the other addresses alone
      have others : ∀ y ∈ rest, Fib.fibEntryAt (⟨updateEntry y0 (entryWithout face.id) tables.nameTree.ht⟩ :
          NameTree Fib.Entry Fw.PitEntry M S) y = Fib.fibEntryAt tables.nameTree y := by
        intro y member
        have other : y ≠ y0 := fun same => distinct.1 (same ▸ member)
        simp only [fibEntryAt_eq, entries_updateEntry, Function.update_of_ne other]
      rw [foldl_visitEntry_fst face rest _ _ distinct.2
        (fun y member => by
          rw [isSome_entries_updateEntry]
          exact stored y (List.mem_cons_of_mem y0 member))
        (entryOk_updateEntry ok y0 fun _ ok => ok.entryWithout face.id), List.filter_congr fun y member => by rw [others y member]]
      have count0 : (Fib.fibEntryAt tables.nameTree y0).any
          (fun fe => decide (fe.nextHops.map Fib.NextHop.face = [face.id])) =
            e0.fibEntry.any fun fe => decide (fe.nextHops.map Fib.NextHop.face = [face.id]) := by
        rw [fibEntryAt_eq, stored0, Option.bind_some]
      simp only [List.filter_cons, count0, List.foldl_cons]
      -- the round counts its own FIB entry off when the face was its only next hop
      split
      · rw [List.length_cons, Fib.sub_one_sub_ofNat]
      · rw [sub_zero]

/-- A round emplaces at most its own entry. -/
theorem visitEntry_snd (face : Fw.Face) (state : Tables M S × List (Nat × NodeId)) (nte : NodeId) :
    (visitEntry face state nte).2 = state.2 ∨
      ∃ k, (visitEntry face state nte).2 = SortedMultimap.emplace k nte state.2 := by
  obtain ⟨tables, maybeEmptyNtes⟩ := state
  unfold visitEntry
  dsimp only
  split
  · split
    · exact .inr ⟨_, rfl⟩
    · exact .inl rfl
  · exact .inl rfl

/-- The multimap keeps its keys ascending through the first loop. -/
theorem pairwise_foldl_visitEntry (face : Fw.Face) :
    ∀ (l : List NodeId) (state : Tables M S × List (Nat × NodeId)),
      state.2.Pairwise (fun a b => a.1 ≤ b.1) →
      (l.foldl (visitEntry face) state).2.Pairwise (fun a b => a.1 ≤ b.1)
  | [], _, sorted => sorted
  | nte :: rest, state, sorted => by
      rw [List.foldl_cons]
      refine pairwise_foldl_visitEntry face rest _ ?_
      rcases visitEntry_snd face state nte with same | ⟨k, emplaced⟩
      · rwa [same]
      · rw [emplaced]
        exact SortedMultimap.pairwise_emplace k nte sorted

/-- What the first loop records: the entries it leaves without table entries, under the lengths
of their names. -/
theorem mem_foldl_visitEntry (face : Fw.Face) :
    ∀ (l : List NodeId) (tables : Tables M S) (maybeEmptyNtes : List (Nat × NodeId)), l.Nodup →
      (∀ y ∈ l, (entries tables.nameTree.ht.nodes y).isSome) →
      (∀ y e, entries tables.nameTree.ht.nodes y = some e → EntryOk e) →
      ∀ r, r ∈ (l.foldl (visitEntry face) (tables, maybeEmptyNtes)).2 ↔ r ∈ maybeEmptyNtes ∨
        r.2 ∈ l ∧ ∃ e, entries (l.foldl (fun ht y => updateEntry y (entryWithout face.id) ht)
          tables.nameTree.ht).nodes r.2 = some e ∧ e.hasTableEntries = false ∧ r.1 = e.name.length
  | [], _, _, _, _, _ => by simp
  | y0 :: rest, tables, maybeEmptyNtes, distinct, stored, ok => by
      have distinctAll := distinct
      rw [List.nodup_cons] at distinct
      obtain ⟨e0, stored0⟩ := Option.isSome_iff_exists.mp (stored y0 List.mem_cons_self)
      intro r
      rw [List.foldl_cons, visitEntry_eq face tables maybeEmptyNtes stored0 (ok y0 e0 stored0)]
      rw [mem_foldl_visitEntry face rest _ _ distinct.2
        (fun y member => by
          rw [isSome_entries_updateEntry]
          exact stored y (List.mem_cons_of_mem y0 member))
        (entryOk_updateEntry ok y0 fun _ ok => ok.entryWithout face.id)]
      -- the last state holds the round's entry at `y0`, which no later round edits
      have final0 : entries ((y0 :: rest).foldl (fun ht y => updateEntry y (entryWithout face.id) ht)
          tables.nameTree.ht).nodes y0 = some (entryWithout face.id e0) := by
        rw [entries_foldl_updateEntry _ _ _ distinctAll]
        simp [stored0]
      rw [List.foldl_cons] at final0 ⊢
      constructor
      · rintro (recorded | ⟨later, rest'⟩)
        · split at recorded
          · exact .inl recorded
          · rename_i noTables
            rcases SortedMultimap.mem_emplace.mp recorded with rfl | earlier
            · exact .inr ⟨List.mem_cons_self, _, final0, by simpa using noTables, rfl⟩
            · exact .inl earlier
        · exact .inr ⟨List.mem_cons_of_mem y0 later, rest'⟩
      · rintro (earlier | ⟨member, e, final, noTables, key⟩)
        · left
          split
          · exact earlier
          · exact SortedMultimap.mem_emplace.mpr (.inr earlier)
        · rcases List.mem_cons.mp member with first | later
          · -- `y0` itself: the round emplaced it
            left
            rw [first, final0, Option.some.injEq] at final
            subst final
            rw [if_neg (by simp [noTables])]
            exact SortedMultimap.mem_emplace.mpr (.inl (Prod.ext key first))
          · exact .inr ⟨later, e, final, noTables, key⟩

end FirstLoop

section SecondLoop

variable {componentHash : Component → HashValue}

/-- `eraseIfEmpty(x, false)` leaves the tree alone when `x` holds no entry or a non-empty one. -/
theorem eraseIfEmpty_false_of_kept {F P : Type} (nt : NameTree F P M S) {x : NodeId}
    (kept : ∀ e, entries nt.ht.nodes x = some e → e.isEmpty = false) :
    (nt.eraseIfEmpty x false).2 = nt := by
  cases stored : nt.ht.nodes x with
  | none => simp [NameTree.eraseIfEmpty, NameTree.eraseIfEmptyLoop, stored]
  | some n =>
      have notEmpty : n.entry.isEmpty = false := kept n.entry (by simp [entries, stored])
      simp [NameTree.eraseIfEmpty, NameTree.eraseIfEmptyLoop, stored, notEmpty]

theorem eraseIfEmpty_false_of_empty {F P : Type} (nt : NameTree F P M S) {x : NodeId} {n : Node F P M S}
    (storedNode : nt.ht.nodes x = some n) (empty : n.entry.isEmpty = true) :
    (nt.eraseIfEmpty x false).2.ht = (if n.entry.parent.isSome then unsetParent x nt.ht else nt.ht).erase x := by
  simp [NameTree.eraseIfEmpty, NameTree.eraseIfEmptyLoop, storedNode, empty]

/-- `eraseIfEmpty(x, false)` on an empty entry without a parent erases it. -/
theorem entries_eraseIfEmpty_false_root {F P : Type} {nt : NameTree F P M S} {x : NodeId}
    {e : Entry F P M S} (stored : entries nt.ht.nodes x = some e) (empty : e.isEmpty = true)
    (noParent : e.parent = none) :
    entries (nt.eraseIfEmpty x false).2.ht.nodes = Function.update (entries nt.ht.nodes) x none := by
  obtain ⟨n, storedNode, rfl⟩ := Option.map_eq_some_iff.mp stored
  rw [eraseIfEmpty_false_of_empty nt storedNode empty, entries_erase, noParent]
  rfl

/-- `eraseIfEmpty(x, false)` on an empty entry with a parent takes it off its parent's children
and erases it. -/
theorem entries_eraseIfEmpty_false_child {F P : Type} {nt : NameTree F P M S}
    (valid : Valid componentHash nt.ht) {x p : NodeId} {e : Entry F P M S}
    (stored : entries nt.ht.nodes x = some e) (empty : e.isEmpty = true) (hasParent : e.parent = some p) :
    entries (nt.eraseIfEmpty x false).2.ht.nodes =
      Function.update (Function.update (entries nt.ht.nodes) p
        ((entries nt.ht.nodes p).map fun ep => { ep with children := ep.children.erase x })) x none := by
  obtain ⟨n, storedNode, rfl⟩ := Option.map_eq_some_iff.mp stored
  obtain ⟨ep, storedP, -, -⟩ := valid.shape.parent_entry stored hasParent
  have xNotP := valid.shape.ne_parent_of_leaf stored (Entry.children_of_isEmpty empty) hasParent
  rw [eraseIfEmpty_false_of_empty nt storedNode empty, entries_erase, hasParent, Option.isSome_some,
    if_pos rfl, entries_unsetParent nt.ht xNotP storedNode hasParent storedP, Function.update_idem, storedP,
    Option.map_some]

/-- A round of the second loop keeps the name and the table entries of every entry it leaves. -/
theorem entries_eraseRecorded {tables : Tables M S} (valid : Valid componentHash tables.nameTree.ht)
    (r : Nat × NodeId) {y : NodeId} {e' : Entry Fib.Entry Fw.PitEntry M S}
    (stored : entries (eraseRecorded tables r).nameTree.ht.nodes y = some e') :
    ∃ e, entries tables.nameTree.ht.nodes y = some e ∧ e'.name = e.name ∧ e'.tables = e.tables := by
  by_cases erased : ∃ e, entries tables.nameTree.ht.nodes r.2 = some e ∧ e.isEmpty = true
  · obtain ⟨e, storedR, empty⟩ := erased
    rw [eraseRecorded] at stored
    cases hasParent : e.parent with
    | none =>
        rw [entries_eraseIfEmpty_false_root storedR empty hasParent, update_eq_some_iff] at stored
        rcases stored with ⟨-, gone⟩ | ⟨-, stored⟩
        · cases gone
        · exact ⟨e', stored, rfl, rfl⟩
    | some p =>
        rw [entries_eraseIfEmpty_false_child valid storedR empty hasParent, update_eq_some_iff,
          update_eq_some_iff] at stored
        rcases stored with ⟨-, gone⟩ | ⟨-, ⟨isParent, unlinked⟩ | ⟨-, stored⟩⟩
        · cases gone
        · obtain ⟨ep, storedP, rfl⟩ := Option.map_eq_some_iff.mp unlinked
          exact ⟨ep, by rwa [isParent], rfl, rfl⟩
        · exact ⟨e', stored, rfl, rfl⟩
  · have kept : ∀ e, entries tables.nameTree.ht.nodes r.2 = some e → e.isEmpty = false := by
      intro e storedR
      simpa using fun empty => erased ⟨e, storedR, empty⟩
    rw [eraseRecorded, eraseIfEmpty_false_of_kept _ kept] at stored
    exact ⟨e', stored, rfl, rfl⟩

theorem valid_eraseRecorded {tables : Tables M S} (valid : Valid componentHash tables.nameTree.ht)
    (r : Nat × NodeId) : Valid componentHash (eraseRecorded tables r).nameTree.ht :=
  valid.eraseIfEmpty r.2 false

theorem valid_foldl_eraseRecorded :
    ∀ (R : List (Nat × NodeId)) {tables : Tables M S}, Valid componentHash tables.nameTree.ht →
      Valid componentHash (R.foldl eraseRecorded tables).nameTree.ht
  | [], _, valid => valid
  | r :: rest, _, valid => valid_foldl_eraseRecorded rest (valid_eraseRecorded valid r)

theorem entries_foldl_eraseRecorded :
    ∀ (R : List (Nat × NodeId)) {tables : Tables M S}, Valid componentHash tables.nameTree.ht →
      ∀ {y : NodeId} {e' : Entry Fib.Entry Fw.PitEntry M S},
        entries (R.foldl eraseRecorded tables).nameTree.ht.nodes y = some e' →
        ∃ e, entries tables.nameTree.ht.nodes y = some e ∧ e'.name = e.name ∧ e'.tables = e.tables
  | [], _, _, _, e', stored => ⟨e', stored, rfl, rfl⟩
  | r :: rest, _, valid, _, _, stored => by
      obtain ⟨e1, stored1, named1, tables1⟩ :=
        entries_foldl_eraseRecorded rest (valid_eraseRecorded valid r) stored
      obtain ⟨e, stored0, named0, tables0⟩ := entries_eraseRecorded valid r stored1
      exact ⟨e, stored0, named1.trans named0, tables1.trans tables0⟩

theorem tablesView_foldl_eraseRecorded :
    ∀ (R : List (Nat × NodeId)) (tables : Tables M S),
      tablesView (entries (R.foldl eraseRecorded tables).nameTree.ht.nodes) =
        tablesView (entries tables.nameTree.ht.nodes)
  | [], _ => rfl
  | r :: rest, tables => by
      rw [List.foldl_cons, tablesView_foldl_eraseRecorded rest]
      exact tablesView_eraseIfEmpty tables.nameTree r.2 false

theorem nItems_foldl_eraseRecorded :
    ∀ (R : List (Nat × NodeId)) (tables : Tables M S), (R.foldl eraseRecorded tables).nItems = tables.nItems
  | [], _ => rfl
  | r :: rest, tables => nItems_foldl_eraseRecorded rest (eraseRecorded tables r)

/-- The second loop leaves no recorded entry empty.  It reads the records longest names first, so
when it checks an entry the entries recorded before it have names at least as long, and none of
them is its parent: the entries it keeps stay non-empty, whatever is erased after them. -/
theorem foldl_eraseRecorded_nonEmpty :
    ∀ (R P : List (Nat × NodeId)) (tables : Tables M S), Valid componentHash tables.nameTree.ht →
      (P ++ R).Pairwise (fun a b => b.1 ≤ a.1) →
      (∀ r ∈ P ++ R, ∀ e, entries tables.nameTree.ht.nodes r.2 = some e → r.1 = e.name.length) →
      (∀ r ∈ P, ∀ e, entries tables.nameTree.ht.nodes r.2 = some e → e.isEmpty = false) →
      ∀ r ∈ P ++ R, ∀ e, entries (R.foldl eraseRecorded tables).nameTree.ht.nodes r.2 = some e →
        e.isEmpty = false
  | [], P, _, _, _, _, kept => by simpa using kept
  | z :: rest, P, tables, valid, sorted, keyed, kept => by
      have order : (P ++ [z]) ++ rest = P ++ z :: rest := by simp
      rw [List.foldl_cons, ← order]
      refine foldl_eraseRecorded_nonEmpty rest (P ++ [z]) _ (valid_eraseRecorded valid z) (order ▸ sorted)
        (fun r member e stored => ?_) (fun r member e stored => ?_)
      · -- names are kept, so the keys still are the lengths of the names
        obtain ⟨e0, stored0, named, -⟩ := entries_eraseRecorded valid z stored
        rw [named]
        exact keyed r (order ▸ member) e0 stored0
      · by_cases erased : ∃ ez, entries tables.nameTree.ht.nodes z.2 = some ez ∧ ez.isEmpty = true
        · obtain ⟨ez, storedZ, empty⟩ := erased
          -- `z` is erased: what else changes is its parent's list of children
          have notZ : r.2 ≠ z.2 := by
            intro same
            rw [same, eraseRecorded] at stored
            cases hasParent : ez.parent with
            | none => simp [entries_eraseIfEmpty_false_root storedZ empty hasParent] at stored
            | some p => simp [entries_eraseIfEmpty_false_child valid storedZ empty hasParent] at stored
          have before : r ∈ P := by
            rcases List.mem_append.mp member with inP | isZ
            · exact inP
            · exact absurd (congrArg Prod.snd (List.mem_singleton.mp isZ)) notZ
          rw [eraseRecorded] at stored
          cases hasParent : ez.parent with
          | none =>
              rw [entries_eraseIfEmpty_false_root storedZ empty hasParent, Function.update_of_ne notZ] at stored
              exact kept r before e stored
          | some p =>
              rw [entries_eraseIfEmpty_false_child valid storedZ empty hasParent, Function.update_of_ne notZ,
                update_eq_some_iff] at stored
              rcases stored with ⟨isParent, -⟩ | ⟨-, stored⟩
              · -- the parent of `z` has a shorter name, so it comes after `z`
                exfalso
                obtain ⟨ep, storedP, named, -⟩ := valid.shape.parent_entry storedZ hasParent
                have nonRoot :=
                  List.length_pos_of_ne_nil (valid.shape.name_ne_nil_of_parent storedZ hasParent)
                have keyP := keyed r (List.mem_append_left _ before) ep (isParent ▸ storedP)
                have keyZ := keyed z (List.mem_append_right _ List.mem_cons_self) ez storedZ
                have ordered := (List.pairwise_append.mp sorted).2.2 r before z List.mem_cons_self
                rw [named, List.length_dropLast] at keyP
                omega
              · exact kept r before e stored
        · have unchanged := eraseIfEmpty_false_of_kept tables.nameTree fun e storedZ => by
            simpa using fun empty => erased ⟨e, storedZ, empty⟩
          rw [eraseRecorded, unchanged] at stored
          rcases List.mem_append.mp member with inP | isZ
          · exact kept r inP e stored
          · rw [List.mem_singleton.mp isZ] at stored
            simpa using fun empty => erased ⟨e, stored, empty⟩

end SecondLoop

section Views

variable {F P : Type}

theorem Entry.fibEntry_of_hasTableEntries {e : Entry F P M S} (holdsNone : e.hasTableEntries = false) :
    e.fibEntry = none := by
  cases held : e.fibEntry with
  | none => rfl
  | some _ => simp [Entry.hasTableEntries, held] at holdsNone

theorem Entry.isEmpty_of_hasTableEntries {e : Entry F P M S} (holds : e.hasTableEntries = true) :
    e.isEmpty = false := by
  simp [Entry.isEmpty, holds]

/-- The FIB entry at each address is part of what the tables see. -/
theorem fibEntry_of_tablesView {E E' : NodeId → Option (Entry F P M S)} (same : tablesView E' = tablesView E)
    (id : NodeId) : (E' id).bind Entry.fibEntry = (E id).bind Entry.fibEntry := by
  have throughView : ∀ E : NodeId → Option (Entry F P M S),
      (E id).bind Entry.fibEntry = (tablesView E id).bind fun v => v.2.1 := by
    intro E
    cases stored : E id with
    | none => simp [tablesView, stored]
    | some e =>
        cases holds : e.hasTableEntries
        · simp [tablesView, stored, holds, Entry.fibEntry_of_hasTableEntries holds]
        · simp [tablesView, stored, holds, Entry.tables]
  rw [throughView E', throughView E, same]

end Views

section Whole

variable {componentHash : Component → HashValue}

/-- What every reachable state of the tables keeps: a well-formed name tree whose entries are
all `EntryOk`. -/
structure Invariant (componentHash : Component → HashValue) (nt : NameTree Fib.Entry Fw.PitEntry M S) :
    Prop where
  valid : Valid componentHash nt.ht
  entryOk : ∀ y e, entries nt.ht.nodes y = some e → EntryOk e

/-- The full enumeration of a well-formed tree visits each of its entries once. -/
theorem fullEnumerate_any {F P : Type} {nt : NameTree F P M S} (valid : Valid componentHash nt.ht) :
    ∃ visited, nt.fullEnumerate (fun _ => true) = some visited ∧ visited.Nodup ∧
      ∀ y, y ∈ visited ↔ (entries nt.ht.nodes y).isSome := by
  obtain ⟨chains, layout⟩ := valid.layout
  refine ⟨_, layout.fullEnumerate_eq _, layout.toPlaced.nodup_flatten.filter _, fun y => ?_⟩
  rw [List.mem_filter, layout.mem_flatten_iff_stored, selectedNode_eq_true_iff]
  cases stored : nt.ht.nodes y <;> simp [entries, stored]

/-- A count over the entries the enumeration visits is the count over the allocated addresses. -/
theorem length_filter_visited {visited : List NodeId} (distinct : visited.Nodup) {N : Nat}
    {p : NodeId → Bool} (visitedIf : ∀ y, p y = true → y ∈ visited) (belowIf : ∀ y, p y = true → y < N) :
    (visited.filter p).length = ((List.range N).filter p).length := by
  refine ((List.perm_ext_iff_of_nodup (distinct.filter p) ((List.nodup_range).filter p)).mpr
    fun y => ?_).length_eq
  rw [List.mem_filter, List.mem_filter, List.mem_range]
  exact ⟨fun ⟨_, holds⟩ => ⟨belowIf y holds, holds⟩, fun ⟨_, holds⟩ => ⟨visitedIf y holds, holds⟩⟩

/-- The whole cleanup, from a state that keeps the invariant: the tables see every entry as
`entryWithout` leaves it, `m_nItems` loses the FIB entries whose only next hop was the face, no
entry is left empty, and the tree stays well formed. -/
theorem cleanupOnFaceRemoval_eq {tables : Tables M S} (inv : Invariant componentHash tables.nameTree)
    (face : Fw.Face) :
    Valid componentHash (cleanupOnFaceRemoval face tables).nameTree.ht ∧
      tablesView (entries (cleanupOnFaceRemoval face tables).nameTree.ht.nodes) =
        tablesView (fun y => (entries tables.nameTree.ht.nodes y).map (entryWithout face.id)) ∧
      (cleanupOnFaceRemoval face tables).nItems = tables.nItems -
        Fin.ofNat Fib.sizeBound ((List.range tables.nameTree.ht.nextNodeId).filter fun nte =>
          (Fib.fibEntryAt tables.nameTree nte).any fun fe => decide (fe.nextHops.map Fib.NextHop.face = [face.id])).length ∧
      ∀ y e, entries (cleanupOnFaceRemoval face tables).nameTree.ht.nodes y = some e → e.isEmpty = false := by
  obtain ⟨visited, enumerated, distinct, members⟩ := fullEnumerate_any inv.valid
  have storedAll : ∀ y ∈ visited, (entries tables.nameTree.ht.nodes y).isSome := fun y member =>
    (members y).mp member
  have first := foldl_visitEntry_fst face visited tables [] distinct storedAll inv.entryOk
  have recorded := mem_foldl_visitEntry face visited tables [] distinct storedAll inv.entryOk
  have sorted := pairwise_foldl_visitEntry face visited (tables, []) List.Pairwise.nil
  -- the first loop edits every entry of the tree
  have entries1 : entries (visited.foldl (fun ht y => updateEntry y (entryWithout face.id) ht)
      tables.nameTree.ht).nodes = fun y => (entries tables.nameTree.ht.nodes y).map (entryWithout face.id) := by
    rw [entries_foldl_updateEntry _ _ _ distinct]
    funext y
    by_cases member : y ∈ visited
    · rw [if_pos member]
    · have absent : entries tables.nameTree.ht.nodes y = none := by
        simpa using mt (members y).mpr member
      rw [if_neg member, absent, Option.map_none]
  have valid1 := valid_foldl_updateEntry (keepsTree_entryWithout face.id) visited inv.valid
  unfold cleanupOnFaceRemoval
  rw [enumerated, Option.getD_some]
  dsimp only
  rw [first]
  generalize (visited.foldl (visitEntry face) (tables, [])).2 = maybeEmptyNtes at recorded sorted ⊢
  simp only [List.not_mem_nil, false_or, entries1] at recorded
  refine ⟨valid_foldl_eraseRecorded _ valid1, ?_, ?_, fun y e stored => ?_⟩
  · rw [tablesView_foldl_eraseRecorded, entries1]
  · -- the FIB entries counted off are those of the entries the enumeration visits
    rw [nItems_foldl_eraseRecorded]
    obtain ⟨chains, layout⟩ := inv.valid.layout
    dsimp only
    congr 2
    refine length_filter_visited distinct (fun y only => ?_) (fun y only => ?_)
    · obtain ⟨fe, found, -⟩ := (Option.any_eq_true _ _).mp only
      rw [fibEntryAt_eq, Option.bind_eq_some_iff] at found
      obtain ⟨e, storedY, -⟩ := found
      exact (members y).mpr (by rw [storedY]; rfl)
    · by_contra beyond
      have absent := layout.unallocated y (Nat.le_of_not_lt beyond)
      simp [fibEntryAt_eq, entries, absent] at only
  · cases holds : e.hasTableEntries
    · -- an entry without table entries was recorded, and the second loop keeps it only non-empty
      obtain ⟨e1, stored1, -, sameTables⟩ := entries_foldl_eraseRecorded _ valid1 stored
      simp only [entries1] at stored1
      have holds1 : e1.hasTableEntries = false := by
        rw [← Entry.hasTableEntries_of_tables sameTables, holds]
      have visitedY : y ∈ visited := by
        obtain ⟨e0, stored0, -⟩ := Option.map_eq_some_iff.mp stored1
        exact (members y).mpr (by rw [stored0]; rfl)
      have member : (e1.name.length, y) ∈ maybeEmptyNtes :=
        (recorded _).mpr ⟨visitedY, e1, stored1, holds1, rfl⟩
      exact foldl_eraseRecorded_nonEmpty maybeEmptyNtes.reverse [] _ valid1
        (List.pairwise_reverse.mpr sorted)
        (fun r inReversed e' stored' => by
          obtain ⟨-, e'', stored'', -, key⟩ := (recorded r).mp (List.mem_reverse.mp inReversed)
          simp only [entries1] at stored'
          rw [stored'', Option.some.injEq] at stored'
          rw [key, stored'])
        (fun _ member => absurd member List.not_mem_nil) _ (List.mem_reverse.mpr member) e stored
    · exact Entry.isEmpty_of_hasTableEntries holds

end Whole

end Nfd.Cleanup
