import Nfd.Table.NameTreeHashtableOps

/-!
# The name tree

`NameTree` keeps one `Entry` for every name some table uses and for all the prefixes of
that name.  `lookup(name, prefixLen)` inserts the entries of `name.getPrefix(i)` for
`i = 0, …, prefixLen` and links each new one below the entry of the prefix before it;
`eraseIfEmpty` deletes an entry that has no children and no table entries, then, if
asked, each ancestor that this leaves empty.

An `Entry*` is the address of the node holding the entry, so `Entry::setParent` and
`Entry::unsetParent`, which edit two entries, and the setters of the table entries are
writes to the node store.  The walk up the parent pointers in `eraseIfEmpty` is
bounded by `getMaxDepth() + 1`: the `Entry` constructor asserts that a name has at
most `getMaxDepth()` components, and a parent's name is one component shorter.
-/

set_option autoImplicit false

namespace Nfd.NameTree

/-- `NameTree::getMaxDepth()`. -/
def getMaxDepth : Nat := 32

end Nfd.NameTree

namespace Nfd

structure NameTree (F P M S : Type) where
  ht : NameTree.Hashtable F P M S

end Nfd

namespace Nfd.NameTree

variable {F P M S : Type}

/-- `NameTree(nBuckets)`. -/
def ofSize (nBuckets : Nat) (positive : 0 < nBuckets) : NameTree F P M S :=
  ⟨Hashtable.ofOptions (HashtableOptions.ofSize nBuckets positive)⟩

/-- `NameTree(16)`, the size the tests build, has buckets. -/
theorem sixteen_pos : 0 < 16 := by decide

/-- Edit the entry held by the node at `id`. -/
def updateEntry (id : NodeId) (f : Entry F P M S → Entry F P M S) (ht : Hashtable F P M S) :
    Hashtable F P M S :=
  { ht with nodes := modifyNode ht.nodes id fun n => { n with entry := f n.entry } }

/-- `child.setParent(parent)`: record the parent and append `child` to its children. -/
def setParent (child parent : NodeId) (ht : Hashtable F P M S) : Hashtable F P M S :=
  let ht := updateEntry child (fun e => { e with parent := some parent }) ht
  updateEntry parent (fun e => { e with children := e.children ++ [child] }) ht

/-- `child.unsetParent()`: remove the first occurrence of `child` from its parent's
children and clear the parent. -/
def unsetParent (child : NodeId) (ht : Hashtable F P M S) : Hashtable F P M S :=
  match (ht.nodes child).bind fun n => n.entry.parent with
  | none => ht
  | some parent =>
      let ht := updateEntry parent (fun e => { e with children := e.children.erase child }) ht
      updateEntry child (fun e => { e with parent := none }) ht

section TableEntries

/-! The setters of the table entries.  Each also points the table entry back at the
name tree entry; that pointer belongs to the table entry, which is a parameter here. -/

def Entry.setFibEntry (fibEntry : Option F) (e : Entry F P M S) : Entry F P M S :=
  { e with fibEntry := fibEntry }

def Entry.insertPitEntry (pitEntry : P) (e : Entry F P M S) : Entry F P M S :=
  { e with pitEntries := e.pitEntries ++ [pitEntry] }

/-- `erasePitEntry`: the last PIT entry takes the place of the erased one. -/
def Entry.erasePitEntry [DecidableEq P] (pitEntry : P) (e : Entry F P M S) : Entry F P M S :=
  match e.pitEntries.idxOf? pitEntry with
  | none => e
  | some i => { e with pitEntries := (e.pitEntries.set i (e.pitEntries.getLastD pitEntry)).dropLast }

def Entry.setMeasurementsEntry (measurementsEntry : Option M) (e : Entry F P M S) :
    Entry F P M S :=
  { e with measurementsEntry := measurementsEntry }

def Entry.setStrategyChoiceEntry (strategyChoiceEntry : Option S) (e : Entry F P M S) :
    Entry F P M S :=
  { e with strategyChoiceEntry := strategyChoiceEntry }

/-- An edit of an entry that leaves its place in the tree alone. -/
def KeepsTree (f : Entry F P M S → Entry F P M S) : Prop :=
  ∀ e, (f e).name = e.name ∧ (f e).parent = e.parent ∧ (f e).children = e.children

theorem keepsTree_setFibEntry (fibEntry : Option F) :
    KeepsTree (Entry.setFibEntry (P := P) (M := M) (S := S) fibEntry) :=
  fun _ => ⟨rfl, rfl, rfl⟩

theorem keepsTree_insertPitEntry (pitEntry : P) :
    KeepsTree (Entry.insertPitEntry (F := F) (M := M) (S := S) pitEntry) :=
  fun _ => ⟨rfl, rfl, rfl⟩

theorem keepsTree_erasePitEntry [DecidableEq P] (pitEntry : P) :
    KeepsTree (Entry.erasePitEntry (F := F) (M := M) (S := S) pitEntry) := by
  intro e
  unfold Entry.erasePitEntry
  split <;> exact ⟨rfl, rfl, rfl⟩

theorem keepsTree_setMeasurementsEntry (measurementsEntry : Option M) :
    KeepsTree (Entry.setMeasurementsEntry (F := F) (P := P) (S := S) measurementsEntry) :=
  fun _ => ⟨rfl, rfl, rfl⟩

theorem keepsTree_setStrategyChoiceEntry (strategyChoiceEntry : Option S) :
    KeepsTree (Entry.setStrategyChoiceEntry (F := F) (P := P) (M := M) strategyChoiceEntry) :=
  fun _ => ⟨rfl, rfl, rfl⟩

end TableEntries

/-- One round of the loop of `lookup`: insert `name.getPrefix(i)`, and link the entry
below `parent`, the entry of the round before, if it is new. -/
def lookupStep (name : Name) (hashes : List HashValue) (state : Option NodeId × Hashtable F P M S)
    (i : Nat) : Option NodeId × Hashtable F P M S :=
  let parent := state.1
  let result := state.2.insert name i hashes
  let node := result.1.1
  let ht := match node, parent with
    | some node, some parent => if result.1.2 then setParent node parent result.2 else result.2
    | _, _ => result.2
  (node, ht)

section Lookup

variable (componentHash : Component → HashValue)

/-- `lookup(name, prefixLen)`: the entry of `name.getPrefix(prefixLen)`, inserted with
all its prefixes where missing. -/
def lookup (name : Name) (prefixLen : Nat) (nt : NameTree F P M S) :
    Option NodeId × NameTree F P M S :=
  let hashes := computeHashes componentHash name prefixLen
  let final := (List.range (prefixLen + 1)).foldl (lookupStep name hashes) (none, nt.ht)
  (final.1, ⟨final.2⟩)

/-- `findExactMatch(name, prefixLen)`. -/
def findExactMatch (name : Name) (prefixLen : Nat) (nt : NameTree F P M S) :
    Option NodeId :=
  let prefixLen := min name.length prefixLen
  if prefixLen > getMaxDepth then none else nt.ht.find componentHash name prefixLen

end Lookup

/-- The loop of `eraseIfEmpty`: erase `entry` if it is empty, then go on with its
parent when `canEraseAncestors`; the count of erased entries is carried along. -/
def eraseIfEmptyLoop (canEraseAncestors : Bool) :
    Nat → Option NodeId → Nat × Hashtable F P M S → Nat × Hashtable F P M S
  | 0, _, state => state
  | _ + 1, none, state => state
  | fuel + 1, some entry, (nErased, ht) =>
      match ht.nodes entry with
      | none => (nErased, ht)
      | some n =>
          if !n.entry.isEmpty then (nErased, ht)
          else
            let parent := n.entry.parent
            let ht := if parent.isSome then unsetParent entry ht else ht
            let ht := ht.erase entry
            if !canEraseAncestors then (nErased + 1, ht)
            else eraseIfEmptyLoop canEraseAncestors fuel parent (nErased + 1, ht)

/-- `eraseIfEmpty(entry, canEraseAncestors)`. -/
def eraseIfEmpty (entry : NodeId) (canEraseAncestors : Bool) (nt : NameTree F P M S) :
    Nat × NameTree F P M S :=
  let final := eraseIfEmptyLoop canEraseAncestors (getMaxDepth + 1) (some entry) (0, nt.ht)
  (final.1, ⟨final.2⟩)

/-- The entries of the store, without the nodes' hashes and pointers. -/
def entries (nodes : Nodes F P M S) : NodeId → Option (Entry F P M S) := fun id =>
  (nodes id).map Node.entry

section Frame

variable (ht : Hashtable F P M S)

theorem entries_update_contents {nodes other : Nodes F P M S} {id : NodeId}
    {value : Option (HashValue × Entry F P M S)}
    (same : contents other = Function.update (contents nodes) id value) :
    entries other = Function.update (entries nodes) id (value.map Prod.snd) := by
  funext j
  have atJ := congrFun same j
  by_cases isId : j = id
  · subst isId
    simp only [Function.update_self, contents] at atJ
    simp only [entries, Function.update_self, ← atJ, Option.map_map]
    rfl
  · simp only [Function.update_of_ne isId, contents] at atJ
    simp only [entries, Function.update_of_ne isId]
    cases stored : nodes j <;> cases otherStored : other j <;> simp_all

theorem updateEntry_fields (id : NodeId) (f : Entry F P M S → Entry F P M S) :
    (updateEntry id f ht).buckets = ht.buckets ∧ (updateEntry id f ht).size = ht.size ∧
      (updateEntry id f ht).options = ht.options ∧
      (updateEntry id f ht).nextNodeId = ht.nextNodeId ∧
      links (updateEntry id f ht).nodes = links ht.nodes :=
  ⟨rfl, rfl, rfl, rfl, by
    funext j
    by_cases isId : j = id
    · subst isId
      cases stored : ht.nodes j <;> simp [updateEntry, links, stored]
    · simp [updateEntry, links_modifyNode_other _ _ _ isId]⟩

@[simp] theorem entries_updateEntry (id : NodeId) (f : Entry F P M S → Entry F P M S) :
    entries (updateEntry id f ht).nodes = Function.update (entries ht.nodes) id
      ((entries ht.nodes id).map f) := by
  funext j
  by_cases isId : j = id
  · subst isId
    cases stored : ht.nodes j <;> simp [updateEntry, entries, stored]
  · simp [updateEntry, entries, isId]

theorem keys_updateEntry (id : NodeId) (f : Entry F P M S → Entry F P M S)
    (keepsName : ∀ e, (f e).name = e.name) :
    keys (updateEntry id f ht).nodes = keys ht.nodes := by
  funext j
  by_cases isId : j = id
  · subst isId
    cases stored : ht.nodes j <;> simp [updateEntry, keys, stored, keepsName]
  · simp [updateEntry, keys, isId]

end Frame

section Preserve

variable {componentHash : Component → HashValue} {ht : Hashtable F P M S}
  {chains : List (List NodeId)}

/-- A table with the same buckets, pointers and keys as a well-formed one is well formed. -/
theorem Layout.of_links_keys {ht' : Hashtable F P M S} (layout : Layout componentHash ht chains)
    (sameBuckets : ht'.buckets = ht.buckets) (sameLinks : links ht'.nodes = links ht.nodes)
    (sameKeys : keys ht'.nodes = keys ht.nodes) (sameSize : ht'.size = ht.size)
    (sameNext : ht'.nextNodeId = ht.nextNodeId) : Layout componentHash ht' chains := by
  have sameN : ht'.getNBuckets = ht.getNBuckets := by simp [Hashtable.getNBuckets, sameBuckets]
  have placed : Placed ht' chains := by
    refine ⟨sameN ▸ layout.nBuckets_pos, sameN ▸ layout.length_eq, fun b bound => ?_,
      fun b id member => ?_⟩
    · rw [sameBuckets, sameLinks]
      exact layout.chain b (sameN ▸ bound)
    · obtain ⟨n, stored, bucketIs⟩ := layout.placed b id member
      obtain ⟨n', stored', sameHash, -⟩ := node_of_keys sameKeys stored
      refine ⟨n', stored', ?_⟩
      simp only [Hashtable.computeBucketIndex, sameN, sameHash]
      exact bucketIs
  exact layout.of_placed placed sameKeys (fun _ => Iff.rfl) sameSize sameNext

theorem Layout.updateEntry (layout : Layout componentHash ht chains) (id : NodeId)
    (f : Entry F P M S → Entry F P M S) (keepsName : ∀ e, (f e).name = e.name) :
    Layout componentHash (updateEntry id f ht) chains := by
  obtain ⟨sameBuckets, sameSize, -, sameNext, sameLinks⟩ := updateEntry_fields ht id f
  exact layout.of_links_keys sameBuckets sameLinks (keys_updateEntry ht id f keepsName) sameSize
    sameNext

theorem Layout.setParent (layout : Layout componentHash ht chains) (child parent : NodeId) :
    Layout componentHash (setParent child parent ht) chains := by
  have linked := layout.updateEntry child (fun e => { e with parent := some parent }) fun _ => rfl
  exact linked.updateEntry parent (fun e => { e with children := e.children ++ [child] }) fun _ => rfl

theorem Layout.unsetParent (layout : Layout componentHash ht chains) (child : NodeId) :
    Layout componentHash (unsetParent child ht) chains := by
  unfold NameTree.unsetParent
  split
  · exact layout
  · rename_i parent _
    have unlinked := layout.updateEntry parent
      (fun e => { e with children := e.children.erase child }) fun _ => rfl
    exact unlinked.updateEntry child (fun e => { e with parent := none }) fun _ => rfl

theorem Layout.lookupStep {state : Option NodeId × Hashtable F P M S}
    (layout : Layout componentHash state.2 chains) {name : Name} {hashes : List HashValue} {i : Nat}
    (hashIs : hashes.getD i 0 = computeHash componentHash name i) :
    ∃ chains', Layout componentHash (lookupStep name hashes state i).2 chains' := by
  obtain ⟨chains', inserted⟩ : ∃ chains', Layout componentHash (state.2.insert name i hashes).2 chains' :=
    layout.findOrInsert true hashIs
  simp only [NameTree.lookupStep]
  split
  · by_cases isNew : (state.2.insert name i hashes).1.2 = true
    · rw [if_pos isNew]
      exact ⟨chains', inserted.setParent _ _⟩
    · rw [if_neg isNew]
      exact ⟨chains', inserted⟩
  · exact ⟨chains', inserted⟩

end Preserve

end Nfd.NameTree
