import Nfd.Table.NameTreeLayout

/-!
# Insertion and erasure keep the layout

`findOrInsert` either returns the node it finds on the chain of the bucket of `h`
and changes nothing, or allocates a node at the next free address, pushes it in
front of that chain, counts it in `m_size`, and expands the table past the load
threshold.  `erase` unlinks a node, frees it, uncounts it, and shrinks the table
below the threshold.  Both keep `Layout`; what they do to the nodes' contents is
stated by `findOrInsert_missing` and `erase_contents`, and is all the name tree
needs to know about them.
-/

set_option autoImplicit false

namespace Nfd.NameTree

open LinkedChain

variable {F P M S : Type} {componentHash : Component → HashValue}

section Hashes

theorem computeHash_take (name : Name) (prefixLen : Nat) :
    computeHash componentHash (name.take prefixLen) (name.take prefixLen).length =
      computeHash componentHash name prefixLen := by
  simp only [computeHash]
  rw [List.take_length]

theorem computeHashes_getD (name : Name) {limit i : Nat} (withinLimit : i ≤ limit)
    (withinName : i ≤ name.length) :
    (computeHashes componentHash name limit).getD i 0 = computeHash componentHash name i := by
  have bound : i < ((name.take limit).scanl (fun h comp => h ^^^ componentHash comp) 0).length := by
    simp
    omega
  simp only [computeHashes, List.getD_eq_getElem?_getD, List.getElem?_eq_getElem bound,
    Option.getD_some, List.getElem_scanl, computeHash, List.take_take]
  rw [Nat.min_eq_left withinLimit]

end Hashes

namespace Hashtable

variable (ht : Hashtable F P M S) (name : Name) (prefixLen : Nat) (h : HashValue)

/-- The chain search `findOrInsert` runs. -/
def search : Option NodeId :=
  findInChain ht.nodes name prefixLen h ht.size (ht.buckets.getD (ht.computeBucketIndex h) none)

/-- The table after a node for `name.getPrefix(prefixLen)` is allocated, attached and
counted, before the expansion check. -/
def inserted : Hashtable F P M S :=
  { ((ht.allocNode name prefixLen h).attach (ht.computeBucketIndex h) ht.nextNodeId) with
    size := ht.size + 1 }

theorem findOrInsert_found {id : NodeId} (allowInsert : Bool) (found : ht.search name prefixLen h = some id) :
    ht.findOrInsert name prefixLen h allowInsert = ((some id, false), ht) := by
  simp only [search] at found
  simp only [findOrInsert, found]

theorem findOrInsert_not_allowed (missing : ht.search name prefixLen h = none) :
    ht.findOrInsert name prefixLen h false = ((none, false), ht) := by
  simp only [search] at missing
  simp only [findOrInsert, missing]
  rfl

theorem findOrInsert_missing_eq (missing : ht.search name prefixLen h = none) :
    ht.findOrInsert name prefixLen h true =
      ((some ht.nextNodeId, true),
        if (ht.inserted name prefixLen h).size > (ht.inserted name prefixLen h).expandThreshold then
          (ht.inserted name prefixLen h).resize
            ⌊(ht.inserted name prefixLen h).options.expandFactor *
              (ht.inserted name prefixLen h).getNBuckets⌋₊
        else ht.inserted name prefixLen h) := by
  simp only [search] at missing
  simp only [findOrInsert, missing, inserted]
  rfl

theorem allocNode_contents :
    contents (ht.allocNode name prefixLen h).nodes =
      Function.update (contents ht.nodes) ht.nextNodeId
        (some (h, Entry.ofName (name.take prefixLen))) := by
  funext id
  by_cases isNew : id = ht.nextNodeId
  · subst isNew
    simp [contents, allocNode]
  · simp [contents, allocNode, isNew]

theorem inserted_fields :
    (ht.inserted name prefixLen h).size = ht.size + 1 ∧
      (ht.inserted name prefixLen h).options = ht.options ∧
      (ht.inserted name prefixLen h).nextNodeId = ht.nextNodeId + 1 ∧
      (ht.inserted name prefixLen h).getNBuckets = ht.getNBuckets ∧
      contents (ht.inserted name prefixLen h).nodes =
        Function.update (contents ht.nodes) ht.nextNodeId
          (some (h, Entry.ofName (name.take prefixLen))) := by
  refine ⟨rfl, rfl, rfl, ?_, ?_⟩
  · simp [inserted, getNBuckets, attach, allocNode]
  · rw [← allocNode_contents]
    exact attach_contents _ _ _

/-- What a successful insertion returns and leaves: the new node sits at the old next
free address and holds an entry for `name.getPrefix(prefixLen)`; nothing else changes
content. -/
theorem findOrInsert_missing (missing : ht.search name prefixLen h = none) :
    (ht.findOrInsert name prefixLen h true).1 = (some ht.nextNodeId, true) ∧
      contents (ht.findOrInsert name prefixLen h true).2.nodes =
        Function.update (contents ht.nodes) ht.nextNodeId
          (some (h, Entry.ofName (name.take prefixLen))) ∧
      (ht.findOrInsert name prefixLen h true).2.nextNodeId = ht.nextNodeId + 1 ∧
      (ht.findOrInsert name prefixLen h true).2.options = ht.options := by
  obtain ⟨-, sameOptions, sameNext, -, sameContents⟩ := ht.inserted_fields name prefixLen h
  rw [findOrInsert_missing_eq _ _ _ _ missing]
  refine ⟨rfl, ?_⟩
  split
  · obtain ⟨-, resizedOptions, resizedNext, resizedContents⟩ := resize_fields
      ⌊(ht.inserted name prefixLen h).options.expandFactor *
        (ht.inserted name prefixLen h).getNBuckets⌋₊ (ht.inserted name prefixLen h)
    exact ⟨resizedContents.trans sameContents, resizedNext.trans sameNext,
      resizedOptions.trans sameOptions⟩
  · exact ⟨sameContents, sameNext, sameOptions⟩

/-- The table after `node` is unlinked from `bucket`, freed and uncounted, before the
shrink check. -/
def freed (bucket : Nat) (node : NodeId) : Hashtable F P M S :=
  { ht.detach bucket node with
    nodes := Function.update (ht.detach bucket node).nodes node none
    size := (ht.detach bucket node).size - 1 }

theorem erase_eq {node : NodeId} {n : Node F P M S} (stored : ht.nodes node = some n) :
    ht.erase node =
      let ht' := ht.freed (ht.computeBucketIndex n.hash) node
      if ht'.size < ht'.shrinkThreshold then
        ht'.resize (max ht'.options.minSize ⌊ht'.options.shrinkFactor * ht'.getNBuckets⌋₊)
      else ht' := by
  simp only [erase, stored, freed]
  rfl

theorem freed_fields (bucket : Nat) (node : NodeId) :
    (ht.freed bucket node).size = ht.size - 1 ∧ (ht.freed bucket node).options = ht.options ∧
      (ht.freed bucket node).nextNodeId = ht.nextNodeId ∧
      (ht.freed bucket node).getNBuckets = ht.getNBuckets ∧
      contents (ht.freed bucket node).nodes = Function.update (contents ht.nodes) node none := by
  refine ⟨by simp [freed], by simp [freed], by simp [freed], detach_getNBuckets ht bucket node, ?_⟩
  rw [← detach_contents ht bucket node]
  funext id
  by_cases isNode : id = node
  · subst isNode
    simp [contents, freed]
  · simp [contents, freed, isNode]

/-- What `erase` leaves: the node's address is free, nothing else changes content. -/
theorem erase_fields {node : NodeId} {n : Node F P M S} (stored : ht.nodes node = some n) :
    contents (ht.erase node).nodes = Function.update (contents ht.nodes) node none ∧
      (ht.erase node).nextNodeId = ht.nextNodeId ∧ (ht.erase node).options = ht.options := by
  obtain ⟨-, sameOptions, sameNext, -, sameContents⟩ := ht.freed_fields (ht.computeBucketIndex n.hash) node
  rw [erase_eq _ stored]
  simp only
  split
  · obtain ⟨-, resizedOptions, resizedNext, resizedContents⟩ := resize_fields
      (max (ht.freed (ht.computeBucketIndex n.hash) node).options.minSize
        ⌊(ht.freed (ht.computeBucketIndex n.hash) node).options.shrinkFactor *
          (ht.freed (ht.computeBucketIndex n.hash) node).getNBuckets⌋₊)
      (ht.freed (ht.computeBucketIndex n.hash) node)
    exact ⟨resizedContents.trans sameContents, resizedNext.trans sameNext,
      resizedOptions.trans sameOptions⟩
  · exact ⟨sameContents, sameNext, sameOptions⟩

end Hashtable


section Preserve

variable {ht : Hashtable F P M S} {chains : List (List NodeId)}

/-- Chains survive any change that keeps the buckets and the nodes on them. -/
theorem Placed.of_agree {ht' : Hashtable F P M S} (placed : Placed ht chains)
    (sameBuckets : ht'.buckets = ht.buckets)
    (sameNodes : ∀ b, ∀ id ∈ chains.getD b [], ht'.nodes id = ht.nodes id) :
    Placed ht' chains := by
  have sameN : ht'.getNBuckets = ht.getNBuckets := by simp [Hashtable.getNBuckets, sameBuckets]
  have sameIndex : ∀ h, ht'.computeBucketIndex h = ht.computeBucketIndex h := by
    simp [Hashtable.computeBucketIndex, sameN]
  refine ⟨sameN ▸ placed.nBuckets_pos, sameN ▸ placed.length_eq, fun b bound => ?_,
    fun b id member => ?_⟩
  · rw [sameBuckets]
    exact (placed.chain b (sameN ▸ bound)).congr fun id member => by
      simp [links, sameNodes b id member]
  · obtain ⟨n, stored, bucketIs⟩ := placed.placed b id member
    exact ⟨n, (sameNodes b id member).trans stored, (sameIndex n.hash).trans bucketIs⟩

theorem contents_eq_none {nodes : Nodes F P M S} {id : NodeId} :
    contents nodes id = none ↔ nodes id = none := by
  simp [contents]

theorem Layout.not_on_chain_of_free (layout : Layout componentHash ht chains) {id : NodeId}
    (free : ht.nodes id = none) (b : Nat) : id ∉ chains.getD b [] := by
  intro member
  obtain ⟨n, stored, -⟩ := layout.placed b id member
  rw [free] at stored
  cases stored

theorem Layout.inserted (layout : Layout componentHash ht chains) {name : Name} {prefixLen : Nat}
    {h : HashValue} (hashIs : h = computeHash componentHash name prefixLen) :
    Layout componentHash (ht.inserted name prefixLen h)
      (chains.set (ht.computeBucketIndex h) (ht.nextNodeId :: chains.getD (ht.computeBucketIndex h) [])) := by
  have free := layout.unallocated ht.nextNodeId le_rfl
  have outside := layout.not_on_chain_of_free free
  have allocPlaced : Placed (ht.allocNode name prefixLen h) chains :=
    layout.toPlaced.of_agree rfl fun b id member => by
      have notNew : id ≠ ht.nextNodeId := fun same => outside b (same ▸ member)
      simp [Hashtable.allocNode, notNew]
  have newStored : (ht.allocNode name prefixLen h).nodes ht.nextNodeId =
      some { hash := h, prev := none, next := none, entry := Entry.ofName (name.take prefixLen) } := by
    simp [Hashtable.allocNode]
  have attached := allocPlaced.attach newStored outside
  have placed : Placed (ht.inserted name prefixLen h)
      (chains.set (ht.computeBucketIndex h) (ht.nextNodeId :: chains.getD (ht.computeBucketIndex h) [])) :=
    attached.of_agree rfl fun _ _ _ => rfl
  obtain ⟨sameSize, -, sameNext, sameN, sameContents⟩ := ht.inserted_fields name prefixLen h
  have bucketLt := layout.bucket_lt h
  have onNew : ∀ id, (∃ b, id ∈ (chains.set (ht.computeBucketIndex h)
      (ht.nextNodeId :: chains.getD (ht.computeBucketIndex h) [])).getD b []) ↔
        (∃ b, id ∈ chains.getD b []) ∨ id = ht.nextNodeId :=
    layout.onChains_set_cons bucketLt ht.nextNodeId
  have sameIndex : ∀ h', (ht.inserted name prefixLen h).computeBucketIndex h' =
      ht.computeBucketIndex h' := fun h' => by simp [Hashtable.computeBucketIndex, sameN]
  -- every address other than the new one holds what it held before
  have old : ∀ id n, id ≠ ht.nextNodeId → (ht.inserted name prefixLen h).nodes id = some n →
      ∃ n₀, ht.nodes id = some n₀ ∧ n.hash = n₀.hash ∧ n.entry = n₀.entry := by
    intro id n isOld stored
    have atId := congrFun sameContents id
    rw [Function.update_of_ne isOld] at atId
    simp only [contents, stored, Option.map_some] at atId
    cases stored₀ : ht.nodes id with
    | none => simp [stored₀] at atId
    | some n₀ =>
        simp only [stored₀, Option.map_some, Option.some.injEq, Prod.mk.injEq] at atId
        exact ⟨n₀, rfl, atId.1, atId.2⟩
  have newNode : ∀ n, (ht.inserted name prefixLen h).nodes ht.nextNodeId = some n →
      n.hash = h ∧ n.entry = Entry.ofName (name.take prefixLen) := by
    intro n stored
    have atNew := congrFun sameContents ht.nextNodeId
    simpa [contents, stored] using atNew
  refine ⟨placed, ?_, ?_, ?_, ?_⟩
  · intro id n stored
    rw [sameIndex]
    by_cases isNew : id = ht.nextNodeId
    · subst isNew
      rw [(newNode n stored).1, getD_set_same _ _ _ _ (layout.length_eq ▸ bucketLt)]
      exact List.mem_cons_self
    · obtain ⟨n₀, stored₀, sameHash, -⟩ := old id n isNew stored
      have onOld := layout.allocated id n₀ stored₀
      rw [sameHash]
      by_cases sameBucket : ht.computeBucketIndex n₀.hash = ht.computeBucketIndex h
      · rw [sameBucket, getD_set_same _ _ _ _ (layout.length_eq ▸ bucketLt)]
        exact List.mem_cons_of_mem _ (sameBucket ▸ onOld)
      · rwa [getD_set_other _ _ _ _ _ sameBucket]
  · intro id n stored
    by_cases isNew : id = ht.nextNodeId
    · subst isNew
      obtain ⟨hashIs', entryIs⟩ := newNode n stored
      rw [hashIs', entryIs, hashIs]
      exact (computeHash_take name prefixLen).symm
    · obtain ⟨n₀, stored₀, sameHash, sameEntry⟩ := old id n isNew stored
      rw [sameHash, sameEntry]
      exact layout.hashed id n₀ stored₀
  · rw [sameSize, layout.size_eq]
    have fresh : ht.nextNodeId ∉ chains.flatten := fun member => by
      obtain ⟨b, onChain⟩ := (mem_flatten_iff chains _).mp member
      exact outside b onChain
    have perm := (List.perm_ext_iff_of_nodup (List.nodup_cons.mpr ⟨fresh, layout.nodup_flatten⟩)
      placed.nodup_flatten).mpr fun id => by
        rw [List.mem_cons, mem_flatten_iff, mem_flatten_iff, onNew]
        tauto
    simpa using perm.length_eq
  · intro id beyond
    rw [sameNext] at beyond
    have isOld : id ≠ ht.nextNodeId := fun same => Nat.not_succ_le_self _ (same ▸ beyond)
    have atId := congrFun sameContents id
    rw [Function.update_of_ne isOld,
      contents_eq_none.mpr (layout.unallocated id (Nat.le_of_succ_le beyond))] at atId
    exact contents_eq_none.mp atId

theorem expandSize_pos (options : HashtableOptions) {nBuckets : Nat} (positive : 0 < nBuckets) :
    0 < ⌊options.expandFactor * nBuckets⌋₊ := by
  rw [Nat.floor_pos]
  have atLeastOne : (1 : ℚ) ≤ nBuckets := by exact_mod_cast positive
  exact one_le_mul_of_one_le_of_one_le options.one_lt_expandFactor.le atLeastOne

theorem shrinkSize_pos (options : HashtableOptions) (nBuckets : Nat) :
    0 < max options.minSize ⌊options.shrinkFactor * nBuckets⌋₊ :=
  lt_max_of_lt_left options.minSize_pos

theorem Layout.findOrInsert (layout : Layout componentHash ht chains) {name : Name}
    {prefixLen : Nat} {h : HashValue} (allowInsert : Bool)
    (hashIs : h = computeHash componentHash name prefixLen) :
    ∃ chains', Layout componentHash (ht.findOrInsert name prefixLen h allowInsert).2 chains' := by
  cases found : ht.search name prefixLen h with
  | some id => exact ⟨chains, by rw [Hashtable.findOrInsert_found _ _ _ _ _ found]; exact layout⟩
  | none =>
      cases allowInsert with
      | false => exact ⟨chains, by rw [Hashtable.findOrInsert_not_allowed _ _ _ _ found]; exact layout⟩
      | true =>
          have inserted := layout.inserted hashIs
          rw [Hashtable.findOrInsert_missing_eq _ _ _ _ found]
          split
          · exact inserted.resize (expandSize_pos _ inserted.nBuckets_pos)
          · exact ⟨_, inserted⟩

theorem Layout.freed (layout : Layout componentHash ht chains) {node : NodeId} {n : Node F P M S}
    (stored : ht.nodes node = some n) :
    Layout componentHash (ht.freed (ht.computeBucketIndex n.hash) node)
      (chains.set (ht.computeBucketIndex n.hash)
        ((chains.getD (ht.computeBucketIndex n.hash) []).erase node)) := by
  set bucket := ht.computeBucketIndex n.hash
  have member := layout.allocated node n stored
  have bucketLt := layout.bucket_lt n.hash
  have detached := layout.detach stored member
  have nodupChain := (layout.chain bucket bucketLt).nodup
  -- after the unlink, `node` is on no chain
  have gone : ∀ b, node ∉ (chains.set bucket ((chains.getD bucket []).erase node)).getD b [] := by
    intro b onChain
    by_cases same : b = bucket
    · rw [same, getD_set_same _ _ _ _ (layout.length_eq ▸ bucketLt)] at onChain
      exact nodupChain.not_mem_erase onChain
    · rw [getD_set_other _ _ _ _ _ same] at onChain
      exact same (layout.bucket_eq onChain member)
  have placed : Placed (ht.freed bucket node)
      (chains.set bucket ((chains.getD bucket []).erase node)) :=
    detached.of_agree rfl fun b id onChain => by
      have notNode : id ≠ node := fun isNode => gone b (isNode ▸ onChain)
      simp [Hashtable.freed, notNode, bucket]
  obtain ⟨sameSize, -, sameNext, sameN, sameContents⟩ := ht.freed_fields bucket node
  have sameIndex : ∀ h', (ht.freed bucket node).computeBucketIndex h' = ht.computeBucketIndex h' :=
    fun h' => by simp [Hashtable.computeBucketIndex, sameN]
  have old : ∀ id m, (ht.freed bucket node).nodes id = some m →
      id ≠ node ∧ ∃ m₀, ht.nodes id = some m₀ ∧ m.hash = m₀.hash ∧ m.entry = m₀.entry := by
    intro id m storedM
    have atId := congrFun sameContents id
    by_cases isNode : id = node
    · subst isNode
      simp [contents, storedM] at atId
    · rw [Function.update_of_ne isNode] at atId
      simp only [contents, storedM, Option.map_some] at atId
      cases stored₀ : ht.nodes id with
      | none => simp [stored₀] at atId
      | some m₀ =>
          simp only [stored₀, Option.map_some, Option.some.injEq, Prod.mk.injEq] at atId
          exact ⟨isNode, m₀, rfl, atId.1, atId.2⟩
  refine ⟨placed, ?_, ?_, ?_, ?_⟩
  · intro id m storedM
    obtain ⟨isOld, m₀, stored₀, sameHash, -⟩ := old id m storedM
    have onOld := layout.allocated id m₀ stored₀
    rw [sameIndex, sameHash]
    by_cases sameBucket : ht.computeBucketIndex m₀.hash = bucket
    · rw [sameBucket, getD_set_same _ _ _ _ (layout.length_eq ▸ bucketLt)]
      exact (List.mem_erase_of_ne isOld).mpr (sameBucket ▸ onOld)
    · rwa [getD_set_other _ _ _ _ _ sameBucket]
  · intro id m storedM
    obtain ⟨-, m₀, stored₀, sameHash, sameEntry⟩ := old id m storedM
    rw [sameHash, sameEntry]
    exact layout.hashed id m₀ stored₀
  · rw [sameSize, layout.size_eq]
    have perm := (List.perm_ext_iff_of_nodup layout.nodup_flatten
      (List.nodup_cons.mpr ⟨fun onNew => by
        obtain ⟨b, onChain⟩ := (mem_flatten_iff _ _).mp onNew
        exact gone b onChain, placed.nodup_flatten⟩)).mpr fun id => by
        rw [mem_flatten_iff, List.mem_cons, mem_flatten_iff]
        constructor
        · rintro ⟨b, onChain⟩
          by_cases isNode : id = node
          · exact .inl isNode
          · refine .inr ⟨b, ?_⟩
            by_cases same : b = bucket
            · rw [same, getD_set_same _ _ _ _ (layout.length_eq ▸ bucketLt)]
              exact (List.mem_erase_of_ne isNode).mpr (same ▸ onChain)
            · rwa [getD_set_other _ _ _ _ _ same]
        · rintro (isNode | ⟨b, onChain⟩)
          · exact ⟨bucket, isNode ▸ member⟩
          · refine ⟨b, ?_⟩
            by_cases same : b = bucket
            · rw [same, getD_set_same _ _ _ _ (layout.length_eq ▸ bucketLt)] at onChain
              exact same ▸ List.mem_of_mem_erase onChain
            · rwa [getD_set_other _ _ _ _ _ same] at onChain
    simp only [perm.length_eq, List.length_cons, Nat.add_sub_cancel]
  · intro id beyond
    rw [sameNext] at beyond
    have atId := congrFun sameContents id
    have isOld : id ≠ node := fun same => by
      have free := layout.unallocated id beyond
      rw [same, stored] at free
      cases free
    rw [Function.update_of_ne isOld, contents_eq_none.mpr (layout.unallocated id beyond)] at atId
    exact contents_eq_none.mp atId

theorem Layout.erase (layout : Layout componentHash ht chains) (node : NodeId) :
    ∃ chains', Layout componentHash (ht.erase node) chains' := by
  cases stored : ht.nodes node with
  | none => exact ⟨chains, by simp only [Hashtable.erase, stored]; exact layout⟩
  | some n =>
      have freed := layout.freed stored
      rw [Hashtable.erase_eq _ stored]
      simp only
      split
      · exact freed.resize (shrinkSize_pos _ _)
      · exact ⟨_, freed⟩

/-- A search that finds a node finds one of the name it was asked for. -/
theorem Layout.search_some (layout : Layout componentHash ht chains) {name : Name}
    {prefixLen : Nat} {h : HashValue} {id : NodeId} (found : ht.search name prefixLen h = some id) :
    ∃ n, ht.nodes id = some n ∧ n.entry.name = name.take prefixLen := by
  obtain ⟨-, n, stored, -, named⟩ :=
    findInChain_some ht.nodes name prefixLen h (layout.chain _ (layout.bucket_lt h)) found
  exact ⟨n, stored, named⟩

/-- A search with the right hash that finds nothing rules out every node of that name. -/
theorem Layout.search_none (layout : Layout componentHash ht chains) {name : Name}
    {prefixLen : Nat} {h : HashValue} (hashIs : h = computeHash componentHash name prefixLen)
    (missing : ht.search name prefixLen h = none) :
    ∀ id n, ht.nodes id = some n → n.entry.name ≠ name.take prefixLen := by
  intro id n stored named
  have hashOf : n.hash = h := by
    rw [layout.hashed id n stored, named, computeHash_take, hashIs]
  exact layout.absent_of_findInChain missing id n stored hashOf named

end Preserve

end Nfd.NameTree
