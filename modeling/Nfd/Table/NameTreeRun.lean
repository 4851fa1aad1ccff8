import Nfd.Table.NameTreeShape

/-!
# The name tree over whole runs

A name tree is well formed when its hash table is laid out (`Layout`) and its entries
have the shape of a tree (`Shape`).  `lookup` within its assertions, `eraseIfEmpty` and
the setters of the table entries keep both, so every name tree reached from an empty one
by these operations is well formed.

The loop of `lookup` carries, from one round to the next, the entry of the prefix the
round before inserted or found; the loop of `eraseIfEmpty` removes one leaf per round.
-/

set_option autoImplicit false

namespace Nfd.NameTree

variable {F P M S : Type} {componentHash : Component → HashValue}

section Entries

variable (ht : Hashtable F P M S)

theorem Entry.children_of_isEmpty {e : Entry F P M S} (empty : e.isEmpty = true) :
    e.children = [] := by
  simp only [Entry.isEmpty, Entry.hasChildren, Bool.and_eq_true, Bool.not_eq_true',
    Bool.not_eq_false', List.isEmpty_iff] at empty
  exact empty.1

theorem entries_erase (node : NodeId) :
    entries (ht.erase node).nodes = Function.update (entries ht.nodes) node none := by
  cases stored : ht.nodes node with
  | none =>
      have unchanged : ht.erase node = ht := by simp [Hashtable.erase, stored]
      rw [unchanged, eq_comm, Function.update_eq_self_iff]
      simp [entries, stored]
  | some n => exact entries_update_contents (ht.erase_fields stored).1

theorem entries_insert_missing {name : Name} {i : Nat} {hashes : List HashValue}
    (missing : ht.search name i (hashes.getD i 0) = none) :
    entries (ht.insert name i hashes).2.nodes =
      Function.update (entries ht.nodes) ht.nextNodeId (some (Entry.ofName (name.take i))) :=
  entries_update_contents (ht.findOrInsert_missing name i _ missing).2.1

theorem entries_setParent {child parent : NodeId} {ec ep : Entry F P M S}
    (different : child ≠ parent) (storedC : entries ht.nodes child = some ec)
    (storedP : entries ht.nodes parent = some ep) :
    entries (setParent child parent ht).nodes =
      Function.update (Function.update (entries ht.nodes) child (some { ec with parent := some parent }))
        parent (some { ep with children := ep.children ++ [child] }) := by
  simp only [NameTree.setParent, entries_updateEntry, storedC, Option.map_some,
    Function.update_of_ne different.symm, storedP]

theorem entries_unsetParent {child parent : NodeId} {n : Node F P M S} {ep : Entry F P M S}
    (different : child ≠ parent) (stored : ht.nodes child = some n)
    (hasParent : n.entry.parent = some parent) (storedP : entries ht.nodes parent = some ep) :
    entries (unsetParent child ht).nodes =
      Function.update
        (Function.update (entries ht.nodes) parent (some { ep with children := ep.children.erase child }))
        child (some { n.entry with parent := none }) := by
  have parentIs : ((ht.nodes child).bind fun n => n.entry.parent) = some parent := by
    simp [stored, hasParent]
  have storedC : entries ht.nodes child = some n.entry := by simp [entries, stored]
  simp only [NameTree.unsetParent, parentIs, entries_updateEntry, storedP, Option.map_some,
    Function.update_of_ne different, storedC]

end Entries

/-- A well-formed table of a name tree: laid out, and shaped as a tree. -/
structure Valid (componentHash : Component → HashValue) (ht : Hashtable F P M S) : Prop where
  layout : ∃ chains, Layout componentHash ht chains
  shape : Shape (entries ht.nodes)

section LookupStep

variable {name : Name} {hashes : List HashValue} {i : Nat}
  {state : Option NodeId × Hashtable F P M S}

/-- What the loop of `lookup` knows before round `i` of the entry of the round before. -/
def LinkedBelow (E : NodeId → Option (Entry F P M S)) (name : Name) (i : Nat) :
    Option NodeId → Prop
  | none => i = 0
  | some p => 0 < i ∧ ∃ ep, E p = some ep ∧ ep.name = name.take (i - 1)

theorem lookupStep_found {id : NodeId} (found : state.2.search name i (hashes.getD i 0) = some id) :
    lookupStep name hashes state i = (some id, state.2) := by
  have same : state.2.insert name i hashes = ((some id, false), state.2) :=
    state.2.findOrInsert_found name i _ true found
  simp only [NameTree.lookupStep, same]
  split <;> rfl

theorem lookupStep_missing (missing : state.2.search name i (hashes.getD i 0) = none) :
    lookupStep name hashes state i =
      (some state.2.nextNodeId, match state.1 with
        | some parent => setParent state.2.nextNodeId parent (state.2.insert name i hashes).2
        | none => (state.2.insert name i hashes).2) := by
  have inserted := (state.2.findOrInsert_missing name i _ missing).1
  have resultIs : (state.2.insert name i hashes).1 = (some state.2.nextNodeId, true) := inserted
  simp only [NameTree.lookupStep, resultIs]
  cases state.1 <;> rfl

/-- One round of `lookup` keeps the table well formed and leaves the entry of
`name.getPrefix(i)` as the entry of the round. -/
theorem Valid.lookupStep (valid : Valid componentHash state.2)
    (hashIs : hashes.getD i 0 = computeHash componentHash name i)
    (withinName : i ≤ name.length) (shallow : i ≤ getMaxDepth)
    (linked : LinkedBelow (entries state.2.nodes) name i state.1) :
    Valid componentHash (lookupStep name hashes state i).2 ∧
      ∃ q e, (lookupStep name hashes state i).1 = some q ∧
        entries (lookupStep name hashes state i).2.nodes q = some e ∧ e.name = name.take i := by
  obtain ⟨chains, layout⟩ := valid.layout
  obtain ⟨chains', inserted⟩ : ∃ chains', Layout componentHash (state.2.insert name i hashes).2 chains' :=
    layout.findOrInsert true hashIs
  cases found : state.2.search name i (hashes.getD i 0) with
  | some id =>
      obtain ⟨n, stored, named⟩ := layout.search_some found
      rw [lookupStep_found found]
      exact ⟨valid, id, n.entry, rfl, by simp [entries, stored], named⟩
  | none =>
      have entriesIs := entries_insert_missing state.2 found
      have fresh : entries state.2.nodes state.2.nextNodeId = none := by
        simp [entries, layout.unallocated state.2.nextNodeId le_rfl]
      have newName : ∀ id e, entries state.2.nodes id = some e → e.name ≠ name.take i := by
        intro id e stored
        obtain ⟨n, storedN, rfl⟩ := Option.map_eq_some_iff.mp stored
        exact layout.search_none hashIs found id n storedN
      rw [lookupStep_missing found]
      cases parent : state.1 with
      | none =>
          rw [parent] at linked
          simp only [LinkedBelow] at linked
          subst linked
          refine ⟨⟨⟨chains', inserted⟩, ?_⟩, state.2.nextNodeId, Entry.ofName (name.take 0), rfl,
            by rw [entriesIs, Function.update_self], rfl⟩
          rw [entriesIs, List.take_zero]
          exact valid.shape.insertRoot fresh fun id e stored => by simpa using newName id e stored
      | some p =>
          rw [parent] at linked
          obtain ⟨positive, ep, storedP, parentNamed⟩ := linked
          have pNotNext : p ≠ state.2.nextNodeId := ne_of_fresh fresh storedP
          have storedP' : entries (state.2.insert name i hashes).2.nodes p = some ep := by
            rw [entriesIs, Function.update_of_ne pNotNext]
            exact storedP
          have storedNext : entries (state.2.insert name i hashes).2.nodes state.2.nextNodeId =
              some (Entry.ofName (name.take i)) := by
            rw [entriesIs, Function.update_self]
          have linkedIs := entries_setParent _ pNotNext.symm storedNext storedP'
          rw [entriesIs, Function.update_idem] at linkedIs
          have nonRoot : name.take i ≠ [] := by
            intro isNil
            have noLength := congrArg List.length isNil
            simp only [List.length_take, List.length_nil] at noLength
            omega
          have parentNamed' : ep.name = (name.take i).dropLast := by
            rw [parentNamed, List.dropLast_eq_take, List.take_take, List.length_take]
            congr 1
            omega
          refine ⟨⟨⟨chains', inserted.setParent state.2.nextNodeId p⟩, ?_⟩, state.2.nextNodeId,
            { Entry.ofName (name.take i) with parent := some p }, rfl, ?_, rfl⟩
          · rw [linkedIs]
            exact valid.shape.insertChild fresh storedP nonRoot parentNamed'
              (by simp only [List.length_take]; omega) newName
          · rw [linkedIs, Function.update_of_ne pNotNext.symm, Function.update_self]

end LookupStep

section Lookup

variable {name : Name} {prefixLen : Nat}

/-- The rounds `0, …, n` of `lookup` keep the table well formed and end with the entry of
`name.getPrefix(n)`. -/
theorem Valid.lookupRounds {ht : Hashtable F P M S} (valid : Valid componentHash ht)
    (withinName : prefixLen ≤ name.length) (shallow : prefixLen ≤ getMaxDepth) (n : Nat)
    (within : n ≤ prefixLen) :
    Valid componentHash ((List.range (n + 1)).foldl
        (NameTree.lookupStep name (computeHashes componentHash name prefixLen)) (none, ht)).2 ∧
      ∃ q e, ((List.range (n + 1)).foldl
          (NameTree.lookupStep name (computeHashes componentHash name prefixLen)) (none, ht)).1 = some q ∧
        entries ((List.range (n + 1)).foldl
          (NameTree.lookupStep name (computeHashes componentHash name prefixLen)) (none, ht)).2.nodes q =
            some e ∧ e.name = name.take n := by
  induction n with
  | zero =>
      exact valid.lookupStep (computeHashes_getD name (Nat.zero_le _) (Nat.zero_le _))
        (Nat.zero_le _) (Nat.zero_le _) rfl
  | succ n inductionHypothesis =>
      obtain ⟨validN, q, e, reached, storedQ, named⟩ := inductionHypothesis (by omega)
      rw [List.range_succ, List.foldl_append, List.foldl_cons, List.foldl_nil]
      refine validN.lookupStep (computeHashes_getD name within (within.trans withinName))
        (within.trans withinName) (within.trans shallow) ?_
      rw [reached]
      simp only [LinkedBelow, Nat.add_sub_cancel]
      exact ⟨Nat.succ_pos n, e, storedQ, named⟩

/-- `lookup` keeps the name tree well formed and returns the entry of
`name.getPrefix(prefixLen)`. -/
theorem Valid.lookup {nt : NameTree F P M S} (valid : Valid componentHash nt.ht)
    (withinName : prefixLen ≤ name.length) (shallow : prefixLen ≤ getMaxDepth) :
    Valid componentHash (nt.lookup componentHash name prefixLen).2.ht ∧
      ∃ q e, (nt.lookup componentHash name prefixLen).1 = some q ∧
        entries (nt.lookup componentHash name prefixLen).2.ht.nodes q = some e ∧
          e.name = name.take prefixLen :=
  valid.lookupRounds withinName shallow prefixLen le_rfl

end Lookup

section Erase

/-- One round of `eraseIfEmpty`: a childless entry is unlinked from its parent, if it has
one, and erased. -/
theorem Valid.eraseLeaf {ht : Hashtable F P M S} (valid : Valid componentHash ht) {x : NodeId}
    {n : Node F P M S} (stored : ht.nodes x = some n) (leaf : n.entry.children = []) :
    Valid componentHash ((if n.entry.parent.isSome then unsetParent x ht else ht).erase x) := by
  obtain ⟨chains, layout⟩ := valid.layout
  have storedE : entries ht.nodes x = some n.entry := by simp [entries, stored]
  have unlinked : ∃ chains, Layout componentHash
      (if n.entry.parent.isSome then unsetParent x ht else ht) chains := by
    split
    · exact ⟨chains, layout.unsetParent x⟩
    · exact ⟨chains, layout⟩
  obtain ⟨chains', unlinkedLayout⟩ := unlinked
  refine ⟨unlinkedLayout.erase x, ?_⟩
  rw [entries_erase]
  cases hasParent : n.entry.parent with
  | none =>
      simp only [Option.isSome_none, Bool.false_eq_true, if_false]
      exact valid.shape.eraseOrphan storedE leaf hasParent
  | some p =>
      simp only [Option.isSome_some, if_true]
      obtain ⟨ep, storedP, -, -⟩ := valid.shape.parent_entry storedE hasParent
      have xNotP := valid.shape.ne_parent_of_leaf storedE leaf hasParent
      rw [entries_unsetParent ht xNotP stored hasParent storedP, Function.update_idem]
      exact valid.shape.eraseLeaf storedE leaf hasParent storedP

theorem Valid.eraseIfEmptyLoop (canEraseAncestors : Bool) :
    ∀ (fuel : Nat) (entry : Option NodeId) (state : Nat × Hashtable F P M S),
      Valid componentHash state.2 →
        Valid componentHash (NameTree.eraseIfEmptyLoop canEraseAncestors fuel entry state).2
  | 0, _, _, valid => valid
  | _ + 1, none, _, valid => valid
  | fuel + 1, some x, (nErased, ht), valid => by
      cases stored : ht.nodes x with
      | none => simpa only [NameTree.eraseIfEmptyLoop, stored] using valid
      | some n =>
          simp only [NameTree.eraseIfEmptyLoop, stored]
          split
          · exact valid
          · rename_i empty
            have removed := valid.eraseLeaf stored
              (Entry.children_of_isEmpty (by simpa using empty))
            split
            · exact removed
            · exact Valid.eraseIfEmptyLoop canEraseAncestors fuel _ _ removed

theorem Valid.eraseIfEmpty {nt : NameTree F P M S} (valid : Valid componentHash nt.ht)
    (entry : NodeId) (canEraseAncestors : Bool) :
    Valid componentHash (nt.eraseIfEmpty entry canEraseAncestors).2.ht :=
  Valid.eraseIfEmptyLoop canEraseAncestors _ _ _ valid

theorem eraseIfEmptyLoop_none (canEraseAncestors : Bool) (fuel : Nat)
    (state : Nat × Hashtable F P M S) :
    NameTree.eraseIfEmptyLoop canEraseAncestors fuel none state = state := by
  cases fuel <;> rfl

/-- Rounds beyond the depth of the entry change nothing: each round climbs to a parent
whose name is one component shorter, so the loop stops before its bound. -/
theorem Valid.eraseIfEmptyLoop_fuel (canEraseAncestors : Bool) :
    ∀ (fuel : Nat) (x : NodeId) (state : Nat × Hashtable F P M S) (e : Entry F P M S),
      Valid componentHash state.2 → entries state.2.nodes x = some e → e.name.length < fuel →
      ∀ extra, NameTree.eraseIfEmptyLoop canEraseAncestors (fuel + extra) (some x) state =
        NameTree.eraseIfEmptyLoop canEraseAncestors fuel (some x) state
  | 0, _, _, _, _, _, short, _ => absurd short (Nat.not_lt_zero _)
  | fuel + 1, x, (nErased, ht), e, valid, storedE, short, extra => by
      obtain ⟨n, stored, rfl⟩ : ∃ n, ht.nodes x = some n ∧ n.entry = e :=
        Option.map_eq_some_iff.mp storedE
      rw [Nat.add_right_comm]
      simp only [NameTree.eraseIfEmptyLoop, stored]
      split
      · rfl
      · rename_i empty
        have leaf := Entry.children_of_isEmpty (by simpa using empty)
        have removed := valid.eraseLeaf stored leaf
        split
        · rfl
        · cases hasParent : n.entry.parent with
          | none => simp only [eraseIfEmptyLoop_none]
          | some p =>
              obtain ⟨ep, storedP, named, -⟩ := valid.shape.parent_entry storedE hasParent
              have xNotP := valid.shape.ne_parent_of_leaf storedE leaf hasParent
              have storedAfter : entries ((unsetParent x ht).erase x).nodes p =
                  some { ep with children := ep.children.erase x } := by
                rw [entries_erase, Function.update_of_ne xNotP.symm,
                  entries_unsetParent ht xNotP stored hasParent storedP,
                  Function.update_of_ne xNotP.symm, Function.update_self]
              have nonRoot := List.length_pos_of_ne_nil
                (valid.shape.name_ne_nil_of_parent storedE hasParent)
              have shorter : ep.name.length < fuel := by
                rw [named, List.length_dropLast]
                omega
              simp only [hasParent, Option.isSome_some, if_true] at removed ⊢
              exact Valid.eraseIfEmptyLoop_fuel canEraseAncestors fuel p _
                { ep with children := ep.children.erase x } removed storedAfter shorter extra

/-- `eraseIfEmpty` stops within its bound: on a well-formed tree, any larger bound gives
the same result. -/
theorem Valid.eraseIfEmpty_fuel {nt : NameTree F P M S} (valid : Valid componentHash nt.ht)
    {entry : NodeId} {e : Entry F P M S} (stored : entries nt.ht.nodes entry = some e)
    (canEraseAncestors : Bool) (extra : Nat) :
    NameTree.eraseIfEmptyLoop canEraseAncestors (getMaxDepth + 1 + extra) (some entry) (0, nt.ht) =
      NameTree.eraseIfEmptyLoop canEraseAncestors (getMaxDepth + 1) (some entry) (0, nt.ht) :=
  Valid.eraseIfEmptyLoop_fuel canEraseAncestors _ entry _ e valid stored
    (Nat.lt_succ_of_le (valid.shape.depth_le entry e stored)) extra

end Erase

theorem Valid.updateEntry {ht : Hashtable F P M S} (valid : Valid componentHash ht) (id : NodeId)
    {f : Entry F P M S → Entry F P M S} (keeps : KeepsTree f) :
    Valid componentHash (updateEntry id f ht) := by
  obtain ⟨chains, layout⟩ := valid.layout
  refine ⟨⟨chains, layout.updateEntry id f fun e => (keeps e).1⟩, ?_⟩
  rw [entries_updateEntry]
  exact valid.shape.update_keeps id keeps

theorem Valid.ofOptions (options : HashtableOptions) :
    Valid componentHash (Hashtable.ofOptions options : Hashtable F P M S) := by
  have positive : 0 < options.initialSize :=
    lt_of_lt_of_le options.minSize_pos options.minSize_le_initialSize
  refine ⟨⟨List.replicate options.initialSize [], ?_⟩, ?_⟩
  · refine ⟨⟨?_, ?_, fun b bound => ?_, fun b id member => ?_⟩, ?_, ?_, ?_, ?_⟩
    · simpa [Hashtable.ofOptions, Hashtable.computeThresholds, Hashtable.getNBuckets] using positive
    · simp [Hashtable.ofOptions, Hashtable.computeThresholds, Hashtable.getNBuckets]
    · have empty : (List.replicate options.initialSize ([] : List NodeId)).getD b [] = [] := by
        simp only [List.getD_eq_getElem?_getD, List.getElem?_replicate]
        split <;> rfl
      have noHead : (Hashtable.ofOptions options : Hashtable F P M S).buckets.getD b none = none := by
        simp only [Hashtable.ofOptions, Hashtable.computeThresholds, List.getD_eq_getElem?_getD,
          List.getElem?_replicate]
        split <;> rfl
      rw [empty, noHead]
      exact LinkedChain.Chain.nil none
    · simp only [List.getD_eq_getElem?_getD, List.getElem?_replicate] at member
      split at member <;> simp at member
    · intro id n stored
      simp [Hashtable.ofOptions, Hashtable.computeThresholds] at stored
    · intro id n stored
      simp [Hashtable.ofOptions, Hashtable.computeThresholds] at stored
    · simp [Hashtable.ofOptions, Hashtable.computeThresholds]
    · intro id _
      simp [Hashtable.ofOptions, Hashtable.computeThresholds]
  · refine ⟨?_, ?_, ?_, ?_, ?_⟩ <;>
      simp [entries, Hashtable.ofOptions, Hashtable.computeThresholds]

section Run

/-- The operations the tables of the forwarder perform on the name tree. -/
inductive Op (F P M S : Type) where
  | lookup (name : Name) (prefixLen : Nat)
  | eraseIfEmpty (entry : NodeId) (canEraseAncestors : Bool)
  | setFibEntry (entry : NodeId) (fibEntry : Option F)
  | insertPitEntry (entry : NodeId) (pitEntry : P)
  | erasePitEntry (entry : NodeId) (pitEntry : P)
  | setMeasurementsEntry (entry : NodeId) (measurementsEntry : Option M)
  | setStrategyChoiceEntry (entry : NodeId) (strategyChoiceEntry : Option S)

/-- The assertions of `lookup`: `prefixLen <= name.size()` and `prefixLen <= getMaxDepth()`. -/
def Op.allowed : Op F P M S → Bool
  | .lookup name prefixLen => decide (prefixLen ≤ name.length ∧ prefixLen ≤ getMaxDepth)
  | _ => true

variable [DecidableEq P]

def Op.apply (componentHash : Component → HashValue) :
    Op F P M S → NameTree F P M S → NameTree F P M S
  | .lookup name prefixLen, nt => (nt.lookup componentHash name prefixLen).2
  | .eraseIfEmpty entry canEraseAncestors, nt => (nt.eraseIfEmpty entry canEraseAncestors).2
  | .setFibEntry entry fibEntry, nt => ⟨updateEntry entry (Entry.setFibEntry fibEntry) nt.ht⟩
  | .insertPitEntry entry pitEntry, nt => ⟨updateEntry entry (Entry.insertPitEntry pitEntry) nt.ht⟩
  | .erasePitEntry entry pitEntry, nt => ⟨updateEntry entry (Entry.erasePitEntry pitEntry) nt.ht⟩
  | .setMeasurementsEntry entry measurementsEntry, nt =>
      ⟨updateEntry entry (Entry.setMeasurementsEntry measurementsEntry) nt.ht⟩
  | .setStrategyChoiceEntry entry strategyChoiceEntry, nt =>
      ⟨updateEntry entry (Entry.setStrategyChoiceEntry strategyChoiceEntry) nt.ht⟩

def run (componentHash : Component → HashValue) (ops : List (Op F P M S))
    (nt : NameTree F P M S) : NameTree F P M S :=
  ops.foldl (fun nt op => op.apply componentHash nt) nt

theorem Valid.apply {nt : NameTree F P M S} (valid : Valid componentHash nt.ht)
    (op : Op F P M S) (allowed : op.allowed = true) :
    Valid componentHash (op.apply componentHash nt).ht := by
  cases op with
  | lookup name prefixLen =>
      simp only [Op.allowed, decide_eq_true_eq] at allowed
      exact (valid.lookup allowed.1 allowed.2).1
  | eraseIfEmpty entry canEraseAncestors => exact valid.eraseIfEmpty entry canEraseAncestors
  | setFibEntry entry fibEntry => exact valid.updateEntry entry (keepsTree_setFibEntry fibEntry)
  | insertPitEntry entry pitEntry => exact valid.updateEntry entry (keepsTree_insertPitEntry pitEntry)
  | erasePitEntry entry pitEntry => exact valid.updateEntry entry (keepsTree_erasePitEntry pitEntry)
  | setMeasurementsEntry entry measurementsEntry =>
      exact valid.updateEntry entry (keepsTree_setMeasurementsEntry measurementsEntry)
  | setStrategyChoiceEntry entry strategyChoiceEntry =>
      exact valid.updateEntry entry (keepsTree_setStrategyChoiceEntry strategyChoiceEntry)

theorem Valid.run {nt : NameTree F P M S} (valid : Valid componentHash nt.ht) (ops : List (Op F P M S))
    (allowed : ops.all Op.allowed = true) : Valid componentHash (nt.run componentHash ops).ht := by
  induction ops generalizing nt with
  | nil => exact valid
  | cons op rest inductionHypothesis =>
      simp only [List.all_cons, Bool.and_eq_true] at allowed
      exact inductionHypothesis (valid.apply op allowed.1) allowed.2

end Run

/-- A name tree some run of the operations, within their assertions, reaches from an
empty one. -/
def Reachable [DecidableEq P] (componentHash : Component → HashValue) (nt : NameTree F P M S) :
    Prop :=
  ∃ nBuckets positive ops, ops.all Op.allowed = true ∧
    nt = (NameTree.ofSize nBuckets positive).run componentHash ops

theorem Reachable.valid [DecidableEq P] {nt : NameTree F P M S}
    (reachable : Reachable componentHash nt) : Valid componentHash nt.ht := by
  obtain ⟨nBuckets, positive, ops, allowed, rfl⟩ := reachable
  exact Valid.run (Valid.ofOptions _) ops allowed

/-- The structural invariant of the name tree: names closed under `getPrefix(-1)`, parent
pointers to the entry of that prefix and each entry once among its parent's children,
children one component longer than their parent, distinct names, and a hash table whose
chains hold exactly its nodes, each in the bucket of its hash. -/
structure WellFormed (componentHash : Component → HashValue) (nt : NameTree F P M S) : Prop where
  prefix_closed : ∀ id e, entries nt.ht.nodes id = some e → e.name ≠ [] →
    ∃ p ep, entries nt.ht.nodes p = some ep ∧ ep.name = e.name.dropLast
  root_parent : ∀ id e, entries nt.ht.nodes id = some e → e.name = [] → e.parent = none
  parent_spec : ∀ id e, entries nt.ht.nodes id = some e → e.name ≠ [] →
    ∃ p ep, e.parent = some p ∧ entries nt.ht.nodes p = some ep ∧ ep.name = e.name.dropLast ∧
      ep.children.count id = 1
  child_name : ∀ id e c, entries nt.ht.nodes id = some e → c ∈ e.children →
    ∃ ec x, entries nt.ht.nodes c = some ec ∧ ec.name = e.name ++ [x]
  name_injective : ∀ a b ea eb, entries nt.ht.nodes a = some ea → entries nt.ht.nodes b = some eb →
    ea.name = eb.name → a = b
  layout : ∃ chains, Layout componentHash nt.ht chains

theorem Valid.wellFormed {nt : NameTree F P M S} (valid : Valid componentHash nt.ht) :
    WellFormed componentHash nt where
  prefix_closed := fun _ _ stored nonRoot => valid.shape.prefix_closed stored nonRoot
  root_parent := valid.shape.root_parent
  parent_spec := valid.shape.parent_spec
  child_name := fun _ _ _ stored member => by
    obtain ⟨ec, x, storedC, -, named⟩ := valid.shape.child_name stored member
    exact ⟨ec, x, storedC, named⟩
  name_injective := valid.shape.name_injective
  layout := valid.layout

/-- Every name tree reached from an empty one by `lookup` within its assertions,
`eraseIfEmpty` and the setters of the table entries is well formed. -/
theorem run_wellFormed [DecidableEq P] (componentHash : Component → HashValue) (nBuckets : Nat)
    (positive : 0 < nBuckets) (ops : List (Op F P M S)) (allowed : ops.all Op.allowed = true) :
    WellFormed componentHash ((NameTree.ofSize nBuckets positive).run componentHash ops) :=
  (Valid.run (Valid.ofOptions _) ops allowed).wellFormed

theorem run_wellFormed_lookupErase :
    WellFormed (fun c => UInt64.ofNat c.type)
      ((NameTree.ofSize (F := Unit) (P := Unit) (M := Unit) (S := Unit) 16 (by decide)).run
        (fun c => UInt64.ofNat c.type)
        [.lookup [⟨8, [97]⟩, ⟨8, [98]⟩] 2, .setFibEntry 1 (some ()), .eraseIfEmpty 2 true]) :=
  run_wellFormed _ 16 (by decide) _ (by decide)

/-- The bound `getMaxDepth() + 1` on the parent walk of `eraseIfEmpty` is never reached: on
every name tree a run reaches, any larger bound gives the same result, for every entry. -/
theorem eraseIfEmpty_bound_suffices [DecidableEq P] (componentHash : Component → HashValue) (nBuckets : Nat)
    (positive : 0 < nBuckets) (ops : List (Op F P M S)) (allowed : ops.all Op.allowed = true)
    (entry : NodeId) (canEraseAncestors : Bool) (extra : Nat) :
    eraseIfEmptyLoop canEraseAncestors (getMaxDepth + 1 + extra) (some entry)
        (0, ((NameTree.ofSize nBuckets positive).run componentHash ops).ht) =
      eraseIfEmptyLoop canEraseAncestors (getMaxDepth + 1) (some entry)
        (0, ((NameTree.ofSize nBuckets positive).run componentHash ops).ht) := by
  have valid : Valid componentHash ((NameTree.ofSize nBuckets positive).run componentHash ops).ht :=
    Valid.run (Valid.ofOptions _) ops allowed
  cases stored : entries ((NameTree.ofSize nBuckets positive).run componentHash ops).ht.nodes entry with
  | none =>
      -- no node at `entry`: the walk stops at once, whatever its bound
      have absent := Option.map_eq_none_iff.mp stored
      rw [Nat.add_right_comm]
      simp only [eraseIfEmptyLoop, absent]
  | some e => exact valid.eraseIfEmpty_fuel stored canEraseAncestors extra

theorem eraseIfEmpty_bound_suffices_lookupErase :
    [Op.lookup (F := Unit) (P := Unit) (M := Unit) (S := Unit) [⟨8, [97]⟩, ⟨8, [98]⟩] 2,
        .setFibEntry 1 (some ()), .eraseIfEmpty 2 true].all Op.allowed = true ∧
      eraseIfEmptyLoop true (getMaxDepth + 1 + 5) (some 2)
          (0, ((NameTree.ofSize (F := Unit) (P := Unit) (M := Unit) (S := Unit) 16 (by decide)).run (fun c => UInt64.ofNat c.type)
            [.lookup [⟨8, [97]⟩, ⟨8, [98]⟩] 2, .setFibEntry 1 (some ()), .eraseIfEmpty 2 true]).ht) =
        eraseIfEmptyLoop true (getMaxDepth + 1) (some 2)
          (0, ((NameTree.ofSize (F := Unit) (P := Unit) (M := Unit) (S := Unit) 16 (by decide)).run (fun c => UInt64.ofNat c.type)
            [.lookup [⟨8, [97]⟩, ⟨8, [98]⟩] 2, .setFibEntry 1 (some ()), .eraseIfEmpty 2 true]).ht) :=
  ⟨by decide, eraseIfEmpty_bound_suffices _ 16 (by decide) _ (by decide) 2 true 5⟩

end Nfd.NameTree
