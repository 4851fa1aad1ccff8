import Nfd.Table.NameTreeRun

/-!
# What the tables see of the name tree

The FIB, the PIT, the Measurements and the StrategyChoice tables read the name tree through
the entries that hold their table entries: the name of such an entry and the table entries
it holds (`tablesView`).  `lookup` adds entries that hold none and relinks parents and
children; `eraseIfEmpty` removes only entries that hold none.  Neither changes
`tablesView`, so what one table does to the shared name tree is invisible to the others.
-/

set_option autoImplicit false

namespace Nfd.NameTree

variable {F P M S : Type}

/-- The table entries an entry holds. -/
def Entry.tables (e : Entry F P M S) : Option F × List P × Option M × Option S :=
  (e.fibEntry, e.pitEntries, e.measurementsEntry, e.strategyChoiceEntry)

/-- The name and the table entries of each entry that holds table entries. -/
def tablesView (E : NodeId → Option (Entry F P M S)) (id : NodeId) :
    Option (Name × (Option F × List P × Option M × Option S)) :=
  (E id).bind fun e => if e.hasTableEntries then some (e.name, e.tables) else none

/-- An edit of an entry that leaves its name and its table entries alone. -/
def KeepsTables (f : Entry F P M S → Entry F P M S) : Prop :=
  ∀ e, (f e).name = e.name ∧ (f e).tables = e.tables

section Entry

variable {e e' : Entry F P M S}

theorem Entry.hasTableEntries_of_tables (same : e'.tables = e.tables) :
    e'.hasTableEntries = e.hasTableEntries := by
  simp only [Entry.tables, Prod.mk.injEq] at same
  simp only [Entry.hasTableEntries, same]

theorem Entry.pitEntries_of_hasTableEntries (holdsNone : e.hasTableEntries = false) :
    e.pitEntries = [] := by
  simp only [Entry.hasTableEntries, Bool.or_eq_false_iff, Bool.not_eq_false',
    List.isEmpty_iff] at holdsNone
  exact holdsNone.1.1.2

theorem Entry.hasTableEntries_of_isEmpty (empty : e.isEmpty = true) :
    e.hasTableEntries = false := by
  simp only [Entry.isEmpty, Bool.and_eq_true, Bool.not_eq_true'] at empty
  exact empty.2

theorem Entry.hasTableEntries_ofName (name : Name) :
    (Entry.ofName name : Entry F P M S).hasTableEntries = false := rfl

theorem Entry.hasTableEntries_of_mem_pitEntries {p : P} (member : p ∈ e.pitEntries) :
    e.hasTableEntries = true := by
  have nonEmpty : e.pitEntries.isEmpty = false := by
    cases pits : e.pitEntries with
    | nil => rw [pits] at member; cases member
    | cons _ _ => rfl
  simp [Entry.hasTableEntries, nonEmpty]

end Entry

section View

variable {E E' : NodeId → Option (Entry F P M S)}

/-- An entry that holds table entries is seen, with its name and table entries, in every
store with the same view. -/
theorem tablesView_stored (same : tablesView E' = tablesView E) {id : NodeId} {e : Entry F P M S}
    (stored : E id = some e) (holds : e.hasTableEntries = true) :
    ∃ e', E' id = some e' ∧ e'.name = e.name ∧ e'.tables = e.tables := by
  have viewIs : tablesView E' id = some (e.name, e.tables) := by
    rw [same]
    simp [tablesView, stored, holds]
  simp only [tablesView, Option.bind_eq_some_iff] at viewIs
  obtain ⟨e', stored', seen⟩ := viewIs
  split at seen
  · simp only [Option.some.injEq, Prod.mk.injEq] at seen
    exact ⟨e', stored', seen.1, seen.2⟩
  · cases seen

/-- The PIT entries at each address are part of what the tables see. -/
theorem pitEntries_of_tablesView (same : tablesView E' = tablesView E) (id : NodeId) :
    ((E' id).map Entry.pitEntries).getD [] = ((E id).map Entry.pitEntries).getD [] := by
  have throughView : ∀ E : NodeId → Option (Entry F P M S),
      ((E id).map Entry.pitEntries).getD [] = ((tablesView E id).map fun v => v.2.2.1).getD [] := by
    intro E
    cases stored : E id with
    | none => simp [tablesView, stored]
    | some e =>
        cases holds : e.hasTableEntries
        · simp [tablesView, stored, holds, Entry.pitEntries_of_hasTableEntries holds]
        · simp [tablesView, stored, holds, Entry.tables]
  rw [throughView E', throughView E, same]

/-- So are the name and the Measurements entry of each address that holds one. -/
theorem measurementsEntry_of_tablesView (same : tablesView E' = tablesView E) (id : NodeId) :
    (E' id).bind (fun e => e.measurementsEntry.map (e.name, ·)) =
      (E id).bind (fun e => e.measurementsEntry.map (e.name, ·)) := by
  have throughView : ∀ E : NodeId → Option (Entry F P M S),
      (E id).bind (fun e => e.measurementsEntry.map (e.name, ·)) =
        (tablesView E id).bind fun v => v.2.2.2.1.map (v.1, ·) := by
    intro E
    cases stored : E id with
    | none => simp [tablesView, stored]
    | some e =>
        cases holds : e.hasTableEntries
        · have holdsNone : e.measurementsEntry = none := by
            cases held : e.measurementsEntry with
            | none => rfl
            | some _ => simp [Entry.hasTableEntries, held] at holds
          simp [tablesView, stored, holds, holdsNone]
        · simp [tablesView, stored, holds, Entry.tables]
  rw [throughView E', throughView E, same]

/-- A property of entries that their table entries decide, and that entries holding none have,
holds of every entry of a store when it holds of every entry of a store with the same view. -/
theorem forall_of_tablesView {Q : Entry F P M S → Prop}
    (byTables : ∀ e e', e'.tables = e.tables → Q e → Q e') (vacant : ∀ e, e.hasTableEntries = false → Q e)
    (same : tablesView E' = tablesView E) (all : ∀ id e, E id = some e → Q e) :
    ∀ id e, E' id = some e → Q e := by
  intro id e' stored'
  cases holds : e'.hasTableEntries
  · exact vacant e' holds
  · obtain ⟨e, stored, -, sameTables⟩ := tablesView_stored same.symm stored' holds
    exact byTables e e' sameTables.symm (all id e stored)

end View

section Update

variable (E : NodeId → Option (Entry F P M S)) {id : NodeId}

theorem tablesView_eq_none_iff :
    tablesView E id = none ↔ ∀ e, E id = some e → e.hasTableEntries = false := by
  cases stored : E id with
  | none => simp [tablesView, stored]
  | some e => simp [tablesView, stored]

theorem tablesView_update_keeps {e e' : Entry F P M S} (stored : E id = some e)
    (sameName : e'.name = e.name) (sameTables : e'.tables = e.tables) :
    tablesView (Function.update E id (some e')) = tablesView E := by
  funext j
  by_cases isId : j = id
  · subst isId
    simp only [tablesView, Function.update_self, stored, Option.bind_some,
      Entry.hasTableEntries_of_tables sameTables, sameName, sameTables]
  · simp only [tablesView, Function.update_of_ne isId]

theorem tablesView_update_fresh {e' : Entry F P M S} (fresh : E id = none)
    (holdsNone : e'.hasTableEntries = false) :
    tablesView (Function.update E id (some e')) = tablesView E := by
  funext j
  by_cases isId : j = id
  · subst isId
    simp [tablesView, fresh, holdsNone]
  · simp only [tablesView, Function.update_of_ne isId]

theorem tablesView_update_none (holdsNone : ∀ e, E id = some e → e.hasTableEntries = false) :
    tablesView (Function.update E id none) = tablesView E := by
  funext j
  by_cases isId : j = id
  · subst isId
    cases stored : E j with
    | none => simp [tablesView, stored]
    | some e => simp [tablesView, stored, holdsNone e stored]
  · simp only [tablesView, Function.update_of_ne isId]

end Update

section Operations

variable (ht : Hashtable F P M S)

theorem tablesView_updateEntry (id : NodeId) {f : Entry F P M S → Entry F P M S}
    (keeps : KeepsTables f) :
    tablesView (entries (updateEntry id f ht).nodes) = tablesView (entries ht.nodes) := by
  rw [entries_updateEntry]
  cases stored : entries ht.nodes id with
  | none => rw [Option.map_none, ← stored, Function.update_eq_self]
  | some e => exact tablesView_update_keeps _ stored (keeps e).1 (keeps e).2

theorem tablesView_setParent (child parent : NodeId) :
    tablesView (entries (setParent child parent ht).nodes) = tablesView (entries ht.nodes) := by
  simp only [NameTree.setParent]
  refine (tablesView_updateEntry _ parent ?_).trans (tablesView_updateEntry _ child ?_) <;>
    exact fun _ => ⟨rfl, rfl⟩

theorem tablesView_unsetParent (child : NodeId) :
    tablesView (entries (unsetParent child ht).nodes) = tablesView (entries ht.nodes) := by
  unfold NameTree.unsetParent
  split
  · rfl
  · refine (tablesView_updateEntry _ child ?_).trans (tablesView_updateEntry _ _ ?_) <;>
      exact fun _ => ⟨rfl, rfl⟩

theorem tablesView_erase {node : NodeId}
    (holdsNone : ∀ e, entries ht.nodes node = some e → e.hasTableEntries = false) :
    tablesView (entries (ht.erase node).nodes) = tablesView (entries ht.nodes) := by
  rw [entries_erase]
  exact tablesView_update_none _ holdsNone

/-- An edit of one entry that keeps a property of entries keeps it of every entry. -/
theorem forall_updateEntry {Q : Entry F P M S → Prop} (all : ∀ y e, entries ht.nodes y = some e → Q e)
    (id : NodeId) {f : Entry F P M S → Entry F P M S} (keeps : ∀ e, Q e → Q (f e)) :
    ∀ y e, entries (updateEntry id f ht).nodes y = some e → Q e := by
  intro y e stored
  rw [entries_updateEntry, update_eq_some_iff] at stored
  rcases stored with ⟨-, edited⟩ | ⟨-, stored⟩
  · obtain ⟨e0, stored0, rfl⟩ := Option.map_eq_some_iff.mp edited
    exact keeps e0 (all id e0 stored0)
  · exact all y e stored

end Operations

section Lookup

variable {componentHash : Component → HashValue} {chains : List (List NodeId)}

/-- A round of `lookup` inserts at the next free address an entry that holds no table
entries, and links it below its parent. -/
theorem Layout.tablesView_lookupStep {state : Option NodeId × Hashtable F P M S}
    (layout : Layout componentHash state.2 chains) (name : Name) (hashes : List HashValue)
    (i : Nat) :
    tablesView (entries (NameTree.lookupStep name hashes state i).2.nodes) =
      tablesView (entries state.2.nodes) := by
  cases found : state.2.search name i (hashes.getD i 0) with
  | some id => rw [lookupStep_found found]
  | none =>
      have inserted : tablesView (entries (state.2.insert name i hashes).2.nodes) =
          tablesView (entries state.2.nodes) := by
        rw [entries_insert_missing state.2 found]
        exact tablesView_update_fresh _
          (by simp [entries, layout.unallocated state.2.nextNodeId le_rfl])
          (Entry.hasTableEntries_ofName _)
      rw [lookupStep_missing found]
      cases state.1 with
      | none => exact inserted
      | some parent => rw [tablesView_setParent, inserted]

theorem Layout.tablesView_foldl_lookupStep {name : Name} {hashes : List HashValue} :
    ∀ (indices : List Nat) (state : Option NodeId × Hashtable F P M S),
      (∀ i ∈ indices, hashes.getD i 0 = computeHash componentHash name i) →
      (∃ chains, Layout componentHash state.2 chains) →
      tablesView (entries (indices.foldl (NameTree.lookupStep name hashes) state).2.nodes) =
        tablesView (entries state.2.nodes)
  | [], _, _, _ => rfl
  | i :: rest, state, hashed, ⟨_, layout⟩ => by
      rw [List.foldl_cons, Layout.tablesView_foldl_lookupStep rest _
        (fun j member => hashed j (List.mem_cons_of_mem i member))
        (layout.lookupStep (hashed i List.mem_cons_self)), layout.tablesView_lookupStep]

theorem Layout.tablesView_lookup {nt : NameTree F P M S} (layout : Layout componentHash nt.ht chains)
    {name : Name} {prefixLen : Nat} (withinName : prefixLen ≤ name.length) :
    tablesView (entries (nt.lookup componentHash name prefixLen).2.ht.nodes) =
      tablesView (entries nt.ht.nodes) := by
  refine Layout.tablesView_foldl_lookupStep _ _ (fun i member => ?_) ⟨chains, layout⟩
  have below : i ≤ prefixLen := Nat.le_of_lt_succ (List.mem_range.mp member)
  exact computeHashes_getD name below (below.trans withinName)

end Lookup

section Erase

/-- A round of `eraseIfEmpty` erases only an entry that holds no table entries. -/
theorem tablesView_eraseIfEmptyLoop (canEraseAncestors : Bool) :
    ∀ (fuel : Nat) (entry : Option NodeId) (state : Nat × Hashtable F P M S),
      tablesView (entries (NameTree.eraseIfEmptyLoop canEraseAncestors fuel entry state).2.nodes) =
        tablesView (entries state.2.nodes)
  | 0, _, _ => rfl
  | _ + 1, none, _ => rfl
  | fuel + 1, some x, (nErased, ht) => by
      cases stored : ht.nodes x with
      | none => simp only [NameTree.eraseIfEmptyLoop, stored]
      | some n =>
          simp only [NameTree.eraseIfEmptyLoop, stored]
          split
          · rfl
          · rename_i empty
            have holdsNone : n.entry.hasTableEntries = false :=
              Entry.hasTableEntries_of_isEmpty (by simpa using empty)
            have viewNone : tablesView (entries ht.nodes) x = none :=
              (tablesView_eq_none_iff _).mpr fun e storedE => by
                simp only [entries, stored, Option.map_some, Option.some.injEq] at storedE
                exact storedE ▸ holdsNone
            -- unlinking from the parent keeps what the tables see, so the entry still holds none
            have unlinked : tablesView (entries (if n.entry.parent.isSome then unsetParent x ht
                else ht).nodes) = tablesView (entries ht.nodes) := by
              split
              · exact tablesView_unsetParent ht x
              · rfl
            have erased : tablesView (entries ((if n.entry.parent.isSome then unsetParent x ht
                else ht).erase x).nodes) = tablesView (entries ht.nodes) := by
              rw [tablesView_erase _ ((tablesView_eq_none_iff _).mp (by rw [unlinked]; exact viewNone)),
                unlinked]
            split
            · exact erased
            · rw [tablesView_eraseIfEmptyLoop canEraseAncestors fuel, erased]

theorem tablesView_eraseIfEmpty (nt : NameTree F P M S) (entry : NodeId) (canEraseAncestors : Bool) :
    tablesView (entries (nt.eraseIfEmpty entry canEraseAncestors).2.ht.nodes) =
      tablesView (entries nt.ht.nodes) :=
  tablesView_eraseIfEmptyLoop canEraseAncestors _ _ _

end Erase

end Nfd.NameTree
