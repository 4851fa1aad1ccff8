import Mathlib
import Nfd.Table.NameTreeIterator
import Nfd.Table.NameTreeTables
import Nfd.Fw.StrategyRegistry

/-!
# The StrategyChoice table

`StrategyChoice` keeps its entries in the name tree it shares with the FIB, the PIT and the
Measurements: an entry is the `strategyChoiceEntry` of the name tree entry of its prefix.
`setDefaultStrategy` sets the entry of the root, and the effective strategy of a name is the
strategy of its longest prefix match among the name tree entries that hold one.

A strategy is represented by its instance name.  `Strategy::create` is a parameter that gives
the instance name of the strategy it makes, `none` when the name is not registered, or the
message of the `std::invalid_argument` its constructor throws.  `changeStrategy` returns the
name tree entries it calls `clearStrategyInfo` on.  It recognises the entry of the changed
prefix by its name; a name tree holds one entry per name, so this is the entry the source
compares addresses with.

The entries `changeStrategy` clears are those of the subtree of the changed prefix, pruned at
every other entry that holds a StrategyChoice entry; on a well-formed tree these are exactly
the entries whose longest match is the changed one (`Valid.partialEnumerate_cover`).
-/

set_option autoImplicit false
namespace Nfd.NameTree

open PrunedTree

variable {F P M S : Type}

section Cover

variable {E : NodeId → Option (Entry F P M S)} {pred : Entry F P M S → Bool}

/-- The selector that walks the subtree of the entry of `prefixName` and prunes it at every
other entry that `pred` accepts. -/
def coverSelector (pred : Entry F P M S → Bool) (prefixName : Name) (nte : Entry F P M S) :
    Bool × Bool :=
  if nte.name = prefixName then (true, true) else if pred nte then (false, false) else (true, true)

theorem selectAt_cover_pruned {prefixName : Name} {z : NodeId} {ez : Entry F P M S}
    (stored : E z = some ez) (other : ez.name ≠ prefixName) (accepted : pred ez = true) :
    selectAt E (coverSelector pred prefixName) z = (false, false) := by
  simp [selectAt, coverSelector, stored, other, accepted]

variable (shape : Shape E)
include shape

/-- On a path from `x` to `y`, an entry whose name is longer than `x`'s and a prefix of `y`'s
is `y` or an entry the path goes through. -/
theorem Shape.through_of_reaches {through : NodeId → Bool} {x y z : NodeId}
    {ex ey ez : Entry F P M S} (reach : Reaches (childrenOf E) through x y)
    (storedX : E x = some ex) (storedY : E y = some ey) (storedZ : E z = some ez)
    (below : ex.name.length < ez.name.length) (above : ez.name <+: ey.name) :
    z = y ∨ through z = true := by
  induction reach generalizing ex with
  | refl =>
      rw [storedX, Option.some.injEq] at storedY
      subst storedY
      have := above.length_le
      omega
  | @child x c y wants member rest inductionHypothesis =>
      obtain ⟨ex', storedX', memberChildren⟩ := exists_of_mem_childrenOf member
      rw [storedX, Option.some.injEq] at storedX'
      subst storedX'
      obtain ⟨ec, w, storedC, -, namedC⟩ := shape.child_name storedX memberChildren
      by_cases deeper : ec.name.length < ez.name.length
      · exact inductionHypothesis storedC storedY deeper
      · -- `z` is the child on the path: both names are prefixes of `y`'s, of one length
        obtain ⟨ey', storedY', cPrefix⟩ := shape.prefix_of_reaches rest storedC
        rw [storedY, Option.some.injEq] at storedY'
        subst storedY'
        have sameLength : ez.name.length = ec.name.length := by
          rw [namedC, List.length_append, List.length_singleton] at deeper ⊢
          omega
        have sameName : ez.name = ec.name :=
          (List.prefix_of_prefix_length_le above cPrefix sameLength.le).eq_of_length sameLength
        have isC : z = c := shape.name_injective z c ez ec storedZ storedC sameName
        subst isC
        cases rest with
        | refl => exact .inl rfl
        | child wantsZ _ _ => exact .inr wantsZ

/-- An entry the cover selector visits from the entry of a prefix that `pred` accepts has that
entry as the longest match of its name. -/
theorem Shape.longestMatch_of_reaches {ref x : NodeId} {er ex : Entry F P M S}
    (storedRef : E ref = some er) (accepted : pred er = true) (storedX : E x = some ex)
    (reach : Reaches (childrenOf E) (fun a => (selectAt E (coverSelector pred er.name) a).2) ref x)
    (visited : (selectAt E (coverSelector pred er.name) x).1 = true) :
    LongestMatch E ex.name pred (some ref) := by
  obtain ⟨ex', storedX', isPrefix⟩ := shape.prefix_of_reaches reach storedRef
  rw [storedX, Option.some.injEq] at storedX'
  subst storedX'
  have shallow := shape.depth_le ref er storedRef
  have shorter := isPrefix.length_le
  refine ⟨er.name.length, by omega, ⟨er, storedRef, List.prefix_iff_eq_take.mp isPrefix, accepted⟩, ?_⟩
  rintro j z withinJ ⟨ez, storedZ, namedZ, acceptedZ⟩
  by_contra longer
  have lengthZ : ez.name.length = j := by
    rw [namedZ, List.length_take]
    omega
  have other : ez.name ≠ er.name := fun same => by
    rw [same] at lengthZ
    omega
  have pruned := selectAt_cover_pruned storedZ other acceptedZ
  -- a longer accepted prefix would be pruned, yet it lies on the path or is `x` itself
  rcases shape.through_of_reaches reach storedRef storedX storedZ (by omega)
      (namedZ ▸ List.take_prefix j ex.name) with rfl | entered
  · rw [pruned] at visited
    cases visited
  · rw [pruned] at entered
    cases entered

/-- The cover selector visits, and walks into, every entry whose longest match is the entry of
the prefix. -/
theorem Shape.selectAt_cover_of_longestMatch {ref x : NodeId} {er ex : Entry F P M S}
    (storedRef : E ref = some er) (storedX : E x = some ex)
    (longest : LongestMatch E ex.name pred (some ref)) :
    selectAt E (coverSelector pred er.name) x = (true, true) := by
  obtain ⟨k, -, ⟨er', storedRef', namedRef, -⟩, above⟩ := longest
  rw [storedRef, Option.some.injEq] at storedRef'
  subst storedRef'
  by_cases accepted : pred ex = true
  · -- then `x` matches its own name at full length, so it is the entry of the prefix
    have full := above ex.name.length x (by have := shape.depth_le x ex storedX; omega)
      ⟨ex, storedX, List.take_length.symm, accepted⟩
    have named : ex.name = er.name := by rw [namedRef, List.take_of_length_le full]
    simp [selectAt, coverSelector, storedX, named]
  · simp [selectAt, coverSelector, storedX, accepted]

/-- Every entry `d` components below the entry of the prefix whose longest match is that entry
is reached from it through entries the cover selector walks into. -/
theorem Shape.reaches_of_longestMatch {ref : NodeId} {er : Entry F P M S} (storedRef : E ref = some er)
    (d : Nat) : ∀ {x : NodeId} {ex : Entry F P M S}, E x = some ex →
      ex.name.length = er.name.length + d → LongestMatch E ex.name pred (some ref) →
      Reaches (childrenOf E) (fun a => (selectAt E (coverSelector pred er.name) a).2) ref x := by
  induction d with
  | zero =>
      intro x ex storedX sameLength longest
      have named : er.name = ex.name := ((longest.prefix_of_some storedRef).1).eq_of_length (by omega)
      rw [shape.name_injective x ref ex er storedX storedRef named.symm]
      exact .refl ref
  | succ d inductionHypothesis =>
      intro x ex storedX longer longest
      have nonRoot : ex.name ≠ [] := by
        intro isNil
        rw [isNil] at longer
        simp at longer
      obtain ⟨p, ep, -, storedP, namedP, once⟩ := shape.parent_spec x ex storedX nonRoot
      -- the parent's name has the same longest match, one component closer to the prefix
      have parentLongest : LongestMatch E ep.name pred (some ref) := by
        rw [namedP, List.dropLast_eq_take]
        exact longest.take_of_le storedRef (by omega)
      have reachP := inductionHypothesis storedP (by rw [namedP, List.length_dropLast]; omega)
        parentLongest
      have enteredP := shape.selectAt_cover_of_longestMatch storedRef storedP parentLongest
      have member : x ∈ childrenOf E p := by
        simp only [childrenOf, storedP, Option.map_some, Option.getD_some]
        exact List.count_pos_iff.mp (by omega)
      exact reachP.trans (.child (by rw [enteredP]) member (.refl x))

end Cover

variable {componentHash : Component → HashValue} {pred : Entry F P M S → Bool}

/-- On a valid name tree, the cover enumeration from the entry of a prefix that `pred` accepts
visits, once each, exactly the entries whose longest match is that entry. -/
theorem Valid.partialEnumerate_cover {nt : NameTree F P M S} (valid : Valid componentHash nt.ht)
    {ref : NodeId} {er : Entry F P M S} (storedRef : entries nt.ht.nodes ref = some er)
    (accepted : pred er = true) :
    ∃ visited, nt.partialEnumerate componentHash er.name (coverSelector pred er.name) = some visited ∧
      visited.Nodup ∧ ∀ x, x ∈ visited ↔
        ∃ ex, entries nt.ht.nodes x = some ex ∧ LongestMatch (entries nt.ht.nodes) ex.name pred (some ref) := by
  have shape := valid.shape
  obtain ⟨visited, enumerated, nodup, visits⟩ := valid.partialEnumerate_visits er.name (coverSelector pred er.name)
  refine ⟨visited, enumerated, nodup, fun x => ?_⟩
  rw [visits x]
  constructor
  · rintro ⟨ref', ⟨er', storedRef', named⟩, reach, visitedX⟩
    have isRef : ref' = ref := shape.name_injective ref' ref er' er storedRef' storedRef named
    subst isRef
    rw [storedRef, Option.some.injEq] at storedRef'
    subst storedRef'
    obtain ⟨ex, storedX, -⟩ := shape.prefix_of_reaches reach storedRef
    exact ⟨ex, storedX, shape.longestMatch_of_reaches storedRef accepted storedX reach visitedX⟩
  · rintro ⟨ex, storedX, longest⟩
    have shorter := (longest.prefix_of_some storedRef).1.length_le
    refine ⟨ref, ⟨er, storedRef, rfl⟩,
      shape.reaches_of_longestMatch storedRef (ex.name.length - er.name.length) storedX (by omega) longest, ?_⟩
    rw [shape.selectAt_cover_of_longestMatch storedRef storedX longest]

end Nfd.NameTree

namespace Nfd.StrategyChoice

open NameTree PrunedTree

/-- `strategy_choice::Entry`: a prefix and the instance name of the strategy chosen for it. -/
structure Entry where
  prefixName : Name
  strategyInstanceName : Name
deriving DecidableEq, Repr

/-- `StrategyChoice::InsertResult`. -/
inductive InsertResult where
  | ok
  | notRegistered
  | exception (message : String)
  | depthExceeded
deriving DecidableEq, Repr

end Nfd.StrategyChoice

namespace Nfd

structure StrategyChoice (F P M : Type) where
  nameTree : NameTree F P M StrategyChoice.Entry
  nItems : Nat

end Nfd

namespace Nfd.StrategyChoice

open NameTree PrunedTree

variable {F P M : Type}

def strategyChoiceEntryAt (nameTree : NameTree F P M Entry) (nte : NodeId) : Option Entry :=
  (entries nameTree.ht.nodes nte).bind NameTree.Entry.strategyChoiceEntry

def nteHasStrategyChoiceEntry (nte : NameTree.Entry F P M Entry) : Bool := nte.strategyChoiceEntry.isSome

/-- `nte.setStrategyChoiceEntry(entry)` on the name tree entry at `nte`. -/
def setStrategyChoiceEntry (nte : NodeId) (entry : Option Entry) (nameTree : NameTree F P M Entry) :
    NameTree F P M Entry :=
  ⟨updateEntry nte (NameTree.Entry.setStrategyChoiceEntry entry) nameTree.ht⟩

/-- The selector of `changeStrategy`: the entry of the changed prefix and its descendants, except
those under another StrategyChoice entry. -/
def changeStrategySelector (prefixName : Name) (nte : NameTree.Entry F P M Entry) : Bool × Bool :=
  -- `&nte == rootNte`: the entry of the prefix is the one with its name
  if nte.name = prefixName then (true, true)
  else if nte.strategyChoiceEntry.isSome then (false, false)
  else (true, true)

section View

/-- The name and the StrategyChoice entry of each name tree entry that holds one. -/
def strategyChoiceView (E : NodeId → Option (NameTree.Entry F P M Entry)) (id : NodeId) :
    Option (Name × Entry) :=
  (E id).bind fun e => e.strategyChoiceEntry.map fun entry => (e.name, entry)

variable {E E' : NodeId → Option (NameTree.Entry F P M Entry)}

theorem strategyChoiceView_eq_some {id : NodeId} {name : Name} {entry : Entry} :
    strategyChoiceView E id = some (name, entry) ↔
      ∃ e, E id = some e ∧ e.name = name ∧ e.strategyChoiceEntry = some entry := by
  cases stored : E id with
  | none => simp [strategyChoiceView, stored]
  | some e => cases held : e.strategyChoiceEntry <;> simp [strategyChoiceView, stored, held]

theorem strategyChoiceEntryAt_eq_view (nameTree : NameTree F P M Entry) (nte : NodeId) :
    strategyChoiceEntryAt nameTree nte =
      (strategyChoiceView (entries nameTree.ht.nodes) nte).map Prod.snd := by
  cases stored : entries nameTree.ht.nodes nte with
  | none => simp [strategyChoiceEntryAt, strategyChoiceView, stored]
  | some e =>
      cases held : e.strategyChoiceEntry <;>
        simp [strategyChoiceEntryAt, strategyChoiceView, stored, held]

theorem matches_iff_view {name : Name} {j : Nat} {id : NodeId} :
    Matches E name nteHasStrategyChoiceEntry j id ↔
      ∃ entry, strategyChoiceView E id = some (name.take j, entry) := by
  cases stored : E id with
  | none => simp [Matches, strategyChoiceView, stored]
  | some e =>
      cases held : e.strategyChoiceEntry <;>
        simp [Matches, strategyChoiceView, stored, held, nteHasStrategyChoiceEntry]

/-- Longest matches among the StrategyChoice entries depend only on what the view shows. -/
theorem longestMatch_of_view (same : strategyChoiceView E' = strategyChoiceView E) {name : Name}
    {result : Option NodeId} :
    LongestMatch E' name nteHasStrategyChoiceEntry result ↔
      LongestMatch E name nteHasStrategyChoiceEntry result := by
  cases result <;> simp only [LongestMatch, matches_iff_view, same]

/-- What the tables see of the name tree includes the StrategyChoice entries. -/
theorem strategyChoiceView_of_tablesView (same : tablesView E' = tablesView E) :
    strategyChoiceView E' = strategyChoiceView E := by
  have throughTables : ∀ E : NodeId → Option (NameTree.Entry F P M Entry), strategyChoiceView E =
      fun id => (tablesView E id).bind fun seen => seen.2.2.2.2.map fun entry => (seen.1, entry) := by
    intro E
    funext id
    cases stored : E id with
    | none => simp [strategyChoiceView, tablesView, stored]
    | some e =>
        cases holds : e.hasTableEntries
        · have held : e.strategyChoiceEntry = none := by
            simp only [NameTree.Entry.hasTableEntries, Bool.or_eq_false_iff] at holds
            simpa using holds.2
          simp [strategyChoiceView, tablesView, stored, holds, held]
        · simp [strategyChoiceView, tablesView, stored, holds, NameTree.Entry.tables]
  rw [throughTables E', throughTables E, same]

/-- An edit of a name tree entry that keeps its name and its StrategyChoice entry. -/
theorem strategyChoiceView_updateEntry (ht : Hashtable F P M Entry) (id : NodeId)
    {f : NameTree.Entry F P M Entry → NameTree.Entry F P M Entry}
    (keeps : ∀ e, (f e).name = e.name ∧ (f e).strategyChoiceEntry = e.strategyChoiceEntry) :
    strategyChoiceView (entries (updateEntry id f ht).nodes) = strategyChoiceView (entries ht.nodes) := by
  funext j
  rw [entries_updateEntry]
  by_cases isId : j = id
  · subst isId
    cases stored : entries ht.nodes j <;> simp [strategyChoiceView, stored, (keeps _).1, (keeps _).2]
  · simp [strategyChoiceView, Function.update_of_ne isId]

theorem strategyChoiceView_setStrategyChoiceEntry (nameTree : NameTree F P M Entry) (nte : NodeId)
    (entry : Option Entry) (id : NodeId) :
    strategyChoiceView (entries (setStrategyChoiceEntry nte entry nameTree).ht.nodes) id =
      if id = nte then (entries nameTree.ht.nodes nte).bind fun e => entry.map fun entry => (e.name, entry)
      else strategyChoiceView (entries nameTree.ht.nodes) id := by
  simp only [setStrategyChoiceEntry, entries_updateEntry]
  by_cases isNte : id = nte
  · subst isNte
    cases entries nameTree.ht.nodes id <;> simp [strategyChoiceView, NameTree.Entry.setStrategyChoiceEntry]
  · simp [strategyChoiceView, isNte]

end View

section Table

section Keyed

variable (componentHash : Component → HashValue) (getSuccessor : Name → Name) (registry : List Name)

/-- `findEffectiveStrategy(prefix)`: the strategy of the longest prefix match that holds a
StrategyChoice entry. -/
def findEffectiveStrategy (prefixName : Name) (sc : StrategyChoice F P M) : Option Name :=
  (sc.nameTree.findLongestPrefixMatch componentHash prefixName nteHasStrategyChoiceEntry).bind fun nte =>
    (strategyChoiceEntryAt sc.nameTree nte).map Entry.strategyInstanceName

/-- `findEffectiveStrategy(pitEntry)`, for a PIT entry attached to the name tree entry `nte`
whose Interest is named `pitName`. -/
def findEffectiveStrategyOfPitEntry (nte : NodeId) (pitName : Name) (sc : StrategyChoice F P M) : Option Name :=
  (sc.nameTree.findLongestPrefixMatchOfPitEntry componentHash nte pitName nteHasStrategyChoiceEntry).bind
    fun nte => (strategyChoiceEntryAt sc.nameTree nte).map Entry.strategyInstanceName

/-- `findEffectiveStrategy(measurementsEntry)`, for the Measurements entry held by the name tree
entry `nte`. -/
def findEffectiveStrategyOfMeasurementsEntry (nte : NodeId) (sc : StrategyChoice F P M) : Option Name :=
  (sc.nameTree.findLongestPrefixMatchOfEntry nte nteHasStrategyChoiceEntry).bind fun nte =>
    (strategyChoiceEntryAt sc.nameTree nte).map Entry.strategyInstanceName

/-- `changeStrategy(entry, oldStrategy, newStrategy)`: the entries whose StrategyInfo is cleared. -/
def changeStrategy (prefixName oldInstanceName newInstanceName : Name) (sc : StrategyChoice F P M) :
    List NodeId :=
  if Fw.Strategy.areSameType getSuccessor registry oldInstanceName newInstanceName then []
  else (sc.nameTree.partialEnumerate componentHash prefixName (changeStrategySelector prefixName)).getD []

/-- `setDefaultStrategy(strategyName)`, given the instance name of the strategy made for it. -/
def setDefaultStrategy (instanceName : Name) (sc : StrategyChoice F P M) : StrategyChoice F P M :=
  let looked := sc.nameTree.lookup componentHash [] 0
  match looked.1 with
  | some nte => ⟨setStrategyChoiceEntry nte (some ⟨[], instanceName⟩) looked.2, sc.nItems + 1⟩
  | none => { sc with nameTree := looked.2 }

/-- The part of `insert(prefix, strategyName)` after the strategy is made: the table after it,
and the entries whose StrategyInfo is cleared. -/
def insertInstance (prefixName instanceName : Name) (sc : StrategyChoice F P M) :
    StrategyChoice F P M × List NodeId :=
  let looked := sc.nameTree.lookup componentHash prefixName prefixName.length
  let sc := { sc with nameTree := looked.2 }
  match looked.1 with
  | none => (sc, [])
  | some nte =>
      match strategyChoiceEntryAt sc.nameTree nte with
      | some entry =>
          if entry.strategyInstanceName = instanceName then (sc, [])
          else
            let cleared := changeStrategy componentHash getSuccessor registry entry.prefixName
              entry.strategyInstanceName instanceName sc
            let changed := { entry with strategyInstanceName := instanceName }
            ({ sc with nameTree := setStrategyChoiceEntry nte (some changed) sc.nameTree }, cleared)
      | none =>
          let oldStrategy := findEffectiveStrategy componentHash prefixName sc
          -- the new entry is in place before `changeStrategy`, and its strategy set after
          let sc := ⟨setStrategyChoiceEntry nte (some ⟨prefixName, instanceName⟩) sc.nameTree,
            sc.nItems + 1⟩
          let cleared := match oldStrategy with
            | some old => changeStrategy componentHash getSuccessor registry prefixName old instanceName sc
            | none => []
          (sc, cleared)

/-- `insert(prefix, strategyName)`: the result, the table after it, and the entries whose
StrategyInfo is cleared. -/
def insert (create : Name → Except String (Option Name)) (prefixName strategyName : Name)
    (sc : StrategyChoice F P M) : InsertResult × StrategyChoice F P M × List NodeId :=
  if prefixName.length > getMaxDepth then (.depthExceeded, sc, [])
  else
    match create strategyName with
    | .error message => (.exception message, sc, [])
    | .ok none => (.notRegistered, sc, [])
    | .ok (some instanceName) =>
        let inserted := insertInstance componentHash getSuccessor registry prefixName instanceName sc
        (.ok, inserted.1, inserted.2)

/-- `erase(prefix)`: the table after it, and the entries whose StrategyInfo is cleared. -/
def erase (prefixName : Name) (sc : StrategyChoice F P M) : StrategyChoice F P M × List NodeId :=
  match sc.nameTree.findExactMatch componentHash prefixName prefixName.length with
  | none => (sc, [])
  | some nte =>
      match strategyChoiceEntryAt sc.nameTree nte with
      | none => (sc, [])
      | some entry =>
          let cleared := match findEffectiveStrategy componentHash prefixName.dropLast sc with
            | some parentStrategy => changeStrategy componentHash getSuccessor registry entry.prefixName
                entry.strategyInstanceName parentStrategy sc
            | none => []
          let nameTree := setStrategyChoiceEntry nte none sc.nameTree
          (⟨(nameTree.eraseIfEmpty nte true).2, sc.nItems - 1⟩, cleared)

end Keyed

section Invariant

variable {componentHash : Component → HashValue} (getSuccessor : Name → Name) (registry : List Name)

/-- The entry at `x` has the StrategyChoice entry at `ref` as its effective one. -/
def Covered (sc : StrategyChoice F P M) (ref x : NodeId) : Prop :=
  ∃ ex, entries sc.nameTree.ht.nodes x = some ex ∧
    LongestMatch (entries sc.nameTree.ht.nodes) ex.name nteHasStrategyChoiceEntry (some ref)

variable (componentHash) in
/-- A well-formed name tree whose root holds a StrategyChoice entry, and every entry held by the
name tree entry of its prefix. -/
structure Invariant (sc : StrategyChoice F P M) : Prop where
  valid : Valid componentHash sc.nameTree.ht
  root_set : ∃ root entry, strategyChoiceView (entries sc.nameTree.ht.nodes) root = some ([], entry)
  named : ∀ x name entry, strategyChoiceView (entries sc.nameTree.ht.nodes) x = some (name, entry) →
    entry.prefixName = name

variable {sc sc' : StrategyChoice F P M}

theorem Invariant.of_view (inv : Invariant componentHash sc) (valid : Valid componentHash sc'.nameTree.ht)
    (same : strategyChoiceView (entries sc'.nameTree.ht.nodes) =
      strategyChoiceView (entries sc.nameTree.ht.nodes)) :
    Invariant componentHash sc' where
  valid := valid
  root_set := by
    rw [same]
    exact inv.root_set
  named := by
    rw [same]
    exact inv.named

theorem strategyChoiceView_lookup {nameTree : NameTree F P M Entry} (valid : Valid componentHash nameTree.ht)
    {name : Name} {prefixLen : Nat} (withinName : prefixLen ≤ name.length) :
    strategyChoiceView (entries (nameTree.lookup componentHash name prefixLen).2.ht.nodes) =
      strategyChoiceView (entries nameTree.ht.nodes) := by
  obtain ⟨chains, layout⟩ := valid.layout
  exact strategyChoiceView_of_tablesView (layout.tablesView_lookup withinName)

theorem Invariant.lookup (inv : Invariant componentHash sc) {name : Name} {prefixLen : Nat}
    (withinName : prefixLen ≤ name.length) (shallow : prefixLen ≤ getMaxDepth) :
    Invariant componentHash { sc with nameTree := (sc.nameTree.lookup componentHash name prefixLen).2 } :=
  inv.of_view (inv.valid.lookup withinName shallow).1 (strategyChoiceView_lookup inv.valid withinName)

/-- Setting the StrategyChoice entry of a name tree entry to one for its own name. -/
theorem Invariant.setOwnEntry (inv : Invariant componentHash sc) {nte : NodeId}
    {e : NameTree.Entry F P M Entry} (stored : entries sc.nameTree.ht.nodes nte = some e) {entry : Entry}
    (named : entry.prefixName = e.name) (nItems : Nat) :
    Invariant componentHash ⟨setStrategyChoiceEntry nte (some entry) sc.nameTree, nItems⟩ where
  valid := inv.valid.updateEntry nte (keepsTree_setStrategyChoiceEntry _)
  root_set := by
    obtain ⟨root, rootEntry, rootView⟩ := inv.root_set
    by_cases isNte : root = nte
    · subst isNte
      obtain ⟨e', stored', rootNamed, -⟩ := strategyChoiceView_eq_some.mp rootView
      rw [stored, Option.some.injEq] at stored'
      subst stored'
      exact ⟨root, entry, by simp [strategyChoiceView_setStrategyChoiceEntry, stored, rootNamed]⟩
    · refine ⟨root, rootEntry, ?_⟩
      rw [strategyChoiceView_setStrategyChoiceEntry, if_neg isNte]
      exact rootView
  named := by
    intro x name entry' viewed
    rw [strategyChoiceView_setStrategyChoiceEntry] at viewed
    split at viewed
    · simp only [stored, Option.bind_some, Option.map_some, Option.some.injEq, Prod.mk.injEq] at viewed
      rw [← viewed.2, named, viewed.1]
    · exact inv.named x name entry' viewed

/-- Clearing the StrategyChoice entry of a name tree entry other than the root, and erasing the
name tree entry if that leaves it empty. -/
theorem Invariant.eraseEntry (inv : Invariant componentHash sc) {nte : NodeId}
    {e : NameTree.Entry F P M Entry} (stored : entries sc.nameTree.ht.nodes nte = some e)
    (nonRoot : e.name ≠ []) (nItems : Nat) :
    Invariant componentHash ⟨((setStrategyChoiceEntry nte none sc.nameTree).eraseIfEmpty nte true).2, nItems⟩ := by
  have cleared : Invariant componentHash ⟨setStrategyChoiceEntry nte none sc.nameTree, nItems⟩ := by
    refine ⟨inv.valid.updateEntry nte (keepsTree_setStrategyChoiceEntry _), ?_, ?_⟩
    · obtain ⟨root, rootEntry, rootView⟩ := inv.root_set
      -- the root's name is empty, so it is not the entry cleared
      have isNot : root ≠ nte := by
        rintro rfl
        obtain ⟨e', stored', rootNamed, -⟩ := strategyChoiceView_eq_some.mp rootView
        rw [stored, Option.some.injEq] at stored'
        subst stored'
        exact nonRoot rootNamed
      refine ⟨root, rootEntry, ?_⟩
      rw [strategyChoiceView_setStrategyChoiceEntry, if_neg isNot]
      exact rootView
    · intro x name entry viewed
      rw [strategyChoiceView_setStrategyChoiceEntry] at viewed
      split at viewed
      · simp [stored] at viewed
      · exact inv.named x name entry viewed
  exact cleared.of_view (cleared.valid.eraseIfEmpty nte true)
    (strategyChoiceView_of_tablesView (tablesView_eraseIfEmpty _ nte true))

theorem findEffectiveStrategy_of_view (valid : Valid componentHash sc.nameTree.ht)
    (valid' : Valid componentHash sc'.nameTree.ht)
    (same : strategyChoiceView (entries sc'.nameTree.ht.nodes) =
      strategyChoiceView (entries sc.nameTree.ht.nodes)) (name : Name) :
    findEffectiveStrategy componentHash name sc' = findEffectiveStrategy componentHash name sc := by
  have sameMatch : sc'.nameTree.findLongestPrefixMatch componentHash name nteHasStrategyChoiceEntry =
      sc.nameTree.findLongestPrefixMatch componentHash name nteHasStrategyChoiceEntry :=
    LongestMatch.unique valid.shape ((longestMatch_of_view same).mp (valid'.findLongestPrefixMatch_longest name))
      (valid.findLongestPrefixMatch_longest name)
  simp only [findEffectiveStrategy, sameMatch, strategyChoiceEntryAt_eq_view, same]

/-- Every name has an effective StrategyChoice entry: that of its longest prefix, of at most
`getMaxDepth()` components, that holds one. -/
theorem Invariant.findEffectiveStrategy_spec (inv : Invariant componentHash sc) (name : Name) :
    ∃ nte prefixName entry,
      sc.nameTree.findLongestPrefixMatch componentHash name nteHasStrategyChoiceEntry = some nte ∧
      strategyChoiceView (entries sc.nameTree.ht.nodes) nte = some (prefixName, entry) ∧
      LongestMatch (entries sc.nameTree.ht.nodes) name nteHasStrategyChoiceEntry (some nte) ∧
      findEffectiveStrategy componentHash name sc = some entry.strategyInstanceName := by
  have longest : LongestMatch (entries sc.nameTree.ht.nodes) name nteHasStrategyChoiceEntry
      (sc.nameTree.findLongestPrefixMatch componentHash name nteHasStrategyChoiceEntry) :=
    inv.valid.findLongestPrefixMatch_longest name
  cases found : sc.nameTree.findLongestPrefixMatch componentHash name nteHasStrategyChoiceEntry with
  | none =>
      -- the root entry matches at length zero
      obtain ⟨root, entry, rootView⟩ := inv.root_set
      rw [found] at longest
      exact absurd (matches_iff_view.mpr ⟨entry, by simpa using rootView⟩) (longest 0 (Nat.zero_le _) root)
  | some nte =>
      rw [found] at longest
      obtain ⟨k, -, hit, -⟩ := id longest
      obtain ⟨entry, viewed⟩ := matches_iff_view.mp hit
      refine ⟨nte, _, entry, rfl, viewed, longest, ?_⟩
      simp [findEffectiveStrategy, found, strategyChoiceEntryAt_eq_view, viewed]

/-- The effective strategy of a prefix that holds a StrategyChoice entry is that entry's. -/
theorem Invariant.findEffectiveStrategy_of_set (inv : Invariant componentHash sc) {ref : NodeId}
    {name : Name} {entry : Entry}
    (viewed : strategyChoiceView (entries sc.nameTree.ht.nodes) ref = some (name, entry)) :
    findEffectiveStrategy componentHash name sc = some entry.strategyInstanceName := by
  obtain ⟨er, storedRef, named, -⟩ := strategyChoiceView_eq_some.mp viewed
  obtain ⟨nte, _, entry', -, viewed', longest, effective⟩ := inv.findEffectiveStrategy_spec name
  obtain ⟨k, withinK, hitK, aboveK⟩ := longest
  -- the entry of `name` itself matches at full length, so the longest match is it
  have full : name.length ≤ k := aboveK name.length ref
    (by have := inv.valid.shape.depth_le ref er storedRef; rw [named] at this; omega)
    (matches_iff_view.mpr ⟨entry, by rw [List.take_length]; exact viewed⟩)
  have atFull : k = name.length := by omega
  rw [atFull, ← named] at hitK
  obtain ⟨isRef, -⟩ := inv.valid.shape.matches_full storedRef hitK
  subst isRef
  rw [viewed, Option.some.injEq, Prod.mk.injEq] at viewed'
  rw [effective, viewed'.2]

/-- `changeStrategy` from the entry of a set prefix clears nothing when the strategies are of one
type, and otherwise exactly the entries that entry covers. -/
theorem Invariant.mem_changeStrategy (inv : Invariant componentHash sc) {ref : NodeId}
    {prefixName : Name} {entry : Entry}
    (viewed : strategyChoiceView (entries sc.nameTree.ht.nodes) ref = some (prefixName, entry))
    (old new : Name) (x : NodeId) :
    x ∈ changeStrategy componentHash getSuccessor registry prefixName old new sc ↔
      Fw.Strategy.areSameType getSuccessor registry old new = false ∧ Covered sc ref x := by
  obtain ⟨er, storedRef, named, held⟩ := strategyChoiceView_eq_some.mp viewed
  subst named
  obtain ⟨visited, enumerated, -, visits⟩ := inv.valid.partialEnumerate_cover storedRef
    (show nteHasStrategyChoiceEntry er = true by simp [nteHasStrategyChoiceEntry, held])
  have selector : changeStrategySelector (F := F) (P := P) (M := M) er.name =
      coverSelector nteHasStrategyChoiceEntry er.name := rfl
  unfold changeStrategy
  cases Fw.Strategy.areSameType getSuccessor registry old new with
  | true => simp
  | false => simp only [selector, enumerated, Option.getD_some, visits x, Covered, true_and,
      if_false, Bool.false_eq_true]

/-- Changing the strategy of a set entry keeps what every entry is covered by. -/
theorem covered_setStrategyChoiceEntry {nameTree : NameTree F P M Entry} {nte : NodeId}
    (held : ∀ e, entries nameTree.ht.nodes nte = some e → nteHasStrategyChoiceEntry e = true)
    (entry : Entry) (nItems nItems' : Nat) (ref x : NodeId) :
    Covered ⟨setStrategyChoiceEntry nte (some entry) nameTree, nItems⟩ ref x ↔
      Covered ⟨nameTree, nItems'⟩ ref x := by
  have same : ∀ id, (entries (setStrategyChoiceEntry nte (some entry) nameTree).ht.nodes id).map
      (fun e => (e.name, nteHasStrategyChoiceEntry e)) =
      (entries nameTree.ht.nodes id).map fun e => (e.name, nteHasStrategyChoiceEntry e) := by
    intro id
    simp only [setStrategyChoiceEntry, entries_updateEntry]
    by_cases isNte : id = nte
    · subst isNte
      cases stored : entries nameTree.ht.nodes id with
      | none => simp
      | some e => simp [NameTree.Entry.setStrategyChoiceEntry, nteHasStrategyChoiceEntry, ← held e stored]
    · simp [isNte]
  simp only [Covered, LongestMatch.congr same]
  -- the entry at `x` keeps its name
  have named := same x
  cases stored : entries nameTree.ht.nodes x with
  | none =>
      rw [stored, Option.map_none, Option.map_eq_none_iff] at named
      simp [named]
  | some e =>
      rw [stored, Option.map_some, Option.map_eq_some_iff] at named
      obtain ⟨e', stored', sameName⟩ := named
      simp only [Prod.mk.injEq] at sameName
      simp [stored', sameName.1]

theorem areSameType_self (name : Name) : Fw.Strategy.areSameType getSuccessor registry name name = true := by
  simp [Fw.Strategy.areSameType]

/-- Placing a strategy at the entry of `prefix`: the entry then holds it, the effective strategy
it replaces is that of `prefix` before, and the entries cleared are, when the type changes,
those the entry covers. -/
theorem Invariant.insertInstance_spec (inv : Invariant componentHash sc) {prefixName : Name}
    (short : prefixName.length ≤ getMaxDepth) (instanceName : Name) :
    ∃ ref old, findEffectiveStrategy componentHash prefixName sc = some old ∧
      Invariant componentHash (insertInstance componentHash getSuccessor registry prefixName instanceName sc).1 ∧
      strategyChoiceView (entries (insertInstance componentHash getSuccessor registry prefixName instanceName
        sc).1.nameTree.ht.nodes) ref = some (prefixName, ⟨prefixName, instanceName⟩) ∧
      ∀ x, x ∈ (insertInstance componentHash getSuccessor registry prefixName instanceName sc).2 ↔
        Fw.Strategy.areSameType getSuccessor registry old instanceName = false ∧
          Covered (insertInstance componentHash getSuccessor registry prefixName instanceName sc).1 ref x := by
  have inv1 := inv.lookup (le_refl prefixName.length) short
  have sameEffective := findEffectiveStrategy_of_view inv.valid inv1.valid
    (strategyChoiceView_lookup inv.valid le_rfl) prefixName
  obtain ⟨q, eq, found, storedQ, namedQ⟩ := (inv.valid.lookup le_rfl short).2
  rw [List.take_length] at namedQ
  unfold insertInstance
  simp only [found]
  cases held : strategyChoiceEntryAt (sc.nameTree.lookup componentHash prefixName prefixName.length).2 q with
  | some entry =>
      have heldQ : eq.strategyChoiceEntry = some entry := by
        simpa [strategyChoiceEntryAt, storedQ] using held
      have viewed : strategyChoiceView (entries (sc.nameTree.lookup componentHash prefixName
          prefixName.length).2.ht.nodes) q = some (prefixName, entry) := by
        simp [strategyChoiceView, storedQ, heldQ, namedQ]
      have entryNamed : entry.prefixName = prefixName := inv1.named q _ entry viewed
      have old := inv1.findEffectiveStrategy_of_set viewed
      rw [sameEffective] at old
      by_cases unchanged : entry.strategyInstanceName = instanceName
      · -- the same strategy: nothing changes
        have entryIs : entry = ⟨prefixName, instanceName⟩ := by
          rw [← entryNamed, ← unchanged]
        simp only [unchanged, if_true]
        refine ⟨q, instanceName, unchanged ▸ old, inv1, entryIs ▸ viewed, fun x => ?_⟩
        simp [areSameType_self]
      · simp only [unchanged, if_false]
        refine ⟨q, entry.strategyInstanceName, old,
          inv1.setOwnEntry storedQ (by rw [entryNamed, namedQ]) _, ?_, fun x => ?_⟩
        · simp [strategyChoiceView_setStrategyChoiceEntry, storedQ, namedQ, entryNamed]
        · rw [covered_setStrategyChoiceEntry (fun e stored => by
            rw [storedQ, Option.some.injEq] at stored
            subst stored
            simp [nteHasStrategyChoiceEntry, heldQ]), entryNamed]
          exact inv1.mem_changeStrategy getSuccessor registry viewed _ _ x
  | none =>
      obtain ⟨-, -, entry, -, -, -, oldIs⟩ := inv1.findEffectiveStrategy_spec prefixName
      simp only [oldIs]
      have inv2 := inv1.setOwnEntry storedQ
        (show (⟨prefixName, instanceName⟩ : Entry).prefixName = eq.name from namedQ.symm) (sc.nItems + 1)
      have viewed : strategyChoiceView (entries (setStrategyChoiceEntry q (some ⟨prefixName, instanceName⟩)
          (sc.nameTree.lookup componentHash prefixName prefixName.length).2).ht.nodes) q =
          some (prefixName, ⟨prefixName, instanceName⟩) := by
        simp [strategyChoiceView_setStrategyChoiceEntry, storedQ, namedQ]
      exact ⟨q, entry.strategyInstanceName, sameEffective ▸ oldIs, inv2, viewed,
        inv2.mem_changeStrategy getSuccessor registry viewed _ _⟩

variable (componentHash) in
/-- `insert` either fails, leaving the table as it is, or has made a strategy for a prefix within
the depth limit and places it. -/
theorem insert_cases (create : Name → Except String (Option Name)) (prefixName strategyName : Name)
    (sc : StrategyChoice F P M) :
    ((insert componentHash getSuccessor registry create prefixName strategyName sc).1 ≠ .ok ∧
        (insert componentHash getSuccessor registry create prefixName strategyName sc).2 = (sc, [])) ∨
      prefixName.length ≤ getMaxDepth ∧ ∃ instanceName, create strategyName = .ok (some instanceName) ∧
        insert componentHash getSuccessor registry create prefixName strategyName sc =
          (.ok, insertInstance componentHash getSuccessor registry prefixName instanceName sc) := by
  unfold insert
  by_cases deep : prefixName.length > getMaxDepth
  · simp [deep]
  · rw [if_neg deep]
    cases created : create strategyName with
    | error message => simp
    | ok made =>
        cases made with
        | none => simp
        | some instanceName => exact .inr ⟨by omega, instanceName, rfl, rfl⟩

/-- `erase(prefix)` of a non-empty prefix keeps the invariant, and clears, when the strategy of the
entry of `prefix` and the effective strategy of its parent differ in type, exactly the entries
that entry covered. -/
theorem Invariant.erase_spec (inv : Invariant componentHash sc) {prefixName : Name}
    (nonEmpty : prefixName ≠ []) :
    Invariant componentHash (erase componentHash getSuccessor registry prefixName sc).1 ∧
      ∀ x, x ∈ (erase componentHash getSuccessor registry prefixName sc).2 ↔
        ∃ ref entry parentStrategy,
          strategyChoiceView (entries sc.nameTree.ht.nodes) ref = some (prefixName, entry) ∧
          findEffectiveStrategy componentHash prefixName.dropLast sc = some parentStrategy ∧
          Fw.Strategy.areSameType getSuccessor registry entry.strategyInstanceName parentStrategy = false ∧
          Covered sc ref x := by
  -- an entry set for `prefix` is the entry `findExactMatch(prefix)` finds
  have atEntry : ∀ {ref entry}, strategyChoiceView (entries sc.nameTree.ht.nodes) ref = some (prefixName, entry) →
      sc.nameTree.findExactMatch componentHash prefixName prefixName.length = some ref := by
    intro ref entry viewed
    obtain ⟨er, storedRef, named, -⟩ := strategyChoiceView_eq_some.mp viewed
    exact (inv.valid.findExactMatch_eq_some_iff_name prefixName ref).mpr ⟨er, storedRef, named⟩
  unfold erase
  cases found : sc.nameTree.findExactMatch componentHash prefixName prefixName.length with
  | none =>
      refine ⟨inv, fun x => ?_⟩
      simp only [List.not_mem_nil, false_iff, not_exists, not_and]
      intro ref entry parentStrategy viewed
      rw [atEntry viewed] at found
      cases found
  | some nte =>
      obtain ⟨en, storedN, namedN⟩ := (inv.valid.findExactMatch_eq_some_iff_name prefixName nte).mp found
      dsimp only
      cases held : strategyChoiceEntryAt sc.nameTree nte with
      | none =>
          refine ⟨inv, fun x => ?_⟩
          simp only [List.not_mem_nil, false_iff, not_exists, not_and]
          intro ref entry parentStrategy viewed
          rw [atEntry viewed, Option.some.injEq] at found
          subst found
          rw [strategyChoiceEntryAt_eq_view, viewed] at held
          cases held
      | some entry =>
          have heldN : en.strategyChoiceEntry = some entry := by
            simpa [strategyChoiceEntryAt, storedN] using held
          have viewed : strategyChoiceView (entries sc.nameTree.ht.nodes) nte = some (prefixName, entry) := by
            simp [strategyChoiceView, storedN, heldN, namedN]
          obtain ⟨-, -, parentEntry, -, -, -, parentIs⟩ := inv.findEffectiveStrategy_spec prefixName.dropLast
          dsimp only
          simp only [parentIs]
          refine ⟨inv.eraseEntry storedN (namedN ▸ nonEmpty) _, fun x => ?_⟩
          rw [inv.named nte prefixName entry viewed, inv.mem_changeStrategy getSuccessor registry viewed]
          constructor
          · rintro ⟨differ, covered⟩
            exact ⟨nte, entry, _, viewed, rfl, differ, covered⟩
          · rintro ⟨ref, entry', parent', viewed', parentIs', differ, covered⟩
            rw [atEntry viewed', Option.some.injEq] at found
            subst found
            rw [viewed, Option.some.injEq, Prod.mk.injEq] at viewed'
            rw [Option.some.injEq] at parentIs'
            rw [viewed'.2, parentIs']
            exact ⟨differ, covered⟩

end Invariant

/-- What the table is asked to do, and what the other tables do to the name tree it shares. -/
inductive Op (F P M : Type) where
  | insert (prefixName strategyName : Name)
  | erase (prefixName : Name)
  | otherTable (op : NameTree.Op F P M Entry)

/-- The operations of the name tree that the other tables perform: all but setting a
StrategyChoice entry. -/
def keepsStrategyChoice : NameTree.Op F P M Entry → Bool
  | .setStrategyChoiceEntry _ _ => false
  | _ => true

/-- The assertions: `erase` of a non-empty prefix, and those of the name tree. -/
def Op.allowed : Op F P M → Bool
  | .insert _ _ => true
  | .erase prefixName => !prefixName.isEmpty
  | .otherTable op => op.allowed && keepsStrategyChoice op

section Run

variable [DecidableEq P] (componentHash : Component → HashValue) (getSuccessor : Name → Name)
  (registry : List Name) (create : Name → Except String (Option Name))

def Op.apply : Op F P M → StrategyChoice F P M → StrategyChoice F P M
  | .insert prefixName strategyName, sc =>
      (StrategyChoice.insert componentHash getSuccessor registry create prefixName strategyName sc).2.1
  | .erase prefixName, sc => (StrategyChoice.erase componentHash getSuccessor registry prefixName sc).1
  | .otherTable op, sc => { sc with nameTree := op.apply componentHash sc.nameTree }

def run (ops : List (Op F P M)) (sc : StrategyChoice F P M) : StrategyChoice F P M :=
  ops.foldl (fun sc op => op.apply componentHash getSuccessor registry create sc) sc

/-- A table that a run of allowed operations reaches from `setDefaultStrategy` on an empty name
tree. -/
def Reachable (sc : StrategyChoice F P M) : Prop :=
  ∃ nBuckets positive instanceName ops, ops.all Op.allowed = true ∧
    sc = run componentHash getSuccessor registry create ops
      (setDefaultStrategy componentHash instanceName ⟨NameTree.ofSize nBuckets positive, 0⟩)

variable {componentHash}

omit [DecidableEq P] in
theorem Invariant.setDefaultStrategy_ofSize (nBuckets : Nat) (positive : 0 < nBuckets) (instanceName : Name) :
    Invariant componentHash (setDefaultStrategy componentHash instanceName
      ⟨NameTree.ofSize nBuckets positive, 0⟩ : StrategyChoice F P M) := by
  have valid : Valid componentHash (NameTree.ofSize nBuckets positive : NameTree F P M Entry).ht :=
    Valid.ofOptions _
  -- the empty name tree holds no StrategyChoice entry
  have empty : ∀ id, strategyChoiceView (entries (NameTree.ofSize nBuckets positive :
      NameTree F P M Entry).ht.nodes) id = none := by
    intro id
    simp [strategyChoiceView, entries, NameTree.ofSize, Hashtable.ofOptions, Hashtable.computeThresholds]
  obtain ⟨valid1, q, e, found, stored, named⟩ := valid.lookup (Nat.zero_le ([] : Name).length) (Nat.zero_le _)
  rw [List.take_zero] at named
  unfold setDefaultStrategy
  simp only [found]
  refine ⟨valid1.updateEntry q (keepsTree_setStrategyChoiceEntry _), ⟨q, ⟨[], instanceName⟩, ?_⟩, ?_⟩
  · simp [strategyChoiceView_setStrategyChoiceEntry, stored, named]
  · intro x name entry viewed
    rw [strategyChoiceView_setStrategyChoiceEntry] at viewed
    split at viewed
    · simp only [stored, Option.bind_some, Option.map_some, Option.some.injEq, Prod.mk.injEq] at viewed
      rw [← viewed.2, ← viewed.1, named]
    · rw [strategyChoiceView_lookup valid (Nat.zero_le ([] : Name).length), empty] at viewed
      cases viewed

theorem Invariant.apply {sc : StrategyChoice F P M} (inv : Invariant componentHash sc) (op : Op F P M)
    (allowed : op.allowed = true) :
    Invariant componentHash (op.apply componentHash getSuccessor registry create sc) := by
  cases op with
  | insert prefixName strategyName =>
      rcases insert_cases componentHash getSuccessor registry create prefixName strategyName sc with
        ⟨-, failed⟩ | ⟨short, instanceName, -, placed⟩
      · simp only [Op.apply, failed]
        exact inv
      · simp only [Op.apply, placed]
        obtain ⟨-, -, -, inv', -⟩ := inv.insertInstance_spec getSuccessor registry short instanceName
        exact inv'
  | erase prefixName =>
      simp only [Op.allowed, Bool.not_eq_eq_eq_not, Bool.not_true, List.isEmpty_eq_false_iff] at allowed
      exact (inv.erase_spec getSuccessor registry allowed).1
  | otherTable op =>
      simp only [Op.allowed, Bool.and_eq_true] at allowed
      refine inv.of_view (inv.valid.apply op allowed.1) ?_
      cases op with
      | lookup name prefixLen =>
          simp only [NameTree.Op.allowed, decide_eq_true_eq] at allowed
          exact strategyChoiceView_lookup inv.valid allowed.1.1
      | eraseIfEmpty entry canEraseAncestors =>
          exact strategyChoiceView_of_tablesView (tablesView_eraseIfEmpty _ entry canEraseAncestors)
      | setFibEntry entry fibEntry => exact strategyChoiceView_updateEntry _ entry fun _ => ⟨rfl, rfl⟩
      | insertPitEntry entry pitEntry => exact strategyChoiceView_updateEntry _ entry fun _ => ⟨rfl, rfl⟩
      | erasePitEntry entry pitEntry =>
          refine strategyChoiceView_updateEntry _ entry fun e => ?_
          unfold NameTree.Entry.erasePitEntry
          split <;> exact ⟨rfl, rfl⟩
      | setMeasurementsEntry entry measurementsEntry =>
          exact strategyChoiceView_updateEntry _ entry fun _ => ⟨rfl, rfl⟩
      | setStrategyChoiceEntry entry strategyChoiceEntry =>
          simp [keepsStrategyChoice] at allowed

theorem Invariant.run {sc : StrategyChoice F P M} (inv : Invariant componentHash sc) (ops : List (Op F P M))
    (allowed : ops.all Op.allowed = true) :
    Invariant componentHash (run componentHash getSuccessor registry create ops sc) := by
  induction ops generalizing sc with
  | nil => exact inv
  | cons op rest inductionHypothesis =>
      simp only [List.all_cons, Bool.and_eq_true] at allowed
      exact inductionHypothesis (inv.apply getSuccessor registry create op allowed.1) allowed.2

theorem Reachable.invariant {sc : StrategyChoice F P M}
    (reachable : Reachable componentHash getSuccessor registry create sc) : Invariant componentHash sc := by
  obtain ⟨nBuckets, positive, instanceName, ops, allowed, rfl⟩ := reachable
  exact (Invariant.setDefaultStrategy_ofSize nBuckets positive instanceName).run getSuccessor registry create ops
    allowed

variable (componentHash) in
/-- What `findEffectiveStrategy`, `insert` and `erase` do on a table: the root entry is set and
every name has as effective strategy that of its longest prefix, of at most `getMaxDepth()`
components, with a StrategyChoice entry; a failed `insert` changes nothing; and the entries whose
StrategyInfo `insert` and `erase` clear are, when the strategy's type changes, exactly those whose
effective StrategyChoice entry is the changed one. -/
structure EffectiveStrategySpec (sc : StrategyChoice F P M) : Prop where
  rootSet : ∃ root entry, strategyChoiceView (entries sc.nameTree.ht.nodes) root = some ([], entry)
  effective : ∀ name, ∃ nte prefixName entry,
    sc.nameTree.findLongestPrefixMatch componentHash name nteHasStrategyChoiceEntry = some nte ∧
    strategyChoiceView (entries sc.nameTree.ht.nodes) nte = some (prefixName, entry) ∧
    LongestMatch (entries sc.nameTree.ht.nodes) name nteHasStrategyChoiceEntry (some nte) ∧
    findEffectiveStrategy componentHash name sc = some entry.strategyInstanceName
  failedInsertKeeps : ∀ prefixName strategyName,
    (insert componentHash getSuccessor registry create prefixName strategyName sc).1 ≠ .ok →
      (insert componentHash getSuccessor registry create prefixName strategyName sc).2 = (sc, [])
  insertClears : ∀ prefixName strategyName,
    (insert componentHash getSuccessor registry create prefixName strategyName sc).1 = .ok →
      ∃ instanceName ref old, create strategyName = .ok (some instanceName) ∧
        findEffectiveStrategy componentHash prefixName sc = some old ∧
        strategyChoiceView (entries (insert componentHash getSuccessor registry create prefixName strategyName
          sc).2.1.nameTree.ht.nodes) ref = some (prefixName, ⟨prefixName, instanceName⟩) ∧
        ∀ x, x ∈ (insert componentHash getSuccessor registry create prefixName strategyName sc).2.2 ↔
          Fw.Strategy.areSameType getSuccessor registry old instanceName = false ∧
            Covered (insert componentHash getSuccessor registry create prefixName strategyName sc).2.1 ref x
  eraseClears : ∀ prefixName, prefixName ≠ [] →
    ∀ x, x ∈ (erase componentHash getSuccessor registry prefixName sc).2 ↔
      ∃ ref entry parentStrategy,
        strategyChoiceView (entries sc.nameTree.ht.nodes) ref = some (prefixName, entry) ∧
        findEffectiveStrategy componentHash prefixName.dropLast sc = some parentStrategy ∧
        Fw.Strategy.areSameType getSuccessor registry entry.strategyInstanceName parentStrategy = false ∧
        Covered sc ref x

theorem effectiveStrategy_of_reachable {sc : StrategyChoice F P M}
    (reachable : Reachable componentHash getSuccessor registry create sc) :
    EffectiveStrategySpec componentHash getSuccessor registry create sc := by
  have inv := reachable.invariant
  refine ⟨inv.root_set, inv.findEffectiveStrategy_spec, fun prefixName strategyName failed => ?_,
    fun prefixName strategyName succeeded => ?_, fun prefixName nonEmpty => (inv.erase_spec getSuccessor registry nonEmpty).2⟩
  · rcases insert_cases componentHash getSuccessor registry create prefixName strategyName sc with
      ⟨-, kept⟩ | ⟨-, instanceName, -, placed⟩
    · exact kept
    · rw [placed] at failed
      exact absurd rfl failed
  · rcases insert_cases componentHash getSuccessor registry create prefixName strategyName sc with
      ⟨notOk, -⟩ | ⟨short, instanceName, created, placed⟩
    · exact absurd succeeded notOk
    · obtain ⟨ref, old, oldIs, -, viewed, clears⟩ := inv.insertInstance_spec getSuccessor registry short instanceName
      rw [placed]
      exact ⟨instanceName, ref, old, created, oldIs, viewed, clears⟩

/-- In every reachable table, `findEffectiveStrategy` finds the same strategy keyed by a PIT
entry, from the entry of a prefix of its name it is attached to, or by a Measurements entry, as
keyed by their names. -/
theorem findEffectiveStrategy_byEntry {sc : StrategyChoice F P M}
    (reachable : Reachable componentHash getSuccessor registry create sc) :
    (∀ nte pitName k e, k ≤ min pitName.length getMaxDepth → entries sc.nameTree.ht.nodes nte = some e →
        e.name = pitName.take k →
        findEffectiveStrategyOfPitEntry componentHash nte pitName sc = findEffectiveStrategy componentHash pitName sc) ∧
      ∀ nte e, entries sc.nameTree.ht.nodes nte = some e →
        findEffectiveStrategyOfMeasurementsEntry nte sc = findEffectiveStrategy componentHash e.name sc := by
  have valid := reachable.invariant.valid
  constructor
  · intro nte pitName k e within stored named
    rw [findEffectiveStrategyOfPitEntry, valid.findLongestPrefixMatchOfPitEntry_eq within stored named]
    rfl
  · intro nte e stored
    rw [findEffectiveStrategyOfMeasurementsEntry, valid.findLongestPrefixMatchOfEntry_eq stored]
    rfl

end Run

/-- `NameTree(16)` with `/d` as the default strategy and `/b` chosen for `/a`; `Strategy::create`
gives each name as its own instance name. -/
def defaultRun : StrategyChoice Unit Unit Unit :=
  run (fun c => UInt64.ofNat c.type) id [] (fun name => .ok (some name)) [.insert [⟨8, [97]⟩] [⟨8, [98]⟩]]
    (setDefaultStrategy (fun c => UInt64.ofNat c.type) [⟨8, [100]⟩] ⟨NameTree.ofSize 16 NameTree.sixteen_pos, 0⟩)

theorem effectiveStrategy_of_reachable_defaultRun :
    Reachable (fun c => UInt64.ofNat c.type) id [] (fun name => .ok (some name)) defaultRun ∧
      EffectiveStrategySpec (fun c => UInt64.ofNat c.type) id [] (fun name => .ok (some name)) defaultRun := by
  have reachable : Reachable (fun c => UInt64.ofNat c.type) id [] (fun name => .ok (some name)) defaultRun :=
    ⟨16, by decide, [⟨8, [100]⟩], _, rfl, rfl⟩
  exact ⟨reachable, effectiveStrategy_of_reachable _ _ _ reachable⟩

end Table

end Nfd.StrategyChoice
