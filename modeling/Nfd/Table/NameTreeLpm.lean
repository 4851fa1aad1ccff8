import Nfd.Table.NameTreeRun
import Nfd.Lib.DescendingSearch

/-!
# Longest prefix match

`NameTree` answers a longest prefix match in three ways.  From a name, it probes the
hash table for `name.getPrefix(i)` from `i = min(name.size(), getMaxDepth())` down to 0.
From an entry, it walks up the parent pointers.  From a PIT entry, it starts at the entry
the PIT entry is attached to, probes deeper with `findExactMatch` until a prefix is
missing, and walks up from the last entry found.

On a well-formed tree all three return the entry of the longest prefix of the name, of
at most `getMaxDepth()` components, that exists and satisfies the selector (`LongestMatch`).
The walk needs parent pointers to the entry of `getPrefix(-1)`; the deeper probe may stop
at the first gap because the names are closed under prefixes.  The parent walk is bounded
by `getMaxDepth() + 1` rounds, one more than the depth of any entry.
-/

set_option autoImplicit false

namespace Nfd.NameTree

open DescendingSearch

variable {F P M S : Type}

/-- `node != nullptr && entrySelector(node->entry)`. -/
def Hashtable.selected (ht : Hashtable F P M S) (entrySelector : Entry F P M S → Bool)
    (node : NodeId) : Bool :=
  match ht.nodes node with
  | some n => entrySelector n.entry
  | none => false

section Lookup

variable (componentHash : Component → HashValue)

/-- `findLongestPrefixMatch(name, entrySelector)`: probe `name.getPrefix(i)` for `i` from
`min(name.size(), getMaxDepth())` down to 0. -/
def findLongestPrefixMatch (name : Name) (entrySelector : Entry F P M S → Bool)
    (nt : NameTree F P M S) : Option NodeId :=
  let depth := min name.length getMaxDepth
  let hashes := computeHashes componentHash name depth
  firstDown (fun i => (nt.ht.findWithHashes name i hashes).filter (nt.ht.selected entrySelector))
    depth

/-- The loop of `findLongestPrefixMatch(entry, entrySelector)`: up the parent pointers. -/
def walkUp (nodes : Nodes F P M S) (entrySelector : Entry F P M S → Bool) :
    Nat → Option NodeId → Option NodeId
  | 0, _ => none
  | _ + 1, none => none
  | fuel + 1, some id =>
      match nodes id with
      | none => none
      | some n => if entrySelector n.entry then some id else walkUp nodes entrySelector fuel n.entry.parent

/-- `findLongestPrefixMatch(entry, entrySelector)`. -/
def findLongestPrefixMatchOfEntry (entry : NodeId) (entrySelector : Entry F P M S → Bool)
    (nt : NameTree F P M S) : Option NodeId :=
  walkUp nt.ht.nodes entrySelector (getMaxDepth + 1) (some entry)

/-- The loop of `findLongestPrefixMatch(pitEntry, entrySelector)`: from round `i` on, move
to the entry of `name.getPrefix(i)` while there is one. -/
def goDeeper (nt : NameTree F P M S) (name : Name) : NodeId → Nat → Nat → NodeId
  | nte, _, 0 => nte
  | nte, i, remaining + 1 =>
      match nt.findExactMatch componentHash name i with
      | none => nte
      | some exact => goDeeper nt name exact (i + 1) remaining

/-- `findLongestPrefixMatch(pitEntry, entrySelector)`, for a PIT entry named `pitName`
attached to the entry `nte`. -/
def findLongestPrefixMatchOfPitEntry (nte : NodeId) (pitName : Name)
    (entrySelector : Entry F P M S → Bool) (nt : NameTree F P M S) : Option NodeId :=
  match nt.ht.nodes nte with
  | none => none
  | some n =>
      let depth := min pitName.length getMaxDepth
      let nte := if n.entry.name.length < pitName.length then
          goDeeper componentHash nt pitName nte (n.entry.name.length + 1) (depth - n.entry.name.length)
        else nte
      nt.findLongestPrefixMatchOfEntry nte entrySelector

/-- The loop of `findAllMatches`: the selected entries from `entry` up the parent pointers,
deepest first, as `PrefixMatchImpl::advance` visits them. -/
def collectUp (nodes : Nodes F P M S) (entrySelector : Entry F P M S → Bool) :
    Nat → Option NodeId → List NodeId
  | 0, _ => []
  | _ + 1, none => []
  | fuel + 1, some id =>
      match nodes id with
      | none => []
      | some n => (if entrySelector n.entry then [id] else []) ++
          collectUp nodes entrySelector fuel n.entry.parent

/-- `findAllMatches(name, entrySelector)`: from the longest prefix match up to the root. -/
def findAllMatches (name : Name) (entrySelector : Entry F P M S → Bool)
    (nt : NameTree F P M S) : List NodeId :=
  collectUp nt.ht.nodes entrySelector (getMaxDepth + 1)
    (nt.findLongestPrefixMatch componentHash name entrySelector)

end Lookup

section Spec

variable (E : NodeId → Option (Entry F P M S)) (name : Name) (entrySelector : Entry F P M S → Bool)

/-- The entry at `id` is the entry of `name.getPrefix(j)` and satisfies the selector. -/
def Matches (j : Nat) (id : NodeId) : Prop :=
  ∃ e, E id = some e ∧ e.name = name.take j ∧ entrySelector e = true

/-- `result` is the entry of the longest prefix of `name`, of at most `getMaxDepth()`
components, whose entry exists and satisfies the selector; `none` when there is none. -/
def LongestMatch : Option NodeId → Prop
  | some id => ∃ k ≤ min name.length getMaxDepth, Matches E name entrySelector k id ∧
      ∀ j id', j ≤ min name.length getMaxDepth → Matches E name entrySelector j id' → j ≤ k
  | none => ∀ j ≤ min name.length getMaxDepth, ∀ id, ¬ Matches E name entrySelector j id

variable {E name entrySelector}

theorem matches_take_iff {m j : Nat} {id : NodeId} (below : j ≤ m) :
    Matches E (name.take m) entrySelector j id ↔ Matches E name entrySelector j id := by
  simp only [Matches, List.take_take, Nat.min_eq_left below]

/-- Names are distinct, so at most one entry matches at each length and the longest
match is unique. -/
theorem LongestMatch.unique (shape : Shape E) {first second : Option NodeId}
    (isFirst : LongestMatch E name entrySelector first)
    (isSecond : LongestMatch E name entrySelector second) : first = second := by
  cases first with
  | none =>
      cases second with
      | none => rfl
      | some id =>
          obtain ⟨k, within, hit, -⟩ := isSecond
          exact absurd hit (isFirst k within id)
  | some id =>
      obtain ⟨k, within, ⟨e, stored, named, selected⟩, longest⟩ := isFirst
      cases second with
      | none => exact absurd ⟨e, stored, named, selected⟩ (isSecond k within id)
      | some id' =>
          obtain ⟨k', within', ⟨e', stored', named', selected'⟩, longest'⟩ := isSecond
          have sameLength : k = k' :=
            Nat.le_antisymm (longest' k id within ⟨e, stored, named, selected⟩)
              (longest k' id' within' ⟨e', stored', named', selected'⟩)
          subst sameLength
          rw [shape.name_injective id id' e e' stored stored' (named.trans named'.symm)]

/-- A longest match among the prefixes of `name.getPrefix(m)` is one among the prefixes
of `name` when no longer prefix within the depth limit matches. -/
theorem LongestMatch.of_take {m : Nat} {result : Option NodeId}
    (within : m ≤ min name.length getMaxDepth)
    (longest : LongestMatch E (name.take m) entrySelector result)
    (noneAbove : ∀ j id, m < j → j ≤ min name.length getMaxDepth →
      ¬ Matches E name entrySelector j id) :
    LongestMatch E name entrySelector result := by
  have depthIs : min (name.take m).length getMaxDepth = m := by
    simp only [List.length_take]
    omega
  cases result with
  | none =>
      intro j withinJ id hit
      by_cases below : j ≤ m
      · exact longest j (by rw [depthIs]; exact below) id ((matches_take_iff below).mpr hit)
      · exact noneAbove j id (by omega) withinJ hit
  | some id =>
      obtain ⟨k, withinK, hit, longestK⟩ := longest
      rw [depthIs] at withinK longestK
      refine ⟨k, withinK.trans within, (matches_take_iff withinK).mp hit, fun j id' withinJ hitJ => ?_⟩
      by_cases below : j ≤ m
      · exact longestK j id' below ((matches_take_iff below).mpr hitJ)
      · exact absurd hitJ (noneAbove j id' (by omega) withinJ)

/-- The entry of a longest match is the entry of a prefix of the name that the selector accepts. -/
theorem LongestMatch.prefix_of_some {id : NodeId} {e : Entry F P M S} (stored : E id = some e)
    (longest : LongestMatch E name entrySelector (some id)) : e.name <+: name ∧ entrySelector e = true := by
  obtain ⟨k, -, ⟨e', stored', named, selected⟩, -⟩ := longest
  rw [stored, Option.some.injEq] at stored'
  subst stored'
  exact ⟨named ▸ List.take_prefix k name, selected⟩

/-- A longest match of at most `m` components is also the longest match for `name.getPrefix(m)`. -/
theorem LongestMatch.take_of_le {m : Nat} {id : NodeId} {e : Entry F P M S} (stored : E id = some e)
    (short : e.name.length ≤ m) (longest : LongestMatch E name entrySelector (some id)) :
    LongestMatch E (name.take m) entrySelector (some id) := by
  obtain ⟨k, within, ⟨e', stored', named, selected⟩, above⟩ := longest
  rw [stored, Option.some.injEq] at stored'
  subst stored'
  have kShort : k ≤ m := by
    have lengthIs := congrArg List.length named
    rw [List.length_take] at lengthIs
    omega
  refine ⟨k, ?_, (matches_take_iff kShort).mpr ⟨e, stored, named, selected⟩, fun j id' withinJ hit => ?_⟩
  · simp only [List.length_take]
    omega
  · simp only [List.length_take] at withinJ
    exact above j id' (by omega) ((matches_take_iff (by omega)).mp hit)

/-- A longest match depends only on the names of the entries and on which of them the selector
accepts. -/
theorem LongestMatch.congr {E' : NodeId → Option (Entry F P M S)} {result : Option NodeId}
    (same : ∀ id, (E' id).map (fun e => (e.name, entrySelector e)) =
      (E id).map fun e => (e.name, entrySelector e)) :
    LongestMatch E' name entrySelector result ↔ LongestMatch E name entrySelector result := by
  have matchesIff : ∀ j id, Matches E' name entrySelector j id ↔ Matches E name entrySelector j id := by
    intro j id
    have seen := same id
    cases stored' : E' id with
    | none =>
        cases stored : E id with
        | none => simp [Matches, stored', stored]
        | some e => simp [stored', stored] at seen
    | some e' =>
        cases stored : E id with
        | none => simp [stored', stored] at seen
        | some e =>
            simp only [stored', stored, Option.map_some, Option.some.injEq, Prod.mk.injEq] at seen
            simp [Matches, stored', stored, seen.1, seen.2]
  cases result <;> simp only [LongestMatch, matchesIff]

end Spec

section Correct

variable {componentHash : Component → HashValue} {entrySelector : Entry F P M S → Bool}

/-- On a well-formed table, a search with the right hash finds exactly the entry of the
prefix it is asked for. -/
theorem Valid.findOrInsert_eq_some_iff {ht : Hashtable F P M S} (valid : Valid componentHash ht)
    {name : Name} {i : Nat} {h : HashValue} (hashIs : h = computeHash componentHash name i)
    (id : NodeId) :
    (ht.findOrInsert name i h false).1.1 = some id ↔
      ∃ e, entries ht.nodes id = some e ∧ e.name = name.take i := by
  obtain ⟨chains, layout⟩ := valid.layout
  cases found : ht.search name i h with
  | some id' =>
      obtain ⟨n, stored, named⟩ := layout.search_some found
      have storedE : entries ht.nodes id' = some n.entry := by simp [entries, stored]
      rw [Hashtable.findOrInsert_found _ _ _ _ false found, Option.some.injEq]
      constructor
      · rintro rfl
        exact ⟨n.entry, storedE, named⟩
      · rintro ⟨e, storedId, namedId⟩
        exact valid.shape.name_injective id' id n.entry e storedE storedId (named.trans namedId.symm)
  | none =>
      rw [Hashtable.findOrInsert_not_allowed _ _ _ _ found]
      simp only [reduceCtorEq, false_iff, not_exists, not_and]
      intro e storedE namedE
      obtain ⟨n, storedN, rfl⟩ := Option.map_eq_some_iff.mp storedE
      exact layout.search_none hashIs found id n storedN namedE

theorem Valid.findExactMatch_eq_some_iff {nt : NameTree F P M S} (valid : Valid componentHash nt.ht)
    {name : Name} {i : Nat} (within : i ≤ min name.length getMaxDepth) (id : NodeId) :
    nt.findExactMatch componentHash name i = some id ↔
      ∃ e, entries nt.ht.nodes id = some e ∧ e.name = name.take i := by
  have lengthIs : min name.length i = i := by omega
  simp only [NameTree.findExactMatch, lengthIs, Hashtable.find]
  rw [if_neg (by omega)]
  exact valid.findOrInsert_eq_some_iff rfl id

/-- One probe of `findLongestPrefixMatch(name, entrySelector)` hits exactly the selected
entry of that prefix. -/
theorem Valid.probe_eq_some_iff {ht : Hashtable F P M S} (valid : Valid componentHash ht)
    {name : Name} {i : Nat} (within : i ≤ min name.length getMaxDepth) (id : NodeId) :
    (ht.findWithHashes name i (computeHashes componentHash name (min name.length getMaxDepth))).filter
        (ht.selected entrySelector) = some id ↔
      Matches (entries ht.nodes) name entrySelector i id := by
  have hashIs : (computeHashes componentHash name (min name.length getMaxDepth)).getD i 0 =
      computeHash componentHash name i :=
    computeHashes_getD name within (by omega)
  rw [Option.filter_eq_some_iff]
  simp only [Hashtable.findWithHashes]
  rw [valid.findOrInsert_eq_some_iff hashIs id]
  constructor
  · rintro ⟨⟨e, storedE, named⟩, selected⟩
    obtain ⟨n, storedN, rfl⟩ := Option.map_eq_some_iff.mp storedE
    exact ⟨n.entry, storedE, named, by simpa [Hashtable.selected, storedN] using selected⟩
  · rintro ⟨e, storedE, named, selected⟩
    obtain ⟨n, storedN, rfl⟩ := Option.map_eq_some_iff.mp storedE
    exact ⟨⟨n.entry, storedE, named⟩, by simpa [Hashtable.selected, storedN] using selected⟩

/-- The probes from the longest prefix down find the longest match. -/
theorem Valid.findLongestPrefixMatch_longest {nt : NameTree F P M S}
    (valid : Valid componentHash nt.ht) (name : Name) :
    LongestMatch (entries nt.ht.nodes) name entrySelector
      (nt.findLongestPrefixMatch componentHash name entrySelector) := by
  cases result : nt.findLongestPrefixMatch componentHash name entrySelector with
  | none =>
      intro j within id matched
      have missed := (firstDown_eq_none_iff _ _).mp result j within
      have hit := (valid.probe_eq_some_iff within id).mpr matched
      exact absurd (missed.symm.trans hit) (by simp)
  | some id =>
      obtain ⟨k, within, hitK, above⟩ := (firstDown_eq_some_iff _ _ id).mp result
      refine ⟨k, within, (valid.probe_eq_some_iff within id).mp hitK, fun j id' withinJ matched => ?_⟩
      by_contra longer
      have missed := above j (by omega) withinJ
      have hit := (valid.probe_eq_some_iff withinJ id').mpr matched
      exact absurd (missed.symm.trans hit) (by simp)

/-- Only the entry of a name matches at that name's full length. -/
theorem Shape.matches_full {E : NodeId → Option (Entry F P M S)} (shape : Shape E) {id id' : NodeId}
    {e : Entry F P M S} (stored : E id = some e)
    (matched : Matches E e.name entrySelector e.name.length id') :
    id' = id ∧ entrySelector e = true := by
  obtain ⟨e', stored', named', selected'⟩ := matched
  rw [List.take_length] at named'
  have same := shape.name_injective id' id e' e stored' stored named'
  subst same
  rw [stored, Option.some.injEq] at stored'
  subst stored'
  exact ⟨rfl, selected'⟩

/-- Only the root has no parent. -/
theorem Shape.name_eq_nil_of_root {E : NodeId → Option (Entry F P M S)} (shape : Shape E)
    {id : NodeId} {e : Entry F P M S} (stored : E id = some e) (noParent : e.parent = none) :
    e.name = [] := by
  by_contra nonRoot
  obtain ⟨p, ep, hasParent, -⟩ := shape.parent_spec id e stored nonRoot
  rw [noParent] at hasParent
  cases hasParent

theorem walkUp_none (nodes : Nodes F P M S) (fuel : Nat) :
    walkUp nodes entrySelector fuel none = none := by
  cases fuel <;> rfl

/-- The walk up the parent pointers from an entry finds the longest match for its name,
given one round more than the entry's depth. -/
theorem Valid.walkUp_longest {ht : Hashtable F P M S} (valid : Valid componentHash ht) :
    ∀ (fuel : Nat) (id : NodeId) (e : Entry F P M S), entries ht.nodes id = some e →
      e.name.length < fuel →
        LongestMatch (entries ht.nodes) e.name entrySelector (walkUp ht.nodes entrySelector fuel (some id))
  | 0, _, _, _, short => absurd short (Nat.not_lt_zero _)
  | fuel + 1, id, e, stored, short => by
      obtain ⟨n, storedN, rfl⟩ : ∃ n, ht.nodes id = some n ∧ n.entry = e :=
        Option.map_eq_some_iff.mp stored
      have depthIs : min n.entry.name.length getMaxDepth = n.entry.name.length :=
        Nat.min_eq_left (valid.shape.depth_le id _ stored)
      simp only [walkUp, storedN]
      split
      · rename_i selected
        refine ⟨n.entry.name.length, by omega, ⟨n.entry, stored, List.take_length.symm, selected⟩,
          fun j id' within _ => by omega⟩
      · rename_i notSelected
        cases parentIs : n.entry.parent with
        | none =>
            rw [walkUp_none]
            have isRoot := valid.shape.name_eq_nil_of_root stored parentIs
            intro j within id' matched
            have full : j = n.entry.name.length := by simp [isRoot] at within ⊢; omega
            rw [full] at matched
            exact notSelected (valid.shape.matches_full stored matched).2
        | some p =>
            obtain ⟨ep, storedP, named, -⟩ := valid.shape.parent_entry stored parentIs
            have nonRoot := List.length_pos_of_ne_nil (valid.shape.name_ne_nil_of_parent stored parentIs)
            have parentLongest := Valid.walkUp_longest valid fuel p ep storedP
              (by rw [named, List.length_dropLast]; omega)
            rw [named, List.dropLast_eq_take] at parentLongest
            refine LongestMatch.of_take (by omega) parentLongest fun j id' above within matched => ?_
            rw [show j = n.entry.name.length by omega] at matched
            exact notSelected (valid.shape.matches_full stored matched).2

/-- The parent walk from an entry agrees with the probes for its name. -/
theorem Valid.findLongestPrefixMatchOfEntry_eq {nt : NameTree F P M S}
    (valid : Valid componentHash nt.ht) {id : NodeId} {e : Entry F P M S}
    (stored : entries nt.ht.nodes id = some e) :
    nt.findLongestPrefixMatchOfEntry id entrySelector =
      nt.findLongestPrefixMatch componentHash e.name entrySelector :=
  LongestMatch.unique valid.shape
    (valid.walkUp_longest _ id e stored (Nat.lt_succ_of_le (valid.shape.depth_le id e stored)))
    (valid.findLongestPrefixMatch_longest e.name)

/-- The deeper probe of the PIT overload, started at the entry of `name.getPrefix(k)`,
ends at the entry of some `name.getPrefix(m)` with no entry for any longer prefix within
the depth limit: it stops at the first gap, and names are closed under prefixes. -/
theorem Valid.goDeeper_reaches {nt : NameTree F P M S} (valid : Valid componentHash nt.ht)
    (name : Name) :
    ∀ (remaining : Nat) (nte : NodeId) (k : Nat) (e : Entry F P M S),
      entries nt.ht.nodes nte = some e → e.name = name.take k →
      k + remaining = min name.length getMaxDepth →
      ∃ m e', k ≤ m ∧ m ≤ min name.length getMaxDepth ∧
        entries nt.ht.nodes (goDeeper componentHash nt name nte (k + 1) remaining) = some e' ∧
        e'.name = name.take m ∧
        ∀ j id e'', m < j → j ≤ min name.length getMaxDepth → entries nt.ht.nodes id = some e'' →
          e''.name ≠ name.take j
  | 0, nte, k, e, stored, named, total =>
      ⟨k, e, Nat.le_refl k, by omega, stored, named,
        fun j _ _ above within _ => absurd within (by omega)⟩
  | remaining + 1, nte, k, e, stored, named, total => by
      have within : k + 1 ≤ min name.length getMaxDepth := by omega
      simp only [goDeeper]
      cases found : nt.findExactMatch componentHash name (k + 1) with
      | none =>
          refine ⟨k, e, Nat.le_refl k, by omega, stored, named,
            fun j id e'' above withinJ storedJ namedJ => ?_⟩
          -- an entry for a longer prefix would give one for `name.getPrefix(k + 1)`
          obtain ⟨id', e', stored', named'⟩ := valid.shape.take_mem (j - (k + 1)) storedJ
          have lengthJ : e''.name.length = j := by
            rw [namedJ, List.length_take]
            omega
          rw [lengthJ, namedJ, List.take_take] at named'
          have hit := (valid.findExactMatch_eq_some_iff within id').mpr
            ⟨e', stored', by rw [named']; congr 1; omega⟩
          rw [found] at hit
          cases hit
      | some exact =>
          obtain ⟨e', stored', named'⟩ := (valid.findExactMatch_eq_some_iff within exact).mp found
          obtain ⟨m, e'', above, withinM, storedM, namedM, gap⟩ :=
            Valid.goDeeper_reaches valid name remaining exact (k + 1) e' stored' named' (by omega)
          exact ⟨m, e'', by omega, withinM, storedM, namedM, gap⟩

/-- The PIT overload, from the entry of a prefix of the PIT entry's name within the depth
limit, agrees with the probes for the PIT entry's name. -/
theorem Valid.findLongestPrefixMatchOfPitEntry_eq {nt : NameTree F P M S}
    (valid : Valid componentHash nt.ht) {nte : NodeId} {pitName : Name} {k : Nat}
    (within : k ≤ min pitName.length getMaxDepth) {e : Entry F P M S}
    (stored : entries nt.ht.nodes nte = some e) (named : e.name = pitName.take k) :
    nt.findLongestPrefixMatchOfPitEntry componentHash nte pitName entrySelector =
      nt.findLongestPrefixMatch componentHash pitName entrySelector := by
  obtain ⟨n, storedN, rfl⟩ : ∃ n, nt.ht.nodes nte = some n ∧ n.entry = e :=
    Option.map_eq_some_iff.mp stored
  have lengthIs : n.entry.name.length = k := by
    rw [named, List.length_take]
    omega
  -- the walk starts at the entry of the longest prefix present from `k` on
  obtain ⟨m, start, ef, withinM, storedF, namedF, gap, startIs⟩ :
      ∃ m start ef, m ≤ min pitName.length getMaxDepth ∧ entries nt.ht.nodes start = some ef ∧
        ef.name = pitName.take m ∧
        (∀ j id e'', m < j → j ≤ min pitName.length getMaxDepth →
          entries nt.ht.nodes id = some e'' → e''.name ≠ pitName.take j) ∧
        nt.findLongestPrefixMatchOfPitEntry componentHash nte pitName entrySelector =
          nt.findLongestPrefixMatchOfEntry start entrySelector := by
    simp only [NameTree.findLongestPrefixMatchOfPitEntry, storedN]
    by_cases deeper : n.entry.name.length < pitName.length
    · obtain ⟨m, ef, -, withinM, storedF, namedF, gap⟩ :=
        valid.goDeeper_reaches pitName (min pitName.length getMaxDepth - k) nte k n.entry stored named
          (by omega)
      refine ⟨m, _, ef, withinM, storedF, namedF, gap, ?_⟩
      rw [if_pos deeper, lengthIs]
    · refine ⟨k, nte, n.entry, within, stored, named,
        fun j _ _ above withinJ _ => absurd withinJ (by omega), ?_⟩
      rw [if_neg deeper]
  have depthF : ef.name.length ≤ getMaxDepth := valid.shape.depth_le start ef storedF
  have walked : LongestMatch (entries nt.ht.nodes) ef.name entrySelector
      (walkUp nt.ht.nodes entrySelector (getMaxDepth + 1) (some start)) :=
    valid.walkUp_longest (getMaxDepth + 1) start ef storedF (Nat.lt_succ_of_le depthF)
  rw [namedF] at walked
  have longest := LongestMatch.of_take withinM walked fun j id above withinJ ⟨e'', stored'', named'', _⟩ =>
    gap j id e'' above withinJ stored'' named''
  rw [startIs]
  exact LongestMatch.unique valid.shape longest (valid.findLongestPrefixMatch_longest pitName)

/-- Cutting the name to `getMaxDepth()` components, as `Measurements` does, leaves its longest
prefix match as it was. -/
theorem Valid.findLongestPrefixMatch_take {nt : NameTree F P M S} (valid : Valid componentHash nt.ht)
    (name : Name) :
    nt.findLongestPrefixMatch componentHash (name.take getMaxDepth) entrySelector =
      nt.findLongestPrefixMatch componentHash name entrySelector := by
  have cut : name.take (min name.length getMaxDepth) = name.take getMaxDepth := by
    rcases Nat.le_total name.length getMaxDepth with short | long
    · rw [Nat.min_eq_left short, List.take_length, List.take_of_length_le short]
    · rw [Nat.min_eq_right long]
  have longest : LongestMatch (entries nt.ht.nodes) (name.take (min name.length getMaxDepth)) entrySelector
      (nt.findLongestPrefixMatch componentHash (name.take getMaxDepth) entrySelector) := by
    rw [cut]
    exact valid.findLongestPrefixMatch_longest _
  -- no prefix is longer than the whole name within the depth limit
  exact LongestMatch.unique valid.shape
    (LongestMatch.of_take (Nat.le_refl _) longest fun _ _ above within => absurd within (by omega))
    (valid.findLongestPrefixMatch_longest name)

theorem collectUp_none (nodes : Nodes F P M S) (fuel : Nat) :
    collectUp nodes entrySelector fuel none = [] := by
  cases fuel <;> rfl

/-- The walk up from an entry collects, each once, the selected entries whose names are
prefixes of the entry's name, given one round more than the entry's depth. -/
theorem Valid.collectUp_spec {ht : Hashtable F P M S} (valid : Valid componentHash ht) :
    ∀ (fuel : Nat) (id : NodeId) (e : Entry F P M S), entries ht.nodes id = some e →
      e.name.length < fuel →
      (collectUp ht.nodes entrySelector fuel (some id)).Nodup ∧
        ∀ x, x ∈ collectUp ht.nodes entrySelector fuel (some id) ↔
          ∃ ex, entries ht.nodes x = some ex ∧ ex.name <+: e.name ∧ entrySelector ex = true
  | 0, _, _, _, short => absurd short (Nat.not_lt_zero _)
  | fuel + 1, id, e, stored, short => by
      obtain ⟨n, storedN, rfl⟩ : ∃ n, ht.nodes id = some n ∧ n.entry = e :=
        Option.map_eq_some_iff.mp stored
      -- the walk from the parent collects the selected proper prefixes
      have rest : (collectUp ht.nodes entrySelector fuel n.entry.parent).Nodup ∧
          ∀ x, x ∈ collectUp ht.nodes entrySelector fuel n.entry.parent ↔
            ∃ ex, entries ht.nodes x = some ex ∧ ex.name <+: n.entry.name ∧
              ex.name ≠ n.entry.name ∧ entrySelector ex = true := by
        cases parentIs : n.entry.parent with
        | none =>
            have isRoot := valid.shape.name_eq_nil_of_root stored parentIs
            refine ⟨by simp [collectUp_none], fun x => ?_⟩
            simp only [collectUp_none, List.not_mem_nil, false_iff]
            rintro ⟨ex, -, isPrefix, notRoot, -⟩
            rw [isRoot, List.prefix_nil] at isPrefix
            exact notRoot (isPrefix.trans isRoot.symm)
        | some p =>
            obtain ⟨ep, storedP, named, -⟩ := valid.shape.parent_entry stored parentIs
            have nonRoot := valid.shape.name_ne_nil_of_parent stored parentIs
            have positive := List.length_pos_of_ne_nil nonRoot
            obtain ⟨nodup, members⟩ := Valid.collectUp_spec valid fuel p ep storedP
              (by rw [named, List.length_dropLast]; omega)
            refine ⟨nodup, fun x => (members x).trans ?_⟩
            rw [named]
            exact exists_congr fun ex => and_congr_right fun _ => by
              rw [prefix_dropLast_iff nonRoot, and_assoc]
      obtain ⟨restNodup, restMembers⟩ := rest
      simp only [collectUp, storedN]
      refine ⟨List.nodup_append.mpr ⟨by split <;> simp, restNodup, ?_⟩, fun x => ?_⟩
      · -- the entry itself is not among its proper prefixes
        intro a inHead b inRest same
        rw [List.mem_ite_nil_right, List.mem_singleton] at inHead
        rw [← same, inHead.2, restMembers] at inRest
        obtain ⟨ex, storedX, -, different, -⟩ := inRest
        rw [stored, Option.some.injEq] at storedX
        exact different (storedX ▸ rfl)
      · rw [List.mem_append, restMembers, List.mem_ite_nil_right, List.mem_singleton]
        constructor
        · rintro (⟨selected, rfl⟩ | ⟨ex, storedX, isPrefix, -, selected⟩)
          · exact ⟨n.entry, stored, List.prefix_refl _, selected⟩
          · exact ⟨ex, storedX, isPrefix, selected⟩
        · rintro ⟨ex, storedX, isPrefix, selected⟩
          by_cases full : ex.name = n.entry.name
          · have same := valid.shape.name_injective x id ex n.entry storedX stored full
            subst same
            rw [stored, Option.some.injEq] at storedX
            exact .inl ⟨storedX ▸ selected, rfl⟩
          · exact .inr ⟨ex, storedX, isPrefix, full, selected⟩

/-- `findAllMatches` returns, each once, the selected entries whose names are prefixes of
`name` within the depth limit. -/
theorem Valid.findAllMatches_spec {nt : NameTree F P M S} (valid : Valid componentHash nt.ht)
    (name : Name) :
    (nt.findAllMatches componentHash name entrySelector).Nodup ∧
      ∀ x, x ∈ nt.findAllMatches componentHash name entrySelector ↔
        ∃ ex, entries nt.ht.nodes x = some ex ∧ ex.name <+: name ∧ ex.name.length ≤ getMaxDepth ∧
          entrySelector ex = true := by
  have longest : LongestMatch (entries nt.ht.nodes) name entrySelector
      (nt.findLongestPrefixMatch componentHash name entrySelector) :=
    valid.findLongestPrefixMatch_longest name
  -- a selected prefix within the depth limit is a match at its own length
  have matchesAt : ∀ x ex, entries nt.ht.nodes x = some ex → ex.name <+: name →
      ex.name.length ≤ getMaxDepth → entrySelector ex = true →
      ex.name.length ≤ min name.length getMaxDepth ∧
        Matches (entries nt.ht.nodes) name entrySelector ex.name.length x :=
    fun x ex storedX isPrefix shallow selected =>
      ⟨Nat.le_min.mpr ⟨isPrefix.length_le, shallow⟩,
        ex, storedX, List.prefix_iff_eq_take.mp isPrefix, selected⟩
  simp only [NameTree.findAllMatches]
  cases result : nt.findLongestPrefixMatch componentHash name entrySelector with
  | none =>
      rw [result] at longest
      refine ⟨by simp [collectUp_none], fun x => ?_⟩
      simp only [collectUp_none, List.not_mem_nil, false_iff, not_exists, not_and]
      intro ex storedX isPrefix shallow selected
      obtain ⟨within, hit⟩ := matchesAt x ex storedX isPrefix shallow selected
      exact longest _ within x hit
  | some id =>
      rw [result] at longest
      obtain ⟨k, within, ⟨e, stored, named, -⟩, longestK⟩ := longest
      have shallow : e.name.length < getMaxDepth + 1 :=
        Nat.lt_succ_of_le (valid.shape.depth_le id e stored)
      obtain ⟨nodup, members⟩ : (collectUp nt.ht.nodes entrySelector _ (some id)).Nodup ∧ _ :=
        valid.collectUp_spec _ id e stored shallow
      refine ⟨nodup, fun x => (members x).trans ?_⟩
      refine exists_congr fun ex => and_congr_right fun storedX => ?_
      constructor
      · rintro ⟨isPrefix, selected⟩
        have short := isPrefix.length_le
        rw [named] at isPrefix short
        simp only [List.length_take] at short
        exact ⟨isPrefix.trans (List.take_prefix k name), by omega, selected⟩
      · rintro ⟨isPrefix, shallowX, selected⟩
        obtain ⟨withinX, hit⟩ := matchesAt x ex storedX isPrefix shallowX selected
        rw [named]
        exact ⟨prefix_take_of_length_le isPrefix (longestK _ x withinX hit), selected⟩

/-- In every reachable name tree the three longest prefix matches agree: the probes from a
name find the longest prefix of the name within the depth limit that has a selected entry,
the parent walk from an entry finds what the probes find for its name, and the PIT
overload, from the entry of a prefix of the PIT entry's name within the depth limit,
finds what the probes find for that name. -/
theorem findLongestPrefixMatch_agree [DecidableEq P] {nt : NameTree F P M S}
    (reachable : Reachable componentHash nt) (entrySelector : Entry F P M S → Bool) :
    (∀ name, LongestMatch (entries nt.ht.nodes) name entrySelector
        (nt.findLongestPrefixMatch componentHash name entrySelector)) ∧
      (∀ id e, entries nt.ht.nodes id = some e →
        nt.findLongestPrefixMatchOfEntry id entrySelector =
          nt.findLongestPrefixMatch componentHash e.name entrySelector) ∧
      (∀ nte pitName k e, k ≤ min pitName.length getMaxDepth → entries nt.ht.nodes nte = some e →
        e.name = pitName.take k →
        nt.findLongestPrefixMatchOfPitEntry componentHash nte pitName entrySelector =
          nt.findLongestPrefixMatch componentHash pitName entrySelector) :=
  have valid := reachable.valid
  ⟨fun name => valid.findLongestPrefixMatch_longest name,
    fun _ _ stored => valid.findLongestPrefixMatchOfEntry_eq stored,
    fun _ _ _ _ within stored named => valid.findLongestPrefixMatchOfPitEntry_eq within stored named⟩

theorem findLongestPrefixMatch_agree_afterLookup :
    Reachable (fun c => UInt64.ofNat c.type)
        ((NameTree.ofSize (F := Unit) (P := Unit) (M := Unit) (S := Unit) 16 (by decide)).run
          (fun c => UInt64.ofNat c.type) [.lookup [⟨8, [97]⟩, ⟨8, [98]⟩] 2]) ∧
      LongestMatch (entries ((NameTree.ofSize (F := Unit) (P := Unit) (M := Unit) (S := Unit) 16
          (by decide)).run (fun c => UInt64.ofNat c.type) [.lookup [⟨8, [97]⟩, ⟨8, [98]⟩] 2]).ht.nodes)
        [⟨8, [97]⟩, ⟨8, [98]⟩, ⟨8, [99]⟩] (fun e => e.name.length == 1)
        (((NameTree.ofSize (F := Unit) (P := Unit) (M := Unit) (S := Unit) 16 (by decide)).run
          (fun c => UInt64.ofNat c.type) [.lookup [⟨8, [97]⟩, ⟨8, [98]⟩] 2]).findLongestPrefixMatch
          (fun c => UInt64.ofNat c.type) [⟨8, [97]⟩, ⟨8, [98]⟩, ⟨8, [99]⟩]
          (fun e => e.name.length == 1)) :=
  have reachable : Reachable (fun c => UInt64.ofNat c.type)
      ((NameTree.ofSize (F := Unit) (P := Unit) (M := Unit) (S := Unit) 16 (by decide)).run
        (fun c => UInt64.ofNat c.type) [.lookup [⟨8, [97]⟩, ⟨8, [98]⟩] 2]) :=
    ⟨16, by decide, _, by decide, rfl⟩
  ⟨reachable, (findLongestPrefixMatch_agree reachable _).1 _⟩

end Correct

end Nfd.NameTree
