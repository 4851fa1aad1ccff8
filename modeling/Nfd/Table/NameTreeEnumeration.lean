import Nfd.Table.NameTreeIterator

/-!
# Full and prefix-match enumeration of the name tree

`FullEnumerationImpl` and `PrefixMatchImpl` of `name-tree-iterator.cpp`.

The full enumeration walks the rest of the current node's chain, then the chains of the
buckets after the one the node's hash selects.  On a laid-out table the chains, flattened
in bucket order, hold every node once, and the bucket a node's hash selects is the one
whose chain holds it; the enumeration visits that flattening, filtered by the selector.

The prefix-match enumeration starts at the longest prefix match and climbs the parent
pointers; it visits what `findAllMatches` lists.
-/

set_option autoImplicit false

namespace Nfd.NameTree

open LinkedChain

variable {F P M S : Type}

/-- Move the iterator to `node`, or to the end. -/
def Iterator.moveTo (i : Iterator) : Option NodeId → Iterator
  | some node => { i with entry := some node }
  | none => Iterator.atEnd

section Full

variable (ht : Hashtable F P M S) (pred : Entry F P M S → Bool)

/-- `m_pred(node->entry)` for the node at `id`. -/
def selectedNode (id : NodeId) : Bool := ((ht.nodes id).map fun n => pred n.entry).getD false

/-- `for (node = start; node != nullptr; node = node->next) if (m_pred(node->entry))`: the
first node from `start` on its chain that the selector accepts, at most `fuel` nodes on. -/
def firstOnChain : Nat → Option NodeId → Option NodeId
  | 0, _ => none
  | _ + 1, none => none
  | fuel + 1, some id =>
      match ht.nodes id with
      | none => none
      | some n => if pred n.entry then some id else firstOnChain fuel n.next

/-- The first node the selector accepts in the buckets from `first` on. -/
def firstInBuckets (first : Nat) : Option NodeId :=
  (List.range' first (ht.getNBuckets - first)).findSome? fun bucket =>
    firstOnChain ht pred ht.size (ht.buckets.getD bucket none)

/-- After the entry at `entry`: the rest of its chain, then the buckets after its own. -/
def nextAfter (entry : NodeId) : Option NodeId :=
  match ht.nodes entry with
  | none => none
  | some n =>
      (firstOnChain ht pred ht.size n.next).or
        (firstInBuckets ht pred (ht.computeBucketIndex n.hash + 1))

/-- `FullEnumerationImpl::advance`. -/
def FullEnumerationImpl.advance (i : Iterator) : Iterator :=
  match i.entry with
  | some entry => i.moveTo (nextAfter ht pred entry)
  | none =>
      -- find first entry
      match (List.range ht.getNBuckets).findSome? fun bucket => ht.buckets.getD bucket none with
      | none => Iterator.atEnd
      | some node =>
          if selectedNode ht pred node then { i with entry := some node }
          else i.moveTo (nextAfter ht pred node)

end Full

/-- `fullEnumerate(entrySelector)`: the entries the range visits. -/
def fullEnumerate (pred : Entry F P M S → Bool) (nt : NameTree F P M S) :
    Option (List NodeId) :=
  let advance := FullEnumerationImpl.advance nt.ht pred
  visits (fun i => some (advance i)) (nt.ht.size + 1) (advance ⟨none, none, false⟩)

section FullWalk

variable {componentHash : Component → HashValue} {ht : Hashtable F P M S}
  {chains : List (List NodeId)} (pred : Entry F P M S → Bool)

/-- The walk along a chain finds the first node of the chain the selector accepts. -/
theorem firstOnChain_eq {head back : Option NodeId} {cells : List NodeId}
    (chain : Chain (links ht.nodes) head back cells) {fuel : Nat} (enough : cells.length ≤ fuel) :
    firstOnChain ht pred fuel head = cells.find? (selectedNode ht pred) := by
  induction chain generalizing fuel with
  | nil back => cases fuel <;> rfl
  | cons cell back next rest here tail inductionHypothesis =>
      obtain ⟨fuel, rfl⟩ : ∃ f, fuel = f + 1 := ⟨fuel - 1, by simp at enough; omega⟩
      obtain ⟨n, stored, linked⟩ := Option.map_eq_some_iff.mp here
      simp only [Prod.mk.injEq] at linked
      have onward : firstOnChain ht pred fuel next = rest.find? (selectedNode ht pred) :=
        inductionHypothesis (by simp at enough; omega)
      rw [← linked.2] at onward
      cases selected : pred n.entry <;>
        simp [firstOnChain, stored, selected, selectedNode, onward]

variable (layout : Layout componentHash ht chains)
include layout

theorem map_getD_range' (first : Nat) :
    (List.range' first (ht.getNBuckets - first)).map (fun b => chains.getD b []) = chains.drop first := by
  apply List.ext_getElem
  · simp [layout.length_eq]
  · intro i inRange inDrop
    have within : first + i < chains.length := by
      simp at inDrop
      omega
    simp [List.getD_eq_getElem?_getD, List.getElem?_eq_getElem within]

/-- The loop over the buckets from `first` finds the first selected node of their chains,
in bucket order. -/
theorem firstInBuckets_eq (first : Nat) :
    firstInBuckets ht pred first = (chains.drop first).flatten.find? (selectedNode ht pred) := by
  -- a bucket's walk is the search of its chain, also past the last bucket
  have perBucket : (fun b => firstOnChain ht pred ht.size (ht.buckets.getD b none)) =
      fun b => (chains.getD b []).find? (selectedNode ht pred) := by
    funext b
    by_cases bound : b < ht.getNBuckets
    · exact firstOnChain_eq pred (layout.chain b bound) (layout.chain_length_le b)
    · have noChain := layout.toPlaced.getD_eq_nil (Nat.le_of_not_lt bound)
      have noHead : ht.buckets.getD b none = none := by
        unfold Hashtable.getNBuckets at bound
        simp [List.getD_eq_getElem?_getD, List.getElem?_eq_none (Nat.le_of_not_lt bound)]
      rw [noHead, noChain]
      cases ht.size <;> rfl
  unfold firstInBuckets
  rw [perBucket, List.find?_flatten, ← map_getD_range' layout first, List.findSome?_map]
  rfl

/-- The first non-empty bucket's head is the first node in bucket order. -/
theorem firstBucket_eq :
    (List.range ht.getNBuckets).findSome? (fun b => ht.buckets.getD b none) = chains.flatten.head? := by
  have perBucket : (fun b => ht.buckets.getD b none) = fun b => (chains.getD b []).head? := by
    funext b
    by_cases bound : b < ht.getNBuckets
    · exact layout.toPlaced.head_eq b bound
    · have noChain := layout.toPlaced.getD_eq_nil (Nat.le_of_not_lt bound)
      rw [noChain, List.head?_nil]
      unfold Hashtable.getNBuckets at bound
      simp [List.getD_eq_getElem?_getD, List.getElem?_eq_none (Nat.le_of_not_lt bound)]
  have everyBucket := congrArg (List.findSome? fun l => l.head?) (map_getD_range' layout 0)
  rw [Nat.sub_zero, List.drop_zero, List.findSome?_map] at everyBucket
  rw [perBucket, List.head?_flatten, List.range_eq_range', ← everyBucket]
  rfl

/-- After a node, the full enumeration finds the first selected node after it in bucket
order: the rest of its chain, then the chains of the later buckets. -/
theorem nextAfter_of_split {before after : List NodeId} {x : NodeId}
    (split : chains.flatten = before ++ x :: after) :
    nextAfter ht pred x = after.find? (selectedNode ht pred) := by
  have onChains : x ∈ chains.flatten := by simp [split]
  obtain ⟨b, onChain⟩ := (mem_flatten_iff chains x).mp onChains
  obtain ⟨n, stored, bucketIs⟩ := layout.placed b x onChain
  have bound : b < ht.getNBuckets := bucketIs ▸ layout.toPlaced.bucket_lt n.hash
  obtain ⟨pre, post, cut⟩ := List.append_of_mem onChain
  -- the chain of `x` from `x` on, and its next pointer
  have chain := layout.chain b bound
  rw [cut] at chain
  obtain ⟨back, fromX⟩ := chain.suffix
  obtain ⟨-, next, here, tail⟩ := fromX.cons_inv
  have nextIs : next = n.next := by
    simp only [links, stored, Option.map_some, Option.some.injEq, Prod.mk.injEq] at here
    exact here.2.symm
  subst nextIs
  have short : post.length ≤ ht.size := by
    have whole := layout.chain_length_le b
    rw [cut] at whole
    simp at whole
    omega
  -- in bucket order, `x` is followed by the rest of its chain and the later chains
  have bounded : b < chains.length := layout.length_eq ▸ bound
  have inOrder : chains.flatten = ((chains.take b).flatten ++ pre) ++ x :: (post ++ (chains.drop (b + 1)).flatten) := by
    have atB : chains[b] = pre ++ x :: post := by
      simpa [List.getD_eq_getElem?_getD, List.getElem?_eq_getElem bounded] using cut
    conv_lhs => rw [← List.take_append_drop b chains, ← List.getElem_cons_drop bounded]
    simp [atB]
  have same : after = post ++ (chains.drop (b + 1)).flatten :=
    (siblingsAfter_eq layout.nodup_flatten split).symm.trans (siblingsAfter_eq layout.nodup_flatten inOrder)
  unfold nextAfter
  rw [stored]
  simp only
  rw [firstOnChain_eq pred tail short, firstInBuckets_eq pred layout, bucketIs, same, List.find?_append]

end FullWalk

/-- The iterator stands at a node, and what remains are the selected nodes after it in
bucket order; or it is at the end with nothing left. -/
def FullTracks (ht : Hashtable F P M S) (pred : Entry F P M S → Bool) (chains : List (List NodeId))
    (i : Iterator) (later : List NodeId) : Prop :=
  match i.entry with
  | none => later = []
  | some x => ∃ before after, chains.flatten = before ++ x :: after ∧
      later = x :: after.filter (selectedNode ht pred)

section FullRun

variable {componentHash : Component → HashValue} {ht : Hashtable F P M S}
  {chains : List (List NodeId)} {pred : Entry F P M S → Bool}

/-- Moving to the first selected node of what is left keeps the iterator on track. -/
theorem FullTracks.moveTo (i : Iterator) {before rest : List NodeId}
    (split : chains.flatten = before ++ rest) :
    FullTracks ht pred chains (i.moveTo (rest.find? (selectedNode ht pred)))
      (rest.filter (selectedNode ht pred)) := by
  cases found : rest.find? (selectedNode ht pred) with
  | none =>
      show rest.filter (selectedNode ht pred) = []
      rw [List.filter_eq_nil_iff]
      intro y member selected
      exact List.find?_eq_none.mp found y member selected
  | some y =>
      obtain ⟨selected, skipped, later, cut, unselected⟩ := List.find?_eq_some_iff_append.mp found
      refine ⟨before ++ skipped, later, by rw [split, cut]; simp, ?_⟩
      rw [cut, List.filter_append, List.filter_eq_nil_iff.mpr, List.filter_cons_of_pos selected]
      · rfl
      · intro z member
        simpa using unselected z member

theorem FullTracks.entry_nil {i : Iterator} (tracks : FullTracks ht pred chains i []) :
    i.entry = none := by
  unfold FullTracks at tracks
  cases entry : i.entry with
  | none => rfl
  | some x =>
      rw [entry] at tracks
      obtain ⟨before, after, -, rest⟩ := tracks
      cases rest

theorem FullTracks.entry_cons {i : Iterator} {x : NodeId} {later : List NodeId}
    (tracks : FullTracks ht pred chains i (x :: later)) : i.entry = some x := by
  unfold FullTracks at tracks
  cases entry : i.entry with
  | none =>
      rw [entry] at tracks
      cases tracks
  | some y =>
      rw [entry] at tracks
      obtain ⟨before, after, -, rest⟩ := tracks
      rw [List.cons.injEq] at rest
      rw [rest.1]

variable (layout : Layout componentHash ht chains)
include layout

theorem FullTracks.advance {i : Iterator} {x : NodeId} {later : List NodeId}
    (tracks : FullTracks ht pred chains i (x :: later)) :
    FullTracks ht pred chains (FullEnumerationImpl.advance ht pred i) later := by
  unfold FullTracks at tracks
  cases entry : i.entry with
  | none =>
      rw [entry] at tracks
      cases tracks
  | some y =>
      rw [entry] at tracks
      obtain ⟨before, after, split, rest⟩ := tracks
      rw [List.cons.injEq] at rest
      obtain ⟨same, rfl⟩ := rest
      subst same
      have moved : FullTracks ht pred chains (i.moveTo (after.find? (selectedNode ht pred)))
          (after.filter (selectedNode ht pred)) :=
        FullTracks.moveTo i (split.trans (List.append_cons before x after))
      rw [← nextAfter_of_split pred layout split] at moved
      simpa [FullEnumerationImpl.advance, entry] using moved

/-- The first `advance` stands at the first selected node in bucket order. -/
theorem FullTracks.begin :
    FullTracks ht pred chains (FullEnumerationImpl.advance ht pred ⟨none, none, false⟩)
      (chains.flatten.filter (selectedNode ht pred)) := by
  have first := firstBucket_eq layout
  cases order : chains.flatten with
  | nil =>
      rw [order, List.head?_nil] at first
      have atEnd : FullEnumerationImpl.advance ht pred ⟨none, none, false⟩ = Iterator.atEnd := by
        simp only [FullEnumerationImpl.advance, first]
      rw [atEnd]
      rfl
  | cons node rest =>
      rw [order, List.head?_cons] at first
      have started : FullEnumerationImpl.advance ht pred ⟨none, none, false⟩ =
          if selectedNode ht pred node then ⟨some node, none, false⟩
          else Iterator.moveTo ⟨none, none, false⟩ (nextAfter ht pred node) := by
        simp only [FullEnumerationImpl.advance, first]
      rw [started, nextAfter_of_split pred layout (order.trans (List.nil_append _).symm)]
      cases selected : selectedNode ht pred node with
      | true =>
          refine ⟨[], rest, order, ?_⟩
          rw [List.filter_cons_of_pos selected]
      | false =>
          rw [List.filter_cons_of_neg (by simp [selected])]
          exact FullTracks.moveTo _ (order.trans (List.singleton_append).symm)

end FullRun

theorem selectedNode_eq_true_iff {ht : Hashtable F P M S} {pred : Entry F P M S → Bool} (x : NodeId) :
    selectedNode ht pred x = true ↔ ∃ ex, entries ht.nodes x = some ex ∧ pred ex = true := by
  cases stored : ht.nodes x <;> simp [selectedNode, entries, stored]

/-- The chains hold exactly the nodes in memory. -/
theorem Layout.mem_flatten_iff_stored {componentHash : Component → HashValue} {ht : Hashtable F P M S}
    {chains : List (List NodeId)} (layout : Layout componentHash ht chains) (x : NodeId) :
    x ∈ chains.flatten ↔ ∃ n, ht.nodes x = some n := by
  rw [mem_flatten_iff]
  constructor
  · rintro ⟨b, onChain⟩
    obtain ⟨n, stored, -⟩ := layout.placed b x onChain
    exact ⟨n, stored⟩
  · rintro ⟨n, stored⟩
    exact ⟨_, layout.allocated x n stored⟩

/-- `fullEnumerate` visits the selected nodes in bucket order. -/
theorem Layout.fullEnumerate_eq {componentHash : Component → HashValue} {chains : List (List NodeId)}
    {nt : NameTree F P M S} (layout : Layout componentHash nt.ht chains)
    (pred : Entry F P M S → Bool) :
    nt.fullEnumerate pred = some (chains.flatten.filter (selectedNode nt.ht pred)) := by
  have fewer : (chains.flatten.filter (selectedNode nt.ht pred)).length < nt.ht.size + 1 := by
    have shorter := List.length_filter_le (selectedNode nt.ht pred) chains.flatten
    rw [← layout.size_eq] at shorter
    omega
  exact visits_eq_of_tracks (FullTracks nt.ht pred chains) (fun _ tracks => tracks.entry_nil)
    (fun _ _ _ tracks => ⟨tracks.entry_cons, _, rfl, tracks.advance layout⟩) _ _ _
    (FullTracks.begin layout) fewer

section PrefixMatch

variable (ht : Hashtable F P M S) (pred : Entry F P M S → Bool)

/-- `while ((m_entry = m_entry->getParent()) != nullptr) if (m_pred(*m_entry))`, from the
entry `start`: the first entry up the parent pointers the selector accepts, at most `fuel`
entries on. -/
def firstUp : Nat → Option NodeId → Option NodeId
  | 0, _ => none
  | _ + 1, none => none
  | fuel + 1, some id =>
      match ht.nodes id with
      | none => none
      | some n => if pred n.entry then some id else firstUp fuel n.entry.parent

/-- `PrefixMatchImpl::advance`; the climb is bounded by `getMaxDepth() + 1` entries. -/
def PrefixMatchImpl.advance (i : Iterator) : Iterator :=
  match i.entry with
  | some entry => i.moveTo (firstUp ht pred (getMaxDepth + 1) (parentOf (entries ht.nodes) entry))
  | none =>
      match i.ref with
      | none => Iterator.atEnd
      | some ref =>
          -- visit starting node
          if selectedNode ht pred ref then { i with entry := some ref }
          else i.moveTo (firstUp ht pred (getMaxDepth + 1) (parentOf (entries ht.nodes) ref))

end PrefixMatch

section Lookup

variable (componentHash : Component → HashValue)

/-- The entries the range `findAllMatches(name, entrySelector)` visits. -/
def findAllMatchesRange (name : Name) (pred : Entry F P M S → Bool) (nt : NameTree F P M S) :
    Option (List NodeId) :=
  let advance := PrefixMatchImpl.advance nt.ht pred
  visits (fun i => some (advance i)) (getMaxDepth + 2)
    (advance ⟨none, nt.findLongestPrefixMatch componentHash name pred, false⟩)

end Lookup

section PrefixRun

variable {componentHash : Component → HashValue} {ht : Hashtable F P M S}
  {pred : Entry F P M S → Bool}

/-- The climb finds the first entry the list of selected entries up the parent pointers
starts with. -/
theorem firstUp_eq_head (fuel : Nat) (start : Option NodeId) :
    firstUp ht pred fuel start = (collectUp ht.nodes pred fuel start).head? := by
  induction fuel generalizing start with
  | zero => rfl
  | succ fuel inductionHypothesis =>
      cases start with
      | none => rfl
      | some id =>
          cases stored : ht.nodes id with
          | none => simp [firstUp, collectUp, stored]
          | some n =>
              cases selected : pred n.entry <;>
                simp [firstUp, collectUp, stored, selected, inductionHypothesis]

theorem length_collectUp_le (fuel : Nat) (start : Option NodeId) :
    (collectUp ht.nodes pred fuel start).length ≤ fuel := by
  induction fuel generalizing start with
  | zero => simp [collectUp]
  | succ fuel inductionHypothesis =>
      cases start with
      | none => simp [collectUp]
      | some id =>
          cases stored : ht.nodes id with
          | none => simp [collectUp, stored]
          | some n =>
              have rest := inductionHypothesis n.entry.parent
              cases selected : pred n.entry <;> simp [collectUp, stored, selected] <;> omega

variable (ht) in
/-- Every entry from `start` up has a name shorter than `fuel`. -/
def Deep (fuel : Nat) (start : Option NodeId) : Prop :=
  ∀ p n, start = some p → ht.nodes p = some n → n.entry.name.length < fuel

variable (valid : Valid componentHash ht)
include valid

theorem Deep.maxDepth (start : Option NodeId) : Deep ht (getMaxDepth + 1) start := by
  intro p n _ stored
  have bounded := valid.shape.depth_le p n.entry (by simp [entries, stored])
  omega

/-- The parent of an entry has a name one component shorter. -/
theorem Deep.parent {fuel : Nat} {p : NodeId} {n : Node F P M S} (deep : Deep ht (fuel + 1) (some p))
    (stored : ht.nodes p = some n) : Deep ht fuel n.entry.parent := by
  intro q nq parentIs storedQ
  have storedE : entries ht.nodes p = some n.entry := by simp [entries, stored]
  obtain ⟨ep, storedP, named, -⟩ := valid.shape.parent_entry storedE parentIs
  have nonRoot := valid.shape.name_ne_nil_of_parent storedE parentIs
  rw [show entries ht.nodes q = some nq.entry by simp [entries, storedQ], Option.some.injEq] at storedP
  subst storedP
  have shorter := deep p n rfl stored
  have positive : 0 < n.entry.name.length := List.length_pos_iff.mpr nonRoot
  rw [named, List.length_dropLast]
  omega

/-- Any fuel above the depth of the entries gives the same climb. -/
theorem collectUp_stable (f : Nat) :
    ∀ (g : Nat) (start : Option NodeId), Deep ht f start → Deep ht g start →
      collectUp ht.nodes pred f start = collectUp ht.nodes pred g start := by
  induction f with
  | zero =>
      intro g start deepF _
      cases start with
      | none => cases g <;> rfl
      | some p =>
          cases stored : ht.nodes p with
          | none => cases g <;> simp [collectUp, stored]
          | some n => exact absurd (deepF p n rfl stored) (Nat.not_lt_zero _)
  | succ f inductionHypothesis =>
      intro g start deepF deepG
      cases start with
      | none => cases g <;> rfl
      | some p =>
          cases stored : ht.nodes p with
          | none => cases g <;> simp [collectUp, stored]
          | some n =>
              obtain ⟨g, rfl⟩ : ∃ g', g = g' + 1 := ⟨g - 1, by have := deepG p n rfl stored; omega⟩
              simp only [collectUp, stored]
              rw [inductionHypothesis g _ (deepF.parent valid stored) (deepG.parent valid stored)]

/-- What follows an entry in the climb is the climb from its parent. -/
theorem collectUp_cons {f : Nat} {start : Option NodeId} {y : NodeId} {rest : List NodeId}
    (deep : Deep ht f start) (climb : collectUp ht.nodes pred f start = y :: rest) :
    rest = collectUp ht.nodes pred (getMaxDepth + 1) (parentOf (entries ht.nodes) y) := by
  induction f generalizing start with
  | zero => simp [collectUp] at climb
  | succ f inductionHypothesis =>
      cases start with
      | none => simp [collectUp] at climb
      | some p =>
          cases stored : ht.nodes p with
          | none => simp [collectUp, stored] at climb
          | some n =>
              have deepParent := deep.parent valid stored
              cases selected : pred n.entry with
              | true =>
                  simp only [collectUp, stored, selected, if_true, List.singleton_append,
                    List.cons.injEq] at climb
                  obtain ⟨rfl, rfl⟩ := climb
                  have parentIs : parentOf (entries ht.nodes) p = n.entry.parent := by
                    simp [parentOf, entries, stored]
                  rw [parentIs]
                  exact collectUp_stable valid f _ _ deepParent (Deep.maxDepth valid _)
              | false =>
                  simp only [collectUp, stored, selected, Bool.false_eq_true, if_false,
                    List.nil_append] at climb
                  exact inductionHypothesis deepParent climb

theorem collectUp_selected {r : NodeId} (selected : selectedNode ht pred r = true) :
    collectUp ht.nodes pred (getMaxDepth + 1) (some r) =
      r :: collectUp ht.nodes pred (getMaxDepth + 1) (parentOf (entries ht.nodes) r) := by
  cases stored : ht.nodes r with
  | none => simp [selectedNode, stored] at selected
  | some n =>
      have accepted : pred n.entry = true := by simpa [selectedNode, stored] using selected
      have climb : collectUp ht.nodes pred (getMaxDepth + 1) (some r) =
          r :: collectUp ht.nodes pred getMaxDepth n.entry.parent := by
        simp [collectUp, stored, accepted]
      rw [climb, collectUp_cons valid (Deep.maxDepth valid _) climb]

theorem collectUp_unselected {r : NodeId} (unselected : selectedNode ht pred r = false) :
    collectUp ht.nodes pred (getMaxDepth + 1) (some r) =
      collectUp ht.nodes pred (getMaxDepth + 1) (parentOf (entries ht.nodes) r) := by
  cases stored : ht.nodes r with
  | none => simp [collectUp, parentOf, entries, stored, collectUp_none]
  | some n =>
      have rejected : pred n.entry = false := by simpa [selectedNode, stored] using unselected
      have parentIs : parentOf (entries ht.nodes) r = n.entry.parent := by
        simp [parentOf, entries, stored]
      simp only [collectUp, stored, rejected, Bool.false_eq_true, if_false, List.nil_append, parentIs]
      exact collectUp_stable valid _ _ _ ((Deep.maxDepth valid (some r)).parent valid stored)
        (Deep.maxDepth valid _)

end PrefixRun

/-- What a prefix-match iterator has left to visit: its entry, then the selected entries
up the parent pointers. -/
def PrefixTracks (ht : Hashtable F P M S) (pred : Entry F P M S → Bool) (i : Iterator)
    (later : List NodeId) : Prop :=
  match i.entry with
  | none => later = []
  | some x => later = x :: collectUp ht.nodes pred (getMaxDepth + 1) (parentOf (entries ht.nodes) x)

section PrefixTracking

variable {componentHash : Component → HashValue} {ht : Hashtable F P M S}
  {pred : Entry F P M S → Bool}

theorem PrefixTracks.entry_nil {i : Iterator} (tracks : PrefixTracks ht pred i []) :
    i.entry = none := by
  cases entry : i.entry with
  | none => rfl
  | some x => simp [PrefixTracks, entry] at tracks

theorem PrefixTracks.entry_cons {i : Iterator} {x : NodeId} {later : List NodeId}
    (tracks : PrefixTracks ht pred i (x :: later)) : i.entry = some x := by
  cases entry : i.entry with
  | none => simp [PrefixTracks, entry] at tracks
  | some y =>
      simp only [PrefixTracks, entry, List.cons.injEq] at tracks
      rw [tracks.1]

variable (valid : Valid componentHash ht)
include valid

/-- Climbing to the first selected entry keeps the iterator on track. -/
theorem PrefixTracks.moveUp (i : Iterator) (start : Option NodeId) :
    PrefixTracks ht pred (i.moveTo (firstUp ht pred (getMaxDepth + 1) start))
      (collectUp ht.nodes pred (getMaxDepth + 1) start) := by
  rw [firstUp_eq_head]
  cases climb : collectUp ht.nodes pred (getMaxDepth + 1) start with
  | nil => rfl
  | cons y rest =>
      show y :: rest = y :: _
      rw [← collectUp_cons valid (Deep.maxDepth valid start) climb]

theorem PrefixTracks.advance {i : Iterator} {x : NodeId} {later : List NodeId}
    (tracks : PrefixTracks ht pred i (x :: later)) :
    PrefixTracks ht pred (PrefixMatchImpl.advance ht pred i) later := by
  have entry := tracks.entry_cons
  simp only [PrefixTracks, entry, List.cons.injEq] at tracks
  rw [tracks.2]
  simpa [PrefixMatchImpl.advance, entry] using PrefixTracks.moveUp valid i (parentOf (entries ht.nodes) x)

/-- The first \`advance\` stands at the first selected entry from the start up. -/
theorem PrefixTracks.begin (start : Option NodeId) :
    PrefixTracks ht pred (PrefixMatchImpl.advance ht pred ⟨none, start, false⟩)
      (collectUp ht.nodes pred (getMaxDepth + 1) start) := by
  cases start with
  | none => simp [PrefixMatchImpl.advance, collectUp_none, PrefixTracks, Iterator.atEnd]
  | some r =>
      cases selected : selectedNode ht pred r with
      | true =>
          rw [collectUp_selected valid selected]
          simp [PrefixMatchImpl.advance, selected, PrefixTracks]
      | false =>
          rw [collectUp_unselected valid selected]
          simpa [PrefixMatchImpl.advance, selected] using
            PrefixTracks.moveUp valid ⟨none, some r, false⟩ (parentOf (entries ht.nodes) r)

end PrefixTracking

/-- The range of \`findAllMatches\` visits the entries the vector form of the lookup lists. -/
theorem Valid.findAllMatchesRange_eq {componentHash : Component → HashValue} {nt : NameTree F P M S}
    (valid : Valid componentHash nt.ht) (name : Name) (pred : Entry F P M S → Bool) :
    nt.findAllMatchesRange componentHash name pred = some (nt.findAllMatches componentHash name pred) := by
  have fewer : (nt.findAllMatches componentHash name pred).length < getMaxDepth + 2 := by
    have bounded : (collectUp nt.ht.nodes pred (getMaxDepth + 1)
        (nt.findLongestPrefixMatch componentHash name pred)).length ≤ getMaxDepth + 1 :=
      length_collectUp_le _ _
    exact Nat.lt_succ_of_le bounded
  exact visits_eq_of_tracks (PrefixTracks nt.ht pred) (fun _ tracks => tracks.entry_nil)
    (fun _ _ _ tracks => ⟨tracks.entry_cons, _, rfl, tracks.advance valid⟩) _ _ _
    (PrefixTracks.begin valid _) fewer

/-- On every reachable name tree, iterating \`fullEnumerate(pred)\` ends and visits once each
entry \`pred\` accepts and nothing else, and iterating \`findAllMatches(name, pred)\` ends and
visits once each entry \`pred\` accepts whose name is a prefix of \`name\` of at most
\`getMaxDepth\` components, and nothing else. -/
theorem enumerations_visitEachOnce [DecidableEq P] (componentHash : Component → HashValue)
    (nt : NameTree F P M S) (reachable : Reachable componentHash nt) (pred : Entry F P M S → Bool) :
    (∃ visited, nt.fullEnumerate pred = some visited ∧ visited.Nodup ∧
        ∀ x, x ∈ visited ↔ ∃ ex, entries nt.ht.nodes x = some ex ∧ pred ex = true) ∧
      ∀ name, ∃ visited, nt.findAllMatchesRange componentHash name pred = some visited ∧
        visited.Nodup ∧
        ∀ x, x ∈ visited ↔ ∃ ex, entries nt.ht.nodes x = some ex ∧ ex.name <+: name ∧
          ex.name.length ≤ getMaxDepth ∧ pred ex = true := by
  have valid := reachable.valid
  obtain ⟨chains, layout⟩ := valid.layout
  refine ⟨⟨_, layout.fullEnumerate_eq pred, layout.toPlaced.nodup_flatten.filter _, fun x => ?_⟩,
    fun name => ⟨_, valid.findAllMatchesRange_eq name pred, valid.findAllMatches_spec name⟩⟩
  rw [List.mem_filter, layout.mem_flatten_iff_stored, selectedNode_eq_true_iff]
  constructor
  · rintro ⟨-, selected⟩
    exact selected
  · rintro ⟨ex, storedE, selected⟩
    -- an entry in the table is the entry of a node in memory
    obtain ⟨n, stored, -⟩ : ∃ n, nt.ht.nodes x = some n ∧ n.entry = ex := by
      simpa [entries] using storedE
    exact ⟨⟨n, stored⟩, ex, storedE, selected⟩

theorem enumerations_visitEachOnce_lookup :
    (∃ visited, lookupRun.fullEnumerate (fun _ => true) = some visited ∧ visited.Nodup ∧
        ∀ x, x ∈ visited ↔ ∃ ex, entries lookupRun.ht.nodes x = some ex ∧ (fun _ => true) ex = true) ∧
      ∀ name, ∃ visited,
        lookupRun.findAllMatchesRange (fun c => UInt64.ofNat c.type) name (fun _ => true) = some visited ∧
        visited.Nodup ∧
        ∀ x, x ∈ visited ↔ ∃ ex, entries lookupRun.ht.nodes x = some ex ∧ ex.name <+: name ∧
          ex.name.length ≤ getMaxDepth ∧ (fun _ => true) ex = true :=
  enumerations_visitEachOnce _ lookupRun ⟨16, by decide, _, by decide, rfl⟩ _

end Nfd.NameTree
