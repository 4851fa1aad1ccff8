import Nfd.Table.NameTreeLpm
import Nfd.Lib.PrunedTree

/-!
# Enumerating the name tree

`name-tree-iterator.cpp`.  An iterator keeps the current entry, a reference entry and one
state word between calls of `advance`; the end iterator has no entry, and a range visits
the current entry of each iterator from its first until it equals the end.

`PartialEnumerationImpl` walks the subtree of the reference entry in pre-order, pruned by
an `EntrySubTreeSelector`, with no stack: it descends to the first child, moves on to the
next sibling by finding the current entry among its parent's children, climbs to the
parent when the siblings run out, and stops when it is back at the reference entry.  On a
well-formed tree the entries it visits are the pruned pre-order walk of `PrunedTree`
(`partialEnumerate_eq_subtree`).  The proof tracks, beside the iterator, the path from the
current entry up to the reference entry: what remains to be visited is the rest of the
current entry's children and the siblings after each entry of the path, and the rounds of
the loop left to run drop at every round.
-/

set_option autoImplicit false

namespace Nfd.NameTree

open PrunedTree

variable {F P M S : Type}

/-- An iterator: `m_entry` (`none` for the end iterator and before the first `advance`),
`m_ref` and `m_state`. -/
structure Iterator where
  entry : Option NodeId
  ref : Option NodeId
  state : Bool
deriving DecidableEq, Repr

/-- `Iterator()`, the end iterator. -/
def Iterator.atEnd : Iterator := ⟨none, none, false⟩

/-- The entries of a range: the current entry of each iterator from `first` on, each
advanced from the one before, until one equals the end iterator (`operator==` compares
`m_entry` only).  `none` when `advance` or `fuel` runs out first. -/
def visits (advance : Iterator → Option Iterator) : Nat → Iterator → Option (List NodeId)
  | 0, _ => none
  | fuel + 1, i =>
      match i.entry with
      | none => some []
      | some entry =>
          match advance i with
          | none => none
          | some next => (visits advance fuel next).map (entry :: ·)

/-- A range visits what an invariant of its iterators says is left, when an iterator with
nothing left is the end iterator, `advance` moves past the entry an iterator stands at, and
the fuel exceeds the entries left. -/
theorem visits_eq_of_tracks {advance : Iterator → Option Iterator}
    (Tracks : Iterator → List NodeId → Prop) (finished : ∀ i, Tracks i [] → i.entry = none)
    (moves : ∀ i x later, Tracks i (x :: later) →
      i.entry = some x ∧ ∃ i', advance i = some i' ∧ Tracks i' later) :
    ∀ (later : List NodeId) (n : Nat) (i : Iterator), Tracks i later → later.length < n →
      visits advance n i = some later := by
  intro later
  induction later with
  | nil =>
      intro n i tracks enough
      obtain ⟨n, rfl⟩ : ∃ m, n = m + 1 := ⟨n - 1, by simp at enough; omega⟩
      simp [visits, finished i tracks]
  | cons x later inductionHypothesis =>
      intro n i tracks enough
      obtain ⟨n, rfl⟩ : ∃ m, n = m + 1 := ⟨n - 1, by simp at enough; omega⟩
      obtain ⟨entry, i', advanced, tracks'⟩ := moves i x later tracks
      have visited := inductionHypothesis n i' tracks' (by simp at enough; omega)
      simp [visits, entry, advanced, visited]

section Links

variable (E : NodeId → Option (Entry F P M S))

/-- `getChildren()` of the entry at `id`. -/
def childrenOf (id : NodeId) : List NodeId := ((E id).map Entry.children).getD []

/-- `getParent()` of the entry at `id`. -/
def parentOf (id : NodeId) : Option NodeId := (E id).bind Entry.parent

/-- How many components the name of the entry at `id` may still gain. -/
def heightOf (id : NodeId) : Nat := getMaxDepth - ((E id).map fun e => e.name.length).getD 0

end Links

section Partial

variable (E : NodeId → Option (Entry F P M S)) (pred : Entry F P M S → Bool × Bool)

/-- `m_pred(*entry)` for the entry at `id`: whether to visit it, and whether to visit its
children. -/
def selectAt (id : NodeId) : Bool × Bool := ((E id).map pred).getD (false, false)

/-- How the loop over the siblings after `m_entry` ends. -/
inductive SiblingScan
  | visit (sibling : NodeId) (wantChildren : Bool)
  | descend (sibling : NodeId)
  | exhausted

/-- `while (++sibling != siblings.end())`: the first sibling the selector visits or whose
children it wants. -/
def scanSiblings : List NodeId → SiblingScan
  | [] => .exhausted
  | sibling :: rest =>
      let (wantSelf, wantChildren) := selectAt E pred sibling
      if wantSelf then .visit sibling wantChildren
      else if wantChildren then .descend sibling
      else scanSiblings rest

/-- The siblings after `std::find(siblings.begin(), siblings.end(), entry)`. -/
def siblingsAfter (siblings : List NodeId) (entry : NodeId) : List NodeId :=
  siblings.drop (siblings.idxOf entry + 1)

/-- The pre-order loop of `PartialEnumerationImpl::advance` from `m_entry` with
`wantChildren`: `some (some (entry, state))` for the next entry visited and its `m_state`,
`some none` at the end, and `none` when `fuel`, one unit per round of the outer loop,
runs out. -/
def preorderLoop (ref : NodeId) : Nat → NodeId → Bool → Option (Option (NodeId × Bool))
  | 0, _, _ => none
  | fuel + 1, entry, wantChildren =>
      if entry != ref || (wantChildren && !(childrenOf E entry).isEmpty) then
        match wantChildren, childrenOf E entry with
        | true, first :: _ =>
            -- process children of m_entry
            let (wantSelf, wantChildren) := selectAt E pred first
            if wantSelf then some (some (first, wantChildren))
            else preorderLoop ref fuel first wantChildren
        | _, _ =>
            -- process siblings of m_entry; the parent's existence is only asserted
            match parentOf E entry with
            | none => some none
            | some parent =>
                match scanSiblings E pred (siblingsAfter (childrenOf E parent) entry) with
                | .visit sibling wantChildren => some (some (sibling, wantChildren))
                | .descend sibling => preorderLoop ref fuel sibling true
                | .exhausted => preorderLoop ref fuel parent false
      else some none

/-- The end of `advance` once `m_entry` and `wantChildren` are set. -/
def resume (fuel : Nat) (ref entry : NodeId) (wantChildren : Bool) : Option Iterator :=
  (preorderLoop E pred ref fuel entry wantChildren).map fun
    | some (next, state) => ⟨some next, some ref, state⟩
    | none => Iterator.atEnd

/-- `PartialEnumerationImpl::advance`. -/
def PartialEnumerationImpl.advance (fuel : Nat) (i : Iterator) : Option Iterator :=
  match i.entry, i.ref with
  | none, none => some Iterator.atEnd
  | none, some ref =>
      -- initialize: start from the root of the subtree
      let (wantSelf, wantChildren) := selectAt E pred ref
      if wantSelf then some ⟨some ref, some ref, wantChildren⟩
      else resume E pred fuel ref ref wantChildren
  | some entry, some ref => resume E pred fuel ref entry i.state
  | some _, none => some Iterator.atEnd

end Partial

/-- `partialEnumerate(prefix, entrySubTreeSelector)`: the entries the range visits.  The
rounds of each `advance` and the entries of the range are bounded by the allocated
addresses. -/
def partialEnumerate (componentHash : Component → HashValue) (prefixName : Name)
    (pred : Entry F P M S → Bool × Bool) (nt : NameTree F P M S) : Option (List NodeId) :=
  let advance := PartialEnumerationImpl.advance (entries nt.ht.nodes) pred (2 * nt.ht.nextNodeId + 1)
  (advance ⟨none, nt.findExactMatch componentHash prefixName prefixName.length, false⟩).bind
    (visits advance (nt.ht.nextNodeId + 1))

section Tree

variable {E : NodeId → Option (Entry F P M S)}

theorem exists_of_mem_childrenOf {x c : NodeId} (member : c ∈ childrenOf E x) :
    ∃ e, E x = some e ∧ c ∈ e.children := by
  unfold childrenOf at member
  cases stored : E x with
  | none => simp [stored] at member
  | some e => exact ⟨e, rfl, by simpa [stored] using member⟩

/-- The children and parent pointers of a well-formed tree are the links of a tree whose
height drops by one component from an entry to its children. -/
theorem Shape.linked (shape : Shape E) : Linked (childrenOf E) (parentOf E) (heightOf E) where
  child_parent := by
    intro x c member
    obtain ⟨e, stored, member⟩ := exists_of_mem_childrenOf member
    obtain ⟨ec, storedC, parentIs⟩ := shape.child_spec x e c stored member
    simp [parentOf, storedC, parentIs]
  children_nodup := by
    intro x
    cases stored : E x with
    | none => simp [childrenOf, stored]
    | some e =>
        simp only [childrenOf, stored, Option.map_some, Option.getD_some]
        rw [List.nodup_iff_count_le_one]
        intro c
        by_cases member : c ∈ e.children
        · -- the child's parent pointer names `x`, where it occurs once
          obtain ⟨ec, storedC, parentIs⟩ := shape.child_spec x e c stored member
          obtain ⟨ep, storedP, -, once⟩ := shape.parent_entry storedC parentIs
          rw [stored, Option.some.injEq] at storedP
          subst storedP
          omega
        · rw [List.count_eq_zero_of_not_mem member]
          omega
  descends := by
    intro x c member
    obtain ⟨e, stored, member⟩ := exists_of_mem_childrenOf member
    obtain ⟨ec, y, storedC, -, named⟩ := shape.child_name stored member
    have bounded := shape.depth_le c ec storedC
    rw [named, List.length_append, List.length_singleton] at bounded
    simp only [heightOf, stored, storedC, Option.map_some, Option.getD_some, named,
      List.length_append, List.length_singleton]
    omega

/-- Every entry reached from an entry is stored. -/
theorem Shape.stored_of_reaches (shape : Shape E) {through : NodeId → Bool} {x e : NodeId}
    (stored : E x ≠ none) (reach : Reaches (childrenOf E) through x e) : E e ≠ none := by
  rcases reach.last_step with rfl | ⟨p, -, member, -⟩
  · exact stored
  · obtain ⟨ep, storedP, member⟩ := exists_of_mem_childrenOf member
    obtain ⟨ec, storedC, -⟩ := shape.child_spec p ep e storedP member
    simp [storedC]

/-- Every entry reached from an entry extends that entry's name. -/
theorem Shape.prefix_of_reaches (shape : Shape E) {through : NodeId → Bool} {x y : NodeId}
    (reach : Reaches (childrenOf E) through x y) {ex : Entry F P M S} (stored : E x = some ex) :
    ∃ ey, E y = some ey ∧ ex.name <+: ey.name := by
  induction reach generalizing ex with
  | refl => exact ⟨ex, stored, List.prefix_refl _⟩
  | child _ member _ inductionHypothesis =>
    obtain ⟨ex', storedX, memberChildren⟩ := exists_of_mem_childrenOf member
    rw [stored, Option.some.injEq] at storedX
    subst storedX
    obtain ⟨ec, z, storedC, -, namedC⟩ := shape.child_name stored memberChildren
    obtain ⟨ey, storedY, below⟩ := inductionHypothesis storedC
    exact ⟨ey, storedY, (List.prefix_append ex.name [z]).trans (namedC ▸ below)⟩

end Tree

section Simulation

variable (E : NodeId → Option (Entry F P M S)) (pred : Entry F P M S → Bool × Bool)

/-- The entry a path of entries up to `ref` starts at: its first entry, or `ref`. -/
def tip (ref : NodeId) (path : List NodeId) : NodeId := path.head?.getD ref

@[simp] theorem tip_nil (ref : NodeId) : tip ref [] = ref := rfl

@[simp] theorem tip_cons (ref y : NodeId) (up : List NodeId) : tip ref (y :: up) = y := rfl

/-- `path` runs from an entry up to `ref`, each entry a child of the next. -/
def OnPath (ref : NodeId) : List NodeId → Prop
  | [] => True
  | y :: up => y ∈ childrenOf E (tip ref up) ∧ OnPath ref up

/-- What remains to be visited once the subtree of each entry of `path` is done: the walks
of the siblings after it, from the first entry of the path up to `ref`. -/
def pending (ref : NodeId) : List NodeId → List NodeId
  | [] => []
  | y :: up =>
      (siblingsAfter (childrenOf E (tip ref up)) y).flatMap
          (subtree (childrenOf E) (selectAt E pred) (heightOf E)) ++
        pending ref up

/-- What remains to be visited from the current entry, with its children when
`wantChildren`. -/
def remaining (ref : NodeId) (path : List NodeId) (wantChildren : Bool) : List NodeId :=
  (if wantChildren then
      (childrenOf E (tip ref path)).flatMap (subtree (childrenOf E) (selectAt E pred) (heightOf E))
    else []) ++
    pending E pred ref path

/-- The entries the loop enters in the subtree of `x`: those below entries whose children
the selector wants. -/
def entered (x : NodeId) : Nat :=
  (subtree (childrenOf E) (fun y => (true, (selectAt E pred y).2)) (heightOf E) x).length

/-- The rounds of the loop left once the subtree of each entry of `path` is done: two for
each entry entered below the siblings after it, and one to climb. -/
def pendingRounds (ref : NodeId) : List NodeId → Nat
  | [] => 0
  | y :: up =>
      2 * ((siblingsAfter (childrenOf E (tip ref up)) y).map (entered E pred)).sum + 1 +
        pendingRounds ref up

def remainingRounds (ref : NodeId) (path : List NodeId) (wantChildren : Bool) : Nat :=
  (if wantChildren then 2 * ((childrenOf E (tip ref path)).map (entered E pred)).sum else 0) +
    pendingRounds E pred ref path

/-- What the loop returns, against what remains to be visited: the end when nothing does,
or the next entry, on a path, with what remains after it and fewer rounds left. -/
def Continues (ref : NodeId) (later : List NodeId) (rounds : Nat) : Option (NodeId × Bool) → Prop
  | none => later = []
  | some (e, state) => ∃ path, OnPath E ref path ∧ tip ref path = e ∧
      later = e :: remaining E pred ref path state ∧ remainingRounds E pred ref path state < rounds

/-- The loop, run with `fuel`, continues the walk from every entry on a path with fewer
rounds left than `fuel`. -/
def LoopContinues (ref : NodeId) (fuel : Nat) : Prop :=
  ∀ path wantChildren, OnPath E ref path → remainingRounds E pred ref path wantChildren < fuel →
    ∃ next, preorderLoop E pred ref fuel (tip ref path) wantChildren = some next ∧
      Continues E pred ref (remaining E pred ref path wantChildren)
        (remainingRounds E pred ref path wantChildren) next

variable {E pred}

theorem Continues.mono {ref : NodeId} {later : List NodeId} {rounds rounds' : Nat}
    {next : Option (NodeId × Bool)} (continues : Continues E pred ref later rounds next)
    (le : rounds ≤ rounds') : Continues E pred ref later rounds' next := by
  cases next with
  | none => exact continues
  | some next =>
      obtain ⟨path, onPath, atTip, rest, fewer⟩ := continues
      exact ⟨path, onPath, atTip, rest, by omega⟩

theorem preorderLoop_children {ref x first : NodeId} {others : List NodeId} {wantSelf wantChildren : Bool}
    (fuel : Nat) (children : childrenOf E x = first :: others)
    (selected : selectAt E pred first = (wantSelf, wantChildren)) :
    preorderLoop E pred ref (fuel + 1) x true =
      if wantSelf then some (some (first, wantChildren))
      else preorderLoop E pred ref fuel first wantChildren := by
  simp [preorderLoop, children, selected]

theorem preorderLoop_siblings {ref x parent : NodeId} {wantChildren : Bool} (fuel : Nat)
    (notRef : x ≠ ref) (noChildren : wantChildren = false ∨ childrenOf E x = [])
    (parentIs : parentOf E x = some parent) :
    preorderLoop E pred ref (fuel + 1) x wantChildren =
      match scanSiblings E pred (siblingsAfter (childrenOf E parent) x) with
      | .visit sibling wantChildren => some (some (sibling, wantChildren))
      | .descend sibling => preorderLoop E pred ref fuel sibling true
      | .exhausted => preorderLoop E pred ref fuel parent false := by
  rcases noChildren with rfl | children
  · simp [preorderLoop, notRef, parentIs]
  · cases wantChildren <;> simp [preorderLoop, notRef, parentIs, children]

theorem preorderLoop_done {ref : NodeId} {wantChildren : Bool} (fuel : Nat)
    (noChildren : wantChildren = false ∨ childrenOf E ref = []) :
    preorderLoop E pred ref (fuel + 1) ref wantChildren = some none := by
  rcases noChildren with rfl | children
  · simp [preorderLoop]
  · simp [preorderLoop, children]

/-- How the loop over the siblings ends: it runs out of siblings, all of them skipped, or
stops at the first sibling after skipped ones that it visits or enters. -/
theorem scanSiblings_spec (l : List NodeId) :
    (scanSiblings E pred l = .exhausted ∧ ∀ t ∈ l, selectAt E pred t = (false, false)) ∨
      ∃ pre s post, l = pre ++ s :: post ∧ (∀ t ∈ pre, selectAt E pred t = (false, false)) ∧
        ((∃ wantChildren, selectAt E pred s = (true, wantChildren) ∧
            scanSiblings E pred l = .visit s wantChildren) ∨
          (selectAt E pred s = (false, true) ∧ scanSiblings E pred l = .descend s)) := by
  induction l with
  | nil => exact .inl ⟨rfl, by simp⟩
  | cons t rest inductionHypothesis =>
      cases selected : selectAt E pred t with
      | mk wantSelf wantChildren =>
          cases wantSelf with
          | true =>
              exact .inr ⟨[], t, rest, rfl, by simp,
                .inl ⟨wantChildren, selected, by simp [scanSiblings, selected]⟩⟩
          | false =>
              cases wantChildren with
              | true => exact .inr ⟨[], t, rest, rfl, by simp, .inr ⟨selected, by simp [scanSiblings, selected]⟩⟩
              | false =>
                  -- a skipped sibling: the loop goes on with the next one
                  have next : scanSiblings E pred (t :: rest) = scanSiblings E pred rest := by
                    simp [scanSiblings, selected]
                  rw [next]
                  rcases inductionHypothesis with ⟨scan, skippedAll⟩ | ⟨pre, s, post, split, skippedPre, found⟩
                  · refine .inl ⟨scan, ?_⟩
                    intro u member
                    rcases List.mem_cons.mp member with rfl | inRest
                    · exact selected
                    · exact skippedAll u inRest
                  · refine .inr ⟨t :: pre, s, post, by rw [split, List.cons_append], ?_, found⟩
                    intro u member
                    rcases List.mem_cons.mp member with rfl | inPre
                    · exact selected
                    · exact skippedPre u inPre

theorem siblingsAfter_eq {siblings pre post : List NodeId} {y : NodeId} (nodup : siblings.Nodup)
    (split : siblings = pre ++ y :: post) : siblingsAfter siblings y = post := by
  subst split
  have notInPre : y ∉ pre := by
    intro inPre
    exact (List.nodup_append.mp nodup).2.2 y inPre y (List.mem_cons_self ..) rfl
  unfold siblingsAfter
  rw [List.idxOf_append_of_notMem notInPre, List.idxOf_cons_self]
  simp

theorem OnPath.reaches {ref : NodeId} :
    ∀ {path : List NodeId}, OnPath E ref path → Reaches (childrenOf E) (fun _ => true) ref (tip ref path)
  | [], _ => .refl ref
  | _ :: _, ⟨member, onPath⟩ => (OnPath.reaches onPath).trans (.child rfl member (.refl _))

section Linked

variable (linked : Linked (childrenOf E) (parentOf E) (heightOf E))
include linked

/-- The first entry of a non-empty path sits strictly below `ref`. -/
theorem OnPath.ne_ref {ref y : NodeId} {up : List NodeId} (onPath : OnPath E ref (y :: up)) :
    y ≠ ref := by
  obtain ⟨member, onPathUp⟩ := onPath
  have higher := onPathUp.reaches.height_le linked.descends
  have lower := linked.descends _ y member
  intro same
  subst same
  omega

theorem entered_eq (x : NodeId) :
    entered E pred x =
      1 + if (selectAt E pred x).2 then ((childrenOf E x).map (entered E pred)).sum else 0 := by
  unfold entered
  rw [subtree_eq _ linked.descends x]
  cases (selectAt E pred x).2 <;> simp [List.length_flatMap, Nat.add_comm]

/-- An entry the selector neither visits nor enters adds nothing to the walk. -/
theorem skipped {t : NodeId} (rejected : selectAt E pred t = (false, false)) :
    subtree (childrenOf E) (selectAt E pred) (heightOf E) t = [] ∧ entered E pred t = 1 := by
  constructor
  · rw [subtree_eq _ linked.descends t, rejected]
    rfl
  · rw [entered_eq linked t, rejected]
    rfl

/-- From the first child of the current entry. -/
theorem continues_children {ref : NodeId} {fuel : Nat} (recurse : LoopContinues E pred ref fuel)
    {path others : List NodeId} {first : NodeId} (onPath : OnPath E ref path)
    (children : childrenOf E (tip ref path) = first :: others)
    (bounded : remainingRounds E pred ref path true < fuel + 1) :
    ∃ next, preorderLoop E pred ref (fuel + 1) (tip ref path) true = some next ∧
      Continues E pred ref (remaining E pred ref path true) (remainingRounds E pred ref path true)
        next := by
  cases selected : selectAt E pred first with
  | mk wantSelf wantChildren =>
      have onPathFirst : OnPath E ref (first :: path) := ⟨by simp [children], onPath⟩
      have after : siblingsAfter (first :: others) first = others := by
        simp [siblingsAfter]
      -- the walk of the first child, then what remains after it
      have rest : remaining E pred ref path true =
          (if wantSelf then [first] else []) ++ remaining E pred ref (first :: path) wantChildren := by
        simp only [remaining, children, List.flatMap_cons, pending, after, tip_cons, if_true]
        rw [subtree_eq _ linked.descends first, selected]
        simp
      have fewer : remainingRounds E pred ref (first :: path) wantChildren + 1 =
          remainingRounds E pred ref path true := by
        cases wantChildren <;>
          simp [remainingRounds, pendingRounds, children, after, entered_eq linked first, selected] <;>
          omega
      rw [preorderLoop_children fuel children selected]
      cases wantSelf with
      | true => exact ⟨_, rfl, first :: path, onPathFirst, rfl, by simpa using rest, by omega⟩
      | false =>
          obtain ⟨next, loop, continues⟩ := recurse (first :: path) wantChildren onPathFirst (by omega)
          refine ⟨next, loop, ?_⟩
          rw [rest]
          exact continues.mono (by omega)

/-- From the siblings after the current entry, once its children are done or not wanted. -/
theorem continues_siblings {ref : NodeId} {fuel : Nat} (recurse : LoopContinues E pred ref fuel)
    {y : NodeId} {up : List NodeId} {wantChildren : Bool} (onPath : OnPath E ref (y :: up))
    (noChildren : wantChildren = false ∨ childrenOf E y = [])
    (bounded : remainingRounds E pred ref (y :: up) wantChildren < fuel + 1) :
    ∃ next, preorderLoop E pred ref (fuel + 1) y wantChildren = some next ∧
      Continues E pred ref (remaining E pred ref (y :: up) wantChildren)
        (remainingRounds E pred ref (y :: up) wantChildren) next := by
  have notRef := onPath.ne_ref linked
  obtain ⟨member, onPathUp⟩ := onPath
  have parentIs : parentOf E y = some (tip ref up) := linked.child_parent _ y member
  have nodup := linked.children_nodup (tip ref up)
  obtain ⟨before, siblings, split⟩ := List.append_of_mem member
  have after : siblingsAfter (childrenOf E (tip ref up)) y = siblings := siblingsAfter_eq nodup split
  -- nothing is left below `y`: what remains are the siblings after it and the path above
  have rest : remaining E pred ref (y :: up) wantChildren =
      siblings.flatMap (subtree (childrenOf E) (selectAt E pred) (heightOf E)) ++
        pending E pred ref up := by
    rcases noChildren with rfl | children
    · simp [remaining, pending, after]
    · simp [remaining, pending, after, children]
  have rounds : remainingRounds E pred ref (y :: up) wantChildren =
      2 * (siblings.map (entered E pred)).sum + 1 + pendingRounds E pred ref up := by
    rcases noChildren with rfl | children
    · simp [remainingRounds, pendingRounds, after]
    · simp [remainingRounds, pendingRounds, after, children]
  rw [preorderLoop_siblings fuel notRef noChildren parentIs, after, rest, rounds]
  rw [rounds] at bounded
  rcases scanSiblings_spec siblings with
    ⟨scan, skippedAll⟩ | ⟨pre, s, post, rfl, skippedPre, ⟨wantS, selected, scan⟩ | ⟨selected, scan⟩⟩
  · -- all siblings skipped: climb to the parent
    have nothing : siblings.flatMap (subtree (childrenOf E) (selectAt E pred) (heightOf E)) = [] :=
      List.flatMap_eq_nil_iff.mpr fun t inSiblings => (skipped linked (skippedAll t inSiblings)).1
    have climb : remainingRounds E pred ref up false = pendingRounds E pred ref up := by
      simp [remainingRounds]
    obtain ⟨next, loop, continues⟩ := recurse up false onPathUp (by omega)
    refine ⟨next, by simpa [scan] using loop, ?_⟩
    rw [nothing, List.nil_append]
    simpa [remaining] using continues.mono (by omega)
  · -- the walk goes on with a later sibling
    have onPathS : OnPath E ref (s :: up) := ⟨by simp [split], onPathUp⟩
    have splitS : childrenOf E (tip ref up) = (before ++ y :: pre) ++ s :: post := by
      rw [split]
      simp
    have afterS : siblingsAfter (childrenOf E (tip ref up)) s = post := siblingsAfter_eq nodup splitS
    have nothing : pre.flatMap (subtree (childrenOf E) (selectAt E pred) (heightOf E)) = [] :=
      List.flatMap_eq_nil_iff.mpr fun t inPre => (skipped linked (skippedPre t inPre)).1
    refine ⟨some (s, wantS), by simp [scan], s :: up, onPathS, rfl, ?_, ?_⟩
    · rw [List.flatMap_append, nothing, List.flatMap_cons, subtree_eq _ linked.descends s, selected]
      simp [remaining, pending, afterS]
    · have enteredS : entered E pred s = 1 + if (selectAt E pred s).2 then
          ((childrenOf E s).map (entered E pred)).sum else 0 := entered_eq linked s
      rw [selected] at enteredS
      have sum : ((pre ++ s :: post).map (entered E pred)).sum =
          (pre.map (entered E pred)).sum + entered E pred s + (post.map (entered E pred)).sum := by
        simp [Nat.add_assoc]
      rw [sum, enteredS]
      cases wantS <;>
        · simp only [remainingRounds, pendingRounds, afterS, tip_cons, Bool.false_eq_true, if_false,
            if_true, Nat.zero_add]
          omega
  · -- a sibling whose children are wanted: descend into it
    have onPathS : OnPath E ref (s :: up) := ⟨by simp [split], onPathUp⟩
    have splitS : childrenOf E (tip ref up) = (before ++ y :: pre) ++ s :: post := by
      rw [split]
      simp
    have afterS : siblingsAfter (childrenOf E (tip ref up)) s = post := siblingsAfter_eq nodup splitS
    have nothing : pre.flatMap (subtree (childrenOf E) (selectAt E pred) (heightOf E)) = [] :=
      List.flatMap_eq_nil_iff.mpr fun t inPre => (skipped linked (skippedPre t inPre)).1
    have enteredS : entered E pred s = 1 + if (selectAt E pred s).2 then
        ((childrenOf E s).map (entered E pred)).sum else 0 := entered_eq linked s
    rw [selected] at enteredS
    have fewer : remainingRounds E pred ref (s :: up) true + 2 ≤
        2 * ((pre ++ s :: post).map (entered E pred)).sum + 1 + pendingRounds E pred ref up := by
      simp [remainingRounds, pendingRounds, afterS, enteredS]
      omega
    obtain ⟨next, loop, continues⟩ := recurse (s :: up) true onPathS (by omega)
    refine ⟨next, by simpa [scan] using loop, ?_⟩
    have later : remaining E pred ref (s :: up) true =
        (pre ++ s :: post).flatMap (subtree (childrenOf E) (selectAt E pred) (heightOf E)) ++
          pending E pred ref up := by
      rw [List.flatMap_append, nothing, List.flatMap_cons, subtree_eq _ linked.descends s, selected]
      simp [remaining, pending, afterS]
    rw [← later]
    exact continues.mono (by omega)

/-- The pre-order loop continues the walk from every entry on a path below `ref` when its
fuel exceeds the rounds left. -/
theorem preorderLoop_continues (ref : NodeId) (fuel : Nat) : LoopContinues E pred ref fuel := by
  induction fuel with
  | zero =>
      intro path wantChildren onPath bounded
      omega
  | succ fuel inductionHypothesis =>
      intro path wantChildren onPath bounded
      by_cases descend : wantChildren = true ∧ childrenOf E (tip ref path) ≠ []
      · obtain ⟨rfl, nonempty⟩ := descend
        obtain ⟨first, others, children⟩ := List.exists_cons_of_ne_nil nonempty
        exact continues_children linked inductionHypothesis onPath children bounded
      · have noChildren : wantChildren = false ∨ childrenOf E (tip ref path) = [] := by
          cases wantChildren with
          | false => exact .inl rfl
          | true => exact .inr (by simpa using descend)
        cases path with
        | nil =>
            -- back at the reference entry, with nothing below it left to visit
            refine ⟨none, preorderLoop_done fuel noChildren, ?_⟩
            show remaining E pred ref [] wantChildren = []
            rcases noChildren with rfl | children
            · simp [remaining, pending]
            · rw [tip_nil] at children
              simp [remaining, pending, children]
        | cons y up => exact continues_siblings linked inductionHypothesis onPath noChildren bounded

end Linked

variable (E pred) in
/-- The iterator stands at an entry on a path below `ref`, with what remains to be visited
from it and fewer rounds left than `fuel`, or at the end with nothing left. -/
def Tracks (ref : NodeId) (fuel : Nat) (i : Iterator) (later : List NodeId) : Prop :=
  match i.entry with
  | none => later = []
  | some e => i.ref = some ref ∧ ∃ path, OnPath E ref path ∧ tip ref path = e ∧
      later = e :: remaining E pred ref path i.state ∧ remainingRounds E pred ref path i.state < fuel

theorem Tracks.entry_nil {ref : NodeId} {fuel : Nat} {i : Iterator}
    (tracks : Tracks E pred ref fuel i []) : i.entry = none := by
  unfold Tracks at tracks
  cases entry : i.entry with
  | none => rfl
  | some x =>
      rw [entry] at tracks
      obtain ⟨-, path, -, -, rest, -⟩ := tracks
      cases rest

theorem Tracks.entry_cons {ref : NodeId} {fuel : Nat} {i : Iterator} {x : NodeId}
    {later : List NodeId} (tracks : Tracks E pred ref fuel i (x :: later)) : i.entry = some x := by
  unfold Tracks at tracks
  cases entry : i.entry with
  | none =>
      rw [entry] at tracks
      cases tracks
  | some y =>
      rw [entry] at tracks
      obtain ⟨-, path, -, -, rest, -⟩ := tracks
      rw [List.cons.injEq] at rest
      rw [rest.1]

section Linked

variable (linked : Linked (childrenOf E) (parentOf E) (heightOf E))
include linked

theorem resume_tracks {ref : NodeId} {fuel : Nat} {path : List NodeId} {wantChildren : Bool}
    (onPath : OnPath E ref path) (bounded : remainingRounds E pred ref path wantChildren < fuel) :
    ∃ i, resume E pred fuel ref (tip ref path) wantChildren = some i ∧
      Tracks E pred ref fuel i (remaining E pred ref path wantChildren) := by
  obtain ⟨next, loop, continues⟩ := preorderLoop_continues linked ref fuel path wantChildren onPath bounded
  cases next with
  | none => exact ⟨Iterator.atEnd, by simp [resume, loop], continues⟩
  | some next =>
      obtain ⟨e, state⟩ := next
      obtain ⟨path', onPath', atTip, later, fewer⟩ := continues
      refine ⟨⟨some e, some ref, state⟩, by simp [resume, loop], rfl, path', onPath', atTip, later, ?_⟩
      show remainingRounds E pred ref path' state < fuel
      omega

/-- `advance` moves a tracking iterator past the entry it stands at. -/
theorem advance_tracks {ref : NodeId} {fuel : Nat} {i : Iterator} {e : NodeId} {later : List NodeId}
    (tracks : Tracks E pred ref fuel i (e :: later)) :
    ∃ i', PartialEnumerationImpl.advance E pred fuel i = some i' ∧ Tracks E pred ref fuel i' later := by
  unfold Tracks at tracks
  cases entry : i.entry with
  | none =>
      rw [entry] at tracks
      cases tracks
  | some x =>
      rw [entry] at tracks
      obtain ⟨refIs, path, onPath, atTip, rest, bounded⟩ := tracks
      have advanced : PartialEnumerationImpl.advance E pred fuel i = resume E pred fuel ref x i.state := by
        simp [PartialEnumerationImpl.advance, entry, refIs]
      obtain ⟨i', resumed, tracks'⟩ := resume_tracks linked onPath bounded
      rw [atTip] at resumed
      rw [List.cons.injEq] at rest
      exact ⟨i', advanced.trans resumed, rest.2 ▸ tracks'⟩

/-- The first `advance`, from the reference entry. -/
theorem begin_tracks (ref : NodeId) {fuel : Nat}
    (bounded : remainingRounds E pred ref [] (selectAt E pred ref).2 < fuel) :
    ∃ i, PartialEnumerationImpl.advance E pred fuel ⟨none, some ref, false⟩ = some i ∧
      Tracks E pred ref fuel i (subtree (childrenOf E) (selectAt E pred) (heightOf E) ref) := by
  cases selected : selectAt E pred ref with
  | mk wantSelf wantChildren =>
      rw [selected] at bounded
      have walk : subtree (childrenOf E) (selectAt E pred) (heightOf E) ref =
          (if wantSelf then [ref] else []) ++ remaining E pred ref [] wantChildren := by
        rw [subtree_eq _ linked.descends ref, selected]
        simp [remaining, pending]
      rw [walk]
      cases wantSelf with
      | true =>
          exact ⟨⟨some ref, some ref, wantChildren⟩, by simp [PartialEnumerationImpl.advance, selected],
            rfl, [], trivial, rfl, rfl, bounded⟩
      | false =>
          have advanced : PartialEnumerationImpl.advance E pred fuel ⟨none, some ref, false⟩ =
              resume E pred fuel ref (tip ref []) wantChildren := by
            simp [PartialEnumerationImpl.advance, selected]
          have onPathNil : OnPath E ref [] := trivial
          obtain ⟨i, resumed, tracks⟩ := resume_tracks linked onPathNil bounded
          exact ⟨i, advanced.trans resumed, by simpa using tracks⟩

/-- A range from a tracking iterator visits what remains, given more fuel than entries. -/
theorem visits_tracks {ref : NodeId} {fuel : Nat} (later : List NodeId) (n : Nat) (i : Iterator)
    (tracks : Tracks E pred ref fuel i later) (enough : later.length < n) :
    visits (PartialEnumerationImpl.advance E pred fuel) n i = some later :=
  visits_eq_of_tracks (Tracks E pred ref fuel) (fun _ tracks => tracks.entry_nil)
    (fun _ _ _ tracks => ⟨tracks.entry_cons, advance_tracks linked tracks⟩) later n i tracks enough

/-- The rounds left after the first `advance` stay below twice the entries entered. -/
theorem begin_rounds (ref : NodeId) :
    remainingRounds E pred ref [] (selectAt E pred ref).2 + 2 ≤ 2 * entered E pred ref := by
  have enteredRef : entered E pred ref = 1 + if (selectAt E pred ref).2 then
      ((childrenOf E ref).map (entered E pred)).sum else 0 := entered_eq linked ref
  rw [enteredRef]
  cases (selectAt E pred ref).2 <;> simp [remainingRounds, pendingRounds]
  omega

end Linked

end Simulation

section Enumerate

variable {componentHash : Component → HashValue}

/-- Distinct stored entries are no more than the allocated addresses. -/
theorem Valid.length_le_nextNodeId {ht : Hashtable F P M S} (valid : Valid componentHash ht)
    {l : List NodeId} (nodup : l.Nodup) (stored : ∀ e ∈ l, entries ht.nodes e ≠ none) :
    l.length ≤ ht.nextNodeId := by
  obtain ⟨chains, layout⟩ := valid.layout
  have allocated : l ⊆ List.range ht.nextNodeId := by
    intro e member
    rw [List.mem_range]
    by_contra beyond
    have free := layout.unallocated e (Nat.le_of_not_lt beyond)
    exact stored e member (by simp [entries, free])
  simpa using (List.subperm_of_subset nodup allocated).length_le

/-- `findExactMatch(name)` finds exactly the entry of `name`. -/
theorem Valid.findExactMatch_eq_some_iff_name {nt : NameTree F P M S} (valid : Valid componentHash nt.ht)
    (name : Name) (ref : NodeId) :
    nt.findExactMatch componentHash name name.length = some ref ↔
      ∃ er, entries nt.ht.nodes ref = some er ∧ er.name = name := by
  by_cases short : name.length ≤ getMaxDepth
  · rw [valid.findExactMatch_eq_some_iff (by omega) ref, List.take_length]
  · -- no entry has a name that long
    have none : nt.findExactMatch componentHash name name.length = none := by
      simp only [NameTree.findExactMatch, Nat.min_self]
      rw [if_pos (by omega)]
    rw [none]
    simp only [reduceCtorEq, false_iff, not_exists, not_and]
    intro er stored named
    have bounded := valid.shape.depth_le ref er stored
    rw [named] at bounded
    omega

/-- On a well-formed tree, `partialEnumerate(prefix, pred)` runs to the end and visits the
pruned pre-order walk of the subtree of the entry of `prefix`, or nothing without one. -/
theorem Valid.partialEnumerate_eq {nt : NameTree F P M S} (valid : Valid componentHash nt.ht)
    (prefixName : Name) (pred : Entry F P M S → Bool × Bool) :
    nt.partialEnumerate componentHash prefixName pred =
      some (((nt.findExactMatch componentHash prefixName prefixName.length).map
        (subtree (childrenOf (entries nt.ht.nodes)) (selectAt (entries nt.ht.nodes) pred)
          (heightOf (entries nt.ht.nodes)))).getD []) := by
  have linked := valid.shape.linked
  unfold NameTree.partialEnumerate
  cases found : nt.findExactMatch componentHash prefixName prefixName.length with
  | none => simp [PartialEnumerationImpl.advance, visits, Iterator.atEnd]
  | some ref =>
      obtain ⟨er, storedRef, -⟩ := (valid.findExactMatch_eq_some_iff_name prefixName ref).mp found
      -- the entries stored below the reference entry bound the rounds and the visits
      have bound : ∀ select : NodeId → Bool × Bool,
          (subtree (childrenOf (entries nt.ht.nodes)) select (heightOf (entries nt.ht.nodes)) ref).length ≤
            nt.ht.nextNodeId := by
        intro select
        refine valid.length_le_nextNodeId (linked.subtree_nodup select ref) fun e member => ?_
        have reach := ((mem_subtree_iff select linked.descends ref e).mp member).1
        exact valid.shape.stored_of_reaches (by simp [storedRef]) reach
      have rounds : remainingRounds (entries nt.ht.nodes) pred ref [] (selectAt (entries nt.ht.nodes) pred ref).2 + 2 ≤
          2 * entered (entries nt.ht.nodes) pred ref := begin_rounds linked ref
      have entersFew := bound fun y => (true, (selectAt (entries nt.ht.nodes) pred y).2)
      have visitsFew := bound (selectAt (entries nt.ht.nodes) pred)
      unfold entered at rounds
      obtain ⟨i, advanced, tracks⟩ := begin_tracks linked ref
        (show remainingRounds (entries nt.ht.nodes) pred ref [] (selectAt (entries nt.ht.nodes) pred ref).2 <
          2 * nt.ht.nextNodeId + 1 by omega)
      have visited := visits_tracks linked _ (nt.ht.nextNodeId + 1) i tracks (by omega)
      simp [advanced, visited]

/-- On a valid name tree, `partialEnumerate(prefix, pred)` visits once each entry it selects in
the subtree of the entry of `prefix`, reached through entries whose children it wants. -/
theorem Valid.partialEnumerate_visits {nt : NameTree F P M S} (valid : Valid componentHash nt.ht)
    (prefixName : Name) (pred : Entry F P M S → Bool × Bool) :
    ∃ visited, nt.partialEnumerate componentHash prefixName pred = some visited ∧ visited.Nodup ∧
      ∀ e, e ∈ visited ↔ ∃ ref, (∃ er, entries nt.ht.nodes ref = some er ∧ er.name = prefixName) ∧
        Reaches (childrenOf (entries nt.ht.nodes)) (fun a => (selectAt (entries nt.ht.nodes) pred a).2)
          ref e ∧
        (selectAt (entries nt.ht.nodes) pred e).1 = true := by
  have linked := valid.shape.linked
  rw [valid.partialEnumerate_eq]
  refine ⟨_, rfl, ?_, ?_⟩
  · cases nt.findExactMatch componentHash prefixName prefixName.length with
    | none => simp
    | some ref => exact linked.subtree_nodup _ ref
  · intro e
    cases found : nt.findExactMatch componentHash prefixName prefixName.length with
    | none =>
        simp only [Option.map_none, Option.getD_none, List.not_mem_nil, false_iff, not_exists,
          not_and]
        intro ref named
        rw [← valid.findExactMatch_eq_some_iff_name, found] at named
        cases named
    | some ref =>
        simp only [Option.map_some, Option.getD_some]
        rw [mem_subtree_iff _ linked.descends]
        constructor
        · intro selected
          exact ⟨ref, (valid.findExactMatch_eq_some_iff_name prefixName ref).mp found, selected⟩
        · rintro ⟨ref', named, selected⟩
          rw [← valid.findExactMatch_eq_some_iff_name, found, Option.some.injEq] at named
          subst named
          exact selected

/-- On every reachable name tree, iterating `partialEnumerate(prefix, pred)` ends, and
visits once each entry it selects in the subtree of the entry of `prefix`, reached through
entries whose children it wants, and nothing else: nothing when `prefix` has no entry. -/
theorem partialEnumerate_prunedPreorder [DecidableEq P] (componentHash : Component → HashValue)
    (nt : NameTree F P M S) (reachable : Reachable componentHash nt) (prefixName : Name)
    (pred : Entry F P M S → Bool × Bool) :
    ∃ visited, nt.partialEnumerate componentHash prefixName pred = some visited ∧ visited.Nodup ∧
      ∀ e, e ∈ visited ↔ ∃ ref, (∃ er, entries nt.ht.nodes ref = some er ∧ er.name = prefixName) ∧
        Reaches (childrenOf (entries nt.ht.nodes)) (fun a => (selectAt (entries nt.ht.nodes) pred a).2)
          ref e ∧
        (selectAt (entries nt.ht.nodes) pred e).1 = true :=
  reachable.valid.partialEnumerate_visits prefixName pred

/-- The name tree `lookup(/a/b)` leaves in `NameTree(16)`. -/
def lookupRun : NameTree Unit Unit Unit Unit :=
  (NameTree.ofSize 16 (by decide)).run (fun c => UInt64.ofNat c.type) [.lookup [⟨8, [97]⟩, ⟨8, [98]⟩] 2]

theorem partialEnumerate_prunedPreorder_lookup :
    ∃ visited, lookupRun.partialEnumerate (fun c => UInt64.ofNat c.type) [⟨8, [97]⟩]
        (fun _ => (true, true)) = some visited ∧ visited.Nodup ∧
      ∀ e, e ∈ visited ↔ ∃ ref,
        (∃ er, entries lookupRun.ht.nodes ref = some er ∧ er.name = [⟨8, [97]⟩]) ∧
        Reaches (childrenOf (entries lookupRun.ht.nodes))
          (fun a => (selectAt (entries lookupRun.ht.nodes) (fun _ => (true, true)) a).2) ref e ∧
        (selectAt (entries lookupRun.ht.nodes) (fun _ => (true, true)) e).1 = true :=
  partialEnumerate_prunedPreorder _ lookupRun ⟨16, by decide, _, by decide, rfl⟩ _ _

end Enumerate

end Nfd.NameTree
