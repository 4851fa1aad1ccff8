import Mathlib.Data.List.Basic

/-!
# Doubly linked chains over a store of links

A link store maps each address to the prev and next pointers of the cell stored
there, `none` for a free address.  `Chain link head back cells` says that
following next pointers from `head` visits exactly `cells` and then stops, and
that the prev pointer of each visited cell names the cell visited before it,
`back` for the first one.

This is what a bucket of a chained hash table needs: a chain is determined by
its head, visits no cell twice, keeps its shape when cells outside it change,
and its prev and next pointers agree.  Pushing a cell in front of a chain and
unlinking a cell from it give chains again; `Chain.pushFront` and
`Chain.unlink` state what the store must look like afterwards.
-/

set_option autoImplicit false

namespace LinkedChain

/-- Prev and next pointers of the cell at each address, `none` where no cell is. -/
abbrev Links (ι : Type) := ι → Option (Option ι × Option ι)

variable {ι : Type}

inductive Chain (link : Links ι) : Option ι → Option ι → List ι → Prop
  | nil (back : Option ι) : Chain link none back []
  | cons (cell : ι) (back next : Option ι) (rest : List ι)
      (here : link cell = some (back, next))
      (tail : Chain link next (some cell) rest) :
      Chain link (some cell) back (cell :: rest)

section Basic

variable {link : Links ι} {head back : Option ι} {cells : List ι}

theorem Chain.head_eq (chain : Chain link head back cells) : head = cells.head? := by
  cases chain <;> rfl

theorem Chain.congr {other : Links ι} (chain : Chain link head back cells)
    (same : ∀ cell ∈ cells, other cell = link cell) : Chain other head back cells := by
  induction chain with
  | nil back => exact .nil back
  | cons cell back next rest here tail inductionHypothesis =>
      refine .cons cell back next rest ?_ ?_
      · rw [same cell List.mem_cons_self, here]
      · exact inductionHypothesis fun c member => same c (List.mem_cons_of_mem _ member)

/-- The cells of a chain are determined by its head. -/
theorem Chain.unique {back' : Option ι} {cells' : List ι} (chain : Chain link head back cells)
    (other : Chain link head back' cells') : cells = cells' := by
  induction chain generalizing back' cells' with
  | nil => cases other; rfl
  | cons cell back next rest here tail inductionHypothesis =>
      cases other with
      | cons _ back₂ next₂ rest₂ here₂ tail₂ =>
          rw [here, Option.some.injEq, Prod.mk.injEq] at here₂
          obtain ⟨-, sameNext⟩ := here₂
          subst sameNext
          rw [inductionHypothesis tail₂]

/-- Every suffix of a chain that starts at a cell is a chain from that cell. -/
theorem Chain.suffix {pre post : List ι} {cell : ι}
    (chain : Chain link head back (pre ++ cell :: post)) :
    ∃ back', Chain link (some cell) back' (cell :: post) := by
  induction pre generalizing head back with
  | nil => exact ⟨back, by simpa [chain.head_eq] using chain⟩
  | cons first pre inductionHypothesis =>
      cases chain with
      | cons _ _ next _ here tail => exact inductionHypothesis tail

theorem Chain.nodup (chain : Chain link head back cells) : cells.Nodup := by
  induction chain with
  | nil => exact List.nodup_nil
  | cons cell back next rest here tail inductionHypothesis =>
      refine List.nodup_cons.mpr ⟨?_, inductionHypothesis⟩
      intro repeated
      obtain ⟨pre, post, split⟩ := List.append_of_mem repeated
      obtain ⟨back', fromRepeat⟩ := (split ▸ tail : Chain link next (some cell) _).suffix
      have whole : Chain link (some cell) back (cell :: rest) := .cons cell back next rest here tail
      have lengths := congrArg List.length (fromRepeat.unique whole)
      simp only [split, List.length_cons, List.length_append] at lengths
      omega

theorem Chain.cons_inv {cell : ι} {rest : List ι} (chain : Chain link head back (cell :: rest)) :
    head = some cell ∧ ∃ next, link cell = some (back, next) ∧ Chain link next (some cell) rest := by
  cases chain with
  | cons _ _ next _ here tail => exact ⟨rfl, next, here, tail⟩

theorem Chain.some_inv {cell : ι} (chain : Chain link (some cell) back cells) :
    ∃ next rest, cells = cell :: rest ∧ link cell = some (back, next) ∧
      Chain link next (some cell) rest := by
  cases chain with
  | cons _ _ next rest here tail => exact ⟨next, rest, rfl, here, tail⟩

/-- The cell after `cell` on a chain is the one its next pointer names, and its prev
pointer names `cell` back. -/
theorem Chain.next_prev (chain : Chain link head back cells) {cell following : ι}
    {prev : Option ι} (member : cell ∈ cells) (cellLink : link cell = some (prev, some following)) :
    following ∈ cells ∧ ∃ next, link following = some (some cell, next) := by
  induction chain with
  | nil => simp at member
  | cons c back next rest here tail inductionHypothesis =>
      rcases List.mem_cons.mp member with same | later
      · subst same
        rw [here, Option.some.injEq, Prod.mk.injEq] at cellLink
        obtain ⟨-, rfl⟩ := cellLink
        cases tail with
        | cons _ _ next' rest' here' _ =>
            exact ⟨by simp, next', here'⟩
      · obtain ⟨inRest, link'⟩ := inductionHypothesis later
        exact ⟨List.mem_cons_of_mem _ inRest, link'⟩

/-- A prev pointer names either the chain's `back` (for the first cell) or the cell whose
next pointer comes back. -/
theorem Chain.prev_next (chain : Chain link head back cells) {cell previous : ι}
    {next : Option ι} (member : cell ∈ cells) (cellLink : link cell = some (some previous, next)) :
    (head = some cell ∧ back = some previous) ∨
      (previous ∈ cells ∧ ∃ prev, link previous = some (prev, some cell)) := by
  induction chain with
  | nil => simp at member
  | cons c back next' rest here tail inductionHypothesis =>
      rcases List.mem_cons.mp member with same | later
      · subst same
        rw [here, Option.some.injEq, Prod.mk.injEq] at cellLink
        exact .inl ⟨rfl, cellLink.1⟩
      · rcases inductionHypothesis later with ⟨headIsCell, backIsPrevious⟩ | ⟨inRest, link'⟩
        · cases backIsPrevious
          subst headIsCell
          exact .inr ⟨by simp, back, here⟩
        · exact .inr ⟨List.mem_cons_of_mem _ inRest, link'⟩

/-- Every cell but the first has a prev pointer. -/
theorem Chain.prev_some (chain : Chain link head back cells) {cell : ι} {next : Option ι}
    (member : cell ∈ cells) (notFirst : head ≠ some cell) (cellLink : link cell = some (none, next)) :
    False := by
  induction chain with
  | nil => simp at member
  | cons c back next' rest here tail inductionHypothesis =>
      rcases List.mem_cons.mp member with same | later
      · exact notFirst (by rw [same])
      · cases tail with
        | nil => simp at later
        | cons d _ next'' rest' here' tail' =>
            refine inductionHypothesis later ?_
            rintro ⟨⟩
            rw [here'] at cellLink
            simp at cellLink

theorem Chain.first_iff (chain : Chain link head none cells) {cell : ι} {prev next : Option ι}
    (member : cell ∈ cells) (cellLink : link cell = some (prev, next)) :
    head = some cell ↔ prev = none := by
  constructor
  · rintro rfl
    obtain ⟨rest, split⟩ : ∃ rest, cells = cell :: rest := by
      cases chain with
      | cons _ _ _ rest _ _ => exact ⟨rest, rfl⟩
    subst split
    obtain ⟨-, next', here, -⟩ := chain.cons_inv
    rw [here, Option.some.injEq, Prod.mk.injEq] at cellLink
    exact cellLink.1.symm
  · rintro rfl
    by_contra notFirst
    exact chain.prev_some member notFirst cellLink

/-- No cell's next pointer names itself. -/
theorem Chain.next_ne (chain : Chain link head back cells) {cell : ι} {prev : Option ι}
    (member : cell ∈ cells) (cellLink : link cell = some (prev, some cell)) : False := by
  obtain ⟨pre, post, split⟩ := List.append_of_mem member
  obtain ⟨back', fromCell⟩ := (split ▸ chain : Chain link head back _).suffix
  have nodup := fromCell.nodup
  obtain ⟨-, next, here, tail⟩ := fromCell.cons_inv
  rw [here, Option.some.injEq, Prod.mk.injEq] at cellLink
  rw [cellLink.2] at tail
  obtain ⟨-, rest, rfl, -⟩ := tail.some_inv
  simp at nodup

/-- On a chain that starts with no prev pointer, no cell's prev pointer names itself. -/
theorem Chain.prev_ne (chain : Chain link head none cells) {cell : ι} {next : Option ι}
    (member : cell ∈ cells) (cellLink : link cell = some (some cell, next)) : False := by
  rcases chain.prev_next member cellLink with ⟨-, backIsSome⟩ | ⟨-, prev, selfLink⟩
  · cases backIsSome
  · rw [cellLink, Option.some.injEq, Prod.mk.injEq] at selfLink
    rw [selfLink.1] at cellLink
    exact chain.next_ne member (selfLink.2 ▸ cellLink)

/-- The cells before and after a cell are different cells. -/
theorem Chain.prev_ne_next (chain : Chain link head none cells) {cell other : ι}
    (member : cell ∈ cells) (cellLink : link cell = some (some other, some other)) : False := by
  obtain ⟨otherMember, -⟩ := chain.next_prev member cellLink
  rcases chain.prev_next member cellLink with ⟨-, backIsSome⟩ | ⟨-, prev, otherLink⟩
  · cases backIsSome
  obtain ⟨pre, post, split⟩ := List.append_of_mem otherMember
  obtain ⟨back', fromOther⟩ := (split ▸ chain : Chain link head none _).suffix
  have nodup := fromOther.nodup
  obtain ⟨-, next, here, tail⟩ := fromOther.cons_inv
  rw [here, Option.some.injEq, Prod.mk.injEq] at otherLink
  rw [otherLink.2] at tail
  obtain ⟨next', rest, rfl, cellHere, afterCell⟩ := tail.some_inv
  rw [cellLink, Option.some.injEq, Prod.mk.injEq] at cellHere
  rw [← cellHere.2] at afterCell
  obtain ⟨-, rest', rfl, -⟩ := afterCell.some_inv
  simp at nodup

end Basic

section Update

variable {link other : Links ι} {head back : Option ι} {cells : List ι}

/-- Pushing `cell` in front of a chain: `cell` points at the old head, the old head
points back at `cell`, and no other cell of the chain changes. -/
theorem Chain.pushFront {cell : ι} (chain : Chain link head none cells) (fresh : cell ∉ cells)
    (cellLink : other cell = some (none, head))
    (headLink : ∀ first next, head = some first → link first = some (none, next) →
      other first = some (some cell, next))
    (unchanged : ∀ c ∈ cells, head ≠ some c → other c = link c) :
    Chain other (some cell) none (cell :: cells) := by
  refine .cons cell none head cells cellLink ?_
  cases chain with
  | nil => exact .nil _
  | cons first _ next rest here tail =>
      have distinct := (List.nodup_cons.mp (Chain.cons first none next rest here tail).nodup).1
      refine .cons first (some cell) next rest (headLink first next rfl here) (tail.congr ?_)
      intro c member
      refine unchanged c (List.mem_cons_of_mem _ member) ?_
      rintro ⟨⟩
      exact distinct member

/-- Unlinking `cell`, whose pointers are `(prev, next)`: the cell before it now points at
`next`, the cell after it points back at `prev`, and no other cell of the chain changes. -/
theorem Chain.unlink [DecidableEq ι] {cell : ι} {prev next : Option ι}
    (chain : Chain link head back cells) (outside : ∀ b, back = some b → b ∉ cells)
    (member : cell ∈ cells) (cellLink : link cell = some (prev, next))
    (prevLink : ∀ p a b, prev = some p → link p = some (a, b) → other p = some (a, next))
    (nextLink : ∀ n a b, next = some n → link n = some (a, b) → other n = some (prev, b))
    (unchanged : ∀ c ∈ cells, c ≠ cell → prev ≠ some c → next ≠ some c → other c = link c) :
    Chain other (if head = some cell then next else head) back (cells.erase cell) := by
  induction chain with
  | nil => simp at member
  | cons c back₀ next₀ rest here tail inductionHypothesis =>
      have whole := Chain.cons c back₀ next₀ rest here tail
      have fresh := (List.nodup_cons.mp whole.nodup).1
      by_cases same : c = cell
      · subst same
        rw [here, Option.some.injEq, Prod.mk.injEq] at cellLink
        obtain ⟨rfl, rfl⟩ := cellLink
        simp only [if_pos, List.erase_cons_head]
        cases tail with
        | nil => exact .nil _
        | cons r _ next' rest' here' tail' =>
            have rFresh := (List.nodup_cons.mp (Chain.cons r _ next' rest' here' tail').nodup).1
            refine .cons r _ next' rest' (nextLink r (some c) next' rfl here') (tail'.congr ?_)
            intro d inRest
            refine unchanged d (by simp [inRest]) ?_ ?_ ?_
            · rintro rfl
              exact fresh (List.mem_cons_of_mem _ inRest)
            · rintro rfl
              exact outside d rfl (by simp [inRest])
            · rintro ⟨⟩
              exact rFresh inRest
      · have later : cell ∈ rest := (List.mem_cons.mp member).resolve_left (Ne.symm same)
        rw [if_neg (by simpa using same), List.erase_cons_tail (by simpa using same)]
        have tailResult := inductionHypothesis
          (fun b backIsC => by cases backIsC; exact fresh) later
          (fun d inRest => unchanged d (List.mem_cons_of_mem _ inRest))
        refine .cons c back₀ _ _ ?_ tailResult
        by_cases follows : next₀ = some cell
        · -- `cell` comes right after `c`, so its prev pointer is `c`
          subst follows
          cases tail with
          | cons _ _ next' rest' cellHere _ =>
              rw [cellHere, Option.some.injEq, Prod.mk.injEq] at cellLink
              rw [if_pos rfl, prevLink c back₀ (some cell) cellLink.1.symm here]
        · have notPrev : prev ≠ some c := by
            intro prevIsC
            rw [prevIsC] at cellLink
            rcases whole.prev_next member cellLink with ⟨sameHead, -⟩ | ⟨-, p, cLink⟩
            · exact same (Option.some.inj sameHead)
            · rw [here, Option.some.injEq, Prod.mk.injEq] at cLink
              exact follows cLink.2
          have notNext : next ≠ some c := by
            intro nextIsC
            rw [nextIsC] at cellLink
            exact fresh (tail.next_prev later cellLink).1
          rw [if_neg follows, unchanged c List.mem_cons_self same notPrev notNext, here]

/-- A family of chains keeps its shape when no cell on any of them changes. -/
theorem Chain.forall₂_congr {other : Links ι} :
    ∀ {heads : List (Option ι)} {cellLists : List (List ι)},
      List.Forall₂ (fun head cells => Chain link head none cells) heads cellLists →
      (∀ cells ∈ cellLists, ∀ cell ∈ cells, other cell = link cell) →
      List.Forall₂ (fun head cells => Chain other head none cells) heads cellLists
  | _, _, .nil, _ => .nil
  | _, _, .cons chain rest, same =>
      .cons (chain.congr (same _ List.mem_cons_self))
        (Chain.forall₂_congr rest fun cells member => same cells (List.mem_cons_of_mem _ member))

end Update

end LinkedChain
