import Mathlib.Data.List.Nodup

/-!
# Pruned pre-order walks of a tree

A tree given by the list of children of each node, and a selector that says of each node
whether to list it and whether to enter its children.  The pruned pre-order walk of a
node lists the node when the selector accepts it and then, when the selector wants its
children, the walks of its children in order.  It lists exactly the nodes reached from the
start through nodes whose children are wanted, and, in a tree (every node the child of at
most one node, no child listed twice, a height that drops from parent to child), lists
each of them once.
-/

set_option autoImplicit false

namespace PrunedTree

variable {α : Type} (children : α → List α)

/-- `e` is reached from `x` through nodes satisfying `through`: every node strictly above
`e` on the path satisfies it. -/
inductive Reaches (through : α → Bool) : α → α → Prop
  | refl (x : α) : Reaches through x x
  | child {x c e : α} : through x = true → c ∈ children x → Reaches through c e →
      Reaches through x e

/-- The links of a tree: each node is the child of its parent only, children lists have
no duplicates, and the height drops from a node to its children. -/
structure Linked (parent : α → Option α) (height : α → Nat) : Prop where
  child_parent : ∀ x c, c ∈ children x → parent c = some x
  children_nodup : ∀ x, (children x).Nodup
  descends : ∀ x c, c ∈ children x → height c < height x

namespace Reaches

variable {children} {through : α → Bool}

theorem mono {through' : α → Bool} (weaker : ∀ x, through x = true → through' x = true)
    {x e : α} (reach : Reaches children through x e) : Reaches children through' x e := by
  induction reach with
  | refl x => exact .refl x
  | child wants member _ inductionHypothesis => exact .child (weaker _ wants) member inductionHypothesis

theorem trans {x y e : α} (first : Reaches children through x y) (second : Reaches children through y e) :
    Reaches children through x e := by
  induction first with
  | refl => exact second
  | child wants member _ inductionHypothesis => exact .child wants member (inductionHypothesis second)

theorem height_le {height : α → Nat} (descends : ∀ x c, c ∈ children x → height c < height x)
    {x e : α} (reach : Reaches children through x e) : height e ≤ height x := by
  induction reach with
  | refl => exact Nat.le_refl _
  | child _ member _ inductionHypothesis =>
      exact Nat.le_trans inductionHypothesis (Nat.le_of_lt (descends _ _ member))

/-- The last step of a path: a node other than the start is the child of a node reached
from the start. -/
theorem last_step {x e : α} (reach : Reaches children through x e) :
    e = x ∨ ∃ p, through p = true ∧ e ∈ children p ∧ Reaches children through x p := by
  induction reach with
  | refl => exact .inl rfl
  | @child x c e wants member _ inductionHypothesis =>
      rcases inductionHypothesis with rfl | ⟨p, wantsP, memberP, reachP⟩
      · exact .inr ⟨x, wants, member, .refl x⟩
      · exact .inr ⟨p, wantsP, memberP, .child wants member reachP⟩

end Reaches

/-- The pruned pre-order walk of `x`, with `fuel` bounding the depth it descends to. -/
def walk (select : α → Bool × Bool) : Nat → α → List α
  | 0, _ => []
  | fuel + 1, x =>
      (if (select x).1 then [x] else []) ++
        if (select x).2 then (children x).flatMap (walk select fuel) else []

variable {children} (select : α → Bool × Bool)

variable (children) in
/-- The pruned pre-order walk of `x`'s subtree, for a height that drops from a node to its
children. -/
def subtree (height : α → Nat) (x : α) : List α := walk children select (height x + 1) x

variable {height : α → Nat}

section Height

variable (descends : ∀ x c, c ∈ children x → height c < height x)
include descends

/-- Any bound above the height gives the same walk. -/
theorem walk_stable (n m : Nat) (x : α) (withinN : height x < n) (withinM : height x < m) :
    walk children select n x = walk children select m x := by
  induction n generalizing x m with
  | zero => omega
  | succ n inductionHypothesis =>
      obtain ⟨m, rfl⟩ : ∃ m', m = m' + 1 := ⟨m - 1, by omega⟩
      simp only [walk]
      congr 2
      apply List.flatMap_congr
      intro c member
      have lower := descends x c member
      exact inductionHypothesis m c (by omega) (by omega)

theorem subtree_eq (x : α) :
    subtree children select height x =
      (if (select x).1 then [x] else []) ++
        if (select x).2 then (children x).flatMap (subtree children select height) else [] := by
  rw [subtree, walk]
  congr 2
  apply List.flatMap_congr
  intro c member
  have lower := descends x c member
  exact walk_stable select descends _ _ c lower (Nat.lt_succ_self _)

theorem mem_walk_iff (n : Nat) (x e : α) (within : height x < n) :
    e ∈ walk children select n x ↔ Reaches children (fun y => (select y).2) x e ∧ (select e).1 = true := by
  induction n generalizing x with
  | zero => omega
  | succ n inductionHypothesis =>
      simp only [walk, List.mem_append, List.mem_ite_nil_right, List.mem_singleton, List.mem_flatMap]
      constructor
      · rintro (⟨selected, rfl⟩ | ⟨wants, c, member, inChild⟩)
        · exact ⟨.refl e, selected⟩
        · have lower := descends x c member
          obtain ⟨reach, selected⟩ := (inductionHypothesis c (by omega)).mp inChild
          exact ⟨.child wants member reach, selected⟩
      · rintro ⟨reach, selected⟩
        cases reach with
        | refl => exact .inl ⟨selected, rfl⟩
        | @child _ c _ wants member reach =>
            have lower := descends x c member
            exact .inr ⟨wants, c, member, (inductionHypothesis c (by omega)).mpr ⟨reach, selected⟩⟩

/-- The walk lists exactly the nodes it selects among those reached through nodes whose
children it wants. -/
theorem mem_subtree_iff (x e : α) :
    e ∈ subtree children select height x ↔
      Reaches children (fun y => (select y).2) x e ∧ (select e).1 = true :=
  mem_walk_iff select descends _ x e (Nat.lt_succ_self _)

end Height

section Linked

variable {parent : α → Option α} (linked : Linked children parent height)
include linked

/-- In a tree the nodes above a node lie on one path: two nodes that reach the same node
reach one another. -/
theorem Linked.comparable {through : α → Bool} {a b e : α} (fromA : Reaches children through a e)
    (fromB : Reaches children through b e) :
    Reaches children (fun _ => true) a b ∨ Reaches children (fun _ => true) b a := by
  induction fromA generalizing b with
  | refl => exact .inr (fromB.mono fun _ _ => rfl)
  | @child a c e _ member _ inductionHypothesis =>
      rcases inductionHypothesis fromB with cToB | bToC
      · exact .inl (.child rfl member cToB)
      · rcases bToC.last_step with rfl | ⟨p, -, memberP, bToP⟩
        · exact .inl (.child rfl member (.refl _))
        · -- `c` has one parent, so the node above it on the path from `b` is `a`
          have same : p = a := by
            have atP := linked.child_parent p c memberP
            rw [linked.child_parent a c member, Option.some.injEq] at atP
            exact atP.symm
          exact .inr (same ▸ bToP)

theorem Linked.disjoint_siblings {through : α → Bool} {x c d e : α} (memberC : c ∈ children x)
    (memberD : d ∈ children x) (different : c ≠ d) (fromC : Reaches children through c e)
    (fromD : Reaches children through d e) : False := by
  -- if one sibling reaches the other, it reaches their parent, which is higher than both
  have below : ∀ {c d : α}, c ∈ children x → d ∈ children x → c ≠ d →
      Reaches children (fun _ => true) c d → False := by
    intro c d memberC memberD different reach
    rcases reach.last_step with rfl | ⟨p, -, memberP, cToP⟩
    · exact different rfl
    · have same : p = x := by
        have atP := linked.child_parent p d memberP
        rw [linked.child_parent x d memberD, Option.some.injEq] at atP
        exact atP.symm
      subst same
      have higher := cToP.height_le linked.descends
      have lower := linked.descends p c memberC
      omega
  rcases linked.comparable fromC fromD with cToD | dToC
  · exact below memberC memberD different cToD
  · exact below memberD memberC (Ne.symm different) dToC

theorem Linked.walk_nodup (n : Nat) (x : α) (within : height x < n) :
    (walk children select n x).Nodup := by
  induction n generalizing x with
  | zero => omega
  | succ n inductionHypothesis =>
      have reaches : ∀ c e, c ∈ children x → e ∈ walk children select n c →
          Reaches children (fun y => (select y).2) c e := by
        intro c e member inChild
        have lower := linked.descends x c member
        exact ((mem_walk_iff select linked.descends n c e (by omega)).mp inChild).1
      simp only [walk]
      apply List.Nodup.append
      · split <;> simp
      · split
        · rw [List.nodup_flatMap]
          constructor
          · intro c member
            have lower := linked.descends x c member
            exact inductionHypothesis c (by omega)
          · apply (linked.children_nodup x).imp_of_mem
            intro c d memberC memberD different e inC inD
            exact linked.disjoint_siblings memberC memberD different (reaches c e memberC inC)
              (reaches d e memberD inD)
        · simp
      · -- `x` is higher than every node below its children
        intro e inSelf inChildren
        split at inSelf
        · rw [List.mem_singleton] at inSelf
          subst inSelf
          split at inChildren
          · obtain ⟨c, member, inChild⟩ := List.mem_flatMap.mp inChildren
            have higher := (reaches c e member inChild).height_le linked.descends
            have lower := linked.descends e c member
            omega
          · simp at inChildren
        · simp at inSelf

theorem Linked.subtree_nodup (x : α) : (subtree children select height x).Nodup :=
  linked.walk_nodup select _ x (Nat.lt_succ_self _)

end Linked

end PrunedTree
