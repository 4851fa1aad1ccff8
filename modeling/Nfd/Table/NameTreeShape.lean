import Nfd.Table.NameTree

/-!
# The shape of the name tree

The tree the entries form, read off the entries alone: every name has at most
`getMaxDepth()` components, no two entries share a name, the root has no parent, every
other entry points at the entry of its name without the last component and occurs
exactly once among that entry's children, and every child points back at its parent.

The operations of the name tree change the entries in four ways: a fresh root, a fresh
child below an existing entry, the removal of a leaf, and an edit that keeps names,
parents and children.  Each keeps the shape; `NameTreeRun` assembles them along the
operations.
-/

set_option autoImplicit false

namespace Nfd.NameTree

variable {F P M S : Type}

/-- The tree invariant on the entries of a store. -/
structure Shape (E : NodeId → Option (Entry F P M S)) : Prop where
  depth_le : ∀ id e, E id = some e → e.name.length ≤ getMaxDepth
  name_injective : ∀ a b ea eb, E a = some ea → E b = some eb → ea.name = eb.name → a = b
  root_parent : ∀ id e, E id = some e → e.name = [] → e.parent = none
  parent_spec : ∀ id e, E id = some e → e.name ≠ [] →
    ∃ p ep, e.parent = some p ∧ E p = some ep ∧ ep.name = e.name.dropLast ∧
      ep.children.count id = 1
  child_spec : ∀ id e c, E id = some e → c ∈ e.children →
    ∃ ec, E c = some ec ∧ ec.parent = some id

theorem update_eq_some_iff {E : NodeId → Option (Entry F P M S)} {q id : NodeId}
    {value : Option (Entry F P M S)} {e : Entry F P M S} :
    Function.update E q value id = some e ↔ (id = q ∧ value = some e) ∨ (id ≠ q ∧ E id = some e) := by
  by_cases isQ : id = q
  · subst isQ
    simp
  · simp only [Function.update_of_ne isQ, isQ, false_and, false_or, ne_eq, not_false_eq_true,
      true_and]

section Derived

variable {E : NodeId → Option (Entry F P M S)} (shape : Shape E)
include shape

theorem Shape.name_ne_nil_of_parent {id p : NodeId} {e : Entry F P M S} (stored : E id = some e)
    (hasParent : e.parent = some p) : e.name ≠ [] := by
  intro isRoot
  rw [shape.root_parent id e stored isRoot] at hasParent
  cases hasParent

/-- The entry a parent pointer names is the entry of the name without its last component. -/
theorem Shape.parent_entry {id p : NodeId} {e : Entry F P M S} (stored : E id = some e)
    (hasParent : e.parent = some p) :
    ∃ ep, E p = some ep ∧ ep.name = e.name.dropLast ∧ ep.children.count id = 1 := by
  obtain ⟨p', ep, parentIs, storedP, named, once⟩ :=
    shape.parent_spec id e stored (shape.name_ne_nil_of_parent stored hasParent)
  rw [hasParent, Option.some.injEq] at parentIs
  subst parentIs
  exact ⟨ep, storedP, named, once⟩

/-- Prefix closure: the name of a non-root entry without its last component has an entry. -/
theorem Shape.prefix_closed {id : NodeId} {e : Entry F P M S} (stored : E id = some e)
    (nonRoot : e.name ≠ []) : ∃ p ep, E p = some ep ∧ ep.name = e.name.dropLast := by
  obtain ⟨p, ep, -, storedP, named, -⟩ := shape.parent_spec id e stored nonRoot
  exact ⟨p, ep, storedP, named⟩

/-- Every prefix of an entry's name has an entry. -/
theorem Shape.take_mem (k : Nat) {id : NodeId} {e : Entry F P M S} (stored : E id = some e) :
    ∃ id' e', E id' = some e' ∧ e'.name = e.name.take (e.name.length - k) := by
  induction k with
  | zero => exact ⟨id, e, stored, by simp⟩
  | succ k inductionHypothesis =>
      obtain ⟨id', e', stored', named⟩ := inductionHypothesis
      by_cases isRoot : e'.name = []
      · refine ⟨id', e', stored', ?_⟩
        have short : e.name.length - k = 0 := by
          simpa [named] using congrArg List.length isRoot
        rw [isRoot, Nat.sub_eq_zero_of_le (by omega), List.take_zero]
      · obtain ⟨p, ep, storedP, parentNamed⟩ := shape.prefix_closed stored' isRoot
        refine ⟨p, ep, storedP, ?_⟩
        rw [parentNamed, named, List.dropLast_eq_take, List.take_take, List.length_take]
        congr 1
        omega

/-- A child names a one-component extension of its parent's name. -/
theorem Shape.child_name {id c : NodeId} {e : Entry F P M S} (stored : E id = some e)
    (member : c ∈ e.children) :
    ∃ ec x, E c = some ec ∧ ec.parent = some id ∧ ec.name = e.name ++ [x] := by
  obtain ⟨ec, storedC, parentIs⟩ := shape.child_spec id e c stored member
  have nonRoot := shape.name_ne_nil_of_parent storedC parentIs
  obtain ⟨ep, storedP, named, -⟩ := shape.parent_entry storedC parentIs
  rw [stored, Option.some.injEq] at storedP
  subst storedP
  refine ⟨ec, ec.name.getLast nonRoot, storedC, parentIs, ?_⟩
  rw [named, List.dropLast_append_getLast]

theorem Shape.not_child_of_free {q : NodeId} (fresh : E q = none) :
    ∀ id e, E id = some e → e.children.count q = 0 := by
  intro id e stored
  rw [List.count_eq_zero]
  intro member
  obtain ⟨ec, storedC, -⟩ := shape.child_spec id e q stored member
  rw [fresh] at storedC
  cases storedC

end Derived

section View

/-- What the shape reads of an entry: its name, its parent and its children. -/
def treeView (E : NodeId → Option (Entry F P M S)) :
    NodeId → Option (Name × Option NodeId × List NodeId) := fun id =>
  (E id).map fun e => (e.name, e.parent, e.children)

theorem treeView_some {E E' : NodeId → Option (Entry F P M S)} (same : treeView E' = treeView E)
    {id : NodeId} {e' : Entry F P M S} (stored : E' id = some e') :
    ∃ e, E id = some e ∧ e.name = e'.name ∧ e.parent = e'.parent ∧ e.children = e'.children := by
  have atId := congrFun same id
  simp only [treeView, stored, Option.map_some] at atId
  cases storedE : E id with
  | none => simp [storedE] at atId
  | some e =>
      simp only [storedE, Option.map_some, Option.some.injEq, Prod.mk.injEq] at atId
      exact ⟨e, rfl, atId.1.symm, atId.2.1.symm, atId.2.2.symm⟩

/-- The shape depends on names, parents and children only. -/
theorem Shape.of_treeView {E E' : NodeId → Option (Entry F P M S)} (shape : Shape E)
    (same : treeView E' = treeView E) : Shape E' where
  depth_le := by
    intro id e' stored'
    obtain ⟨e, stored, named, -, -⟩ := treeView_some same stored'
    exact named ▸ shape.depth_le id e stored
  name_injective := by
    intro a b ea' eb' storedA' storedB' sameName
    obtain ⟨ea, storedA, namedA, -, -⟩ := treeView_some same storedA'
    obtain ⟨eb, storedB, namedB, -, -⟩ := treeView_some same storedB'
    exact shape.name_injective a b ea eb storedA storedB (by rw [namedA, namedB, sameName])
  root_parent := by
    intro id e' stored' isRoot
    obtain ⟨e, stored, named, parentIs, -⟩ := treeView_some same stored'
    rw [← parentIs]
    exact shape.root_parent id e stored (named ▸ isRoot)
  parent_spec := by
    intro id e' stored' nonRoot
    obtain ⟨e, stored, named, parentIs, -⟩ := treeView_some same stored'
    obtain ⟨p, ep, hasParent, storedP, parentNamed, once⟩ :=
      shape.parent_spec id e stored (named ▸ nonRoot)
    obtain ⟨ep', storedP', namedP, -, childrenP⟩ := treeView_some same.symm storedP
    exact ⟨p, ep', parentIs ▸ hasParent, storedP', by rw [namedP, parentNamed, named],
      by rw [childrenP, once]⟩
  child_spec := by
    intro id e' c stored' member
    obtain ⟨e, stored, -, -, childrenIs⟩ := treeView_some same stored'
    obtain ⟨ec, storedC, parentIs⟩ := shape.child_spec id e c stored (childrenIs ▸ member)
    obtain ⟨ec', storedC', -, parentIs', -⟩ := treeView_some same.symm storedC
    exact ⟨ec', storedC', parentIs' ▸ parentIs⟩

theorem treeView_update_keeps (E : NodeId → Option (Entry F P M S)) (id : NodeId)
    {f : Entry F P M S → Entry F P M S} (keeps : KeepsTree f) :
    treeView (Function.update E id ((E id).map f)) = treeView E := by
  funext j
  by_cases isId : j = id
  · subst isId
    cases stored : E j with
    | none => simp [treeView, stored]
    | some e => simp [treeView, stored, (keeps e).1, (keeps e).2.1, (keeps e).2.2]
  · simp [treeView, Function.update_of_ne isId]

/-- An edit of one entry that keeps its place in the tree keeps the shape. -/
theorem Shape.update_keeps {E : NodeId → Option (Entry F P M S)} (shape : Shape E) (id : NodeId)
    {f : Entry F P M S → Entry F P M S} (keeps : KeepsTree f) :
    Shape (Function.update E id ((E id).map f)) :=
  shape.of_treeView (treeView_update_keeps E id keeps)

end View

section Steps

variable {E : NodeId → Option (Entry F P M S)}

theorem ne_of_fresh {q id : NodeId} {e : Entry F P M S} (fresh : E q = none)
    (stored : E id = some e) : id ≠ q := by
  intro isQ
  rw [isQ, fresh] at stored
  cases stored

/-- A fresh root, when no entry has the empty name. -/
theorem Shape.insertRoot (shape : Shape E) {q : NodeId} (fresh : E q = none)
    (noRoot : ∀ id e, E id = some e → e.name ≠ []) :
    Shape (Function.update E q (some (Entry.ofName []))) := by
  have keep : ∀ {id : NodeId} {e : Entry F P M S}, E id = some e →
      Function.update E q (some (Entry.ofName [])) id = some e := fun stored => by
    rw [Function.update_of_ne (ne_of_fresh fresh stored)]
    exact stored
  refine ⟨?_, ?_, ?_, ?_, ?_⟩
  · intro id e stored
    rcases update_eq_some_iff.mp stored with ⟨-, isNew⟩ | ⟨-, stored⟩
    · cases Option.some.inj isNew
      simp [Entry.ofName]
    · exact shape.depth_le id e stored
  · intro a b ea eb storedA storedB sameName
    rcases update_eq_some_iff.mp storedA with ⟨isQA, newA⟩ | ⟨-, storedA⟩ <;>
      rcases update_eq_some_iff.mp storedB with ⟨isQB, newB⟩ | ⟨-, storedB⟩
    · rw [isQA, isQB]
    · cases Option.some.inj newA
      exact absurd sameName.symm (noRoot b eb storedB)
    · cases Option.some.inj newB
      exact absurd sameName (noRoot a ea storedA)
    · exact shape.name_injective a b ea eb storedA storedB sameName
  · intro id e stored isRoot
    rcases update_eq_some_iff.mp stored with ⟨-, isNew⟩ | ⟨-, stored⟩
    · cases Option.some.inj isNew
      rfl
    · exact shape.root_parent id e stored isRoot
  · intro id e stored nonRoot
    rcases update_eq_some_iff.mp stored with ⟨-, isNew⟩ | ⟨-, stored⟩
    · cases Option.some.inj isNew
      exact absurd rfl nonRoot
    · obtain ⟨p, ep, hasParent, storedP, named, once⟩ := shape.parent_spec id e stored nonRoot
      exact ⟨p, ep, hasParent, keep storedP, named, once⟩
  · intro id e c stored member
    rcases update_eq_some_iff.mp stored with ⟨-, isNew⟩ | ⟨-, stored⟩
    · cases Option.some.inj isNew
      simp [Entry.ofName] at member
    · obtain ⟨ec, storedC, parentIs⟩ := shape.child_spec id e c stored member
      exact ⟨ec, keep storedC, parentIs⟩

/-- A fresh entry for `name` below the entry of `name.getPrefix(-1)`, appended to that
entry's children, when no entry has the name `name`. -/
theorem Shape.insertChild (shape : Shape E) {q p : NodeId} {ep : Entry F P M S} {name : Name}
    (fresh : E q = none) (storedP : E p = some ep) (nonRoot : name ≠ [])
    (parentNamed : ep.name = name.dropLast) (shallow : name.length ≤ getMaxDepth)
    (newName : ∀ id e, E id = some e → e.name ≠ name) :
    Shape (Function.update (Function.update E q (some { Entry.ofName name with parent := some p }))
      p (some { ep with children := ep.children ++ [q] })) := by
  set child : Entry F P M S := { Entry.ofName name with parent := some p }
  set parent : Entry F P M S := { ep with children := ep.children ++ [q] }
  set E' := Function.update (Function.update E q (some child)) p (some parent)
  have pNotQ : p ≠ q := ne_of_fresh fresh storedP
  -- an address of the new store holds the new child, or an old entry with its old name
  -- and parent, and, away from `p`, its old children
  have source : ∀ id e, E' id = some e → (id = q ∧ e = child) ∨
      (id ≠ q ∧ ∃ e₀, E id = some e₀ ∧ e.name = e₀.name ∧ e.parent = e₀.parent ∧
        (id = p → e = parent) ∧ (id ≠ p → e.children = e₀.children)) := by
    intro id e stored
    rcases update_eq_some_iff.mp stored with ⟨isP, isParent⟩ | ⟨notP, stored⟩
    · cases Option.some.inj isParent
      exact .inr ⟨isP ▸ pNotQ, ep, isP ▸ storedP, rfl, rfl, fun _ => rfl, fun notP => absurd isP notP⟩
    · rcases update_eq_some_iff.mp stored with ⟨isQ, isChild⟩ | ⟨notQ, stored⟩
      · exact .inl ⟨isQ, (Option.some.inj isChild).symm⟩
      · exact .inr ⟨notQ, e, stored, rfl, rfl, fun isP => absurd isP notP, fun _ => rfl⟩
  have keep : ∀ id e₀, E id = some e₀ → ∃ e, E' id = some e ∧ e.name = e₀.name ∧
      e.parent = e₀.parent := by
    intro id e₀ stored
    by_cases isP : id = p
    · subst isP
      rw [storedP, Option.some.injEq] at stored
      subst stored
      exact ⟨parent, by simp [E'], rfl, rfl⟩
    · refine ⟨e₀, ?_, rfl, rfl⟩
      simp only [E', Function.update_of_ne isP, Function.update_of_ne (ne_of_fresh fresh stored)]
      exact stored
  have qNotChild := shape.not_child_of_free fresh
  refine ⟨?_, ?_, ?_, ?_, ?_⟩
  · intro id e stored
    rcases source id e stored with ⟨-, rfl⟩ | ⟨-, e₀, stored₀, named, -⟩
    · exact shallow
    · exact named ▸ shape.depth_le id e₀ stored₀
  · intro a b ea eb storedA storedB sameName
    rcases source a ea storedA with ⟨isQA, rfl⟩ | ⟨-, ea₀, storedA₀, namedA, -⟩ <;>
      rcases source b eb storedB with ⟨isQB, rfl⟩ | ⟨-, eb₀, storedB₀, namedB, -⟩
    · rw [isQA, isQB]
    · exact absurd (namedB ▸ sameName.symm) (newName b eb₀ storedB₀)
    · exact absurd (namedA ▸ sameName) (newName a ea₀ storedA₀)
    · exact shape.name_injective a b ea₀ eb₀ storedA₀ storedB₀ (namedA ▸ namedB ▸ sameName)
  · intro id e stored isRoot
    rcases source id e stored with ⟨-, rfl⟩ | ⟨-, e₀, stored₀, named, parentIs, -⟩
    · exact absurd isRoot nonRoot
    · rw [parentIs]
      exact shape.root_parent id e₀ stored₀ (named ▸ isRoot)
  · intro id e stored nonRoot'
    rcases source id e stored with ⟨isQ, rfl⟩ | ⟨notQ, e₀, stored₀, named, parentIs, -⟩
    · refine ⟨p, parent, rfl, by simp [E'], parentNamed, ?_⟩
      rw [isQ, List.count_append, qNotChild p ep storedP]
      simp
    · obtain ⟨pp, epp, hasParent, storedPP, parentNamed', once⟩ :=
        shape.parent_spec id e₀ stored₀ (named ▸ nonRoot')
      rw [← named] at parentNamed'
      by_cases isP : pp = p
      · subst isP
        rw [storedP, Option.some.injEq] at storedPP
        subst storedPP
        refine ⟨pp, parent, parentIs ▸ hasParent, by simp [E'], parentNamed', ?_⟩
        rw [List.count_append, once, Nat.add_eq_left, List.count_eq_zero, List.mem_singleton]
        exact notQ
      · have storedPP' : E' pp = some epp := by
          simp only [E', Function.update_of_ne isP, Function.update_of_ne (ne_of_fresh fresh storedPP)]
          exact storedPP
        exact ⟨pp, epp, parentIs ▸ hasParent, storedPP', parentNamed', once⟩
  · intro id e c stored member
    rcases source id e stored with ⟨-, rfl⟩ | ⟨-, e₀, stored₀, -, -, isParent, children⟩
    · simp [child, Entry.ofName] at member
    · by_cases isP : id = p
      · subst isP
        rw [isParent rfl] at member
        rcases List.mem_append.mp member with old | isQ
        · rw [storedP, Option.some.injEq] at stored₀
          subst stored₀
          obtain ⟨ec, storedC, parentIs⟩ := shape.child_spec id ep c storedP old
          obtain ⟨ec', storedC', -, parentIs'⟩ := keep c ec storedC
          exact ⟨ec', storedC', parentIs' ▸ parentIs⟩
        · rw [List.mem_singleton] at isQ
          subst isQ
          exact ⟨child, by simp [E', Function.update_of_ne pNotQ.symm], rfl⟩
      · rw [children isP] at member
        obtain ⟨ec, storedC, parentIs⟩ := shape.child_spec id e₀ c stored₀ member
        obtain ⟨ec', storedC', -, parentIs'⟩ := keep c ec storedC
        exact ⟨ec', storedC', parentIs' ▸ parentIs⟩

/-- No entry has a childless entry as its parent. -/
theorem Shape.not_parent_of_leaf (shape : Shape E) {x : NodeId} {ex : Entry F P M S}
    (stored : E x = some ex) (leaf : ex.children = []) :
    ∀ id e, E id = some e → e.parent ≠ some x := by
  intro id e storedId hasParent
  obtain ⟨ex', storedX, -, once⟩ := shape.parent_entry storedId hasParent
  rw [stored, Option.some.injEq] at storedX
  subst storedX
  rw [leaf] at once
  cases once

/-- A childless entry is not its own parent. -/
theorem Shape.ne_parent_of_leaf (shape : Shape E) {x p : NodeId} {ex : Entry F P M S}
    (stored : E x = some ex) (leaf : ex.children = []) (hasParent : ex.parent = some p) : x ≠ p := by
  intro isP
  obtain ⟨ep, storedP, -, once⟩ := shape.parent_entry stored hasParent
  rw [← isP, stored, Option.some.injEq] at storedP
  rw [← storedP, leaf] at once
  cases once

/-- The removal of a childless entry that has no parent. -/
theorem Shape.eraseOrphan (shape : Shape E) {x : NodeId} {ex : Entry F P M S}
    (stored : E x = some ex) (leaf : ex.children = []) (noParent : ex.parent = none) :
    Shape (Function.update E x none) := by
  have source : ∀ id e, Function.update E x none id = some e → id ≠ x ∧ E id = some e := by
    intro id e storedId
    rcases update_eq_some_iff.mp storedId with ⟨-, isNone⟩ | kept
    · cases isNone
    · exact kept
  have keep : ∀ {id : NodeId} {e : Entry F P M S}, id ≠ x → E id = some e →
      Function.update E x none id = some e := fun notX storedId => by
    rw [Function.update_of_ne notX]
    exact storedId
  refine ⟨?_, ?_, ?_, ?_, ?_⟩
  · intro id e storedId
    exact shape.depth_le id e (source id e storedId).2
  · intro a b ea eb storedA storedB sameName
    exact shape.name_injective a b ea eb (source a ea storedA).2 (source b eb storedB).2 sameName
  · intro id e storedId isRoot
    exact shape.root_parent id e (source id e storedId).2 isRoot
  · intro id e storedId nonRoot
    have old := (source id e storedId).2
    obtain ⟨pp, epp, hasParent, storedPP, named, once⟩ := shape.parent_spec id e old nonRoot
    have notX : pp ≠ x := fun isX => shape.not_parent_of_leaf stored leaf id e old (isX ▸ hasParent)
    exact ⟨pp, epp, hasParent, keep notX storedPP, named, once⟩
  · intro id e c storedId member
    obtain ⟨ec, storedC, parentIs⟩ := shape.child_spec id e c (source id e storedId).2 member
    have notX : c ≠ x := by
      intro isX
      rw [isX, stored, Option.some.injEq] at storedC
      rw [← storedC, noParent] at parentIs
      cases parentIs
    exact ⟨ec, keep notX storedC, parentIs⟩

/-- The removal of a childless entry after it is taken out of its parent's children. -/
theorem Shape.eraseLeaf (shape : Shape E) {x p : NodeId} {ex ep : Entry F P M S}
    (stored : E x = some ex) (leaf : ex.children = []) (hasParent : ex.parent = some p)
    (storedP : E p = some ep) :
    Shape (Function.update
      (Function.update E p (some { ep with children := ep.children.erase x })) x none) := by
  set parent : Entry F P M S := { ep with children := ep.children.erase x }
  set E' := Function.update (Function.update E p (some parent)) x none
  obtain ⟨ep', storedP', -, onceX⟩ := shape.parent_entry stored hasParent
  rw [storedP, Option.some.injEq] at storedP'
  subst storedP'
  have xNotP := shape.ne_parent_of_leaf stored leaf hasParent
  have source : ∀ id e, E' id = some e → id ≠ x ∧ ∃ e₀, E id = some e₀ ∧ e.name = e₀.name ∧
      e.parent = e₀.parent ∧ (id = p → e = parent) ∧ (id ≠ p → e = e₀) := by
    intro id e storedId
    rcases update_eq_some_iff.mp storedId with ⟨-, isNone⟩ | ⟨notX, storedId⟩
    · cases isNone
    · rcases update_eq_some_iff.mp storedId with ⟨isP, isParent⟩ | ⟨notP, storedId⟩
      · cases Option.some.inj isParent
        exact ⟨notX, ep, isP ▸ storedP, rfl, rfl, fun _ => rfl, fun notP => absurd isP notP⟩
      · exact ⟨notX, e, storedId, rfl, rfl, fun isP => absurd isP notP, fun _ => rfl⟩
  have keep : ∀ id e₀, id ≠ x → E id = some e₀ → ∃ e, E' id = some e ∧ e.name = e₀.name ∧
      e.parent = e₀.parent := by
    intro id e₀ notX storedId
    by_cases isP : id = p
    · subst isP
      rw [storedP, Option.some.injEq] at storedId
      subst storedId
      exact ⟨parent, by simp [E', Function.update_of_ne notX], rfl, rfl⟩
    · refine ⟨e₀, ?_, rfl, rfl⟩
      simp only [E', Function.update_of_ne notX, Function.update_of_ne isP]
      exact storedId
  refine ⟨?_, ?_, ?_, ?_, ?_⟩
  · intro id e storedId
    obtain ⟨-, e₀, stored₀, named, -⟩ := source id e storedId
    exact named ▸ shape.depth_le id e₀ stored₀
  · intro a b ea eb storedA storedB sameName
    obtain ⟨-, ea₀, storedA₀, namedA, -⟩ := source a ea storedA
    obtain ⟨-, eb₀, storedB₀, namedB, -⟩ := source b eb storedB
    exact shape.name_injective a b ea₀ eb₀ storedA₀ storedB₀ (namedA ▸ namedB ▸ sameName)
  · intro id e storedId isRoot
    obtain ⟨-, e₀, stored₀, named, parentIs, -⟩ := source id e storedId
    rw [parentIs]
    exact shape.root_parent id e₀ stored₀ (named ▸ isRoot)
  · intro id e storedId nonRoot
    obtain ⟨notX, e₀, stored₀, named, parentIs, -⟩ := source id e storedId
    obtain ⟨pp, epp, hasParent', storedPP, parentNamed, once⟩ :=
      shape.parent_spec id e₀ stored₀ (named ▸ nonRoot)
    rw [← named] at parentNamed
    have ppNotX : pp ≠ x := fun isX =>
      shape.not_parent_of_leaf stored leaf id e₀ stored₀ (isX ▸ hasParent')
    by_cases isP : pp = p
    · subst isP
      rw [storedP, Option.some.injEq] at storedPP
      subst storedPP
      refine ⟨pp, parent, parentIs ▸ hasParent', by simp [E', Function.update_of_ne ppNotX],
        parentNamed, ?_⟩
      rw [List.count_erase_of_ne notX, once]
    · have storedPP' : E' pp = some epp := by
        simp only [E', Function.update_of_ne ppNotX, Function.update_of_ne isP]
        exact storedPP
      exact ⟨pp, epp, parentIs ▸ hasParent', storedPP', parentNamed, once⟩
  · intro id e c storedId member
    obtain ⟨-, e₀, stored₀, -, -, isParent, isOld⟩ := source id e storedId
    by_cases isP : id = p
    · subst isP
      rw [isParent rfl] at member
      have cNotX : c ≠ x := by
        intro isX
        subst isX
        have gone : (ep.children.erase c).count c = 0 := by rw [List.count_erase_self, onceX]
        exact List.count_eq_zero.mp gone member
      obtain ⟨ec, storedC, parentIs⟩ :=
        shape.child_spec id ep c storedP (List.mem_of_mem_erase (member : c ∈ ep.children.erase x))
      obtain ⟨ec', storedC', -, parentIs'⟩ := keep c ec cNotX storedC
      exact ⟨ec', storedC', parentIs' ▸ parentIs⟩
    · rw [isOld isP] at member
      obtain ⟨ec, storedC, parentIs⟩ := shape.child_spec id e₀ c stored₀ member
      have cNotX : c ≠ x := by
        intro isX
        rw [isX, stored, Option.some.injEq] at storedC
        rw [← storedC, hasParent, Option.some.injEq] at parentIs
        exact isP parentIs.symm
      obtain ⟨ec', storedC', -, parentIs'⟩ := keep c ec cNotX storedC
      exact ⟨ec', storedC', parentIs' ▸ parentIs⟩

end Steps

end Nfd.NameTree
