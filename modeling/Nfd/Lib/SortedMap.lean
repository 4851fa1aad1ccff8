import Mathlib

/-!
# An ordered map as an ascending association list

`std::map` keeps its entries in ascending key order with one entry per key.  An iterator is
named by the key of its entry, `none` standing for `end()`.  `emplace` inserts at the key's
place and keeps an entry already there, `erase` removes the key's entry, and `next` is the
iterator `erase` returns: the first key above the erased one.

`std::multimap` keeps its entries in ascending key order too, with any number of entries per
key: `emplace` inserts after the entries of equal key, so they stay in the order they came.
-/

set_option autoImplicit false

namespace SortedMap

variable {κ ν : Type} [LinearOrder κ]

/-- `emplace(k, v)`: a key already present keeps its value. -/
def emplace (k : κ) (v : ν) : List (κ × ν) → List (κ × ν)
  | [] => [(k, v)]
  | (k', v') :: rest =>
      if k < k' then (k, v) :: (k', v') :: rest
      else if k = k' then (k', v') :: rest
      else (k', v') :: emplace k v rest

def find? (k : κ) (m : List (κ × ν)) : Option ν := (m.find? fun e => e.1 = k).map Prod.snd

def erase (k : κ) (m : List (κ × ν)) : List (κ × ν) := m.filter fun e => e.1 ≠ k

/-- The iterator after the entry of `k`: the first key above `k`. -/
def next (k : κ) (m : List (κ × ν)) : Option κ := (m.find? fun e => k < e.1).map Prod.fst

/-- `begin()`. -/
def first? (m : List (κ × ν)) : Option κ := m.head?.map Prod.fst

def modify (k : κ) (f : ν → ν) (m : List (κ × ν)) : List (κ × ν) :=
  m.map fun e => if e.1 = k then (e.1, f e.2) else e

theorem find?_cons (k : κ) (e : κ × ν) (m : List (κ × ν)) :
    find? k (e :: m) = if e.1 = k then some e.2 else find? k m := by
  unfold find?
  by_cases here : e.1 = k <;> simp [here]

/-- Emplacing an absent key adds its entry and leaves the other keys' entries alone. -/
theorem find?_emplace_of_absent (k : κ) {k' : κ} (v : ν) :
    ∀ {m : List (κ × ν)}, find? k' m = none → find? k (emplace k' v m) = if k = k' then some v else find? k m
  | [], _ => by
      rw [emplace, find?_cons]
      by_cases same : k = k'
      · simp [same]
      · simp [Ne.symm same, same, find?]
  | (k0, v0) :: rest, absent => by
      rw [find?_cons] at absent
      have other : k0 ≠ k' := fun same => by simp [same] at absent
      simp only [other, if_false] at absent
      unfold emplace
      split
      · rw [find?_cons]
        by_cases same : k = k'
        · simp [same]
        · simp [Ne.symm same, same]
      · rw [if_neg (Ne.symm other), find?_cons, find?_cons, find?_emplace_of_absent k v absent]
        by_cases same : k = k'
        · subst same
          simp [other]
        · simp [same]

/-- Erasing a key removes its entry and leaves the other keys' entries alone. -/
theorem find?_erase (k k' : κ) : ∀ m : List (κ × ν), find? k (erase k' m) = if k = k' then none else find? k m
  | [] => by simp [erase, find?]
  | (k0, v0) :: rest => by
      have onward := find?_erase k k' rest
      unfold erase at onward ⊢
      by_cases erased : k0 = k'
      · rw [List.filter_cons_of_neg (by simpa using erased), onward, find?_cons]
        by_cases same : k = k'
        · simp [same]
        · simp [same, erased, Ne.symm same]
      · rw [List.filter_cons_of_pos (by simpa using erased), find?_cons, find?_cons, onward]
        by_cases same : k = k'
        · subst same
          simp [erased]
        · simp [same]

/-- The keys, in the map's order. -/
def keys (m : List (κ × ν)) : List κ := m.map Prod.fst

/-- `std::map` holds one entry per key, in ascending key order. -/
def Sorted (m : List (κ × ν)) : Prop := (keys m).Pairwise (· < ·)

section Keys

variable {k k' : κ} {v : ν} {m : List (κ × ν)}

omit [LinearOrder κ] in
@[simp] theorem keys_cons (e : κ × ν) (m : List (κ × ν)) : keys (e :: m) = e.1 :: keys m := rfl

omit [LinearOrder κ] in
@[simp] theorem keys_eq_nil : keys m = [] ↔ m = [] := List.map_eq_nil_iff

theorem mem_keys_emplace : k' ∈ keys (emplace k v m) ↔ k' = k ∨ k' ∈ keys m := by
  induction m with
  | nil => simp [emplace, keys]
  | cons e rest ih =>
      obtain ⟨k0, v0⟩ := e
      unfold emplace
      split
      · simp
      · split
        · rename_i same
          subst same
          simp only [keys_cons, List.mem_cons]
          constructor
          · intro member
            exact Or.inr member
          · rintro (rfl | member)
            · exact Or.inl rfl
            · exact member
        · simp only [keys_cons, List.mem_cons, ih]
          tauto

theorem sorted_emplace (sorted : Sorted m) : Sorted (emplace k v m) := by
  induction m with
  | nil => simp [emplace, Sorted, keys]
  | cons e rest ih =>
      obtain ⟨k0, v0⟩ := e
      unfold Sorted at sorted ih ⊢
      rw [keys_cons, List.pairwise_cons] at sorted
      unfold emplace
      split
      · rename_i below
        rw [keys_cons, keys_cons, List.pairwise_cons, List.pairwise_cons]
        refine ⟨fun j member => ?_, sorted.1, sorted.2⟩
        rcases List.mem_cons.mp member with rfl | later
        · exact below
        · exact lt_trans below (sorted.1 j later)
      · split
        · rw [keys_cons, List.pairwise_cons]
          exact sorted
        · rename_i notBelow notSame
          rw [keys_cons, List.pairwise_cons]
          refine ⟨fun j member => ?_, ih sorted.2⟩
          rcases mem_keys_emplace.mp member with rfl | old
          · exact lt_of_le_of_ne (le_of_not_gt notBelow) (Ne.symm notSame)
          · exact sorted.1 j old

theorem length_emplace_of_not_mem (absent : k ∉ keys m) : (emplace k v m).length = m.length + 1 := by
  induction m with
  | nil => rfl
  | cons e rest ih =>
      obtain ⟨k0, v0⟩ := e
      rw [keys_cons, List.mem_cons, not_or] at absent
      unfold emplace
      rw [if_neg absent.1]
      split
      · rfl
      · simp [ih absent.2]

@[simp] theorem keys_modify (k : κ) (f : ν → ν) (m : List (κ × ν)) : keys (modify k f m) = keys m := by
  simp only [keys, modify, List.map_map]
  congr 1
  funext e
  simp only [Function.comp_apply]
  split <;> rfl

@[simp] theorem length_modify (k : κ) (f : ν → ν) (m : List (κ × ν)) : (modify k f m).length = m.length := by
  simp [modify]

theorem keys_erase (k : κ) (m : List (κ × ν)) : keys (erase k m) = (keys m).filter (· ≠ k) := by
  simp only [keys, erase, List.filter_map]
  rfl

theorem sorted_erase (k : κ) (sorted : Sorted m) : Sorted (erase k m) := by
  unfold Sorted at sorted ⊢
  rw [keys_erase]
  exact sorted.filter _

theorem find?_eq_none_iff : find? k m = none ↔ k ∉ keys m := by
  simp only [find?, keys, Option.map_eq_none_iff, List.find?_eq_none, decide_eq_true_eq, List.mem_map,
    not_exists, not_and, Prod.forall]

/-- The iterator after `k` is the least key above it. -/
theorem next_eq_some {n : κ} (sorted : Sorted m) (isNext : next k m = some n) :
    n ∈ keys m ∧ k < n ∧ ∀ j ∈ keys m, k < j → n ≤ j := by
  induction m with
  | nil => simp [next] at isNext
  | cons e rest ih =>
      obtain ⟨k0, v0⟩ := e
      unfold Sorted at sorted
      rw [keys_cons, List.pairwise_cons] at sorted
      by_cases above : k < k0
      · have here : next k ((k0, v0) :: rest) = some k0 := by simp [next, above]
        rw [here, Option.some_inj] at isNext
        subst isNext
        refine ⟨List.mem_cons_self, above, fun j member _ => ?_⟩
        rcases List.mem_cons.mp member with rfl | later
        · exact le_refl _
        · exact (sorted.1 j later).le
      · have later : next k ((k0, v0) :: rest) = next k rest := by simp [next, above]
        rw [later] at isNext
        obtain ⟨member, kn, least⟩ := ih sorted.2 isNext
        refine ⟨List.mem_cons_of_mem _ member, kn, fun j member' kj => ?_⟩
        rcases List.mem_cons.mp member' with rfl | old
        · exact absurd kj above
        · exact least j old kj

/-- Past the last entry: no key is above `k`. -/
theorem next_eq_none (isEnd : next k m = none) : ∀ j ∈ keys m, ¬ k < j := by
  intro j member above
  obtain ⟨⟨j', v'⟩, entry, rfl⟩ := List.mem_map.mp member
  simp only [next, Option.map_eq_none_iff, List.find?_eq_none] at isEnd
  exact absurd (decide_eq_true above) (isEnd _ entry)

/-- `begin()` is the least key. -/
theorem first?_eq_some {n : κ} (sorted : Sorted m) (isFirst : first? m = some n) :
    n ∈ keys m ∧ ∀ j ∈ keys m, n ≤ j := by
  cases m with
  | nil => simp [first?] at isFirst
  | cons e rest =>
      obtain ⟨k0, v0⟩ := e
      simp only [first?, List.head?_cons, Option.map_some, Option.some_inj] at isFirst
      subst isFirst
      unfold Sorted at sorted
      rw [keys_cons, List.pairwise_cons] at sorted
      refine ⟨List.mem_cons_self, fun j member => ?_⟩
      rcases List.mem_cons.mp member with rfl | later
      · exact le_refl _
      · exact (sorted.1 j later).le

omit [LinearOrder κ] in
theorem first?_eq_none_iff : first? m = none ↔ m = [] := by
  cases m <;> simp [first?]

/-- In a sorted map, `emplace` adds the key's entry only where there was none. -/
theorem find?_emplace (k : κ) (v : ν) (sorted : Sorted m) :
    find? k' (emplace k v m) = if k' = k then (find? k' m).or (some v) else find? k' m := by
  induction m with
  | nil =>
      by_cases same : k' = k
      · simp [same, emplace, find?]
      · simp [same, emplace, find?, Ne.symm same]
  | cons e rest ih =>
      obtain ⟨k0, v0⟩ := e
      unfold Sorted at sorted ih
      rw [keys_cons, List.pairwise_cons] at sorted
      unfold emplace
      split
      · -- the key goes in front: it was absent, every key being above it
        rename_i below
        have absent : find? k ((k0, v0) :: rest) = none := by
          rw [find?_eq_none_iff, keys_cons, List.mem_cons]
          rintro (same | later)
          · exact absurd same (ne_of_lt below)
          · exact absurd (lt_trans below (sorted.1 k later)) (lt_irrefl k)
        by_cases same : k' = k
        · subst same
          rw [find?_cons, if_pos rfl, if_pos rfl, absent, Option.none_or]
        · rw [find?_cons, if_neg (Ne.symm same), if_neg same]
      · split
        · -- the key is present and keeps its entry
          rename_i present
          subst present
          by_cases same : k' = k
          · subst same
            rw [if_pos rfl, find?_cons, if_pos rfl, Option.some_or]
          · rw [if_neg same]
        · rw [find?_cons, find?_cons, ih sorted.2]
          by_cases here : k0 = k'
          · subst here
            rename_i notBelow notSame
            rw [if_pos rfl, if_pos rfl, if_neg (Ne.symm notSame)]
          · rw [if_neg here, if_neg here]

end Keys

end SortedMap

namespace SortedMultimap

variable {κ ν : Type} [LinearOrder κ]

/-- `emplace(k, v)`: after the entries of key `k` already there. -/
def emplace (k : κ) (v : ν) : List (κ × ν) → List (κ × ν)
  | [] => [(k, v)]
  | (k', v') :: rest => if k < k' then (k, v) :: (k', v') :: rest else (k', v') :: emplace k v rest

theorem emplace_perm (k : κ) (v : ν) : ∀ m : List (κ × ν), (emplace k v m).Perm ((k, v) :: m)
  | [] => List.Perm.refl _
  | (k', v') :: rest => by
      unfold emplace
      split
      · exact List.Perm.refl _
      · exact ((emplace_perm k v rest).cons _).trans (List.Perm.swap _ _ _)

theorem mem_emplace {k : κ} {v : ν} {m : List (κ × ν)} {e : κ × ν} :
    e ∈ emplace k v m ↔ e = (k, v) ∨ e ∈ m := by
  rw [(emplace_perm k v m).mem_iff, List.mem_cons]

/-- `emplace` keeps the keys ascending. -/
theorem pairwise_emplace (k : κ) (v : ν) :
    ∀ {m : List (κ × ν)}, m.Pairwise (fun a b => a.1 ≤ b.1) →
      (emplace k v m).Pairwise (fun a b => a.1 ≤ b.1)
  | [], _ => List.pairwise_singleton _ _
  | (k', v') :: rest, sorted => by
      rw [List.pairwise_cons] at sorted
      unfold emplace
      split
      · rename_i below
        refine List.Pairwise.cons (fun e member => ?_) (sorted.2.cons sorted.1)
        rcases List.mem_cons.mp member with rfl | later
        · exact below.le
        · exact below.le.trans (sorted.1 e later)
      · rename_i notBelow
        refine List.Pairwise.cons (fun e member => ?_) (pairwise_emplace k v sorted.2)
        rcases mem_emplace.mp member with rfl | later
        · exact le_of_not_gt notBelow
        · exact sorted.1 e later

end SortedMultimap
