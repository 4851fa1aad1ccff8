import Nfd.Table.Cs
import Nfd.NameOrder
import Nfd.Lib.SearchTree

/-!
# The prefix range of the Content Store

`Cs::findPrefixRange(prefix)` asks the table, a `std::set` of entries ordered by full name,
for `lower_bound(prefix)` and `lower_bound(prefix.getSuccessor())`.  The set compares a query
name with an entry by `compareQueryWithData`: a full name (one that ends in an implicit
digest) against the Data's name and then its digest, any other name against the Data's name,
counting as smaller when the names are equal.  The set's red-black tree is modelled by its
shape (`SearchTree.Tree`), so what follows holds whatever shape the tree has.

For Data as the packet library builds them (names of valid components and no implicit digest
among them, an implicit digest last in the full name), each comparison with a query splits the
table in its order, and the range holds exactly the entries whose full name the query is a
prefix of: the entries `findPrefixRange` stands for in the rest of the model.
-/

set_option autoImplicit false

namespace Nfd.Cs

open SearchTree LexOrder

/-- `compareQueryWithData(queryName, data)`. -/
def compareQueryWithData (queryName : Name) (data : Data) : Ordering :=
  let queryIsFullName := queryName.getLast?.any Component.isImplicitSha256Digest
  let cmp := if queryIsFullName then Name.compare (queryName.take (queryName.length - 1)) data.name
    else Name.compare queryName data.name
  -- the name without digest differs
  if cmp != .eq then cmp
  -- the name without digest equals: compare the digest
  else if queryIsFullName then (queryName.getLast?.map fun last => Component.compare last data.digest).getD .lt
  -- the query is a proper prefix of the Data's full name
  else .lt

/-- `operator<(const Entry&, const Name&)`. -/
def entryLessThanName (entry : Entry) (queryName : Name) : Bool :=
  compareQueryWithData queryName entry.data == .gt

/-- `operator<(const Name&, const Entry&)`. -/
def nameLessThanEntry (queryName : Name) (entry : Entry) : Bool :=
  compareQueryWithData queryName entry.data == .lt

/-- `findPrefixRange(prefix)` over the tree of `m_table`: from `lower_bound(prefix)` up to
`lower_bound(prefix.getSuccessor())`, or up to `end()` for the empty prefix.
`Name::getSuccessor` belongs to the packet library and is a parameter. -/
def findPrefixRangeInTree (getSuccessor : Name → Name) (prefixName : Name) (table : SearchTree.Tree Entry) :
    List Entry :=
  let first := lowerBound (fun entry => entryLessThanName entry prefixName) table
  let last := if prefixName.length > 0 then
      lowerBound (fun entry => entryLessThanName entry (getSuccessor prefixName)) table
    else table.size
  range first last table

/-- `Data::getFullName()`: the name, then the implicit digest. -/
def Data.fullName (data : Data) : Name := data.name ++ [data.digest]

/-- A Data packet as the packet library builds it: valid name components, none an implicit
digest, and an implicit digest as the last component of the full name. -/
structure Data.WellFormed (data : Data) : Prop where
  digest : data.digest.isImplicitSha256Digest = true
  valid : ∀ c ∈ data.name, c.Valid
  noDigest : ∀ c ∈ data.name, c.isImplicitSha256Digest = false

instance : Std.TransCmp compareKeys :=
  inferInstanceAs (Std.TransCmp (compareLex (compareOn fun key : Key => key.1) (compareOn fun key : Key => key.2)))

section Comparisons

theorem compareKeys_eq (a b : Key) :
    compareKeys a b = (Name.compare a.1 b.1).then (Component.compare a.2 b.2) := rfl

theorem compareQueryWithData_full {q : Name} {c : Component} (digest : c.isImplicitSha256Digest = true)
    (data : Data) : compareQueryWithData (q ++ [c]) data = compareKeys (q, c) data.key := by
  have prefixPart : (q ++ [c]).take ((q ++ [c]).length - 1) = q := by simp
  simp only [compareQueryWithData, List.getLast?_concat, Option.any_some, digest, if_true, prefixPart,
    Option.map_some, Option.getD_some, compareKeys_eq, Data.key]
  cases Name.compare q data.name <;> rfl

theorem compareQueryWithData_of_not_full {q : Name}
    (notFull : q.getLast?.any Component.isImplicitSha256Digest = false) (data : Data) :
    compareQueryWithData q data = (Name.compare q data.name).then .lt := by
  simp only [compareQueryWithData, notFull, Bool.false_eq_true, if_false]
  cases Name.compare q data.name <;> rfl

theorem then_lt_eq_gt_iff (o : Ordering) : o.then .lt = .gt ↔ o = .gt := by
  cases o <;> decide

theorem then_lt_eq_lt_iff (o : Ordering) : o.then .lt = .lt ↔ o ≠ .gt := by
  cases o <;> decide

theorem compareKeys_name_ne_gt {a b : Key} (before : compareKeys a b = .lt) :
    Name.compare a.1 b.1 ≠ .gt := by
  rw [compareKeys_eq, Ordering.then_eq_lt] at before
  rcases before with first | ⟨same, -⟩ <;> simp [*]

theorem exists_of_full {q : Name} (full : q.getLast?.any Component.isImplicitSha256Digest = true) :
    ∃ q' c, q = q' ++ [c] ∧ c.isImplicitSha256Digest = true := by
  cases last : q.getLast? with
  | none => rw [last] at full; cases full
  | some c =>
      rw [last, Option.any_some] at full
      obtain ⟨q', rfl⟩ := List.getLast?_eq_some_iff.mp last
      exact ⟨q', c, rfl, full⟩

/-- Both comparisons with a query follow the order of the table: an entry before one below
the query is below it, and an entry after one above the query is above it. -/
theorem comparisons_monotone {a b : Entry} (before : compareKeys a.key b.key = .lt) (q : Name) :
    (entryLessThanName b q = true → entryLessThanName a q = true) ∧
      (nameLessThanEntry q a = true → nameLessThanEntry q b = true) := by
  simp only [entryLessThanName, nameLessThanEntry, beq_iff_eq]
  cases full : q.getLast?.any Component.isImplicitSha256Digest with
  | false =>
      -- the query compares with the names only, and `a`'s name is at most `b`'s
      simp only [compareQueryWithData_of_not_full full, then_lt_eq_gt_iff, then_lt_eq_lt_iff]
      have names : (Name.compare a.data.name b.data.name).isLE :=
        Ordering.isLE_iff_ne_gt.mpr (compareKeys_name_ne_gt before)
      constructor
      · intro above
        exact Std.TransCmp.gt_of_gt_of_isGE above (Std.OrientedCmp.isGE_of_isLE names)
      · intro notAbove
        exact Ordering.isLE_iff_ne_gt.mp (Std.TransCmp.isLE_trans (Ordering.isLE_iff_ne_gt.mpr notAbove) names)
  | true =>
      -- a full name compares as the key of its name and digest
      obtain ⟨q', c, rfl, digest⟩ := exists_of_full full
      simp only [compareQueryWithData_full digest]
      exact ⟨fun above => Std.TransCmp.gt_trans above (Std.OrientedCmp.gt_of_lt before),
        fun below => Std.TransCmp.lt_trans below before⟩

end Comparisons

section Range

variable {data : Data} (wellFormed : data.WellFormed)
include wellFormed

/-- A query ending in an implicit digest is a prefix of a full name only when it is it. -/
theorem full_prefix_iff {q : Name} {c : Component} (digest : c.isImplicitSha256Digest = true) :
    q ++ [c] <+: data.fullName ↔ data.name = q ∧ data.digest = c := by
  rw [Data.fullName, List.prefix_concat_iff]
  constructor
  · rintro (same | inName)
    · obtain ⟨names, digests⟩ := List.append_inj' same rfl
      rw [List.singleton_inj] at digests
      exact ⟨names.symm, digests.symm⟩
    · -- `c` would lie in the name, which holds no implicit digest
      have member : c ∈ data.name := inName.subset (by simp)
      rw [wellFormed.noDigest c member] at digest
      cases digest
  · rintro ⟨rfl, rfl⟩
    exact .inl rfl

theorem prefix_fullName_iff_of_not_full {q : Name}
    (notFull : q.getLast?.any Component.isImplicitSha256Digest = false) :
    q <+: data.fullName ↔ q <+: data.name := by
  rw [Data.fullName, List.prefix_concat_iff, or_iff_right]
  rintro rfl
  rw [List.getLast?_concat, Option.any_some, wellFormed.digest] at notFull
  cases notFull

/-- A query that is not a full name, with a successor that is not one either. -/
theorem range_iff_of_not_full {q s : Name} (successor : IsSuccessor Component.compare q s)
    (notFullQ : q.getLast?.any Component.isImplicitSha256Digest = false)
    (notFullS : s.getLast?.any Component.isImplicitSha256Digest = false) :
    (compareQueryWithData q data = .gt → compareQueryWithData s data = .gt) ∧
      (compareQueryWithData q data ≠ .gt ∧ compareQueryWithData s data = .gt ↔ q <+: data.fullName) := by
  rw [ne_eq, compareQueryWithData_of_not_full notFullQ, compareQueryWithData_of_not_full notFullS,
    then_lt_eq_gt_iff, then_lt_eq_gt_iff, prefix_fullName_iff_of_not_full wellFormed notFullQ]
  constructor
  · intro above
    have below : Name.compare q s = .lt := successor.1 q (List.prefix_refl q)
    exact Std.TransCmp.gt_trans (Std.OrientedCmp.gt_of_lt below) above
  · exact (and_congr Iff.rfl Std.OrientedCmp.gt_iff_lt).trans (successor.between_iff data.name)

omit wellFormed in
/-- Between the keys of `p` with `c` and with the next component `y` lies only the key of `p`
with `c`. -/
theorem keys_between_iff {p : Name} {c y : Component} (next : IsNext Component.compare c y) (k : Key) :
    compareKeys (p, c) k ≠ .gt ∧ compareKeys (p, y) k = .gt ↔ k = (p, c) := by
  obtain ⟨n, g⟩ := k
  simp only [compareKeys_eq, Prod.mk.injEq]
  constructor
  · rintro ⟨notAbove, above⟩
    cases names : Name.compare p n with
    | lt => rw [names] at above; cases above
    | gt => rw [names] at notAbove; exact absurd rfl notAbove
    | eq =>
        rw [names] at notAbove above
        have same : p = n := Std.LawfulEqCmp.eq_of_compare names
        -- `g` is below `y`, so not above `c`
        have notBelow : Component.compare c g ≠ .lt := fun below => next.2 g below above
        cases digests : Component.compare c g with
        | lt => exact absurd digests notBelow
        | gt => exact absurd digests notAbove
        | eq => exact ⟨same.symm, (Std.LawfulEqCmp.eq_of_compare digests).symm⟩
  · rintro ⟨rfl, rfl⟩
    have self : Name.compare n n = .eq := Std.ReflCmp.compare_self
    have selfC : Component.compare g g = .eq := Std.ReflCmp.compare_self
    have yAbove : Component.compare y g = .gt := Std.OrientedCmp.gt_of_lt next.1
    rw [self, selfC]
    exact ⟨by decide, yAbove⟩

/-- A full-name query whose successor ends in a component that is not an implicit digest. -/
theorem full_range_iff_of_not_full {q : Name} {c y : Component} (next : IsNext Component.compare c y)
    (digest : c.isImplicitSha256Digest = true) (notDigest : y.isImplicitSha256Digest = false) :
    (compareKeys (q, c) data.key = .gt → Name.compare (q ++ [y]) data.name = .gt) ∧
      (compareKeys (q, c) data.key ≠ .gt ∧ Name.compare (q ++ [y]) data.name = .gt ↔
        data.name = q ∧ data.digest = c) := by
  have qBelow : Name.compare q (q ++ [y]) = .lt :=
    compareLex_prefix_lt (List.prefix_append q [y]) (by simp)
  simp only [compareKeys_eq, Data.key]
  constructor
  · intro above
    rw [Ordering.then_eq_gt] at above
    rcases above with names | ⟨same, -⟩
    · exact compareLex_gt_of_extension names (List.prefix_append q [y])
    · rw [← Std.LawfulEqCmp.eq_of_compare same]
      exact Std.OrientedCmp.gt_of_lt qBelow
  · constructor
    · rintro ⟨notAbove, above⟩
      cases names : Name.compare q data.name with
      | lt =>
          -- the name would extend `q` by a component below `y`, so at most `c`
          obtain ⟨x, rest, named, xBelow⟩ := eq_append_of_between names (Std.OrientedCmp.lt_of_gt above)
          have member : x ∈ data.name := by rw [named]; simp
          have cBelow := Component.compare_digest_lt digest (wellFormed.valid x member)
            (wellFormed.noDigest x member)
          exact absurd (Std.OrientedCmp.gt_of_lt xBelow) (next.2 x cBelow)
      | gt => rw [names] at notAbove; exact absurd rfl notAbove
      | eq =>
          rw [names] at notAbove
          have same : q = data.name := Std.LawfulEqCmp.eq_of_compare names
          refine ⟨same.symm, ?_⟩
          cases digests : Component.compare c data.digest with
          | lt =>
              -- then `y` lies between two implicit digests and would be one
              have between := Component.isImplicitSha256Digest_of_between digest wellFormed.digest
                (ne_of_eq_of_ne next.1 (by decide)) (next.2 data.digest digests)
              rw [notDigest] at between
              cases between
          | gt => exact absurd digests notAbove
          | eq => exact (Std.LawfulEqCmp.eq_of_compare digests).symm
    · rintro ⟨named, digested⟩
      rw [named, digested]
      have self : Name.compare q q = .eq := Std.ReflCmp.compare_self
      have selfC : Component.compare c c = .eq := Std.ReflCmp.compare_self
      rw [self, selfC]
      exact ⟨by decide, Std.OrientedCmp.gt_of_lt qBelow⟩

/-- For a nonempty query of valid components, what is below the query is below its
successor, and the entries from the query up to its successor are those whose full name the
query is a prefix of. -/
theorem range_iff {q s : Name} (successor : IsSuccessor Component.compare q s) (nonEmpty : q ≠ [])
    (valid : ∀ c ∈ q, c.Valid) :
    (compareQueryWithData q data = .gt → compareQueryWithData s data = .gt) ∧
      (compareQueryWithData q data ≠ .gt ∧ compareQueryWithData s data = .gt ↔ q <+: data.fullName) := by
  obtain ⟨q', c, rfl⟩ : ∃ q' c, q = q' ++ [c] := by
    obtain ⟨q', c, split⟩ := (List.eq_nil_or_concat q).resolve_left nonEmpty
    exact ⟨q', c, by rw [split, List.concat_eq_append]⟩
  obtain ⟨y, rfl, next⟩ := successor.eq_append ⟨_, Component.compare_extend_lt c⟩
  have sameType := Component.type_eq_of_isNext next
  cases digest : c.isImplicitSha256Digest with
  | false =>
      -- a valid component that is not a digest has another TLV-TYPE, and so has `y`
      have validC := valid c (by simp)
      have notDigestY : y.isImplicitSha256Digest = false := by
        cases isDigest : y.isImplicitSha256Digest with
        | false => rfl
        | true =>
            have typeY := ((Component.isImplicitSha256Digest_iff y).mp isDigest).1
            have lengthC := validC.2 (sameType ▸ typeY)
            have : c.isImplicitSha256Digest = true :=
              (Component.isImplicitSha256Digest_iff c).mpr ⟨sameType ▸ typeY, lengthC⟩
            rw [digest] at this
            cases this
      exact range_iff_of_not_full wellFormed successor (by simp [digest]) (by simp [notDigestY])
  | true =>
      rw [compareQueryWithData_full digest, full_prefix_iff wellFormed digest]
      cases digestY : y.isImplicitSha256Digest with
      | true =>
          rw [compareQueryWithData_full digestY, keys_between_iff next, Data.key, Prod.mk.injEq]
          refine ⟨fun above => Std.TransCmp.gt_trans ?_ above, Iff.rfl⟩
          have self : Name.compare q' q' = .eq := Std.ReflCmp.compare_self
          have yAbove : Component.compare y c = .gt := Std.OrientedCmp.gt_of_lt next.1
          rw [compareKeys_eq, self]
          exact yAbove
      | false =>
          rw [compareQueryWithData_of_not_full (by simp [digestY]), then_lt_eq_gt_iff]
          exact full_range_iff_of_not_full wellFormed next digest digestY

theorem underPrefix_eq (q : Name) : underPrefix q data = q.isPrefixOf data.fullName := by
  rcases List.eq_nil_or_concat q with rfl | ⟨q', c, rfl⟩
  · rfl
  · rw [List.concat_eq_append]
    apply Bool.eq_iff_iff.mpr
    cases digest : c.isImplicitSha256Digest with
    | true =>
        simp only [underPrefix, List.getLast?_concat, digest, if_true, List.dropLast_concat,
          Bool.and_eq_true, beq_iff_eq, List.isPrefixOf_iff_prefix, full_prefix_iff wellFormed digest]
        constructor <;> rintro ⟨names, digests⟩ <;> exact ⟨names.symm, digests.symm⟩
    | false =>
        simp only [underPrefix, List.getLast?_concat, digest, Bool.false_eq_true, if_false,
          List.isPrefixOf_iff_prefix]
        exact (prefix_fullName_iff_of_not_full wellFormed (by simp [digest])).symm

end Range

section Table

theorem entryLessThanName_iff (entry : Entry) (q : Name) :
    entryLessThanName entry q = true ↔ compareQueryWithData q entry.data = .gt := beq_iff_eq

theorem partitioned_entryLessThanName {table : List Entry}
    (sorted : table.Pairwise fun a b => compareKeys a.key b.key = .lt) (q : Name) :
    Partitioned (fun entry => entryLessThanName entry q) table :=
  sorted.imp fun before => (comparisons_monotone before q).1

/-- No entry is below the empty query. -/
theorem lowerBound_nil (t : SearchTree.Tree Entry) : lowerBound (fun entry => entryLessThanName entry []) t = 0 := by
  induction t with
  | leaf => rfl
  | node l x r ihl ihr =>
      have notBelow : entryLessThanName x [] = false := by
        rw [entryLessThanName, compareQueryWithData_of_not_full rfl, beq_eq_false_iff_ne, ne_eq,
          then_lt_eq_gt_iff]
        exact compareLex_nil_ne_gt x.data.name
      simp [lowerBound, notBelow, ihl]

variable (getSuccessor : Name → Name) (t : SearchTree.Tree Entry)
  (sorted : t.toList.Pairwise fun a b => compareKeys a.key b.key = .lt)
  (wellFormed : ∀ e ∈ t.toList, e.data.WellFormed) (q : Name) (valid : ∀ c ∈ q, c.Valid)
  (successor : q ≠ [] → IsSuccessor Component.compare q (getSuccessor q))
include sorted wellFormed valid successor

/-- The code's range holds the entries whose full name the query is a prefix of, in table
order. -/
theorem findPrefixRangeInTree_eq_filter :
    findPrefixRangeInTree getSuccessor q t = t.toList.filter fun e => q.isPrefixOf e.data.fullName := by
  by_cases empty : q = []
  · subst empty
    simp [findPrefixRangeInTree, lowerBound_nil, range, SearchTree.Tree.size_eq_length]
  · have positive : q.length > 0 := List.length_pos_iff.mpr empty
    have next := successor empty
    simp only [findPrefixRangeInTree, positive, if_true]
    have inside : ∀ e ∈ t.toList, entryLessThanName e q = true → entryLessThanName e (getSuccessor q) = true := by
      intro e member below
      rw [entryLessThanName_iff] at below ⊢
      exact (range_iff (wellFormed e member) next empty valid).1 below
    rw [range_eq_filter t inside (partitioned_entryLessThanName sorted q) (partitioned_entryLessThanName sorted _)]
    apply List.filter_congr
    intro e member
    have inRange := (range_iff (wellFormed e member) next empty valid).2
    apply Bool.eq_iff_iff.mpr
    simp only [Bool.and_eq_true, Bool.not_eq_true', entryLessThanName, beq_iff_eq, beq_eq_false_iff_ne,
      List.isPrefixOf_iff_prefix]
    exact inRange

/-- The code's range is the range `findPrefixRange` of the rest of the model. -/
theorem findPrefixRangeInTree_eq_findPrefixRange :
    findPrefixRangeInTree getSuccessor q t = findPrefixRange q t.toList := by
  rw [findPrefixRangeInTree_eq_filter getSuccessor t sorted wellFormed q valid successor, findPrefixRange]
  apply List.filter_congr
  intro e member
  exact (underPrefix_eq (wellFormed e member) q).symm

end Table

/-- For a table of Data as the packet library builds them, in the order of the set, and a
query of valid components: both comparisons with the query follow the table's order, and
`findPrefixRange(q)` holds exactly the entries whose full name `q` is a prefix of, in table
order. -/
theorem findPrefixRange_exact (getSuccessor : Name → Name) (t : SearchTree.Tree Entry)
    (sorted : t.toList.Pairwise fun a b => compareKeys a.key b.key = .lt)
    (wellFormed : ∀ e ∈ t.toList, e.data.WellFormed) (q : Name) (valid : ∀ c ∈ q, c.Valid)
    (successor : q ≠ [] → IsSuccessor Component.compare q (getSuccessor q)) :
    (∀ a b : Entry, compareKeys a.key b.key = .lt →
        (entryLessThanName b q = true → entryLessThanName a q = true) ∧
          (nameLessThanEntry q a = true → nameLessThanEntry q b = true)) ∧
      findPrefixRangeInTree getSuccessor q t = t.toList.filter fun e => q.isPrefixOf e.data.fullName :=
  ⟨fun _ _ before => comparisons_monotone before q,
    findPrefixRangeInTree_eq_filter getSuccessor t sorted wellFormed q valid successor⟩

/-- Data named `/a` and `/b`, with an all-zero digest. -/
def prefixRangeTable : SearchTree.Tree Entry :=
  .node .leaf ⟨⟨[⟨8, [97]⟩], ⟨1, List.replicate 32 0⟩, 0, false⟩, false, 0⟩
    (.node .leaf ⟨⟨[⟨8, [98]⟩], ⟨1, List.replicate 32 0⟩, 0, false⟩, false, 0⟩ .leaf)

example : (findPrefixRangeInTree (fun _ => [⟨8, [98]⟩]) [⟨8, [97]⟩] prefixRangeTable).map
    (fun e => e.data.name) = [[⟨8, [97]⟩]] := by decide

theorem prefixRangeTable_wellFormed : ∀ e ∈ prefixRangeTable.toList, e.data.WellFormed := by
  intro e member
  simp only [prefixRangeTable, SearchTree.Tree.toList, List.nil_append, List.mem_cons, List.not_mem_nil,
    or_false] at member
  rcases member with rfl | rfl <;> exact ⟨by decide, by decide, by decide⟩

theorem findPrefixRange_exact_table :
    (∀ a b : Entry, compareKeys a.key b.key = .lt →
        (entryLessThanName b [⟨8, [97]⟩] = true → entryLessThanName a [⟨8, [97]⟩] = true) ∧
          (nameLessThanEntry [⟨8, [97]⟩] a = true → nameLessThanEntry [⟨8, [97]⟩] b = true)) ∧
      findPrefixRangeInTree (fun _ => [⟨8, [97 + 1]⟩]) [⟨8, [97]⟩] prefixRangeTable =
        prefixRangeTable.toList.filter fun e => ([⟨8, [97]⟩] : Name).isPrefixOf e.data.fullName :=
  findPrefixRange_exact _ prefixRangeTable (by decide) prefixRangeTable_wellFormed
    _ (by decide) (fun _ => (Component.isNext_single 8 97 (by decide)).isSuccessor [])

theorem findPrefixRangeInTree_eq_findPrefixRange_table :
    (prefixRangeTable.toList.Pairwise fun a b => compareKeys a.key b.key = .lt) ∧
      (∀ e ∈ prefixRangeTable.toList, e.data.WellFormed) ∧ (∀ c ∈ ([⟨8, [97]⟩] : Name), c.Valid) ∧
      findPrefixRangeInTree (fun _ => [⟨8, [97 + 1]⟩]) [⟨8, [97]⟩] prefixRangeTable =
        findPrefixRange [⟨8, [97]⟩] prefixRangeTable.toList :=
  ⟨by decide, prefixRangeTable_wellFormed, by decide,
    findPrefixRangeInTree_eq_findPrefixRange _ prefixRangeTable (by decide) prefixRangeTable_wellFormed
      _ (by decide) (fun _ => (Component.isNext_single 8 97 (by decide)).isSuccessor [])⟩

end Nfd.Cs
