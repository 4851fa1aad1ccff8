import Nfd.NameOrder
import Nfd.Tlv
import Nfd.Lib.DescendingSearch
import Nfd.Lib.SearchTree

/-!
# The strategy registry

The registry is a `std::map` from strategy names to factories, in the canonical name order,
and `Strategy::find` looks an instance name up in its keys.  `parseInstanceName` splits the
instance name after its last version component (never the first component); with a version,
`find` takes the first key not below the name up to that version and accepts it when it
extends the unversioned name; without one, it takes the last key below the successor of the
name and accepts it when it extends the name.

Version components are those `Component::isVersion` accepts under either naming convention.
The packet library's `Name::getSuccessor` is a parameter, specified by
`LexOrder.IsSuccessor`.
-/

set_option autoImplicit false

namespace Nfd

/-- `tlv::GenericNameComponent`. -/
def genericNameComponent : Nat := 8

/-- `tlv::VersionNameComponent`. -/
def versionNameComponent : Nat := 54

/-- The version marker of the marker naming convention. -/
def versionMarker : UInt8 := 0xFD

/-- `Component::isNumber`: a NonNegativeInteger has 1, 2, 4 or 8 octets. -/
def isNumber (value : List UInt8) : Bool :=
  value.length == 1 || value.length == 2 || value.length == 4 || value.length == 8

/-- `Component::isVersion`, decoding either naming convention. -/
def Component.isVersion (c : Component) : Bool :=
  (c.type == versionNameComponent && isNumber c.value) ||
    (c.type == genericNameComponent && c.value.head? == some versionMarker && isNumber c.value.tail)

/-- `Component::toVersion`. -/
def Component.toVersion (c : Component) : Nat :=
  if c.type == versionNameComponent then Tlv.readNumber c.value else Tlv.readNumber c.value.tail

namespace Fw.Strategy

/-- `Strategy::ParsedInstanceName`. -/
structure ParsedInstanceName where
  strategyName : Name
  version : Option Nat
  parameters : Name
deriving DecidableEq, Repr

/-- One turn of the loop of `parseInstanceName`: a split after a version component at `i`; the
loop stops before the first component. -/
def parseAt (input : Name) (i : Nat) : Option ParsedInstanceName :=
  if i = 0 then none
  else match input[i]? with
    | some c => if c.isVersion then some ⟨input.take (i + 1), some c.toVersion, input.drop (i + 1)⟩ else none
    | none => none

/-- `parseInstanceName`: the loop from the last component down to the second one. -/
def parseInstanceName (input : Name) : ParsedInstanceName :=
  (DescendingSearch.firstDown (parseAt input) (input.length - 1)).getD ⟨input, none, []⟩

/-- `registry.lower_bound(name)`: the position of the first key not below `name`. -/
def lowerBound (registry : List Name) (name : Name) : Nat :=
  (registry.takeWhile fun key => Name.compare key name == .lt).length

/-- `Strategy::find`: the key of the registry the instance name selects, `none` for `end()`. -/
def find (getSuccessor : Name → Name) (registry : List Name) (instanceName : Name) : Option Name :=
  let parsed := parseInstanceName instanceName
  match parsed.version with
  | some _ =>
    -- specified version: find exact or next higher version
    match registry[lowerBound registry parsed.strategyName]? with
    | some found => if parsed.strategyName.dropLast <+: found then some found else none
    | none => none
  | none =>
    -- no version specified: find highest version
    if parsed.strategyName ≠ [] then
      let found := lowerBound registry (getSuccessor parsed.strategyName)
      if found ≠ 0 then
        match registry[found - 1]? with
        | some key => if parsed.strategyName <+: key then some key else none
        | none => none
      else none
    else none

/-- `Strategy::areSameType`: the two names select the same registry entry. -/
def areSameType (getSuccessor : Name → Name) (registry : List Name) (a b : Name) : Bool :=
  find getSuccessor registry a == find getSuccessor registry b

/-! ## Splitting the instance name -/

theorem parseAt_eq_some {input : Name} {i : Nat} {parsed : ParsedInstanceName} :
    parseAt input i = some parsed ↔ 0 < i ∧ ∃ c, input[i]? = some c ∧ c.isVersion = true ∧
      parsed = ⟨input.take (i + 1), some c.toVersion, input.drop (i + 1)⟩ := by
  unfold parseAt
  by_cases zero : i = 0
  · simp [zero]
  · rw [if_neg zero]
    cases found : input[i]? with
    | none => simp
    | some c =>
      dsimp only
      by_cases version : c.isVersion = true
      · rw [if_pos version]
        constructor
        · intro same
          exact ⟨Nat.pos_of_ne_zero zero, c, rfl, version, (Option.some.inj same).symm⟩
        · rintro ⟨-, c', same, -, rfl⟩
          cases same
          rfl
      · simp [version]

theorem parseAt_eq_none {input : Name} {i : Nat} :
    parseAt input i = none ↔ ∀ c, 0 < i → input[i]? = some c → c.isVersion = false := by
  unfold parseAt
  by_cases zero : i = 0
  · simp [zero]
  · rw [if_neg zero]
    cases found : input[i]? with
    | none => simp
    | some c => simp [Nat.pos_of_ne_zero zero]

/-- `parseInstanceName` splits after the last version component that is not the first
component, or returns the whole name when there is none. -/
theorem parseInstanceName_cases (input : Name) :
    (∃ i c, 0 < i ∧ input[i]? = some c ∧ c.isVersion = true ∧
        (∀ j d, i < j → input[j]? = some d → d.isVersion = false) ∧
        parseInstanceName input = ⟨input.take (i + 1), some c.toVersion, input.drop (i + 1)⟩) ∨
      ((∀ j d, 0 < j → input[j]? = some d → d.isVersion = false) ∧
        parseInstanceName input = ⟨input, none, []⟩) := by
  -- a position holding a component lies within the loop's range
  have inside : ∀ j d, input[j]? = some d → j ≤ input.length - 1 := by
    intro j d atJ
    have := (List.getElem?_eq_some_iff.mp atJ).1
    omega
  unfold parseInstanceName
  cases split : DescendingSearch.firstDown (parseAt input) (input.length - 1) with
  | some parsed =>
    left
    obtain ⟨i, -, hit, above⟩ := (DescendingSearch.firstDown_eq_some_iff _ _ _).mp split
    obtain ⟨positive, c, found, version, rfl⟩ := parseAt_eq_some.mp hit
    refine ⟨i, c, positive, found, version, fun j d later atJ => ?_, rfl⟩
    exact parseAt_eq_none.mp (above j later (inside j d atJ)) d (by omega) atJ
  | none =>
    right
    have miss := (DescendingSearch.firstDown_eq_none_iff _ _).mp split
    exact ⟨fun j d positive atJ => parseAt_eq_none.mp (miss j (inside j d atJ)) d positive atJ, rfl⟩

theorem strategyName_ne_nil_of_version {input s parameters : Name} {v : Nat}
    (parsed : parseInstanceName input = ⟨s, some v, parameters⟩) : s ≠ [] := by
  rcases parseInstanceName_cases input with ⟨i, c, -, found, -, -, split⟩ | ⟨-, split⟩
  · rw [parsed] at split
    cases split
    have within := (List.getElem?_eq_some_iff.mp found).1
    intro empty
    have length := congrArg List.length empty
    rw [List.length_take, List.length_nil] at length
    omega
  · rw [parsed] at split
    cases split

theorem of_no_version {input s parameters : Name} (parsed : parseInstanceName input = ⟨s, none, parameters⟩) :
    s = input ∧ ∀ j d, 0 < j → s[j]? = some d → d.isVersion = false := by
  rcases parseInstanceName_cases input with ⟨_, _, -, -, -, -, split⟩ | ⟨noVersion, split⟩
  · rw [parsed] at split
    cases split
  · rw [parsed] at split
    cases split
    exact ⟨rfl, noVersion⟩

/-! ## Looking keys up -/

/-- The keys of a `std::map`, in ascending order. -/
def Ascending (registry : List Name) : Prop := registry.Pairwise fun a b => Name.compare a b = .lt

instance (registry : List Name) : Decidable (Ascending registry) :=
  inferInstanceAs (Decidable (registry.Pairwise _))

section Lookup

variable {registry : List Name}

theorem Ascending.partitioned (ascending : Ascending registry) (name : Name) :
    SearchTree.Partitioned (fun key => Name.compare key name == .lt) registry := by
  apply ascending.imp
  intro a b less belowB
  rw [beq_iff_eq] at belowB ⊢
  exact Std.TransCmp.lt_trans less belowB

/-- The key at the lower bound is the first one not below the name. -/
theorem Ascending.lookup_lowerBound (ascending : Ascending registry) (name : Name) :
    registry[lowerBound registry name]? = (registry.filter fun key => Name.compare key name != .lt).head? := by
  rw [lowerBound, SearchTree.getElem?_length_takeWhile, (ascending.partitioned name).dropWhile_eq_filter]
  rfl

/-- The key just before the lower bound is the last one below the name. -/
theorem Ascending.lookup_before_lowerBound (ascending : Ascending registry) (name : Name)
    (positive : lowerBound registry name ≠ 0) :
    registry[lowerBound registry name - 1]? =
      (registry.filter fun key => Name.compare key name == .lt).getLast? := by
  rw [lowerBound, SearchTree.getElem?_length_takeWhile_sub_one _ _ positive,
    (ascending.partitioned name).takeWhile_eq_filter]

theorem Ascending.lowerBound_eq_zero (ascending : Ascending registry) (name : Name)
    (zero : lowerBound registry name = 0) : registry.filter (fun key => Name.compare key name == .lt) = [] := by
  rw [← (ascending.partitioned name).takeWhile_eq_filter]
  exact List.eq_nil_of_length_eq_zero zero

/-- With a version, `find` returns the first key with the same unversioned name that is not
below the requested version, when no key's unversioned name extends the requested one. -/
theorem find_of_version (getSuccessor : Name → Name) (ascending : Ascending registry)
    {instanceName s parameters : Name} {v : Nat} (parsed : parseInstanceName instanceName = ⟨s, some v, parameters⟩)
    (notAbove : ∀ key ∈ registry, s.dropLast <+: key.dropLast → key.dropLast = s.dropLast) :
    find getSuccessor registry instanceName =
      (registry.filter fun key => key.dropLast = s.dropLast ∧ Name.compare key s ≠ .lt).head? := by
  have nonEmpty := strategyName_ne_nil_of_version parsed
  have different : s.dropLast ≠ s := by
    intro same
    have length := congrArg List.length same
    rw [List.length_dropLast] at length
    have := List.length_pos_of_ne_nil nonEmpty
    omega
  have shorter : Name.compare s.dropLast s = .lt := LexOrder.compareLex_prefix_lt (List.dropLast_prefix s) different
  have regroup : registry.filter (fun key => key.dropLast = s.dropLast ∧ Name.compare key s ≠ .lt) =
      (registry.filter fun key => Name.compare key s != .lt).filter fun key => key.dropLast = s.dropLast := by
    rw [List.filter_filter]
    apply List.filter_congr
    intro key _
    cases Name.compare key s <;> simp
  unfold find
  rw [parsed]
  dsimp only
  rw [ascending.lookup_lowerBound, regroup]
  have ordered : Ascending (registry.filter fun key => Name.compare key s != .lt) := ascending.filter _
  cases above : registry.filter (fun key => Name.compare key s != .lt) with
  | nil => rfl
  | cons found rest =>
    have foundMember : found ∈ registry.filter (fun key => Name.compare key s != .lt) := by
      rw [above]
      exact List.mem_cons_self
    obtain ⟨foundKey, foundAbove⟩ := List.mem_filter.mp foundMember
    rw [bne_iff_ne] at foundAbove
    rw [above] at ordered
    rw [List.head?_cons]
    dsimp only
    by_cases onName : s.dropLast <+: found
    · have notName : found ≠ s.dropLast := by
        rintro rfl
        exact foundAbove shorter
      have foundNonEmpty : found ≠ [] := by
        rintro rfl
        exact notName (List.prefix_nil.mp onName).symm
      have unversioned : found.dropLast = s.dropLast :=
        notAbove found foundKey ((prefix_dropLast_iff foundNonEmpty).mpr ⟨onName, notName.symm⟩)
      rw [if_pos onName, List.filter_cons_of_pos (by simpa using unversioned)]
      rfl
    · rw [if_neg onName]
      -- `found` lies between the unversioned name and every later key
      have low : Name.compare s.dropLast found ≠ .gt := by
        have notBelow : Name.compare s found ≠ .gt := fun greater =>
          foundAbove (Std.OrientedCmp.gt_iff_lt.mp greater)
        have less := Std.TransCmp.lt_of_lt_of_isLE shorter (Ordering.isLE_iff_ne_gt.mpr notBelow)
        rw [less]
        decide
      have none : (found :: rest).filter (fun key => key.dropLast = s.dropLast) = [] := by
        rw [List.filter_eq_nil_iff]
        intro k kMember sameName
        have kOnName : s.dropLast <+: k := by
          rw [decide_eq_true_iff] at sameName
          rw [← sameName]
          exact List.dropLast_prefix k
        apply onName
        rcases List.mem_cons.mp kMember with rfl | later
        · exact kOnName
        · have before : Name.compare found k ≠ .gt := by
            rw [(List.pairwise_cons.mp ordered).1 k later]
            decide
          exact LexOrder.prefix_of_between low before kOnName
      rw [none]
      rfl

/-- A key that ends in a version component after its first component. -/
def VersionedKey (key : Name) : Prop := key.dropLast ≠ [] ∧ ∃ c, key.getLast? = some c ∧ c.isVersion = true

/-- Without a version, `find` returns the last key whose unversioned name is the instance name,
when every key is versioned and no key's unversioned name properly extends the instance name. -/
theorem find_of_no_version {getSuccessor : Name → Name} (ascending : Ascending registry)
    {instanceName s parameters : Name} (parsed : parseInstanceName instanceName = ⟨s, none, parameters⟩)
    (successor : s ≠ [] → LexOrder.IsSuccessor Component.compare s (getSuccessor s))
    (versioned : ∀ key ∈ registry, VersionedKey key)
    (notAbove : ∀ key ∈ registry, s <+: key.dropLast → key.dropLast = s) :
    find getSuccessor registry instanceName =
      if s = [] then none else (registry.filter fun key => key.dropLast = s).getLast? := by
  obtain ⟨-, noVersion⟩ := of_no_version parsed
  -- a key extends the name exactly when the name is its unversioned name
  have onName_iff : ∀ key ∈ registry, s <+: key ↔ key.dropLast = s := by
    intro key member
    obtain ⟨long, c, last, version⟩ := versioned key member
    have keyNonEmpty : key ≠ [] := fun empty => long (by rw [empty]; rfl)
    have notName : key ≠ s := by
      rintro rfl
      have position : 0 < key.length - 1 := by
        have := List.length_pos_of_ne_nil long
        rw [List.length_dropLast] at this
        exact this
      rw [List.getLast?_eq_getElem?] at last
      rw [noVersion _ c position last] at version
      cases version
    constructor
    · intro isPrefix
      exact notAbove key member ((prefix_dropLast_iff keyNonEmpty).mpr ⟨isPrefix, notName.symm⟩)
    · intro same
      rw [← same]
      exact List.dropLast_prefix key
  unfold find
  rw [parsed]
  dsimp only
  by_cases empty : s = []
  · simp [empty]
  have successorOf := successor empty
  -- every version of the name lies below its successor
  have regroup : registry.filter (fun key => key.dropLast = s) =
      (registry.filter fun key => Name.compare key (getSuccessor s) == .lt).filter fun key => key.dropLast = s := by
    rw [List.filter_filter]
    apply List.filter_congr
    intro key member
    by_cases same : key.dropLast = s
    · have below : Name.compare key (getSuccessor s) = .lt := successorOf.1 key ((onName_iff key member).mpr same)
      simp [same, below]
    · simp [same]
  rw [if_pos empty, if_neg empty, regroup]
  by_cases zero : lowerBound registry (getSuccessor s) = 0
  · rw [if_neg (not_not.mpr zero), ascending.lowerBound_eq_zero _ zero]
    rfl
  · rw [if_pos zero, ascending.lookup_before_lowerBound _ zero]
    have ordered : Ascending (registry.filter fun key => Name.compare key (getSuccessor s) == .lt) :=
      ascending.filter _
    cases last : (registry.filter fun key => Name.compare key (getSuccessor s) == .lt).getLast? with
    | none =>
      rw [List.getLast?_eq_none_iff] at last
      rw [last]
      rfl
    | some key =>
      obtain ⟨front, split⟩ := List.getLast?_eq_some_iff.mp last
      have keyMember : key ∈ registry.filter (fun key => Name.compare key (getSuccessor s) == .lt) := by
        rw [split]
        exact List.mem_append_right front List.mem_cons_self
      obtain ⟨keyRegistered, keyBelow⟩ := List.mem_filter.mp keyMember
      rw [beq_iff_eq] at keyBelow
      rw [split] at ordered ⊢
      dsimp only
      by_cases onName : s <+: key
      · have unversioned := (onName_iff key keyRegistered).mp onName
        rw [if_pos onName, List.filter_append, List.filter_singleton, decide_eq_true unversioned]
        simp
      · rw [if_neg onName]
        have none : (front ++ [key]).filter (fun key => key.dropLast = s) = [] := by
          rw [List.filter_eq_nil_iff]
          intro k kMember sameName
          rw [decide_eq_true_iff] at sameName
          have kOnName : s <+: k := by
            rw [← sameName]
            exact List.dropLast_prefix k
          apply onName
          rcases List.mem_append.mp kMember with early | isLast
          · -- `key` lies between the name and the successor
            have before : Name.compare k key = .lt :=
              (List.pairwise_append.mp ordered).2.2 k early key List.mem_cons_self
            have low : Name.compare s key ≠ .gt := by
              have less : Name.compare s key = .lt := Std.TransCmp.lt_of_isLE_of_lt
                (Ordering.isLE_iff_ne_gt.mpr (LexOrder.compareLex_prefix_ne_gt kOnName)) before
              rw [less]
              decide
            exact (successorOf.between_iff key).mp ⟨low, keyBelow⟩
          · rw [List.mem_singleton.mp isLast] at kOnName
            exact kOnName
        rw [none]
        rfl

end Lookup

theorem find_selects_version :
    (∀ input : Name,
      (∃ i c, 0 < i ∧ input[i]? = some c ∧ c.isVersion = true ∧
          (∀ j d, i < j → input[j]? = some d → d.isVersion = false) ∧
          parseInstanceName input = ⟨input.take (i + 1), some c.toVersion, input.drop (i + 1)⟩) ∨
        ((∀ j d, 0 < j → input[j]? = some d → d.isVersion = false) ∧
          parseInstanceName input = ⟨input, none, []⟩)) ∧
    (∀ (getSuccessor : Name → Name) (registry : List Name) (instanceName s parameters : Name) (v : Nat),
      Ascending registry → parseInstanceName instanceName = ⟨s, some v, parameters⟩ →
      (∀ key ∈ registry, s.dropLast <+: key.dropLast → key.dropLast = s.dropLast) →
      find getSuccessor registry instanceName =
        (registry.filter fun key => key.dropLast = s.dropLast ∧ Name.compare key s ≠ .lt).head?) ∧
    (∀ (getSuccessor : Name → Name) (registry : List Name) (instanceName s parameters : Name),
      Ascending registry → parseInstanceName instanceName = ⟨s, none, parameters⟩ →
      (s ≠ [] → LexOrder.IsSuccessor Component.compare s (getSuccessor s)) →
      (∀ key ∈ registry, VersionedKey key) →
      (∀ key ∈ registry, s <+: key.dropLast → key.dropLast = s) →
      find getSuccessor registry instanceName =
        if s = [] then none else (registry.filter fun key => key.dropLast = s).getLast?) ∧
    ∀ (getSuccessor : Name → Name) (registry : List Name) (a b : Name),
      areSameType getSuccessor registry a b = true ↔ find getSuccessor registry a = find getSuccessor registry b := by
  refine ⟨parseInstanceName_cases, ?_, ?_, ?_⟩
  · intro getSuccessor registry instanceName s parameters v ascending parsed notAbove
    exact find_of_version getSuccessor ascending parsed notAbove
  · intro getSuccessor registry instanceName s parameters ascending parsed successor versioned notAbove
    exact find_of_no_version ascending parsed successor versioned notAbove
  · intro getSuccessor registry a b
    exact beq_iff_eq

/-! ## Versions one, three and four of one strategy -/

def strategyV : Name := [⟨8, [86]⟩]

def versionsOfV : List Name := [strategyV ++ [⟨54, [1]⟩], strategyV ++ [⟨54, [3]⟩], strategyV ++ [⟨54, [4]⟩]]

/-- The successor of `strategyV`. -/
def strategyW : Name := [⟨8, [87]⟩]

theorem find_selects_version_latest :
    find (fun _ => strategyW) versionsOfV strategyV =
      if strategyV = [] then none else (versionsOfV.filter fun key => key.dropLast = strategyV).getLast? := by
  have successor : LexOrder.IsSuccessor Component.compare strategyV strategyW :=
    (Component.isNext_single 8 86 (by decide)).isSuccessor []
  have versioned : ∀ key ∈ versionsOfV, VersionedKey key := by
    intro key member
    rcases List.mem_cons.mp member with rfl | member
    · exact ⟨by decide, ⟨54, [1]⟩, rfl, rfl⟩
    rcases List.mem_cons.mp member with rfl | member
    · exact ⟨by decide, ⟨54, [3]⟩, rfl, rfl⟩
    rw [List.mem_singleton.mp member]
    exact ⟨by decide, ⟨54, [4]⟩, rfl, rfl⟩
  exact find_selects_version.2.2.1 (fun _ => strategyW) versionsOfV strategyV strategyV [] (by decide) (by decide)
    (fun _ => successor) versioned (by decide)

/-! ## An unversioned name that only a longer strategy name extends -/

/-- `/s/b/v=5`, the only key. -/
def longerStrategy : Name := [⟨8, [115]⟩, ⟨8, [98]⟩, ⟨54, [5]⟩]

/-- `find(/s)` selects `/s/b/v=5`, whose unversioned name is `/s/b`, not `/s`. -/
theorem find_accepts_longer_strategy :
    LexOrder.IsSuccessor Component.compare [⟨8, [115]⟩] [⟨8, [116]⟩] ∧
      find (fun _ => [⟨8, [116]⟩]) [longerStrategy] [⟨8, [115]⟩] = some longerStrategy :=
  ⟨(Component.isNext_single 8 115 (by decide)).isSuccessor [], by decide⟩

end Fw.Strategy

end Nfd
