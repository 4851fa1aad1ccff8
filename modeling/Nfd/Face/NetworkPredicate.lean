import Nfd.Core.Network

/-!
# Network predicates

`NetworkPredicateBase` keeps two sets of rules, a whitelist and a blacklist.  `parseList` fills
one: `*` goes in as itself, any other value once its key is supported and the value valid for
the key, and an item that is neither throws, leaving the rules inserted before it.
`IpAddressPredicate` accepts an address, and `NetworkInterfacePredicate` an interface, when some
whitelist rule matches it and no blacklist rule does.  A rule with a slash is read as a subnet
with `boost::lexical_cast<Network>`, which throws when the rule is not one: the subnet rules
passed `isValidCidr`, but an interface-name rule was only checked to be nonempty.

`fnmatch`, `ethernet::Address::fromString` and `ip::address::from_string` are parameters; errors
are their messages.
-/

set_option autoImplicit false

namespace Nfd.Face

open Network

/-- `std::set<std::string>::insert`: the set in increasing order, without repeats. -/
def insertRule (rule : List Char) (set : List (List Char)) : List (List Char) :=
  if rule ∈ set then set
  else
    let below := fun r => List.compareLex compare r rule == .lt
    set.takeWhile below ++ rule :: set.dropWhile below

theorem mem_insertRule {rule r : List Char} {set : List (List Char)} :
    r ∈ insertRule rule set ↔ r = rule ∨ r ∈ set := by
  unfold insertRule
  split
  · constructor
    · exact Or.inr
    · rintro (rfl | member) <;> assumption
  · simp only [List.mem_append, List.mem_cons]
    conv_rhs => rw [← List.takeWhile_append_dropWhile (p := fun r => List.compareLex compare r rule == .lt) (l := set)]
    rw [List.mem_append]
    tauto

/-- `std::any_of` with a test that may throw: the first rule that holds ends it. -/
def anyOf {α ε : Type} (p : α → Except ε Bool) : List α → Except ε Bool
  | [] => .ok false
  | x :: xs => do
      if ← p x then pure true else anyOf p xs

/-- `std::none_of`: it stops at the first rule that holds, as `any_of` does. -/
def noneOf {α ε : Type} (p : α → Except ε Bool) (l : List α) : Except ε Bool := do
  return !(← anyOf p l)

theorem anyOf_eq_ok {α ε : Type} {p : α → Except ε Bool} {q : α → Bool} {l : List α}
    (safe : ∀ x ∈ l, p x = .ok (q x)) : anyOf p l = .ok (l.any q) := by
  induction l with
  | nil => rfl
  | cons x xs ih =>
      have rest := ih fun y member => safe y (List.mem_cons_of_mem x member)
      rw [anyOf, safe x List.mem_cons_self, List.any_cons]
      cases q x with
      | true => rfl
      | false => exact rest

/-- `NetworkPredicateBase`: `m_whitelist` and `m_blacklist`. -/
structure NetworkPredicate where
  whitelist : List (List Char)
  blacklist : List (List Char)
deriving DecidableEq, Repr

namespace NetworkPredicate

/-- `clear()`, which the constructor calls: the whitelist holds the wildcard only. -/
def clear : NetworkPredicate := ⟨["*".toList], []⟩

/-- The two virtual functions a kind of predicate gives `parseList`. -/
structure RuleKind where
  isRuleSupported : List Char → Bool
  isRuleValid : List Char → List Char → Except (List Char) Bool

/-- `parseList(set, list)` from the empty set: each `(key, value)` item in turn; `context` ends
the messages, with the section where there is one. -/
def parseList (kind : RuleKind) (context : List Char) :
    List (List Char × List Char) → List (List Char) → List (List Char) × Option (List Char)
  | [], set => (set, none)
  | (key, value) :: rest, set =>
      if key = "*".toList then parseList kind context rest (insertRule key set)
      else if !kind.isRuleSupported key then (set, some ("Unrecognized rule '".toList ++ key ++ context))
      else
        match kind.isRuleValid key value with
        | .error e => (set, some e)
        | .ok false => (set, some ("Malformed ".toList ++ key ++ " '".toList ++ value ++ context))
        | .ok true => parseList kind context rest (insertRule value set)

/-- What changes a predicate: `clear`, `parseWhitelist` and `parseBlacklist` on a configuration
section, and `assign` of both lists. -/
inductive Op
  | clear
  | parseWhitelist (list : List (List Char × List Char))
  | parseBlacklist (list : List (List Char × List Char))
  | assign (whitelist blacklist : List (List Char × List Char))

/-- One operation, with the message of the exception it throws. -/
def step (kind : RuleKind) (p : NetworkPredicate) : Op → NetworkPredicate × Option (List Char)
  | .clear => (clear, none)
  | .parseWhitelist list =>
      let (whitelist, error) := parseList kind "' in section 'whitelist'".toList list []
      ({ p with whitelist := whitelist }, error)
  | .parseBlacklist list =>
      let (blacklist, error) := parseList kind "' in section 'blacklist'".toList list []
      ({ p with blacklist := blacklist }, error)
  | .assign whitelist blacklist =>
      let (whitelist, error) := parseList kind "'".toList whitelist []
      match error with
      | some e => ({ p with whitelist := whitelist }, some e)
      | none =>
          let (blacklist, error) := parseList kind "'".toList blacklist []
          (⟨whitelist, blacklist⟩, error)

/-- The predicate after the operations, from the constructor; an exception does not undo what
its operation did. -/
def run (kind : RuleKind) (p : NetworkPredicate) : List Op → NetworkPredicate
  | [] => p
  | op :: ops => run kind (step kind p op).1 ops

end NetworkPredicate

section Rules

variable (fromString : List Char → Option Address)

/-- Every rule with a slash is a subnet `lexical_cast<Network>` reads. -/
def SubnetsParse (p : NetworkPredicate) : Prop :=
  ∀ rule ∈ p.whitelist ++ p.blacklist, '/' ∈ rule → (lexicalCast fromString rule).isSome

/-- A rule `parseList` keeps is `*`, one it was given, or a value valid for a supported key. -/
theorem mem_parseList {kind : NetworkPredicate.RuleKind} {context : List Char}
    {list : List (List Char × List Char)} {set : List (List Char)} {rule : List Char}
    (member : rule ∈ (NetworkPredicate.parseList kind context list set).1) :
    rule ∈ set ∨ rule = "*".toList ∨ ∃ key, kind.isRuleSupported key = true ∧ kind.isRuleValid key rule = .ok true := by
  induction list generalizing set with
  | nil => exact Or.inl member
  | cons item rest ih =>
      obtain ⟨key, value⟩ := item
      unfold NetworkPredicate.parseList at member
      split at member
      · rcases ih member with kept | wildcard | valid
        · rcases mem_insertRule.mp kept with same | before
          · exact Or.inr (Or.inl (by rw [same]; assumption))
          · exact Or.inl before
        · exact Or.inr (Or.inl wildcard)
        · exact Or.inr (Or.inr valid)
      · split at member
        · exact Or.inl member
        · -- the value is checked against its key before it goes in
          rename_i supported
          split at member
          · exact Or.inl member
          · exact Or.inl member
          · rename_i checked
            rcases ih member with kept | wildcard | valid
            · rcases mem_insertRule.mp kept with same | before
              · rw [same]
                exact Or.inr (Or.inr ⟨key, by simpa using supported, checked⟩)
              · exact Or.inl before
            · exact Or.inr (Or.inl wildcard)
            · exact Or.inr (Or.inr valid)

/-- When every valid value with a slash is a subnet, every predicate a run reaches has only
subnets for rules with a slash. -/
theorem subnetsParse_run {kind : NetworkPredicate.RuleKind}
    (validSubnets : ∀ key value, kind.isRuleValid key value = .ok true → '/' ∈ value →
      (lexicalCast fromString value).isSome)
    (ops : List NetworkPredicate.Op) : ∀ p, SubnetsParse fromString p →
      SubnetsParse fromString (NetworkPredicate.run kind p ops) := by
  -- a rule of a fresh list is `*`, which has no slash, or a valid value
  have fresh : ∀ context list rule, rule ∈ (NetworkPredicate.parseList kind context list []).1 → '/' ∈ rule →
      (lexicalCast fromString rule).isSome := by
    intro context list rule member slash
    rcases mem_parseList member with empty | wildcard | ⟨key, -, valid⟩
    · cases empty
    · rw [wildcard] at slash
      cases slash with
      | tail _ rest => cases rest
    · exact validSubnets key rule valid slash
  induction ops with
  | nil => exact fun p parses => parses
  | cons op ops ih =>
      intro p parses
      apply ih
      intro rule member slash
      cases op with
      | clear =>
          simp only [NetworkPredicate.step, NetworkPredicate.clear, List.append_nil, List.mem_singleton] at member
          rw [member] at slash
          cases slash with
          | tail _ rest => cases rest
      | parseWhitelist list =>
          simp only [NetworkPredicate.step, List.mem_append] at member
          rcases member with whitelisted | blacklisted
          · exact fresh _ list rule whitelisted slash
          · exact parses rule (List.mem_append_right _ blacklisted) slash
      | parseBlacklist list =>
          simp only [NetworkPredicate.step, List.mem_append] at member
          rcases member with whitelisted | blacklisted
          · exact parses rule (List.mem_append_left _ whitelisted) slash
          · exact fresh _ list rule blacklisted slash
      | assign whitelist blacklist =>
          unfold NetworkPredicate.step at member
          dsimp only at member
          split at member
          · simp only [List.mem_append] at member
            rcases member with whitelisted | blacklisted
            · exact fresh _ whitelist rule whitelisted slash
            · exact parses rule (List.mem_append_right _ blacklisted) slash
          · simp only [List.mem_append] at member
            rcases member with whitelisted | blacklisted
            · exact fresh _ whitelist rule whitelisted slash
            · exact fresh _ blacklist rule blacklisted slash

theorem subnetsParse_clear : SubnetsParse fromString NetworkPredicate.clear := by
  intro rule member slash
  simp only [NetworkPredicate.clear, List.append_nil, List.mem_singleton] at member
  rw [member] at slash
  cases slash with
  | tail _ rest => cases rest

end Rules

section Address

variable (fromString : List Char → Option Address)

/-- `doesAddressMatchRule`. -/
def doesAddressMatchRule (address : Address) (rule : List Char) : Except (List Char) Bool :=
  -- if '/' is in rule, this is a subnet, check if IP in subnet
  if '/' ∈ rule then
    match lexicalCast fromString rule with
    | none => .error "bad lexical cast".toList
    | some n => if n.doesContain address then .ok true else .ok (rule == "*".toList)
  else .ok (rule == "*".toList)

/-- A rule matches an address: a subnet that contains it, or `*`. -/
def addressMatches (address : Address) (rule : List Char) : Bool :=
  (decide ('/' ∈ rule) && (lexicalCast fromString rule).any (·.doesContain address)) || rule == "*".toList

/-- `IpAddressPredicate::isRuleSupported` and `isRuleValid`. -/
def ipAddressRules : NetworkPredicate.RuleKind where
  isRuleSupported key := key == "subnet".toList
  isRuleValid key value :=
    -- example subnet: 10.0.0.0/8
    if key = "subnet".toList then .ok (isValidCidr fromString value)
    else .error "Only supported rules are expected".toList

/-- `IpAddressPredicate::operator()`. -/
def ipAddressPredicate (p : NetworkPredicate) (address : Address) : Except (List Char) Bool := do
  if ← anyOf (doesAddressMatchRule fromString address) p.whitelist then
    noneOf (doesAddressMatchRule fromString address) p.blacklist
  else pure false

theorem doesAddressMatchRule_eq {address : Address} {rule : List Char}
    (parses : '/' ∈ rule → (lexicalCast fromString rule).isSome) :
    doesAddressMatchRule fromString address rule = .ok (addressMatches fromString address rule) := by
  unfold doesAddressMatchRule addressMatches
  by_cases slash : '/' ∈ rule
  · obtain ⟨n, cast⟩ := Option.isSome_iff_exists.mp (parses slash)
    simp only [if_pos slash, cast, Option.any_some, decide_eq_true slash, Bool.true_and]
    cases n.doesContain address <;> rfl
  · rw [if_neg slash]
    simp [slash]

/-- A predicate whose subnet rules parse accepts exactly the addresses some whitelist rule
matches and no blacklist rule does. -/
theorem ipAddressPredicate_eq {p : NetworkPredicate} (parses : SubnetsParse fromString p) (address : Address) :
    ipAddressPredicate fromString p address =
      .ok (p.whitelist.any (addressMatches fromString address) &&
        !p.blacklist.any (addressMatches fromString address)) := by
  have white := anyOf_eq_ok (p := doesAddressMatchRule fromString address)
    (fun rule member => doesAddressMatchRule_eq fromString (parses rule (List.mem_append_left _ member)))
  have black := anyOf_eq_ok (p := doesAddressMatchRule fromString address)
    (fun rule member => doesAddressMatchRule_eq fromString (parses rule (List.mem_append_right _ member)))
  unfold ipAddressPredicate noneOf
  rw [white, black]
  cases p.whitelist.any (addressMatches fromString address) <;> rfl

/-- Every `IpAddressPredicate` the constructor and the operations make accepts exactly the
addresses some whitelist rule matches and no blacklist rule does. -/
theorem ipAddressPredicate_run (ops : List NetworkPredicate.Op) (address : Address) :
    ipAddressPredicate fromString (NetworkPredicate.run (ipAddressRules fromString) NetworkPredicate.clear ops)
        address =
      .ok ((NetworkPredicate.run (ipAddressRules fromString) NetworkPredicate.clear ops).whitelist.any
          (addressMatches fromString address) &&
        !(NetworkPredicate.run (ipAddressRules fromString) NetworkPredicate.clear ops).blacklist.any
          (addressMatches fromString address)) := by
  apply ipAddressPredicate_eq
  apply subnetsParse_run fromString _ ops _ (subnetsParse_clear fromString)
  intro key value valid slash
  unfold ipAddressRules at valid
  dsimp only at valid
  split at valid
  · have cidr : isValidCidr fromString value = true := Except.ok.inj valid
    unfold isValidCidr at cidr
    split at cidr
    · cases cidr
    · exact cidr
  · cases valid

end Address

section Interface

variable (fromString : List Char → Option Address) (doesMatchPattern : List Char → List Char → Bool)
  (isEthernetAddress : List Char → Bool)

/-- `ndn::net::NetworkInterface`: its name, its Ethernet address as text, and the IP addresses of
its network addresses. -/
structure NetworkInterface where
  name : List Char
  ethernetAddress : List Char
  networkAddresses : List Address

/-- `doesNetifMatchRule`. -/
def doesNetifMatchRule (netif : NetworkInterface) (rule : List Char) : Except (List Char) Bool :=
  -- if '/' is in rule, this is a subnet, check if IP in subnet
  let subnet : Except (List Char) Bool :=
    if '/' ∈ rule then
      match lexicalCast fromString rule with
      | none => .error "bad lexical cast".toList
      | some n => .ok (netif.networkAddresses.any n.doesContain)
    else .ok false
  match subnet with
  | .error e => .error e
  | .ok true => .ok true
  | .ok false =>
      .ok (rule == "*".toList || doesMatchPattern netif.name rule || netif.ethernetAddress == rule)

/-- A rule matches an interface: a subnet with one of its addresses, `*`, a pattern of its name,
or its Ethernet address. -/
def netifMatches (netif : NetworkInterface) (rule : List Char) : Bool :=
  (decide ('/' ∈ rule) && (lexicalCast fromString rule).any fun n => netif.networkAddresses.any n.doesContain) ||
    (rule == "*".toList || doesMatchPattern netif.name rule || netif.ethernetAddress == rule)

/-- `NetworkInterfacePredicate::isRuleSupported` and `isRuleValid`. -/
def networkInterfaceRules : NetworkPredicate.RuleKind where
  isRuleSupported key := key == "ifname".toList || key == "ether".toList || key == "subnet".toList
  isRuleValid key value :=
    -- very basic sanity check for interface names
    if key = "ifname".toList then .ok !value.isEmpty
    else if key = "ether".toList then .ok (isEthernetAddress value)
    else if key = "subnet".toList then .ok (isValidCidr fromString value)
    else .error "Only supported rules are expected".toList

/-- `NetworkInterfacePredicate::operator()`. -/
def networkInterfacePredicate (p : NetworkPredicate) (netif : NetworkInterface) : Except (List Char) Bool := do
  if ← anyOf (doesNetifMatchRule fromString doesMatchPattern netif) p.whitelist then
    noneOf (doesNetifMatchRule fromString doesMatchPattern netif) p.blacklist
  else pure false

theorem doesNetifMatchRule_eq {netif : NetworkInterface} {rule : List Char}
    (parses : '/' ∈ rule → (lexicalCast fromString rule).isSome) :
    doesNetifMatchRule fromString doesMatchPattern netif rule =
      .ok (netifMatches fromString doesMatchPattern netif rule) := by
  unfold doesNetifMatchRule netifMatches
  by_cases slash : '/' ∈ rule
  · obtain ⟨n, cast⟩ := Option.isSome_iff_exists.mp (parses slash)
    simp only [if_pos slash, cast, Option.any_some, decide_eq_true slash, Bool.true_and]
    cases netif.networkAddresses.any n.doesContain <;> rfl
  · simp [slash]

/-- A predicate whose subnet rules parse accepts exactly the interfaces some whitelist rule
matches and no blacklist rule does. -/
theorem networkInterfacePredicate_eq {p : NetworkPredicate} (parses : SubnetsParse fromString p)
    (netif : NetworkInterface) :
    networkInterfacePredicate fromString doesMatchPattern p netif =
      .ok (p.whitelist.any (netifMatches fromString doesMatchPattern netif) &&
        !p.blacklist.any (netifMatches fromString doesMatchPattern netif)) := by
  have white := anyOf_eq_ok (p := doesNetifMatchRule fromString doesMatchPattern netif)
    (fun rule member => doesNetifMatchRule_eq fromString doesMatchPattern
      (parses rule (List.mem_append_left _ member)))
  have black := anyOf_eq_ok (p := doesNetifMatchRule fromString doesMatchPattern netif)
    (fun rule member => doesNetifMatchRule_eq fromString doesMatchPattern
      (parses rule (List.mem_append_right _ member)))
  unfold networkInterfacePredicate noneOf
  rw [white, black]
  cases p.whitelist.any (netifMatches fromString doesMatchPattern netif) <;> rfl

end Interface

section Cidr

open BitString

theorem cidr_membership_and_predicates (fromString : List Char → Option Address)
    (doesMatchPattern : List Char → List Char → Bool) (isEthernetAddress : List Char → Bool) :
    (∀ text address prefixLenStr, '/' ∉ text → fromString text = some address → prefixLenStr ≠ [] →
        prefixLenStr.all Char.isDigit = true → decimalValue prefixLenStr ≤ address.bitLength →
        ∃ network, parse fromString (text ++ '/' :: prefixLenStr) = some network ∧
          ∀ x, network.doesContain x = true ↔
            x.isV4 = address.isV4 ∧
              (bits x.bytes).take (decimalValue prefixLenStr) = (bits address.bytes).take (decimalValue prefixLenStr) ∧
              ((bits x.bytes).drop (decimalValue prefixLenStr) =
                  List.replicate (address.bitLength - decimalValue prefixLenStr) true → x.scopeId = 0)) ∧
      (∀ text prefixLenStr, '/' ∉ text →
        (parse fromString (text ++ '/' :: prefixLenStr) = none ↔
          fromString text = none ∨ prefixLenStr = [] ∨ prefixLenStr.all Char.isDigit = false ∨
            ∃ address, fromString text = some address ∧ address.bitLength < decimalValue prefixLenStr)) ∧
      (∀ cidr, isValidCidr fromString cidr = true ↔
        '/' ∈ cidr ∧ (∀ c ∈ cidr, isSpace c = false) ∧ (parse fromString cidr).isSome) ∧
      (∀ ops address,
        ipAddressPredicate fromString (NetworkPredicate.run (ipAddressRules fromString) NetworkPredicate.clear ops)
            address =
          .ok ((NetworkPredicate.run (ipAddressRules fromString) NetworkPredicate.clear ops).whitelist.any
              (addressMatches fromString address) &&
            !(NetworkPredicate.run (ipAddressRules fromString) NetworkPredicate.clear ops).blacklist.any
              (addressMatches fromString address))) ∧
      (∀ ops, SubnetsParse fromString
          (NetworkPredicate.run (networkInterfaceRules fromString isEthernetAddress) NetworkPredicate.clear ops) →
        ∀ netif,
          networkInterfacePredicate fromString doesMatchPattern
              (NetworkPredicate.run (networkInterfaceRules fromString isEthernetAddress) NetworkPredicate.clear ops)
              netif =
            .ok ((NetworkPredicate.run (networkInterfaceRules fromString isEthernetAddress) NetworkPredicate.clear
                  ops).whitelist.any (netifMatches fromString doesMatchPattern netif) &&
              !(NetworkPredicate.run (networkInterfaceRules fromString isEthernetAddress) NetworkPredicate.clear
                  ops).blacklist.any (netifMatches fromString doesMatchPattern netif))) := by
  refine ⟨?_, ?_, isValidCidr_iff fromString, ipAddressPredicate_run fromString, ?_⟩
  · intro text address prefixLenStr noSlash parsed nonEmpty digits within
    rw [parse_cidr fromString noSlash parsed nonEmpty digits within]
    exact doesContain_ofPrefix within
  · intro text prefixLenStr noSlash
    exact parse_eq_none_iff fromString noSlash prefixLenStr
  · intro ops parses netif
    exact networkInterfacePredicate_eq fromString doesMatchPattern parses netif

theorem cidr_membership_tenSlashEight :
    ∃ network, parse (fun text => if text = "10.0.0.0".toList then some (.v4 ⟨[10, 0, 0, 0], rfl⟩) else none)
        ("10.0.0.0".toList ++ '/' :: "8".toList) = some network ∧
      network.doesContain (.v4 ⟨[10, 1, 2, 3], rfl⟩) = true := by
  obtain ⟨network, parsed, contains⟩ :=
    (cidr_membership_and_predicates (fun text => if text = "10.0.0.0".toList then some (.v4 ⟨[10, 0, 0, 0], rfl⟩)
      else none) (fun _ _ => false) (fun _ => false)).1 "10.0.0.0".toList (.v4 ⟨[10, 0, 0, 0], rfl⟩) "8".toList
      (by decide) (by decide) (by decide) (by decide) (by decide)
  exact ⟨network, parsed, (contains _).mpr (by decide)⟩

/-- `fe80::1%1`: a link-local IPv6 address with scope id 1. -/
def scopedAddress : Address := .v6 ⟨[0xfe, 0x80, 0, 0, 0, 0, 0, 0, 0, 0, 0, 0, 0, 0, 0, 1], rfl, 1⟩

/-- The network `fe80::1%1/128` does not hold `fe80::1%1`, whose 128 bits are its own; and an
`ifname` rule `a/b`, which `assign` accepts, makes every evaluation of the interface predicate
throw. -/
theorem cidr_scoped_and_ifname_slash :
    (∃ network, ofPrefix scopedAddress 128 = some network ∧ network.doesContain scopedAddress = false) ∧
      ∀ (fromString : List Char → Option Address) doesMatchPattern isEthernetAddress netif,
        ∃ e, networkInterfacePredicate fromString doesMatchPattern
            (NetworkPredicate.run (networkInterfaceRules fromString isEthernetAddress) NetworkPredicate.clear
              [.assign [("ifname".toList, "a/b".toList)] []]) netif = .error e := by
  refine ⟨⟨_, rfl, by decide +kernel⟩, ?_⟩
  intro fromString doesMatchPattern isEthernetAddress netif
  -- `b` is not a prefix length, whatever `a` parses to
  have unparsed : lexicalCast fromString "a/b".toList = none := by
    rw [lexicalCast_of_noSpace fromString (by decide) (by simp [isSpace]),
      show "a/b".toList = "a".toList ++ '/' :: "b".toList by decide]
    exact (parse_eq_none_iff fromString (by decide) _).mpr (Or.inr (Or.inr (Or.inl (by decide))))
  have ran : NetworkPredicate.run (networkInterfaceRules fromString isEthernetAddress) NetworkPredicate.clear
      [.assign [("ifname".toList, "a/b".toList)] []] = ⟨["a/b".toList], []⟩ := rfl
  have throws : doesNetifMatchRule fromString doesMatchPattern netif "a/b".toList = .error "bad lexical cast".toList := by
    rw [doesNetifMatchRule]
    simp only [if_pos (show '/' ∈ "a/b".toList by decide), unparsed]
  refine ⟨"bad lexical cast".toList, ?_⟩
  rw [ran, networkInterfacePredicate, anyOf, throws]
  rfl

end Cidr

end Nfd.Face
