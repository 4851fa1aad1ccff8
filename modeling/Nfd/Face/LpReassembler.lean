import Nfd.Face.LpFragmenter
import Nfd.Lib.Monitor
import Mathlib.Data.List.Nodup

/-!
# The reassembler

`LpReassembler::receiveFragment` keeps a `PartialPacket` per remote endpoint and message
identifier (Sequence minus FragIndex): a slot per fragment, filled once, and a count of the
filled slots; when the count reaches FragCount the payloads are joined in slot order and the
partial packet is dropped.  A packet with FragIndex 0 and FragCount 1 is delivered as it is.
The drop timer of a partial packet is an input of its own (`Input.timeout`).

The fragments of one message, numbered as `assignSequences` numbers them (`Numbered`),
fed from a fresh reassembler in any order, with any fragment repeated before the last one
still missing arrives, are delivered exactly once, when that last one arrives
(`run_numbered`).  A repeat after that starts a new partial packet, which completes again
once every fragment has arrived again.
-/

set_option autoImplicit false

namespace Nfd.Face.LpReassembler

open Nfd.Lp

structure Options where
  nMaxFragments : Nat := 400

/-- `EndpointId`. -/
abbrev EndpointId := UInt64

/-- `PartialPacket`, without its drop timer. -/
structure PartialPacket where
  fragments : List Packet
  fragCount : Nat
  nReceivedFragments : Nat
deriving DecidableEq, Repr

/-- What `m_partialPackets[key]` default-constructs. -/
def PartialPacket.empty : PartialPacket := ⟨[], 0, 0⟩

/-- `Key`: the remote endpoint and the message identifier. -/
abbrev Key := EndpointId × UInt64

/-- `m_partialPackets`. -/
abbrev PartialPackets := Key → Option PartialPacket

/-- `doReassembly(key)`: the fragments' payloads in slot order. -/
def doReassembly (pp : PartialPacket) : List UInt8 :=
  (pp.fragments.map fun frag => frag.fragment.getD []).flatten

/-- `pp.fragments[fragIndex] = packet; ++pp.nReceivedFragments`. -/
def PartialPacket.fill (fragIndex : Nat) (packet : Packet) (pp : PartialPacket) : PartialPacket :=
  { pp with fragments := pp.fragments.set fragIndex packet,
            nReceivedFragments := pp.nReceivedFragments + 1 }

/-- The part of `receiveFragment` after the FragCount check: a fragment whose slot already
holds one is dropped; otherwise it fills the slot, and the last slot filled completes the
packet. -/
def addFragment (partialPackets : PartialPackets) (key : Key) (pp : PartialPacket)
    (fragIndex : Nat) (packet : Packet) : PartialPackets × Option (List UInt8 × Packet) :=
  if (pp.fragments.getD fragIndex Packet.empty).sequence.isSome then
    (Function.update partialPackets key (some pp), none)
  else
    let pp := pp.fill fragIndex packet
    if pp.nReceivedFragments = pp.fragCount then
      (Function.update partialPackets key none,
        some (doReassembly pp, pp.fragments.getD 0 Packet.empty))
    else (Function.update partialPackets key (some pp), none)

/-- `receiveFragment(remoteEndpoint, packet)`: the network-layer packet and the first
fragment when a packet is complete. -/
def receiveFragment (options : Options) (partialPackets : PartialPackets)
    (remoteEndpoint : EndpointId) (packet : Packet) : PartialPackets × Option (List UInt8 × Packet) :=
  let fragIndex := packet.fragIndex.getD 0
  let fragCount := packet.fragCount.getD 1
  if fragIndex ≥ fragCount then (partialPackets, none)
  else if fragCount > options.nMaxFragments then (partialPackets, none)
  else if fragIndex = 0 ∧ fragCount = 1 then (partialPackets, some (packet.fragment.getD [], packet))
  else
    match packet.sequence with
    | none => (partialPackets, none)
    | some sequence =>
        let key := (remoteEndpoint, sequence - UInt64.ofNat fragIndex)
        let pp := (partialPackets key).getD PartialPacket.empty
        if pp.fragCount = 0 then
          addFragment partialPackets key ⟨List.replicate fragCount Packet.empty, fragCount, 0⟩
            fragIndex packet
        -- a partial packet with FragCount 0 is never stored, so here the key was present
        else if fragCount ≠ pp.fragCount then (partialPackets, none)
        else addFragment partialPackets key pp fragIndex packet

inductive Output where
  | reassembled (netPkt : List UInt8) (firstPkt : Packet)
  | beforeTimeout (remoteEndpoint : EndpointId) (nReceivedFragments : Nat)
deriving DecidableEq, Repr

/-- `timeoutPartialPacket(key)`: the drop timer of a partial packet fires. -/
def timeoutPartialPacket (partialPackets : PartialPackets) (key : Key) :
    PartialPackets × List Output :=
  match partialPackets key with
  | none => (partialPackets, [])
  | some pp => (Function.update partialPackets key none, [.beforeTimeout key.1 pp.nReceivedFragments])

inductive Input where
  | fragment (remoteEndpoint : EndpointId) (packet : Packet)
  | timeout (key : Key)

def step (options : Options) (partialPackets : PartialPackets) : Input → PartialPackets × List Output
  | .fragment remoteEndpoint packet =>
      let result := receiveFragment options partialPackets remoteEndpoint packet
      (result.1, match result.2 with
        | some (netPkt, firstPkt) => [.reassembled netPkt firstPkt]
        | none => [])
  | .timeout key => timeoutPartialPacket partialPackets key

/-- A fresh `LpReassembler`. -/
def fresh : PartialPackets := fun _ => none

/-! ## The fragments of one message -/

/-- Fragment `j` has FragIndex `j`, FragCount the number of fragments and Sequence
`first + j`, modulo 2^64. -/
structure Numbered (fs : List Packet) (first : UInt64) : Prop where
  index : ∀ j (within : j < fs.length), fs[j].fragIndex = some j
  count : ∀ j (within : j < fs.length), fs[j].fragCount = some fs.length
  sequence : ∀ j (within : j < fs.length), fs[j].sequence = some (first + UInt64.ofNat j)

/-- The partial packet of a message of which `xs` have arrived. -/
def received (fs xs : List Packet) : PartialPacket :=
  ⟨fs.map (fun f => if f ∈ xs then f else Packet.empty), fs.length, (fs.filter (· ∈ xs)).length⟩

/-- The reassembler's state once `xs` have arrived and the message is not complete. -/
def holding (key : Key) (fs xs : List Packet) : PartialPackets :=
  if xs = [] then fresh else Function.update fresh key (some (received fs xs))

/-- One more element arrived, one more of the list counted. -/
theorem length_filter_mem_append {α : Type} [DecidableEq α] {fs xs : List α} {x : α}
    (nodup : fs.Nodup) (member : x ∈ fs) (missing : x ∉ xs) :
    (fs.filter (· ∈ xs ++ [x])).length = (fs.filter (· ∈ xs)).length + 1 := by
  induction fs with
  | nil => cases member
  | cons f rest ih =>
      rw [List.nodup_cons] at nodup
      by_cases isX : f = x
      · subst isX
        have same : rest.filter (· ∈ xs ++ [f]) = rest.filter (· ∈ xs) :=
          List.filter_congr fun g inRest => by
            have different : g ≠ f := fun equal => nodup.1 (equal ▸ inRest)
            simp [different]
        rw [List.filter_cons_of_pos (by simp), List.filter_cons_of_neg (by simpa using missing),
          List.length_cons, same]
      · have inRest : x ∈ rest := (List.mem_cons.mp member).resolve_left (Ne.symm isX)
        by_cases inXs : f ∈ xs
        · rw [List.filter_cons_of_pos (by simp [inXs]), List.filter_cons_of_pos (by simpa using inXs),
            List.length_cons, List.length_cons, ih nodup.2 inRest]
        · rw [List.filter_cons_of_neg (by simp [inXs, isX]), List.filter_cons_of_neg (by simpa using inXs),
            ih nodup.2 inRest]

section Received

variable {fs : List Packet} {first : UInt64}

theorem Numbered.nodup (numbered : Numbered fs first) : fs.Nodup := by
  refine List.nodup_iff_injective_get.mpr fun i j same => ?_
  have sameIndex := congrArg Packet.fragIndex same
  simp only [List.get_eq_getElem, numbered.index] at sameIndex
  exact Fin.ext (Option.some.inj sameIndex)

theorem received_nil (fs : List Packet) :
    received fs [] = ⟨List.replicate fs.length Packet.empty, fs.length, 0⟩ := by
  simp [received, List.map_const']

theorem received_congr (fs : List Packet) {xs ys : List Packet} (same : ∀ f, f ∈ xs ↔ f ∈ ys) :
    received fs xs = received fs ys := by
  simp only [received, same]

theorem received_all {xs : List Packet} (all : ∀ f ∈ fs, f ∈ xs) :
    received fs xs = ⟨fs, fs.length, fs.length⟩ := by
  simp only [received, PartialPacket.mk.injEq, true_and]
  constructor
  · conv_rhs => rw [← List.map_id fs]
    exact List.map_congr_left fun f member => by simp [all f member]
  · exact List.length_filter_eq_length_iff.mpr fun f member => by simp [all f member]

theorem slot_received (xs : List Packet) {j : Nat} (within : j < fs.length) :
    (received fs xs).fragments.getD j Packet.empty = if fs[j] ∈ xs then fs[j] else Packet.empty := by
  simp [received, List.getD_eq_getElem?_getD, within]

/-- Filling the slot of a fragment that had not arrived. -/
theorem received_snoc (nodup : fs.Nodup) {xs : List Packet} {j : Nat} (within : j < fs.length)
    (missing : fs[j] ∉ xs) :
    (received fs xs).fill j fs[j] = received fs (xs ++ [fs[j]]) := by
  simp only [received, PartialPacket.fill, PartialPacket.mk.injEq, true_and]
  constructor
  · apply List.ext_getElem (by simp)
    intro i _ inside
    have iWithin : i < fs.length := by simpa using inside
    simp only [List.getElem_set, List.getElem_map, List.mem_append, List.mem_singleton]
    by_cases same : j = i
    · subst same
      simp
    · have different : fs[i] ≠ fs[j] := fun equal =>
        same ((nodup.getElem_inj_iff).mp equal).symm
      simp [same, different]
  · -- the count grows by the one fragment that arrived
    exact (length_filter_mem_append nodup (List.getElem_mem within) missing).symm

theorem update_holding (key : Key) (fs xs : List Packet) (v : Option PartialPacket) :
    Function.update (holding key fs xs) key v = Function.update fresh key v := by
  unfold holding
  split
  · rfl
  · exact Function.update_idem _ _ _

theorem update_holding_none (key : Key) (fs xs : List Packet) :
    Function.update (holding key fs xs) key none = fresh := by
  rw [update_holding]
  funext k
  by_cases isKey : k = key
  · subst isKey
    simp [fresh]
  · simp [Function.update_of_ne isKey, fresh]

/-- A fragment of an incomplete message fills its slot, or is dropped as a repeat; the one
that fills the last slot completes the message. -/
theorem addFragment_received (numbered : Numbered fs first) (key : Key) {xs : List Packet}
    (incomplete : ¬ ∀ f ∈ fs, f ∈ xs) {j : Nat} (within : j < fs.length) :
    addFragment (holding key fs xs) key (received fs xs) j fs[j] =
      if ∀ f ∈ fs, f ∈ xs ++ [fs[j]] then
        (fresh, some ((fs.map fun f => f.fragment.getD []).flatten, fs.headD Packet.empty))
      else (holding key fs (xs ++ [fs[j]]), none) := by
  have nodup := numbered.nodup
  have hasSequence : fs[j].sequence.isSome := by simp [numbered.sequence j within]
  unfold addFragment
  rw [slot_received xs within]
  by_cases arrived : fs[j] ∈ xs
  · -- a repeat is dropped, and the message stays as it was
    have sameArrivals : ∀ f, f ∈ xs ↔ f ∈ xs ++ [fs[j]] := fun f => by
      constructor
      · exact List.mem_append_left _
      · intro member
        rcases List.mem_append.mp member with inXs | isNew
        · exact inXs
        · rw [List.mem_singleton.mp isNew]
          exact arrived
    have notAll : ¬ ∀ f ∈ fs, f ∈ xs ++ [fs[j]] := fun all =>
      incomplete fun f member => (sameArrivals f).mpr (all f member)
    rw [if_pos arrived, if_pos hasSequence, if_neg notAll, update_holding, holding,
      if_neg (List.ne_nil_of_mem (List.mem_append_right xs (List.mem_singleton_self _))),
      received_congr fs sameArrivals]
  · -- the slot fills, and the count with it
    rw [if_neg arrived, if_neg (by simp [Packet.empty])]
    simp only [received_snoc nodup within arrived]
    by_cases all : ∀ f ∈ fs, f ∈ xs ++ [fs[j]]
    · rw [if_pos all, received_all all, if_pos rfl, update_holding_none]
      cases fs with
      | nil => cases within
      | cons f rest => rfl
    · have short : (received fs (xs ++ [fs[j]])).nReceivedFragments ≠
          (received fs (xs ++ [fs[j]])).fragCount := fun equal =>
        all fun f member => by
          have := List.length_filter_eq_length_iff.mp equal f member
          simpa using this
      rw [if_neg all, if_neg short, update_holding, holding,
        if_neg (List.ne_nil_of_mem (List.mem_append_right xs (List.mem_singleton_self _)))]

/-- `receiveFragment` on a fragment of the message: its key is the message's, and the
partial packet it works on is the one of the fragments that have arrived. -/
theorem receiveFragment_received (options : Options) (remoteEndpoint : EndpointId)
    (numbered : Numbered fs first) (several : 2 ≤ fs.length)
    (capacity : fs.length ≤ options.nMaxFragments) (xs : List Packet) {j : Nat}
    (within : j < fs.length) :
    receiveFragment options (holding (remoteEndpoint, first) fs xs) remoteEndpoint fs[j] =
      addFragment (holding (remoteEndpoint, first) fs xs) (remoteEndpoint, first) (received fs xs)
        j fs[j] := by
  unfold receiveFragment
  simp only [numbered.index j within, numbered.count j within, numbered.sequence j within,
    Option.getD_some, UInt64.add_sub_cancel]
  rw [if_neg (by omega), if_neg (by omega), if_neg (by omega)]
  by_cases nothing : xs = []
  · -- the first fragment to arrive creates the partial packet
    subst nothing
    simp [holding, fresh, PartialPacket.empty, received_nil]
  · have stored : holding (remoteEndpoint, first) fs xs (remoteEndpoint, first) = some (received fs xs) := by
      simp [holding, nothing]
    have counted : (received fs xs).fragCount = fs.length := rfl
    simp only [stored, Option.getD_some, counted]
    rw [if_neg (by omega), if_neg (by omega)]

theorem step_fragment (options : Options) (partialPackets : PartialPackets)
    (remoteEndpoint : EndpointId) (packet : Packet) :
    step options partialPackets (.fragment remoteEndpoint packet) =
      ((receiveFragment options partialPackets remoteEndpoint packet).1,
        (receiveFragment options partialPackets remoteEndpoint packet).2.elim []
          fun result => [.reassembled result.1 result.2]) := by
  simp only [step]
  cases (receiveFragment options partialPackets remoteEndpoint packet).2 <;> rfl

/-- Fragments that leave the message incomplete are held, and nothing is delivered. -/
theorem run_incomplete (options : Options) (remoteEndpoint : EndpointId)
    (numbered : Numbered fs first) (several : 2 ≤ fs.length)
    (capacity : fs.length ≤ options.nMaxFragments) :
    ∀ (arrivals xs : List Packet), (∀ f ∈ arrivals, f ∈ fs) → ¬ (∀ f ∈ fs, f ∈ xs ++ arrivals) →
      Monitor.run (step options) (holding (remoteEndpoint, first) fs xs)
          (arrivals.map (Input.fragment remoteEndpoint)) =
        (holding (remoteEndpoint, first) fs (xs ++ arrivals), [])
  | [], xs, _, _ => by simp
  | a :: rest, xs, fromMessage, incomplete => by
      obtain ⟨j, within, rfl⟩ := List.mem_iff_getElem.mp (fromMessage a (List.mem_cons_self ..))
      have notYet : ¬ ∀ f ∈ fs, f ∈ xs ++ [fs[j]] := fun all =>
        incomplete fun f member => by
          rcases List.mem_append.mp (all f member) with inXs | isNew
          · exact List.mem_append_left _ inXs
          · exact List.mem_append_right _ (List.mem_cons.mpr (.inl (List.mem_singleton.mp isNew)))
      have notBefore : ¬ ∀ f ∈ fs, f ∈ xs := fun all =>
        notYet fun f member => List.mem_append_left _ (all f member)
      have later := run_incomplete options remoteEndpoint numbered several capacity rest (xs ++ [fs[j]])
        (fun f member => fromMessage f (List.mem_cons_of_mem _ member))
        (by simpa [List.append_assoc] using incomplete)
      rw [List.map_cons, Monitor.run_cons, step_fragment,
        receiveFragment_received options remoteEndpoint numbered several capacity xs within,
        addFragment_received numbered _ notBefore within, if_neg notYet]
      simp only [Option.elim_none, List.nil_append]
      rw [later, List.append_assoc, List.singleton_append]

/-- The fragments of one message, in any order, with repeats only before the last distinct
one arrives, are delivered once, when it arrives, and leave nothing behind. -/
theorem run_numbered (options : Options) (remoteEndpoint : EndpointId)
    (numbered : Numbered fs first) (several : 2 ≤ fs.length)
    (capacity : fs.length ≤ options.nMaxFragments) {pre : List Packet} {last : Packet}
    (fromMessage : ∀ f ∈ pre ++ [last], f ∈ fs) (lastDistinct : last ∉ pre)
    (all : ∀ f ∈ fs, f ∈ pre ++ [last]) :
    Monitor.run (step options) fresh ((pre ++ [last]).map (Input.fragment remoteEndpoint)) =
      (fresh, [.reassembled (fs.map fun f => f.fragment.getD []).flatten (fs.headD Packet.empty)]) := by
  obtain ⟨j, within, rfl⟩ := List.mem_iff_getElem.mp (fromMessage last (by simp))
  have held := run_incomplete options remoteEndpoint numbered several capacity pre []
    (fun f member => fromMessage f (List.mem_append_left _ member))
    (fun allBefore => lastDistinct (by simpa using allBefore _ (List.getElem_mem within)))
  have freshIsHolding : fresh = holding (remoteEndpoint, first) fs [] := rfl
  have notBefore : ¬ ∀ f ∈ fs, f ∈ pre := fun allBefore => lastDistinct (allBefore _ (List.getElem_mem within))
  rw [List.map_append, Monitor.run_append, freshIsHolding, held, List.nil_append, List.map_singleton,
    Monitor.run_cons, step_fragment, receiveFragment_received options remoteEndpoint numbered several
      capacity pre within, addFragment_received numbered _ notBefore within, if_pos all]
  rfl

end Received

/-- A packet without FragIndex and FragCount is delivered as it is. -/
theorem run_single (options : Options) (remoteEndpoint : EndpointId) (partialPackets : PartialPackets)
    (packet : Packet) (unfragmented : packet.fragIndex = none ∧ packet.fragCount = none)
    (capacity : 1 ≤ options.nMaxFragments) :
    Monitor.run (step options) partialPackets [.fragment remoteEndpoint packet] =
      (partialPackets, [.reassembled (packet.fragment.getD []) packet]) := by
  rw [Monitor.run_cons, step_fragment]
  simp [receiveFragment, unfragmented.1, unfragmented.2, Nat.not_lt.mpr capacity]

/-! ## Fragmentation and reassembly -/

section RoundTrip

open LpFragmenter

variable {fragmenterOptions : LpFragmenter.Options} {packet : Packet} {payload : List UInt8}
  {mtu : Nat} {frags : List Packet}

/-- The fragments of a cut packet, numbered, are the fragments of one message. -/
theorem numbered_fragments (packet : Packet) (mtu : Nat) (lastSeqNo : UInt64) :
    Numbered (assignSequences lastSeqNo (fragments packet mtu)).2 (lastSeqNo + 1) := by
  have sameLength := length_assignSequences lastSeqNo (fragments packet mtu)
  refine ⟨fun j within => ?_, fun j within => ?_, fun j within => ?_⟩ <;>
    rw [getElem_assignSequences lastSeqNo _ within (by omega)]
  · simpa using (fragIndex_fragments packet mtu (by omega)).1
  · simpa [sameLength] using (fragIndex_fragments packet mtu (by omega)).2
  · simp

/-- Every fragment `fragmentPacket` returns fits the MTU with any Sequence on it. -/
theorem wireSize_of_fragmentPacket (nonempty : netPkt packet ≠ [])
    (found : fragmentPacket fragmenterOptions packet mtu = some frags) {frag : Packet}
    (member : frag ∈ frags) (sequence : UInt64) : (frag.setSequence sequence).wireSize ≤ mtu := by
  rcases eq_of_fragmentPacket fragmenterOptions packet mtu nonempty found with
    ⟨fast, rfl⟩ | ⟨-, fits, -, rfl⟩
  · -- the packet has room for the Sequence the fast path keeps space for
    rw [List.mem_singleton.mp member]
    have grown := wireSize_setSequence_le sequence packet
    have singleOverhead : maxSingleFragOverhead = 30 := rfl
    omega
  · exact wireSize_fragment_le packet mtu fits member sequence

/-- The first packet the reassembler delivers carries the header fields of the original. -/
theorem headers_first (nonempty : netPkt packet ≠ [])
    (found : fragmentPacket fragmenterOptions packet mtu = some frags) (lastSeqNo : UInt64) :
    ((assignSequences lastSeqNo frags).2.headD Packet.empty).headers = packet.headers := by
  rcases eq_of_fragmentPacket fragmenterOptions packet mtu nonempty found with
    ⟨-, rfl⟩ | ⟨-, -, -, rfl⟩
  · simp [assignSequences]
  · have positive : 0 < (fragments packet mtu).length := by
      rw [length_fragments]
      exact one_le_fragCount packet mtu
    obtain ⟨first, rest, split⟩ := List.exists_cons_of_length_pos positive
    have firstIs : (fragments packet mtu)[0] = first := by simp [split]
    have headersIs := headers_fragments_zero packet mtu positive
    rw [firstIs] at headersIs
    simp [split, assignSequences, headersIs]

/-- Reassembly of the numbered fragments `fragmentPacket` returns, in any order, with
repeats only before the last distinct fragment: the original payload is delivered once. -/
theorem reassemble_of_fragmentPacket (options : Options) (remoteEndpoint : EndpointId)
    (hasFragment : packet.fragment = some payload) (nonempty : payload ≠ [])
    (unfragmented : packet.fragIndex = none ∧ packet.fragCount = none)
    (found : fragmentPacket fragmenterOptions packet mtu = some frags) (lastSeqNo : UInt64)
    (capacity : frags.length ≤ options.nMaxFragments) {pre : List Packet} {last : Packet}
    (fromMessage : ∀ f ∈ pre ++ [last], f ∈ (assignSequences lastSeqNo frags).2)
    (lastDistinct : last ∉ pre) (all : ∀ f ∈ (assignSequences lastSeqNo frags).2, f ∈ pre ++ [last]) :
    Monitor.run (step options) fresh ((pre ++ [last]).map (Input.fragment remoteEndpoint)) =
      (fresh, [.reassembled payload ((assignSequences lastSeqNo frags).2.headD Packet.empty)]) := by
  have netPktIs : netPkt packet = payload := by simp [netPkt, hasFragment]
  rcases eq_of_fragmentPacket fragmenterOptions packet mtu (netPktIs ▸ nonempty) found with
    ⟨-, rfl⟩ | ⟨slow, fits, -, rfl⟩
  · -- one packet: nothing can arrive before it, and it is delivered as it is
    have sent : (assignSequences lastSeqNo [packet]).2 = [packet.setSequence (lastSeqNo + 1)] := rfl
    rw [sent] at fromMessage ⊢
    have lastIs : last = packet.setSequence (lastSeqNo + 1) := by simpa using fromMessage last (by simp)
    have noneBefore : pre = [] := List.eq_nil_iff_forall_not_mem.mpr fun f member => by
      have fIs : f = packet.setSequence (lastSeqNo + 1) := by
        simpa using fromMessage f (List.mem_append_left _ member)
      exact lastDistinct (lastIs ▸ fIs ▸ member)
    subst noneBefore lastIs
    simpa [hasFragment] using run_single options remoteEndpoint fresh (packet.setSequence (lastSeqNo + 1))
      (by simpa using unfragmented) (by simpa using capacity)
  · -- several fragments: one message, joined back in order
    have several : 2 ≤ (assignSequences lastSeqNo (fragments packet mtu)).2.length := by
      rw [length_assignSequences, length_fragments]
      exact two_le_fragCount packet mtu hasFragment slow fits
    have positiveSize : 0 < payloadSize mtu := by
      have overhead : maxFragOverhead = 50 := rfl
      unfold payloadSize
      omega
    rw [run_numbered options remoteEndpoint (numbered_fragments packet mtu lastSeqNo) several
      (by rwa [length_assignSequences]) fromMessage lastDistinct all, payloads_assignSequences,
      flatten_payloads_fragments packet mtu positiveSize, netPktIs]

/-- Fragmentation and reassembly: `fragmentPacket` fails exactly when the packet needs
cutting and the first fragment has no room or there are too many; otherwise it returns the
packet itself or fragments with FragIndex `0 .. n-1` and FragCount `n`, for `n` the count of
`fragCount`, all fitting the MTU before and after numbering; fed to a fresh reassembler from
one endpoint in any order, with repeats only before the last distinct fragment, they are
delivered once, as the original payload with the original header fields on the first
packet. -/
theorem fragmentation_round_trip (fragmenterOptions : LpFragmenter.Options) (options : Options)
    (packet : Packet) (payload : List UInt8) (mtu : Nat) (lastSeqNo : UInt64)
    (remoteEndpoint : EndpointId) (hasFragment : packet.fragment = some payload)
    (nonempty : payload ≠ []) (unfragmented : packet.fragIndex = none ∧ packet.fragCount = none) :
    (fragmentPacket fragmenterOptions packet mtu = none ↔
      ¬ maxSingleFragOverhead + packet.wireSize ≤ mtu ∧
        (maxFragOverhead + firstHeaderSize packet + 1 > mtu ∨
          fragCount packet mtu > fragmenterOptions.nMaxFragments)) ∧
    ∀ frags, fragmentPacket fragmenterOptions packet mtu = some frags →
      (frags = [packet] ∨
        (2 ≤ frags.length ∧ frags.length = fragCount packet mtu ∧
          ∀ j (within : j < frags.length),
            frags[j].fragIndex = some j ∧ frags[j].fragCount = some frags.length)) ∧
      (∀ f ∈ frags, f.wireSize ≤ mtu) ∧
      (∀ f ∈ (assignSequences lastSeqNo frags).2, f.wireSize ≤ mtu) ∧
      ((assignSequences lastSeqNo frags).2.headD Packet.empty).headers = packet.headers ∧
      (frags.length ≤ options.nMaxFragments → ∀ (pre : List Packet) (last : Packet),
        (∀ f ∈ pre ++ [last], f ∈ (assignSequences lastSeqNo frags).2) → last ∉ pre →
        (∀ f ∈ (assignSequences lastSeqNo frags).2, f ∈ pre ++ [last]) →
        Monitor.run (step options) fresh ((pre ++ [last]).map (Input.fragment remoteEndpoint)) =
          (fresh, [.reassembled payload ((assignSequences lastSeqNo frags).2.headD Packet.empty)])) := by
  have netPktIs : netPkt packet = payload := by simp [netPkt, hasFragment]
  have cut : netPkt packet ≠ [] := netPktIs ▸ nonempty
  refine ⟨fragmentPacket_eq_none_iff fragmenterOptions packet mtu cut, fun frags found => ⟨?_, ?_, ?_,
    headers_first cut found lastSeqNo, fun capacity _ _ fromMessage lastDistinct all =>
      reassemble_of_fragmentPacket options remoteEndpoint hasFragment nonempty unfragmented found
        lastSeqNo capacity fromMessage lastDistinct all⟩⟩
  · rcases eq_of_fragmentPacket fragmenterOptions packet mtu cut found with
      ⟨-, rfl⟩ | ⟨slow, fits, -, rfl⟩
    · exact .inl rfl
    · refine .inr ⟨?_, length_fragments packet mtu, fun j within => fragIndex_fragments packet mtu within⟩
      rw [length_fragments]
      exact two_le_fragCount packet mtu hasFragment slow fits
  · intro f member
    exact Nat.le_trans (wireSize_le_setSequence 0 f)
      (wireSize_of_fragmentPacket cut found member 0)
  · intro f member
    obtain ⟨sequence, pkt, inFrags, rfl⟩ := mem_assignSequences member
    exact wireSize_of_fragmentPacket cut found inFrags sequence

/-- A network-layer packet of 42 octets: an Interest element (TLV-TYPE 5) around a 40-octet
value.  Alone in an LpPacket it is sent bare, and 30 + 42 octets miss the fast path at an MTU
of 71, which leaves 21 octets for each fragment's piece. -/
def interest42 : List UInt8 := 5 :: 40 :: List.replicate 40 0

/-- Sent twice over, the two fragments of the 42-octet Interest cut for an MTU of 71 are
delivered twice: the first copy of the second fragment completes the packet, and the second
copies start and complete a new one. -/
theorem reassembled_twice_after_repeat :
    let sent := (assignSequences 0
      ((fragmentPacket {} ⟨[], none, none, none, some interest42⟩ 71).getD [])).2
    sent.length = 2 ∧
      (Monitor.run (step {}) fresh ((sent ++ sent).map (Input.fragment 0))).2.length = 2 := by
  decide

/-- The same packet, its two fragments arriving in reverse order: delivered once. -/
theorem fragmentation_round_trip_reversed :
    let sent := (assignSequences 0
      ((fragmentPacket {} ⟨[], none, none, none, some interest42⟩ 71).getD [])).2
    Monitor.run (step {}) fresh (([sent.getD 1 Packet.empty] ++ [sent.getD 0 Packet.empty]).map
        (Input.fragment 0)) =
      (fresh, [.reassembled interest42 (sent.headD Packet.empty)]) :=
  ((fragmentation_round_trip {} {} ⟨[], none, none, none, some interest42⟩
    interest42 71 0 0 rfl (by decide) ⟨rfl, rfl⟩).2 _ (by decide)).2.2.2.2 (by decide) _ _
    (by decide) (by decide) (by decide)

end RoundTrip

end Nfd.Face.LpReassembler
