import Nfd.Name
import Mathlib.Data.Rat.Floor

/-!
# The name tree hash table

`name_tree::Hashtable` keeps the nodes of the name tree in an array of buckets,
each bucket the head of a doubly linked chain of nodes.  A node carries its hash
value, its `prev` and `next` pointers and the name tree `Entry` of one name.

Memory is a store of nodes addressed by `NodeId`; `new Node` takes the next
fresh address and `delete` clears one.  An `Entry*` is the address of the node
holding the entry, since every entry lives inside its node.  The walks along a
chain (`findOrInsert`, `foreachNode` in `resize`) are bounded by the node count
`m_size`, which no chain of a well-formed table exceeds.

The load factors of `HashtableOptions` are `float`s in the source; here they are
rationals, and `static_cast<size_t>(factor * n)` is the floor of the product.
-/

set_option autoImplicit false

namespace Nfd.NameTree

/-- `HashValue` is `size_t`. -/
abbrev HashValue := UInt64

abbrev NodeId := Nat

section Hash

-- `HashFunc::compute(comp.wire(), comp.size())`: CityHash of a component's wire encoding
variable (componentHash : Component → HashValue)

def computeHash (name : Name) (prefixLen : Nat) : HashValue :=
  (name.take prefixLen).foldl (fun h comp => h ^^^ componentHash comp) 0

/-- `computeHashes(name, prefixLen)[i]` is `computeHash(name, i)`. -/
def computeHashes (name : Name) (prefixLen : Nat) : List HashValue :=
  (name.take prefixLen).scanl (fun h comp => h ^^^ componentHash comp) 0

end Hash

/-- `HashtableOptions`; the fields after the factors are the assertions of the
`Hashtable` constructor, so that no table is built from invalid options. -/
structure HashtableOptions where
  initialSize : Nat
  minSize : Nat
  expandLoadFactor : ℚ
  expandFactor : ℚ
  shrinkLoadFactor : ℚ
  shrinkFactor : ℚ
  minSize_pos : 0 < minSize
  minSize_le_initialSize : minSize ≤ initialSize
  expandLoadFactor_pos : 0 < expandLoadFactor
  expandLoadFactor_le_one : expandLoadFactor ≤ 1
  one_lt_expandFactor : 1 < expandFactor
  shrinkLoadFactor_nonneg : 0 ≤ shrinkLoadFactor
  shrinkLoadFactor_lt_one : shrinkLoadFactor < 1
  shrinkFactor_pos : 0 < shrinkFactor
  shrinkFactor_lt_one : shrinkFactor < 1

/-- `HashtableOptions(size)`: `size` buckets, never shrunk below `size`. -/
def HashtableOptions.ofSize (size : Nat) (positive : 0 < size) : HashtableOptions where
  initialSize := size
  minSize := size
  expandLoadFactor := 1 / 2
  expandFactor := 2
  shrinkLoadFactor := 1 / 10
  shrinkFactor := 1 / 2
  minSize_pos := positive
  minSize_le_initialSize := le_rfl
  expandLoadFactor_pos := by norm_num
  expandLoadFactor_le_one := by norm_num
  one_lt_expandFactor := by norm_num
  shrinkLoadFactor_nonneg := by norm_num
  shrinkLoadFactor_lt_one := by norm_num
  shrinkFactor_pos := by norm_num
  shrinkFactor_lt_one := by norm_num

/-- `name_tree::Entry`: a name, the parent and children pointers, and the table
entries attached to the name (FIB, PIT, Measurements, StrategyChoice). -/
structure Entry (F P M S : Type) where
  name : Name
  parent : Option NodeId
  children : List NodeId
  fibEntry : Option F
  pitEntries : List P
  measurementsEntry : Option M
  strategyChoiceEntry : Option S

section EntryOps

variable {F P M S : Type}

/-- `Entry(name, node)`: no parent, no children, no table entries. -/
def Entry.ofName (name : Name) : Entry F P M S where
  name := name
  parent := none
  children := []
  fibEntry := none
  pitEntries := []
  measurementsEntry := none
  strategyChoiceEntry := none

def Entry.hasChildren (entry : Entry F P M S) : Bool := !entry.children.isEmpty

def Entry.hasTableEntries (entry : Entry F P M S) : Bool :=
  entry.fibEntry.isSome || !entry.pitEntries.isEmpty || entry.measurementsEntry.isSome ||
    entry.strategyChoiceEntry.isSome

def Entry.isEmpty (entry : Entry F P M S) : Bool := !entry.hasChildren && !entry.hasTableEntries

end EntryOps

structure Node (F P M S : Type) where
  hash : HashValue
  prev : Option NodeId
  next : Option NodeId
  entry : Entry F P M S

/-- The store of nodes: `none` at an address that holds no node. -/
abbrev Nodes (F P M S : Type) := NodeId → Option (Node F P M S)

structure Hashtable (F P M S : Type) where
  buckets : List (Option NodeId)
  options : HashtableOptions
  size : Nat
  expandThreshold : Nat
  shrinkThreshold : Nat
  nodes : Nodes F P M S
  nextNodeId : NodeId

variable {F P M S : Type}

/-- Write to the node at `id`, if there is one. -/
def modifyNode (nodes : Nodes F P M S) (id : NodeId) (f : Node F P M S → Node F P M S) :
    Nodes F P M S :=
  Function.update nodes id ((nodes id).map f)

namespace Hashtable

def getNBuckets (ht : Hashtable F P M S) : Nat := ht.buckets.length

def computeBucketIndex (ht : Hashtable F P M S) (h : HashValue) : Nat := h.toNat % ht.getNBuckets

def computeThresholds (ht : Hashtable F P M S) : Hashtable F P M S :=
  { ht with
    expandThreshold := ⌊ht.options.expandLoadFactor * ht.getNBuckets⌋₊
    shrinkThreshold := ⌊ht.options.shrinkLoadFactor * ht.getNBuckets⌋₊ }

/-- `Hashtable(options)`: `initialSize` empty buckets and no node. -/
def ofOptions (options : HashtableOptions) : Hashtable F P M S :=
  computeThresholds
    { buckets := List.replicate options.initialSize none
      options := options
      size := 0
      expandThreshold := 0
      shrinkThreshold := 0
      nodes := fun _ => none
      nextNodeId := 0 }

/-- `attach(bucket, node)`: push `node` in front of the chain of `bucket`. -/
def attach (bucket : Nat) (node : NodeId) (ht : Hashtable F P M S) : Hashtable F P M S :=
  let head := ht.buckets.getD bucket none
  let nodes := modifyNode ht.nodes node fun n => { n with prev := none, next := head }
  let nodes := match head with
    | some first => modifyNode nodes first fun n => { n with prev := some node }
    | none => nodes
  { ht with nodes := nodes, buckets := ht.buckets.set bucket (some node) }

/-- `detach(bucket, node)`: unlink `node` from the chain of `bucket`. -/
def detach (bucket : Nat) (node : NodeId) (ht : Hashtable F P M S) : Hashtable F P M S :=
  match ht.nodes node with
  | none => ht
  | some n =>
      let ht := match n.prev with
        | some previous =>
            { ht with nodes := modifyNode ht.nodes previous fun m => { m with next := n.next } }
        | none => { ht with buckets := ht.buckets.set bucket n.next }
      let ht := match n.next with
        | some following =>
            { ht with nodes := modifyNode ht.nodes following fun m => { m with prev := n.prev } }
        | none => ht
      { ht with nodes := modifyNode ht.nodes node fun m => { m with prev := none, next := none } }

/-- The loop of `findOrInsert`: the first node of the chain from `node` with hash `h`
and name `name.getPrefix(prefixLen)`. -/
def findInChain (nodes : Nodes F P M S) (name : Name) (prefixLen : Nat) (h : HashValue) :
    Nat → Option NodeId → Option NodeId
  | 0, _ => none
  | _ + 1, none => none
  | fuel + 1, some id =>
      match nodes id with
      | none => none
      | some n =>
          if n.hash == h && name.take prefixLen == n.entry.name then some id
          else findInChain nodes name prefixLen h fuel n.next

/-- `foreachNode(head, attach(computeBucketIndex(node->hash), node))`, the loop of
`resize`; the next pointer is read before the node is attached. -/
def rehashChain : Nat → Option NodeId → Hashtable F P M S → Hashtable F P M S
  | 0, _, ht => ht
  | _ + 1, none, ht => ht
  | fuel + 1, some id, ht =>
      match ht.nodes id with
      | none => ht
      | some n => rehashChain fuel n.next (ht.attach (ht.computeBucketIndex n.hash) id)

def resize (newNBuckets : Nat) (ht : Hashtable F P M S) : Hashtable F P M S :=
  if ht.getNBuckets = newNBuckets then ht
  else
    let oldBuckets := ht.buckets
    let fresh := { ht with buckets := List.replicate newNBuckets none }
    computeThresholds (oldBuckets.foldl (fun acc head => rehashChain ht.size head acc) fresh)

/-- `new Node(h, name.getPrefix(prefixLen))` at the next free address. -/
def allocNode (name : Name) (prefixLen : Nat) (h : HashValue) (ht : Hashtable F P M S) :
    Hashtable F P M S :=
  { ht with
    nodes := Function.update ht.nodes ht.nextNodeId
      (some { hash := h, prev := none, next := none, entry := Entry.ofName (name.take prefixLen) })
    nextNodeId := ht.nextNodeId + 1 }

def findOrInsert (name : Name) (prefixLen : Nat) (h : HashValue) (allowInsert : Bool)
    (ht : Hashtable F P M S) : (Option NodeId × Bool) × Hashtable F P M S :=
  let bucket := ht.computeBucketIndex h
  match findInChain ht.nodes name prefixLen h ht.size (ht.buckets.getD bucket none) with
  | some found => ((some found, false), ht)
  | none =>
      if !allowInsert then ((none, false), ht)
      else
        let node := ht.nextNodeId
        let ht := (ht.allocNode name prefixLen h).attach bucket node
        let ht := { ht with size := ht.size + 1 }
        let ht := if ht.size > ht.expandThreshold then
            ht.resize ⌊ht.options.expandFactor * ht.getNBuckets⌋₊
          else ht
        ((some node, true), ht)

section Lookup

variable (componentHash : Component → HashValue)

/-- `find(name, prefixLen)`. -/
def find (name : Name) (prefixLen : Nat) (ht : Hashtable F P M S) : Option NodeId :=
  (ht.findOrInsert name prefixLen (computeHash componentHash name prefixLen) false).1.1

end Lookup

/-- `find(name, prefixLen, hashes)`. -/
def findWithHashes (name : Name) (prefixLen : Nat) (hashes : List HashValue)
    (ht : Hashtable F P M S) : Option NodeId :=
  (ht.findOrInsert name prefixLen (hashes.getD prefixLen 0) false).1.1

/-- `insert(name, prefixLen, hashes)`. -/
def insert (name : Name) (prefixLen : Nat) (hashes : List HashValue) (ht : Hashtable F P M S) :
    (Option NodeId × Bool) × Hashtable F P M S :=
  ht.findOrInsert name prefixLen (hashes.getD prefixLen 0) true

/-- `erase(node)`: unlink and delete `node`, then shrink below the threshold. -/
def erase (node : NodeId) (ht : Hashtable F P M S) : Hashtable F P M S :=
  match ht.nodes node with
  | none => ht
  | some n =>
      let ht := ht.detach (ht.computeBucketIndex n.hash) node
      let ht := { ht with nodes := Function.update ht.nodes node none, size := ht.size - 1 }
      if ht.size < ht.shrinkThreshold then
        ht.resize (max ht.options.minSize ⌊ht.options.shrinkFactor * ht.getNBuckets⌋₊)
      else ht

end Hashtable

end Nfd.NameTree
