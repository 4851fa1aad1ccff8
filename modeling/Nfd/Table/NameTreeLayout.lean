import Nfd.Table.NameTreeHashtable
import Nfd.Lib.LinkedChain
import Mathlib.Data.List.Nodup
import Mathlib.Data.List.Forall2

/-!
# The layout of the name tree hash table

A well-formed table has, for every bucket, a doubly linked chain hanging from
the bucket's head pointer (`Placed`), every node on the chain of bucket `b` has
a hash that `computeBucketIndex` sends to `b`, and in a `Layout` moreover every
node in memory is on the chain of its bucket, its hash is `computeHash` of its
name, and `m_size` counts the nodes on the chains.

The chains are a witness of the layout, not a field of the table: `attach`,
`detach`, the walk of `resize` and `erase` each come with the chains they leave.
The node store changes in two ways only.  The links of a node (`prev`, `next`)
move in `attach` and `detach`; what it holds otherwise (`contents`: hash and
entry) moves only when a node is allocated, freed, or when the name tree edits
an entry.
-/

set_option autoImplicit false

namespace Nfd.NameTree

open LinkedChain

variable {F P M S : Type}

section Store

variable (nodes : Nodes F P M S) (id : NodeId) (f : Node F P M S → Node F P M S)

@[simp] theorem modifyNode_same : modifyNode nodes id f id = (nodes id).map f := by
  simp [modifyNode]

@[simp] theorem modifyNode_other {other : NodeId} (different : other ≠ id) :
    modifyNode nodes id f other = nodes other := by
  simp [modifyNode, different]

/-- The prev and next pointers of every node. -/
def links : Links NodeId := fun id => (nodes id).map fun n => (n.prev, n.next)

/-- What a node holds apart from its pointers: its hash and its entry. -/
def contents : NodeId → Option (HashValue × Entry F P M S) := fun id =>
  (nodes id).map fun n => (n.hash, n.entry)

theorem links_modifyNode_other {other : NodeId} (different : other ≠ id) :
    links (modifyNode nodes id f) other = links nodes other := by
  simp [links, different]

theorem contents_modifyNode (keeps : ∀ n, (f n).hash = n.hash ∧ (f n).entry = n.entry) :
    contents (modifyNode nodes id f) = contents nodes := by
  funext other
  by_cases same : other = id
  · subst same
    cases stored : nodes other with
    | none => simp [contents, stored]
    | some n => simp [contents, stored, (keeps n).1, (keeps n).2]
  · simp [contents, same]

end Store

section ListSet

variable {α : Type} (l : List α) (b j : Nat) (x d : α)

theorem getD_set_same (bound : b < l.length) : (l.set b x).getD b d = x := by
  simp [bound]

theorem getD_set_other (different : j ≠ b) : (l.set b x).getD j d = l.getD j d := by
  simp [Ne.symm different]

end ListSet

namespace Hashtable

section Attach

variable (ht : Hashtable F P M S) (bucket : Nat) (node : NodeId)

@[simp] theorem attach_getNBuckets : (ht.attach bucket node).getNBuckets = ht.getNBuckets := by
  simp [attach, getNBuckets]

@[simp] theorem attach_computeBucketIndex (h : HashValue) :
    (ht.attach bucket node).computeBucketIndex h = ht.computeBucketIndex h := by
  simp [computeBucketIndex]

@[simp] theorem attach_size : (ht.attach bucket node).size = ht.size := rfl

@[simp] theorem attach_options : (ht.attach bucket node).options = ht.options := rfl

@[simp] theorem attach_nextNodeId : (ht.attach bucket node).nextNodeId = ht.nextNodeId := rfl

theorem attach_buckets :
    (ht.attach bucket node).buckets = ht.buckets.set bucket (some node) := rfl

theorem attach_contents : contents (ht.attach bucket node).nodes = contents ht.nodes := by
  simp only [attach]
  split <;> simp [contents_modifyNode]

/-- The pointers `attach` leaves, when `node` is not already the head of `bucket`. -/
theorem attach_links (other : NodeId) (notHead : ht.buckets.getD bucket none ≠ some node) :
    links (ht.attach bucket node).nodes other =
      if other = node then (ht.nodes node).map fun _ => (none, ht.buckets.getD bucket none)
      else if ht.buckets.getD bucket none = some other then
        (ht.nodes other).map fun n => (some node, n.next)
      else links ht.nodes other := by
  simp only [attach]
  split
  · rename_i first headIs
    rw [headIs] at notHead ⊢
    have firstNotNode : first ≠ node := fun same => notHead (by rw [same])
    by_cases isNode : other = node
    · subst isNode
      simp [links, firstNotNode.symm, Function.comp_def]
    · by_cases isFirst : other = first
      · subst isFirst
        simp [links, isNode, Function.comp_def]
      · simp [links, isNode, isFirst, Ne.symm isFirst]
  · rename_i headIs
    rw [headIs]
    by_cases isNode : other = node
    · subst isNode
      simp [links, Function.comp_def]
    · simp [links, isNode]

end Attach


section Detach

variable (ht : Hashtable F P M S) (bucket : Nat) (node : NodeId)

@[simp] theorem detach_getNBuckets : (ht.detach bucket node).getNBuckets = ht.getNBuckets := by
  simp only [detach]
  split
  · rfl
  · rename_i n _
    cases n.prev <;> cases n.next <;> simp [getNBuckets]

@[simp] theorem detach_computeBucketIndex (h : HashValue) :
    (ht.detach bucket node).computeBucketIndex h = ht.computeBucketIndex h := by
  simp [computeBucketIndex]

@[simp] theorem detach_size : (ht.detach bucket node).size = ht.size := by
  simp only [detach]
  split
  · rfl
  · rename_i n _
    cases n.prev <;> cases n.next <;> rfl

@[simp] theorem detach_options : (ht.detach bucket node).options = ht.options := by
  simp only [detach]
  split
  · rfl
  · rename_i n _
    cases n.prev <;> cases n.next <;> rfl

@[simp] theorem detach_nextNodeId : (ht.detach bucket node).nextNodeId = ht.nextNodeId := by
  simp only [detach]
  split
  · rfl
  · rename_i n _
    cases n.prev <;> cases n.next <;> rfl

theorem detach_buckets {n : Node F P M S} (stored : ht.nodes node = some n) :
    (ht.detach bucket node).buckets =
      if n.prev = none then ht.buckets.set bucket n.next else ht.buckets := by
  simp only [detach, stored]
  cases n.prev <;> cases n.next <;> rfl

/-- The pointers `detach` leaves: the node's neighbours point past it, and the node
points nowhere. -/
theorem detach_links {n : Node F P M S} (stored : ht.nodes node = some n)
    (prevNotSelf : n.prev ≠ some node) (nextNotSelf : n.next ≠ some node)
    (prevNotNext : ∀ p, n.prev = some p → n.next ≠ some p) (other : NodeId) :
    links (ht.detach bucket node).nodes other =
      if other = node then some (none, none)
      else if n.prev = some other then (ht.nodes other).map fun m => (m.prev, n.next)
      else if n.next = some other then (ht.nodes other).map fun m => (n.prev, m.next)
      else links ht.nodes other := by
  simp only [detach, stored]
  -- the three writes hit the previous node, the following node and `node`, which are
  -- pairwise different
  rcases prevIs : n.prev with _ | previous <;> rcases nextIs : n.next with _ | following
  · by_cases isNode : other = node
    · subst isNode
      simp [links, stored]
    · simp [links, isNode]
  · have followingNotNode : following ≠ node := fun same => nextNotSelf (by rw [nextIs, same])
    by_cases isNode : other = node
    · subst isNode
      simp [links, stored, Ne.symm followingNotNode]
    · by_cases isFollowing : other = following
      · subst isFollowing
        simp [links, isNode, Function.comp_def]
      · simp [links, isNode, isFollowing, Ne.symm isFollowing]
  · have previousNotNode : previous ≠ node := fun same => prevNotSelf (by rw [prevIs, same])
    by_cases isNode : other = node
    · subst isNode
      simp [links, stored, Ne.symm previousNotNode]
    · by_cases isPrevious : other = previous
      · subst isPrevious
        simp [links, isNode, Function.comp_def]
      · simp [links, isNode, isPrevious, Ne.symm isPrevious]
  · have previousNotNode : previous ≠ node := fun same => prevNotSelf (by rw [prevIs, same])
    have followingNotNode : following ≠ node := fun same => nextNotSelf (by rw [nextIs, same])
    have distinct : previous ≠ following := fun same =>
      prevNotNext previous prevIs (by rw [nextIs, same])
    by_cases isNode : other = node
    · subst isNode
      simp [links, stored, Ne.symm previousNotNode, Ne.symm followingNotNode]
    · by_cases isPrevious : other = previous
      · subst isPrevious
        simp [links, isNode, distinct, Function.comp_def]
      · by_cases isFollowing : other = following
        · subst isFollowing
          simp [links, isNode, isPrevious, distinct, Function.comp_def]
        · simp [links, isNode, isPrevious, isFollowing, Ne.symm isPrevious, Ne.symm isFollowing]

theorem detach_contents : contents (ht.detach bucket node).nodes = contents ht.nodes := by
  simp only [detach]
  split
  · rfl
  · rename_i n _
    cases n.prev <;> cases n.next <;> simp [contents_modifyNode]

end Detach

section Rehash

@[simp] theorem rehashChain_getNBuckets (fuel : Nat) (head : Option NodeId) (ht : Hashtable F P M S) :
    (rehashChain fuel head ht).getNBuckets = ht.getNBuckets := by
  induction fuel generalizing head ht with
  | zero => rfl
  | succ fuel inductionHypothesis =>
      cases head with
      | none => rfl
      | some id =>
          simp only [rehashChain]
          split
          · rfl
          · rw [inductionHypothesis, attach_getNBuckets]

theorem rehashChain_fields (fuel : Nat) (head : Option NodeId) (ht : Hashtable F P M S) :
    (rehashChain fuel head ht).size = ht.size ∧ (rehashChain fuel head ht).options = ht.options ∧
      (rehashChain fuel head ht).nextNodeId = ht.nextNodeId ∧
      contents (rehashChain fuel head ht).nodes = contents ht.nodes := by
  induction fuel generalizing head ht with
  | zero => exact ⟨rfl, rfl, rfl, rfl⟩
  | succ fuel inductionHypothesis =>
      cases head with
      | none => exact ⟨rfl, rfl, rfl, rfl⟩
      | some id =>
          simp only [rehashChain]
          split
          · exact ⟨rfl, rfl, rfl, rfl⟩
          · obtain ⟨sameSize, sameOptions, sameNext, sameContents⟩ := inductionHypothesis _ _
            rw [sameSize, sameOptions, sameNext, sameContents, attach_contents]
            exact ⟨rfl, rfl, rfl, rfl⟩

end Rehash

section Resize

@[simp] theorem computeThresholds_nodes (ht : Hashtable F P M S) :
    ht.computeThresholds.nodes = ht.nodes := rfl

@[simp] theorem computeThresholds_buckets (ht : Hashtable F P M S) :
    ht.computeThresholds.buckets = ht.buckets := rfl

@[simp] theorem computeThresholds_getNBuckets (ht : Hashtable F P M S) :
    ht.computeThresholds.getNBuckets = ht.getNBuckets := rfl

@[simp] theorem computeThresholds_computeBucketIndex (ht : Hashtable F P M S) (h : HashValue) :
    ht.computeThresholds.computeBucketIndex h = ht.computeBucketIndex h := rfl

@[simp] theorem computeThresholds_size (ht : Hashtable F P M S) :
    ht.computeThresholds.size = ht.size := rfl

@[simp] theorem computeThresholds_options (ht : Hashtable F P M S) :
    ht.computeThresholds.options = ht.options := rfl

@[simp] theorem computeThresholds_nextNodeId (ht : Hashtable F P M S) :
    ht.computeThresholds.nextNodeId = ht.nextNodeId := rfl

theorem foldl_rehashChain_fields (fuel : Nat) :
    ∀ (heads : List (Option NodeId)) (ht : Hashtable F P M S),
      let result := heads.foldl (fun acc head => acc.rehashChain fuel head) ht
      result.size = ht.size ∧ result.options = ht.options ∧ result.nextNodeId = ht.nextNodeId ∧
        contents result.nodes = contents ht.nodes
  | [], _ => ⟨rfl, rfl, rfl, rfl⟩
  | head :: heads, ht => by
      obtain ⟨sameSize, sameOptions, sameNext, sameContents⟩ := rehashChain_fields fuel head ht
      obtain ⟨sameSize', sameOptions', sameNext', sameContents'⟩ :=
        foldl_rehashChain_fields fuel heads (ht.rehashChain fuel head)
      simp only [List.foldl_cons]
      exact ⟨sameSize'.trans sameSize, sameOptions'.trans sameOptions, sameNext'.trans sameNext,
        sameContents'.trans sameContents⟩

theorem resize_fields (newNBuckets : Nat) (ht : Hashtable F P M S) :
    (ht.resize newNBuckets).size = ht.size ∧ (ht.resize newNBuckets).options = ht.options ∧
      (ht.resize newNBuckets).nextNodeId = ht.nextNodeId ∧
      contents (ht.resize newNBuckets).nodes = contents ht.nodes := by
  simp only [resize]
  split
  · exact ⟨rfl, rfl, rfl, rfl⟩
  · exact foldl_rehashChain_fields ht.size ht.buckets _

end Resize

end Hashtable

/-- Chains hang from the buckets of `ht`, and every node on the chain of bucket `b`
is one whose hash `computeBucketIndex` sends to `b`. -/
structure Placed (ht : Hashtable F P M S) (chains : List (List NodeId)) : Prop where
  nBuckets_pos : 0 < ht.getNBuckets
  length_eq : chains.length = ht.getNBuckets
  chain : ∀ b < ht.getNBuckets,
    Chain (links ht.nodes) (ht.buckets.getD b none) none (chains.getD b [])
  placed : ∀ b, ∀ id ∈ chains.getD b [], ∃ n, ht.nodes id = some n ∧ ht.computeBucketIndex n.hash = b

theorem node_of_contents {nodes other : Nodes F P M S} (same : contents other = contents nodes)
    {id : NodeId} {n : Node F P M S} (stored : nodes id = some n) :
    ∃ n', other id = some n' ∧ n'.hash = n.hash ∧ n'.entry = n.entry := by
  have atId := congrFun same id
  simp only [contents, stored, Option.map_some] at atId
  cases otherStored : other id with
  | none => simp [otherStored] at atId
  | some n' =>
      simp only [otherStored, Option.map_some, Option.some.injEq, Prod.mk.injEq] at atId
      exact ⟨n', rfl, atId.1, atId.2⟩

namespace Placed

variable {ht : Hashtable F P M S} {chains : List (List NodeId)}

theorem bucket_lt (placed : Placed ht chains) (h : HashValue) :
    ht.computeBucketIndex h < ht.getNBuckets :=
  Nat.mod_lt _ placed.nBuckets_pos

/-- A node is on the chain of one bucket only: the one its hash selects. -/
theorem bucket_eq (placed : Placed ht chains) {id : NodeId} {b b' : Nat}
    (member : id ∈ chains.getD b []) (member' : id ∈ chains.getD b' []) : b = b' := by
  obtain ⟨n, stored, inB⟩ := placed.placed b id member
  obtain ⟨n', stored', inB'⟩ := placed.placed b' id member'
  rw [stored, Option.some.injEq] at stored'
  rw [← inB, ← inB', stored']

theorem getD_eq_nil (placed : Placed ht chains) {b : Nat} (outOfRange : ht.getNBuckets ≤ b) :
    chains.getD b [] = [] := by
  have : chains.length ≤ b := placed.length_eq ▸ outOfRange
  simp [List.getElem?_eq_none this]

theorem head_eq (placed : Placed ht chains) (b : Nat) (bound : b < ht.getNBuckets) :
    ht.buckets.getD b none = (chains.getD b []).head? :=
  (placed.chain b bound).head_eq

/-- Pushing a node that is on no chain in front of the chain of its bucket. -/
theorem attach (placed : Placed ht chains) {node : NodeId} {n : Node F P M S}
    (stored : ht.nodes node = some n) (outside : ∀ b, node ∉ chains.getD b []) :
    Placed (ht.attach (ht.computeBucketIndex n.hash) node)
      (chains.set (ht.computeBucketIndex n.hash)
        (node :: chains.getD (ht.computeBucketIndex n.hash) [])) := by
  have bucketLt := placed.bucket_lt n.hash
  have bucketLt' : ht.computeBucketIndex n.hash < ht.buckets.length := bucketLt
  have oldChain := placed.chain _ bucketLt
  have notHead : ht.buckets.getD (ht.computeBucketIndex n.hash) none ≠ some node := by
    rw [placed.head_eq _ bucketLt]
    intro isHead
    exact outside _ (List.mem_of_mem_head? isHead)
  have sameContents := Hashtable.attach_contents ht (ht.computeBucketIndex n.hash) node
  refine ⟨by simpa using placed.nBuckets_pos, by simp [placed.length_eq], ?_, ?_⟩
  · intro b bound
    rw [Hashtable.attach_getNBuckets] at bound
    rw [Hashtable.attach_buckets]
    by_cases same : b = ht.computeBucketIndex n.hash
    · subst same
      rw [getD_set_same _ _ _ _ bucketLt', getD_set_same _ _ _ _ (placed.length_eq ▸ bucketLt)]
      refine oldChain.pushFront (outside _) ?_ ?_ ?_
      · rw [Hashtable.attach_links _ _ _ _ notHead, if_pos rfl, stored]
        rfl
      · intro first next isHead firstLink
        have firstNotNode : first ≠ node := fun same => notHead (by rw [isHead, same])
        rw [Hashtable.attach_links _ _ _ _ notHead, if_neg firstNotNode, if_pos isHead]
        simp only [links, Option.map_eq_some_iff, Prod.mk.injEq] at firstLink
        obtain ⟨m, firstStored, -, nextIs⟩ := firstLink
        simp [firstStored, nextIs]
      · intro c member notFirst
        have cNotNode : c ≠ node := fun same => outside _ (same ▸ member)
        rw [Hashtable.attach_links _ _ _ _ notHead, if_neg cNotNode, if_neg notFirst]
    · have otherChain := placed.chain b bound
      rw [getD_set_other _ _ _ _ _ same, getD_set_other _ _ _ _ _ same]
      refine otherChain.congr fun c member => ?_
      have cNotNode : c ≠ node := fun isNode => outside b (isNode ▸ member)
      have notFirst : ht.buckets.getD (ht.computeBucketIndex n.hash) none ≠ some c := by
        intro isHead
        rw [placed.head_eq _ bucketLt] at isHead
        exact same (placed.bucket_eq member (List.mem_of_mem_head? isHead))
      rw [Hashtable.attach_links _ _ _ _ notHead, if_neg cNotNode, if_neg notFirst]
  · intro b id member
    by_cases same : b = ht.computeBucketIndex n.hash
    · subst same
      rw [getD_set_same _ _ _ _ (placed.length_eq ▸ bucketLt)] at member
      rcases List.mem_cons.mp member with isNode | later
      · subst isNode
        obtain ⟨n', stored', sameHash, -⟩ := node_of_contents sameContents stored
        exact ⟨n', stored', by rw [Hashtable.attach_computeBucketIndex, sameHash]⟩
      · obtain ⟨m, mStored, mBucket⟩ := placed.placed _ id later
        obtain ⟨m', stored', sameHash, -⟩ := node_of_contents sameContents mStored
        exact ⟨m', stored', by rw [Hashtable.attach_computeBucketIndex, sameHash, mBucket]⟩
    · rw [getD_set_other _ _ _ _ _ same] at member
      obtain ⟨m, mStored, mBucket⟩ := placed.placed b id member
      obtain ⟨m', stored', sameHash, -⟩ := node_of_contents sameContents mStored
      exact ⟨m', stored', by rw [Hashtable.attach_computeBucketIndex, sameHash, mBucket]⟩

/-- Unlinking a node from the chain of its bucket leaves it on no chain. -/
theorem detach (placed : Placed ht chains) {node : NodeId} {n : Node F P M S}
    (stored : ht.nodes node = some n)
    (member : node ∈ chains.getD (ht.computeBucketIndex n.hash) []) :
    Placed (ht.detach (ht.computeBucketIndex n.hash) node)
      (chains.set (ht.computeBucketIndex n.hash)
        ((chains.getD (ht.computeBucketIndex n.hash) []).erase node)) := by
  have bucketLt := placed.bucket_lt n.hash
  have bucketLt' : ht.computeBucketIndex n.hash < ht.buckets.length := bucketLt
  have oldChain := placed.chain _ bucketLt
  have nodeLink : links ht.nodes node = some (n.prev, n.next) := by simp [links, stored]
  have prevNotSelf : n.prev ≠ some node := fun isSelf =>
    oldChain.prev_ne member (isSelf ▸ nodeLink)
  have nextNotSelf : n.next ≠ some node := fun isSelf =>
    oldChain.next_ne member (isSelf ▸ nodeLink)
  have prevNotNext : ∀ p, n.prev = some p → n.next ≠ some p := fun p prevIs nextIs =>
    oldChain.prev_ne_next member (prevIs ▸ nextIs ▸ nodeLink)
  have newLinks := Hashtable.detach_links ht (ht.computeBucketIndex n.hash) node stored
    prevNotSelf nextNotSelf prevNotNext
  -- the neighbours of `node` are on the same chain, hence in the same bucket
  have prevOnChain : ∀ p, n.prev = some p → p ∈ chains.getD (ht.computeBucketIndex n.hash) [] := by
    intro p prevIs
    rcases oldChain.prev_next member (prevIs ▸ nodeLink) with ⟨-, backIsSome⟩ | ⟨onChain, -⟩
    · cases backIsSome
    · exact onChain
  have nextOnChain : ∀ x, n.next = some x → x ∈ chains.getD (ht.computeBucketIndex n.hash) [] :=
    fun x nextIs => (oldChain.next_prev member (nextIs ▸ nodeLink)).1
  have sameContents := Hashtable.detach_contents ht (ht.computeBucketIndex n.hash) node
  refine ⟨by simpa using placed.nBuckets_pos, by simp [placed.length_eq], ?_, ?_⟩
  · intro b bound
    rw [Hashtable.detach_getNBuckets] at bound
    rw [Hashtable.detach_buckets _ _ _ stored]
    by_cases same : b = ht.computeBucketIndex n.hash
    · subst same
      rw [getD_set_same _ _ _ _ (placed.length_eq ▸ bucketLt)]
      have unlinked : Chain (links (ht.detach (ht.computeBucketIndex n.hash) node).nodes) _ none _ :=
        oldChain.unlink (fun _ backIsSome => by cases backIsSome) member nodeLink ?_ ?_ ?_
      · by_cases first : n.prev = none
        · rw [if_pos ((oldChain.first_iff member nodeLink).mpr first)] at unlinked
          rwa [if_pos first, getD_set_same _ _ _ _ bucketLt']
        · rw [if_neg fun isHead => first ((oldChain.first_iff member nodeLink).mp isHead)]
            at unlinked
          rwa [if_neg first]
      · intro p a b' prevIs pLink
        have pNotNode : p ≠ node := fun same => prevNotSelf (by rw [prevIs, same])
        rw [newLinks, if_neg pNotNode, if_pos prevIs]
        simp only [links, Option.map_eq_some_iff, Prod.mk.injEq] at pLink
        obtain ⟨m, pStored, prevIs', -⟩ := pLink
        simp [pStored, prevIs']
      · intro x a b' nextIs xLink
        have xNotNode : x ≠ node := fun same => nextNotSelf (by rw [nextIs, same])
        have notPrev : n.prev ≠ some x := fun prevIs => prevNotNext x prevIs nextIs
        rw [newLinks, if_neg xNotNode, if_neg notPrev, if_pos nextIs]
        simp only [links, Option.map_eq_some_iff, Prod.mk.injEq] at xLink
        obtain ⟨m, xStored, -, nextIs'⟩ := xLink
        simp [xStored, nextIs']
      · intro c _ notNode notPrev notNext
        rw [newLinks, if_neg notNode, if_neg notPrev, if_neg notNext]
    · have otherChain := placed.chain b bound
      have headSame : (if n.prev = none then ht.buckets.set (ht.computeBucketIndex n.hash) n.next
          else ht.buckets).getD b none = ht.buckets.getD b none := by
        split
        · exact getD_set_other _ _ _ _ _ same
        · rfl
      rw [headSame, getD_set_other _ _ _ _ _ same]
      refine otherChain.congr fun c onOther => ?_
      have elsewhere : ∀ x, x ∈ chains.getD (ht.computeBucketIndex n.hash) [] → c ≠ x :=
        fun x onChain isX => same (placed.bucket_eq onOther (isX ▸ onChain))
      have notPrev : n.prev ≠ some c := fun prevIs => elsewhere c (prevOnChain c prevIs) rfl
      have notNext : n.next ≠ some c := fun nextIs => elsewhere c (nextOnChain c nextIs) rfl
      rw [newLinks, if_neg (elsewhere node member), if_neg notPrev, if_neg notNext]
  · intro b id onChain
    have onOld : id ∈ chains.getD b [] := by
      by_cases same : b = ht.computeBucketIndex n.hash
      · subst same
        rw [getD_set_same _ _ _ _ (placed.length_eq ▸ bucketLt)] at onChain
        exact List.mem_of_mem_erase onChain
      · rwa [getD_set_other _ _ _ _ _ same] at onChain
    obtain ⟨m, mStored, mBucket⟩ := placed.placed b id onOld
    obtain ⟨m', stored', sameHash, -⟩ := node_of_contents sameContents mStored
    exact ⟨m', stored', by rw [Hashtable.detach_computeBucketIndex, sameHash, mBucket]⟩

theorem onChains_set_cons (placed : Placed ht chains) {b : Nat} (bound : b < ht.getNBuckets)
    (node id : NodeId) :
    (∃ j, id ∈ (chains.set b (node :: chains.getD b [])).getD j []) ↔
      (∃ j, id ∈ chains.getD j []) ∨ id = node := by
  have bound' : b < chains.length := placed.length_eq ▸ bound
  constructor
  · rintro ⟨j, member⟩
    by_cases same : j = b
    · subst same
      rw [getD_set_same _ _ _ _ bound'] at member
      rcases List.mem_cons.mp member with isNode | later
      · exact .inr isNode
      · exact .inl ⟨j, later⟩
    · rw [getD_set_other _ _ _ _ _ same] at member
      exact .inl ⟨j, member⟩
  · rintro (⟨j, member⟩ | isNode)
    · by_cases same : j = b
      · subst same
        exact ⟨j, by rw [getD_set_same _ _ _ _ bound']; exact List.mem_cons_of_mem _ member⟩
      · exact ⟨j, by rw [getD_set_other _ _ _ _ _ same]; exact member⟩
    · exact ⟨b, by rw [getD_set_same _ _ _ _ bound', isNode]; exact List.mem_cons_self⟩

end Placed

/-- The walk of `resize` along one old chain moves all of its nodes onto the new
chains and touches the pointers of no node outside the old chain and the new chains. -/
theorem Placed.rehashChain {acc : Hashtable F P M S} {newChains : List (List NodeId)}
    (placed : Placed acc newChains) {fuel : Nat} {cur back : Option NodeId} {rest : List NodeId}
    (remaining : Chain (links acc.nodes) cur back rest) (enough : rest.length ≤ fuel)
    (fresh : ∀ b, ∀ id ∈ rest, id ∉ newChains.getD b []) :
    ∃ chains', Placed (acc.rehashChain fuel cur) chains' ∧
      (∀ id, (∃ b, id ∈ chains'.getD b []) ↔ (∃ b, id ∈ newChains.getD b []) ∨ id ∈ rest) ∧
      (∀ id, id ∉ rest → (∀ b, id ∉ newChains.getD b []) →
        links (acc.rehashChain fuel cur).nodes id = links acc.nodes id) := by
  induction rest generalizing fuel cur back acc newChains with
  | nil =>
      have noCur : cur = none := remaining.head_eq
      subst noCur
      refine ⟨newChains, ?_, fun id => by simp, fun id _ _ => ?_⟩ <;> cases fuel <;> first
        | exact placed | rfl
  | cons id rest inductionHypothesis =>
      obtain ⟨rfl, next, idLink, tail⟩ := remaining.cons_inv
      obtain ⟨n, stored, -⟩ : ∃ n, acc.nodes id = some n ∧ (n.prev, n.next) = (back, next) := by
        simp only [links, Option.map_eq_some_iff] at idLink
        exact idLink
      have nextIs : n.next = next := by
        simp only [links, stored, Option.map_some, Option.some.injEq, Prod.mk.injEq] at idLink
        exact idLink.2
      obtain ⟨fuel, rfl⟩ : ∃ f, fuel = f + 1 := ⟨fuel - 1, by simp at enough; omega⟩
      have idFresh : ∀ b, id ∉ newChains.getD b [] := fun b => fresh b id List.mem_cons_self
      have restFresh := (List.nodup_cons.mp (Chain.cons id back next rest idLink tail).nodup).1
      have attached := placed.attach stored idFresh
      set bucket := acc.computeBucketIndex n.hash
      have notHead : acc.buckets.getD bucket none ≠ some id := by
        rw [placed.head_eq _ (placed.bucket_lt n.hash)]
        exact fun isHead => idFresh _ (List.mem_of_mem_head? isHead)
      -- a node outside the new chains and other than `id` keeps its pointers
      have keeps : ∀ x, x ≠ id → (∀ b, x ∉ newChains.getD b []) →
          links (acc.attach bucket id).nodes x = links acc.nodes x := by
        intro x notId notNew
        have notFirst : acc.buckets.getD bucket none ≠ some x := by
          rw [placed.head_eq _ (placed.bucket_lt n.hash)]
          exact fun isHead => notNew _ (List.mem_of_mem_head? isHead)
        rw [Hashtable.attach_links _ _ _ _ notHead, if_neg notId, if_neg notFirst]
      have tail' : Chain (links (acc.attach bucket id).nodes) next (some id) rest :=
        tail.congr fun x member => keeps x (fun same => restFresh (same ▸ member))
          (fun b => fresh b x (List.mem_cons_of_mem _ member))
      obtain ⟨chains', placed', onChains', keeps'⟩ := inductionHypothesis attached tail'
        (by simp at enough; omega) (by
          intro b x member onNew
          rcases (placed.onChains_set_cons (placed.bucket_lt n.hash) id x).mp ⟨b, onNew⟩ with
            ⟨j, onOld⟩ | isId
          · exact fresh j x (List.mem_cons_of_mem _ member) onOld
          · exact restFresh (isId ▸ member))
      simp only [Hashtable.rehashChain, stored]
      rw [nextIs]
      refine ⟨chains', placed', fun x => ?_, fun x notRest notNew => ?_⟩
      · rw [onChains', placed.onChains_set_cons (placed.bucket_lt n.hash) id x]
        simp only [List.mem_cons]
        tauto
      · have notId : x ≠ id := fun same => notRest (by simp [same])
        rw [keeps' x (fun member => notRest (List.mem_cons_of_mem _ member)) (fun b onNew => by
            rcases (placed.onChains_set_cons (placed.bucket_lt n.hash) id x).mp ⟨b, onNew⟩ with
              ⟨j, onOld⟩ | isId
            · exact notNew j onOld
            · exact notId isId)]
        exact keeps x notId notNew


/-- The walk of `resize` over old buckets `heads`, whose chains are `olds`, moves every
old node onto the new chains. -/
theorem Placed.rehashAll (fuel : Nat) :
    ∀ {acc : Hashtable F P M S} {newChains : List (List NodeId)} {heads : List (Option NodeId)}
      {olds : List (List NodeId)}, Placed acc newChains →
      List.Forall₂ (fun head cells => Chain (links acc.nodes) head none cells) heads olds →
      olds.flatten.Nodup → (∀ cells ∈ olds, cells.length ≤ fuel) →
      (∀ b, ∀ id ∈ olds.flatten, id ∉ newChains.getD b []) →
      ∃ chains', Placed (heads.foldl (fun acc head => acc.rehashChain fuel head) acc) chains' ∧
        ∀ id, (∃ b, id ∈ chains'.getD b []) ↔ (∃ b, id ∈ newChains.getD b []) ∨ id ∈ olds.flatten
  | _, newChains, [], [], placed, .nil, _, _, _ => ⟨newChains, placed, fun id => by simp⟩
  | acc, newChains, head :: heads, cells :: olds, placed, .cons chain rest, nodup, enough, fresh => by
      rw [List.flatten_cons] at nodup
      have disjoint := (List.nodup_append.mp nodup).2.2
      obtain ⟨chains₁, placed₁, onChains₁, keeps₁⟩ := placed.rehashChain chain
        (enough cells List.mem_cons_self) (fun b id member => fresh b id (by simp [member]))
      have rest' := Chain.forall₂_congr rest fun cells' member' x onCell => keeps₁ x
        (fun onFirst => disjoint x onFirst x (List.mem_flatten.mpr ⟨cells', member', onCell⟩) rfl)
        (fun b => fresh b x (by simp only [List.flatten_cons, List.mem_append, List.mem_flatten]
                                exact .inr ⟨cells', member', onCell⟩))
      obtain ⟨chains', placed', onChains'⟩ := Placed.rehashAll fuel placed₁ rest'
        (List.nodup_append.mp nodup).2.1 (fun c member => enough c (List.mem_cons_of_mem _ member))
        (fun b id member onNew => by
          rcases (onChains₁ id).mp ⟨b, onNew⟩ with ⟨j, onOld⟩ | onFirst
          · exact fresh j id (by simp only [List.flatten_cons, List.mem_append]; exact .inr member)
              onOld
          · exact disjoint id onFirst id member rfl)
      refine ⟨chains', placed', fun id => ?_⟩
      rw [onChains', onChains₁, List.flatten_cons, List.mem_append]
      tauto


theorem mem_flatten_iff (chains : List (List NodeId)) (id : NodeId) :
    id ∈ chains.flatten ↔ ∃ b, id ∈ chains.getD b [] := by
  rw [List.mem_flatten]
  constructor
  · rintro ⟨cells, member, onCells⟩
    obtain ⟨b, bound, rfl⟩ := List.getElem_of_mem member
    exact ⟨b, by simpa [List.getElem?_eq_getElem bound] using onCells⟩
  · rintro ⟨b, onChain⟩
    cases atB : chains[b]? with
    | none => simp [atB] at onChain
    | some cells => exact ⟨cells, List.mem_of_getElem? atB, by simpa [atB] using onChain⟩

theorem Placed.nodup_flatten {ht : Hashtable F P M S} {chains : List (List NodeId)}
    (placed : Placed ht chains) : chains.flatten.Nodup := by
  rw [List.nodup_flatten]
  refine ⟨fun cells member => ?_, List.pairwise_iff_getElem.mpr fun i j iBound jBound before => ?_⟩
  · obtain ⟨b, bound, rfl⟩ := List.getElem_of_mem member
    have chain := placed.chain b (placed.length_eq ▸ bound)
    simp only [List.getD_eq_getElem?_getD, List.getElem?_eq_getElem bound, Option.getD_some] at chain
    exact chain.nodup
  · intro id onI onJ
    have onBucketI : id ∈ chains.getD i [] := by simpa [List.getElem?_eq_getElem iBound] using onI
    have onBucketJ : id ∈ chains.getD j [] := by simpa [List.getElem?_eq_getElem jBound] using onJ
    have same := placed.bucket_eq onBucketI onBucketJ
    omega

/-- A well-formed table: its chains are placed, every node in memory is on the chain of
its bucket and carries the hash of its name, `m_size` counts the nodes on the chains,
and no node sits at or past the next free address. -/
structure Layout (componentHash : Component → HashValue) (ht : Hashtable F P M S)
    (chains : List (List NodeId)) : Prop extends Placed ht chains where
  allocated : ∀ id n, ht.nodes id = some n → id ∈ chains.getD (ht.computeBucketIndex n.hash) []
  hashed : ∀ id n, ht.nodes id = some n →
    n.hash = computeHash componentHash n.entry.name n.entry.name.length
  size_eq : ht.size = chains.flatten.length
  unallocated : ∀ id, ht.nextNodeId ≤ id → ht.nodes id = none

section LayoutTransfer

variable {componentHash : Component → HashValue}

/-- What the layout reads of a node besides its pointers: its hash and its name. -/
def keys (nodes : Nodes F P M S) : NodeId → Option (HashValue × Name) := fun id =>
  (nodes id).map fun n => (n.hash, n.entry.name)

theorem keys_of_contents {nodes other : Nodes F P M S} (same : contents other = contents nodes) :
    keys other = keys nodes := by
  funext id
  have atId := congrFun same id
  simp only [contents] at atId
  simp only [keys]
  cases stored : nodes id <;> cases otherStored : other id <;>
    simp_all

theorem node_of_keys {nodes other : Nodes F P M S} (same : keys other = keys nodes)
    {id : NodeId} {n : Node F P M S} (stored : nodes id = some n) :
    ∃ n', other id = some n' ∧ n'.hash = n.hash ∧ n'.entry.name = n.entry.name := by
  have atId := congrFun same id
  simp only [keys, stored, Option.map_some] at atId
  cases otherStored : other id with
  | none => simp [otherStored] at atId
  | some n' =>
      simp only [otherStored, Option.map_some, Option.some.injEq, Prod.mk.injEq] at atId
      exact ⟨n', rfl, atId.1, atId.2⟩

/-- A table whose nodes have the keys of a well-formed one, with placed chains over the
same nodes, is well formed. -/
theorem Layout.of_placed {ht ht' : Hashtable F P M S} {chains chains' : List (List NodeId)}
    (layout : Layout componentHash ht chains) (placed' : Placed ht' chains')
    (sameKeys : keys ht'.nodes = keys ht.nodes)
    (sameMembers : ∀ id, (∃ b, id ∈ chains'.getD b []) ↔ (∃ b, id ∈ chains.getD b []))
    (sameSize : ht'.size = ht.size) (sameNext : ht'.nextNodeId = ht.nextNodeId) :
    Layout componentHash ht' chains' where
  toPlaced := placed'
  allocated := by
    intro id n' stored'
    obtain ⟨n, stored, sameHash, -⟩ := node_of_keys sameKeys.symm stored'
    obtain ⟨b, onNew⟩ := (sameMembers id).mpr ⟨_, layout.allocated id n stored⟩
    obtain ⟨m, storedM, bucketIs⟩ := placed'.placed b id onNew
    rw [stored', Option.some.injEq] at storedM
    rwa [storedM, bucketIs]
  hashed := by
    intro id n' stored'
    obtain ⟨n, stored, sameHash, sameName⟩ := node_of_keys sameKeys.symm stored'
    rw [← sameHash, ← sameName]
    exact layout.hashed id n stored
  size_eq := by
    rw [sameSize, layout.size_eq]
    refine ((List.perm_ext_iff_of_nodup layout.nodup_flatten placed'.nodup_flatten).mpr ?_).length_eq
    intro id
    rw [mem_flatten_iff, mem_flatten_iff, sameMembers]
  unallocated := by
    intro id beyond
    have atId := congrFun sameKeys id
    have none := layout.unallocated id (sameNext ▸ beyond)
    simp only [keys, none, Option.map_none, Option.map_eq_none_iff] at atId
    exact atId

theorem Placed.computeThresholds {ht : Hashtable F P M S} {chains : List (List NodeId)}
    (placed : Placed ht chains) : Placed ht.computeThresholds chains :=
  ⟨placed.nBuckets_pos, placed.length_eq, placed.chain, placed.placed⟩

theorem Placed.forall₂ {ht : Hashtable F P M S} {chains : List (List NodeId)}
    (placed : Placed ht chains) :
    List.Forall₂ (fun head cells => Chain (links ht.nodes) head none cells) ht.buckets chains := by
  refine List.forall₂_iff_get.mpr ⟨placed.length_eq.symm, fun i bound bound' => ?_⟩
  have chain := placed.chain i bound
  simpa [List.getElem?_eq_getElem bound, List.getElem?_eq_getElem bound'] using chain

theorem Layout.resize {ht : Hashtable F P M S} {chains : List (List NodeId)}
    (layout : Layout componentHash ht chains) {newNBuckets : Nat} (positive : 0 < newNBuckets) :
    ∃ chains', Layout componentHash (ht.resize newNBuckets) chains' := by
  obtain ⟨sameSize, -, sameNext, sameContents⟩ := Hashtable.resize_fields newNBuckets ht
  by_cases unchanged : ht.getNBuckets = newNBuckets
  · refine ⟨chains, ?_⟩
    simp only [Hashtable.resize, if_pos unchanged]
    exact layout
  · set fresh : Hashtable F P M S := { ht with buckets := List.replicate newNBuckets none }
    have freshPlaced : Placed fresh (List.replicate newNBuckets []) := by
      refine ⟨by simpa [fresh, Hashtable.getNBuckets] using positive,
        by simp [fresh, Hashtable.getNBuckets],
        fun b bound => ?_, fun b id member => ?_⟩
      · simp only [fresh, Hashtable.getNBuckets, List.length_replicate] at bound
        simp only [fresh, List.getD_eq_getElem?_getD, List.getElem?_replicate, if_pos bound,
          Option.getD_some]
        exact Chain.nil none
      · simp only [List.getD_eq_getElem?_getD, List.getElem?_replicate] at member
        split at member <;> simp at member
    have oldChains : List.Forall₂ (fun head cells => Chain (links fresh.nodes) head none cells)
        ht.buckets chains := layout.forall₂
    obtain ⟨chains', placed', onChains'⟩ := freshPlaced.rehashAll ht.size oldChains
      layout.nodup_flatten
      (fun cells member => by
        rw [layout.size_eq]
        exact (List.sublist_flatten_of_mem member).length_le)
      (fun b id _ onNew => by
        simp only [List.getD_eq_getElem?_getD, List.getElem?_replicate] at onNew
        split at onNew <;> simp at onNew)
    refine ⟨chains', Layout.of_placed layout ?_ (keys_of_contents sameContents) ?_ sameSize sameNext⟩
    · simp only [Hashtable.resize, if_neg unchanged]
      exact placed'.computeThresholds
    · intro id
      rw [onChains', mem_flatten_iff]
      refine or_iff_right ?_
      rintro ⟨b, onFresh⟩
      simp only [List.getD_eq_getElem?_getD, List.getElem?_replicate] at onFresh
      split at onFresh <;> simp at onFresh

end LayoutTransfer


section Find

variable (nodes : Nodes F P M S) (name : Name) (prefixLen : Nat) (h : HashValue)

theorem findInChain_some {id : NodeId} :
    ∀ {fuel : Nat} {head back : Option NodeId} {cells : List NodeId},
      Chain (links nodes) head back cells →
      Hashtable.findInChain nodes name prefixLen h fuel head = some id →
      id ∈ cells ∧ ∃ n, nodes id = some n ∧ n.hash = h ∧ n.entry.name = name.take prefixLen
  | 0, _, _, _, _, found => by simp [Hashtable.findInChain] at found
  | fuel + 1, _, _, _, .nil _, found => by simp [Hashtable.findInChain] at found
  | fuel + 1, _, _, _, .cons cell back next rest here tail, found => by
      obtain ⟨n, stored, -⟩ : ∃ n, nodes cell = some n ∧ (n.prev, n.next) = (back, next) := by
        simpa [links] using here
      have nextIs : n.next = next := by
        simp only [links, stored, Option.map_some, Option.some.injEq, Prod.mk.injEq] at here
        exact here.2
      simp only [Hashtable.findInChain, stored] at found
      split at found
      · rename_i isMatch
        simp only [Option.some.injEq] at found
        subst found
        simp only [Bool.and_eq_true, beq_iff_eq] at isMatch
        exact ⟨List.mem_cons_self, n, stored, isMatch.1, isMatch.2.symm⟩
      · rw [nextIs] at found
        obtain ⟨member, rest⟩ := findInChain_some tail found
        exact ⟨List.mem_cons_of_mem _ member, rest⟩

theorem findInChain_none :
    ∀ {fuel : Nat} {head back : Option NodeId} {cells : List NodeId},
      Chain (links nodes) head back cells → cells.length ≤ fuel →
      Hashtable.findInChain nodes name prefixLen h fuel head = none →
      ∀ id ∈ cells, ∀ n, nodes id = some n → n.hash = h → n.entry.name ≠ name.take prefixLen
  | _, _, _, _, .nil _, _, _ => by simp
  | 0, _, _, _, .cons _ _ _ _ _ _, enough, _ => by simp at enough
  | fuel + 1, _, _, _, .cons cell back next rest here tail, enough, missing => by
      obtain ⟨n, stored, -⟩ : ∃ n, nodes cell = some n ∧ (n.prev, n.next) = (back, next) := by
        simpa [links] using here
      have nextIs : n.next = next := by
        simp only [links, stored, Option.map_some, Option.some.injEq, Prod.mk.injEq] at here
        exact here.2
      simp only [Hashtable.findInChain, stored] at missing
      split at missing
      · simp at missing
      · rename_i noMatch
        rw [nextIs] at missing
        intro id member m storedM hashIs nameIs
        rcases List.mem_cons.mp member with isCell | later
        · subst isCell
          rw [stored, Option.some.injEq] at storedM
          subst storedM
          simp [hashIs, nameIs] at noMatch
        · exact findInChain_none tail (by simp at enough; omega) missing id later m storedM hashIs
            nameIs

end Find

theorem Layout.chain_length_le {componentHash : Component → HashValue} {ht : Hashtable F P M S}
    {chains : List (List NodeId)} (layout : Layout componentHash ht chains) (b : Nat) :
    (chains.getD b []).length ≤ ht.size := by
  rw [layout.size_eq]
  cases atB : chains[b]? with
  | none => simp [atB]
  | some cells =>
      simp only [List.getD_eq_getElem?_getD, atB, Option.getD_some]
      exact (List.sublist_flatten_of_mem (List.mem_of_getElem? atB)).length_le

/-- A search of the bucket of `h` that finds nothing rules out every node with hash `h`
and name `name.getPrefix(prefixLen)`. -/
theorem Layout.absent_of_findInChain {componentHash : Component → HashValue} {ht : Hashtable F P M S}
    {chains : List (List NodeId)} (layout : Layout componentHash ht chains)
    {name : Name} {prefixLen : Nat} {h : HashValue}
    (missing : Hashtable.findInChain ht.nodes name prefixLen h ht.size
      (ht.buckets.getD (ht.computeBucketIndex h) none) = none) :
    ∀ id n, ht.nodes id = some n → n.hash = h → n.entry.name ≠ name.take prefixLen := by
  intro id n stored hashIs
  have onChain := layout.allocated id n stored
  rw [hashIs] at onChain
  exact findInChain_none ht.nodes name prefixLen h
    (layout.chain _ (layout.bucket_lt h)) (layout.chain_length_le _) missing id onChain n stored
    hashIs

end Nfd.NameTree
