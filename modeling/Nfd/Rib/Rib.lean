import Nfd.Name
import Nfd.Lib.DescendingSearch

/-!
# The routing information base

`Route`, `RibEntry` and `Rib` of the RIB service.  `m_rib` is a `std::map` ordered by
name; its entries are kept here as a list in that order, each entry under its own name
(the map's key is always the entry's `m_name`).  An entry points to its parent and its
children by name, which is how a `shared_ptr<RibEntry>` is told apart while every name has
one entry.  `m_faceEntries`, a multimap from face to entry, is a list ordered by face,
pairs of one face in the order they were added.

Route flags are the bit mask of `ndn::nfd::RouteFlags`; the expiry, its event and the
prefix announcement of a route are not read by the functions modelled here.
-/

set_option autoImplicit false

namespace Nfd.Rib

/-- `ndn::nfd::ROUTE_FLAG_CHILD_INHERIT`. -/
def routeFlagChildInherit : Nat := 1

/-- `ndn::nfd::ROUTE_FLAG_CAPTURE`. -/
def routeFlagCapture : Nat := 2

structure Route where
  faceId : Nat
  origin : Nat
  cost : Nat
  flags : Nat
deriving DecidableEq, Repr

namespace Route

def isChildInherit (route : Route) : Bool := route.flags &&& routeFlagChildInherit != 0

def isRibCapture (route : Route) : Bool := route.flags &&& routeFlagCapture != 0

end Route

/-- `compareFaceIdAndOrigin`: the key of a route within its entry. -/
def compareFaceIdAndOrigin (lhs rhs : Route) : Bool :=
  lhs.faceId == rhs.faceId && lhs.origin == rhs.origin

/-- `Rib::RouteSet`, a `std::set` ordered by `sortRoutes`, which compares face ids only:
one route per face, in increasing face order, and inserting a route on a face already
present leaves the set as it is. -/
abbrev RouteSet := List Route

namespace RouteSet

def insert (route : Route) : RouteSet → RouteSet
  | [] => [route]
  | r :: rest =>
      if route.faceId < r.faceId then route :: r :: rest
      else if r.faceId < route.faceId then r :: insert route rest
      else r :: rest

/-- `find(route)`: the member on the route's face. -/
def find (route : Route) (set : RouteSet) : Option Route := set.find? (·.faceId == route.faceId)

def erase (route : Route) (set : RouteSet) : RouteSet := set.filter (·.faceId != route.faceId)

/-- One route per face, in increasing face order. -/
def Sorted (set : RouteSet) : Prop := set.Pairwise fun a b => a.faceId < b.faceId

theorem mem_insert {route r : Route} {set : RouteSet} (mem : r ∈ insert route set) :
    r = route ∨ r ∈ set := by
  induction set with
  | nil => simpa [insert] using mem
  | cons s rest ih =>
      simp only [insert] at mem
      split_ifs at mem
      · simpa using mem
      · rcases List.mem_cons.mp mem with rfl | later
        · exact .inr (List.mem_cons_self ..)
        · rcases ih later with same | inRest
          · exact .inl same
          · exact .inr (List.mem_cons_of_mem _ inRest)
      · exact .inr mem

theorem sorted_insert (route : Route) {set : RouteSet} (sorted : Sorted set) :
    Sorted (insert route set) := by
  induction set with
  | nil => simp [Sorted, insert]
  | cons s rest ih =>
      have ⟨below, sortedRest⟩ := List.pairwise_cons.mp sorted
      simp only [insert]
      split_ifs with lt gt
      · refine List.Pairwise.cons (fun r mem => ?_) sorted
        rcases List.mem_cons.mp mem with rfl | later
        · exact lt
        · exact Nat.lt_trans lt (below r later)
      · refine List.Pairwise.cons (fun r mem => ?_) (ih sortedRest)
        rcases mem_insert mem with rfl | later
        · exact gt
        · exact below r later
      · exact sorted

theorem find_eq_none {x : Route} {set : RouteSet} (above : ∀ r ∈ set, x.faceId < r.faceId) :
    find x set = none := by
  simp only [find, List.find?_eq_none, beq_iff_eq]
  intro r mem same
  have := above r mem
  omega

theorem find_cons (x s : Route) (rest : RouteSet) :
    find x (s :: rest) = if s.faceId = x.faceId then some s else find x rest := by
  by_cases same : s.faceId = x.faceId <;> simp [find, same]

theorem find_insert (route : Route) {set : RouteSet} (sorted : Sorted set) (x : Route) :
    find x (insert route set) =
      (find x set).or (if route.faceId = x.faceId then some route else none) := by
  induction set with
  | nil => by_cases h : route.faceId = x.faceId <;> simp [find, insert, h]
  | cons s rest ih =>
      have ⟨below, sortedRest⟩ := List.pairwise_cons.mp sorted
      rcases Nat.lt_trichotomy route.faceId s.faceId with lt | same | gt
      · -- the route goes first, below every face of the set
        have first : insert route (s :: rest) = route :: s :: rest := by simp [insert, lt]
        by_cases onRoute : route.faceId = x.faceId
        · have missing : find x (s :: rest) = none := find_eq_none fun r mem => by
            rcases List.mem_cons.mp mem with rfl | later
            · omega
            · have := below r later
              omega
          simp [first, find_cons x route, onRoute, missing]
        · simp [first, find_cons x route, onRoute]
      · -- the set has a route on the face already
        have kept : insert route (s :: rest) = s :: rest := by simp [insert, same]
        by_cases onRoute : route.faceId = x.faceId
        · have onS : s.faceId = x.faceId := by omega
          simp [kept, find_cons, onS]
        · simp [kept, onRoute]
      · have later : insert route (s :: rest) = s :: insert route rest := by
          simp [insert, gt, Nat.not_lt_of_gt gt]
        rw [later, find_cons, find_cons, ih sortedRest]
        by_cases onS : s.faceId = x.faceId <;> simp [onS]

end RouteSet

/-- The first route, in list order, of lowest cost among those `p` accepts: a later route
replaces the candidate only with a strictly lower cost. -/
def lowestCost (p : Route → Bool) (routes : List Route) : Option Route :=
  routes.foldl
    (fun candidate route =>
      if p route then
        match candidate with
        | none => some route
        | some c => if route.cost < c.cost then some route else some c
      else candidate)
    none

structure RibEntry where
  name : Name
  routes : List Route
  parent : Option Name
  children : List Name
  inheritedRoutes : List Route
  -- a ‘uint64_t’, whose ‘--’ wraps below zero
  nRoutesWithCaptureSet : UInt64
deriving DecidableEq, Repr

namespace RibEntry

def new (name : Name) : RibEntry := ⟨name, [], none, [], [], 0⟩

/-- `findRoute`: the position of the route with the same face and origin. -/
def findRoute (route : Route) (entry : RibEntry) : Option Nat :=
  entry.routes.findIdx? (compareFaceIdAndOrigin · route)

/-- `insertRoute`: the entry, the position of the route, and whether it was inserted.  A
route already present (same face and origin) is left as it is. -/
def insertRoute (route : Route) (entry : RibEntry) : RibEntry × Nat × Bool :=
  match entry.findRoute route with
  | none =>
      ({ entry with
          routes := entry.routes ++ [route]
          nRoutesWithCaptureSet :=
            if route.isRibCapture then entry.nRoutesWithCaptureSet + 1
            else entry.nRoutesWithCaptureSet },
        entry.routes.length, true)
  | some i => (entry, i, false)

/-- `eraseRoute(iterator)`. -/
def eraseRouteAt (i : Nat) (entry : RibEntry) : RibEntry :=
  match entry.routes[i]? with
  | none => entry
  | some route =>
      { entry with
          routes := entry.routes.eraseIdx i
          nRoutesWithCaptureSet :=
            if route.isRibCapture then entry.nRoutesWithCaptureSet - 1
            else entry.nRoutesWithCaptureSet }

/-- `eraseRoute(const Route&)`. -/
def eraseRoute (route : Route) (entry : RibEntry) : RibEntry :=
  match entry.findRoute route with
  | none => entry
  | some i => entry.eraseRouteAt i

def hasFaceId (faceId : Nat) (entry : RibEntry) : Bool := entry.routes.any (·.faceId == faceId)

def getNRoutes (entry : RibEntry) : Nat := entry.routes.length

def addInheritedRoute (route : Route) (entry : RibEntry) : RibEntry :=
  { entry with inheritedRoutes := entry.inheritedRoutes ++ [route] }

/-- `removeInheritedRoute`: every inherited route on the route's face goes. -/
def removeInheritedRoute (route : Route) (entry : RibEntry) : RibEntry :=
  { entry with inheritedRoutes := entry.inheritedRoutes.filter (·.faceId != route.faceId) }

def hasInheritedRoute (route : Route) (entry : RibEntry) : Bool :=
  entry.inheritedRoutes.any (·.faceId == route.faceId)

def hasCapture (entry : RibEntry) : Bool := 0 < entry.nRoutesWithCaptureSet

def hasChildInheritOnFaceId (faceId : Nat) (entry : RibEntry) : Bool :=
  entry.routes.any fun route =>
    route.faceId == faceId && route.flags &&& routeFlagChildInherit != 0

def getRouteWithLowestCostByFaceId (faceId : Nat) (entry : RibEntry) : Option Route :=
  lowestCost (·.faceId == faceId) entry.routes

def getRouteWithLowestCostAndChildInheritByFaceId (faceId : Nat) (entry : RibEntry) :
    Option Route :=
  lowestCost
    (fun route => route.faceId == faceId && route.flags &&& routeFlagChildInherit == routeFlagChildInherit)
    entry.routes

/-- `getRouteWithSecondLowestCostByFaceId`.  `std::nth_element` may put any of several
routes of equal cost second; the model takes the order of a stable sort by cost. -/
def getRouteWithSecondLowestCostByFaceId (faceId : Nat) (entry : RibEntry) : Option Route :=
  let candidates := entry.routes.filter (·.faceId == faceId)
  if candidates.length < 2 then none
  else (candidates.mergeSort fun lhs rhs => lhs.cost ≤ rhs.cost)[1]?

end RibEntry

/-- `RibUpdate::Action`. -/
inductive Action where
  | register
  | unregister
  | removeFace
deriving DecidableEq, Repr

structure RibUpdate where
  action : Action
  name : Name
  route : Route
deriving DecidableEq, Repr

/-- A `RibUpdateBatch`: the face of its routes, and its updates. -/
structure RibUpdateBatch where
  faceId : Nat
  updates : List RibUpdate
deriving DecidableEq, Repr

end Nfd.Rib

namespace Nfd

structure Rib where
  table : List Rib.RibEntry
  faceEntries : List (Nat × Name)
  nItems : Nat
deriving DecidableEq, Repr

end Nfd

namespace Nfd.Rib

/-- Insert an entry before the first entry of a greater name, keeping `m_rib` in name
order. -/
def insertByName (entry : RibEntry) : List RibEntry → List RibEntry
  | [] => [entry]
  | e :: rest =>
      if Name.compare entry.name e.name == .lt then entry :: e :: rest
      else e :: insertByName entry rest

/-- `m_faceEntries.emplace(faceId, entry)`: after every pair of a face not greater. -/
def emplace (faceId : Nat) (name : Name) : List (Nat × Name) → List (Nat × Name)
  | [] => [(faceId, name)]
  | p :: rest => if faceId < p.1 then (faceId, name) :: p :: rest else p :: emplace faceId name rest

theorem count_emplace (faceId : Nat) (name : Name) (pairs : List (Nat × Name)) :
    (emplace faceId name pairs).count (faceId, name) = pairs.count (faceId, name) + 1 := by
  induction pairs with
  | nil => simp [emplace]
  | cons p rest ih =>
      simp only [emplace]
      split_ifs
      · simp [List.count_cons]
      · simp [List.count_cons, ih]
        omega

section Table

def empty : Rib := ⟨[], [], 0⟩

/-- `Rib::find(prefix)`. -/
def find (name : Name) (rib : Rib) : Option RibEntry := rib.table.find? (·.name == name)

/-- Apply `f` to the entry of `name`; what a member function called through its
`shared_ptr` does. -/
def modifyEntry (name : Name) (f : RibEntry → RibEntry) (rib : Rib) : Rib :=
  { rib with table := rib.table.map fun e => if e.name == name then f e else e }

/-- Store a changed entry under its name. -/
def setEntry (entry : RibEntry) (rib : Rib) : Rib := rib.modifyEntry entry.name fun _ => entry

/-- `parent->addChild(child)`. -/
def addChild (parent child : Name) (rib : Rib) : Rib :=
  (rib.modifyEntry child fun c => { c with parent := some parent }).modifyEntry parent
    fun p => { p with children := p.children ++ [child] }

/-- `parent->removeChild(child)`. -/
def removeChild (parent child : Name) (rib : Rib) : Rib :=
  (rib.modifyEntry child fun c => { c with parent := none }).modifyEntry parent
    fun p => { p with children := p.children.filter (· != child) }

/-- `findParent`: the entry of the longest proper prefix, probing `getPrefix(i)` for `i`
from `prefix.size() - 1` down to `0`. -/
def findParent (name : Name) (rib : Rib) : Option RibEntry :=
  match name.length with
  | 0 => none
  | n + 1 => DescendingSearch.firstDown (fun i => rib.find (name.take i)) n

/-- `findDescendants`: the names after `prefix` in map order, while `prefix` is a prefix
of them. -/
def findDescendants (name : Name) (rib : Rib) : List Name :=
  match rib.table.dropWhile (·.name != name) with
  | [] => []
  | _ :: rest => (rest.takeWhile fun e => name.isPrefixOf e.name).map RibEntry.name

/-- `findDescendantsForNonInsertedName`. -/
def findDescendantsForNonInsertedName (name : Name) (rib : Rib) : List RibEntry :=
  rib.table.filter fun e => name.isPrefixOf e.name

/-- The parent of the entry of `name`, as `child->getParent()` reads it. -/
def parentOf (name : Name) (rib : Rib) : Option Name := (rib.find name).bind (·.parent)

/-- The loop of `insert` over the descendants of a new entry: a descendant whose parent is
the new entry's parent moves under the new entry. -/
def adoptChild (name : Name) (parent : Option Name) (rib : Rib) (child : Name) : Rib :=
  if rib.parentOf child == parent then
    let detached := match parent with
      | some p => rib.removeChild p child
      | none => rib
    detached.addChild name child
  else rib

/-- `Rib::insert`.  A route already present is overwritten in place (`*entryIt = route`),
its flags included, and `m_nRoutesWithCaptureSet` is left as it was. -/
def insert (name : Name) (route : Route) (rib : Rib) : Rib :=
  match rib.find name with
  | some entry =>
      match entry.insertRoute route with
      | (inserted, _, true) =>
          { rib.setEntry inserted with
              nItems := rib.nItems + 1
              faceEntries := emplace route.faceId name rib.faceEntries }
      | (_, i, false) => rib.setEntry { entry with routes := entry.routes.set i route }
  | none =>
      let entry := ((RibEntry.new name).insertRoute route).1
      let added := { rib with table := insertByName entry rib.table, nItems := rib.nItems + 1 }
      let parent := (added.findParent name).map RibEntry.name
      let linked := match parent with
        | some p => added.addChild p name
        | none => added
      let adopted := (linked.findDescendants name).foldl (adoptChild name parent) linked
      { adopted with faceEntries := emplace route.faceId name adopted.faceEntries }

/-- A route of `/a` registered again with the capture flag, after a second origin on the
same face: the entry holds one capture route while `m_nRoutesWithCaptureSet` stays `0`, so
`hasCapture()` is false, and `m_faceEntries` holds the pair of face 1 and `/a` twice. -/
theorem reregister_capture_uncounted :
    let a : Name := [⟨8, [97]⟩]
    let rib := ((Rib.empty.insert a ⟨1, 0, 10, 0⟩).insert a ⟨1, 255, 10, 0⟩).insert a
      ⟨1, 0, 10, routeFlagCapture⟩
    (rib.find a).map (fun e => ((e.routes.filter Route.isRibCapture).length, e.hasCapture)) =
        some (1, false) ∧
      rib.faceEntries.count (1, a) = 2 := by
  decide

/-- `Rib::eraseEntry`: the entry's children move to its parent. -/
def eraseEntry (name : Name) (rib : Rib) : Rib :=
  match rib.find name with
  | none => rib
  | some entry =>
      let detached := match entry.parent with
        | some p => rib.removeChild p name
        | none => rib
      let moved := entry.children.foldl
        (fun r child =>
          let freed := r.removeChild name child
          match entry.parent with
          | some p => freed.addChild p child
          | none => freed)
        detached
      { moved with table := moved.table.filter (·.name != name) }

/-- `Rib::erase`.  The pair of the route's face and the entry leaves `m_faceEntries` (its
first occurrence) once the entry has no route on that face. -/
def erase (name : Name) (route : Route) (rib : Rib) : Rib :=
  match rib.find name with
  | none => rib
  | some entry =>
      match entry.findRoute route with
      | none => rib
      | some i =>
          let erased := entry.eraseRouteAt i
          let counted := { rib.setEntry erased with nItems := rib.nItems - 1 }
          let indexed :=
            if erased.hasFaceId route.faceId then counted
            else { counted with faceEntries := counted.faceEntries.erase (route.faceId, name) }
          if erased.routes.isEmpty then indexed.eraseEntry name else indexed

/- A route re-registered with the capture flag is left uncounted, so erasing it runs
‘m_nRoutesWithCaptureSet--’ from `0`: the counter wraps to the largest `uint64_t`, and the entry
reports a capture it no longer holds. -/
example :
    let a : Name := [⟨8, [97]⟩]
    let rib := (((Rib.empty.insert a ⟨1, 0, 10, 0⟩).insert a ⟨1, 255, 10, 0⟩).insert a
      ⟨1, 0, 10, routeFlagCapture⟩).erase a ⟨1, 0, 10, 0⟩
    (rib.find a).map (fun e => ((e.routes.filter Route.isRibCapture).length, e.nRoutesWithCaptureSet.toNat,
      e.hasCapture)) = some (0, 2 ^ 64 - 1, true) := by
  decide

/-- The walk of `getAncestorRoutes` up the parent pointers, collecting child-inherit routes
until an entry with capture.  The fuel is the number of entries. -/
def ancestorRoutesFrom (rib : Rib) : Nat → Option Name → RouteSet → RouteSet
  | 0, _, routes => routes
  | _, none, routes => routes
  | fuel + 1, some name, routes =>
      match rib.find name with
      | none => routes
      | some parent =>
          let collected := parent.routes.foldl
            (fun set route => if route.isChildInherit then RouteSet.insert route set else set) routes
          if parent.hasCapture then collected
          else ancestorRoutesFrom rib fuel parent.parent collected

/-- `getAncestorRoutes(const RibEntry&)`. -/
def getAncestorRoutes (entry : RibEntry) (rib : Rib) : RouteSet :=
  ancestorRoutesFrom rib rib.table.length entry.parent []

/-- `getAncestorRoutes(const Name&)`: from the parent `findParent` finds. -/
def getAncestorRoutesOfName (name : Name) (rib : Rib) : RouteSet :=
  ancestorRoutesFrom rib rib.table.length ((rib.findParent name).map RibEntry.name) []

/-- `Rib::modifyInheritedRoutes`. -/
def modifyInheritedRoutes (inheritedRoutes : List RibUpdate) (rib : Rib) : Rib :=
  inheritedRoutes.foldl
    (fun r update =>
      match update.action with
      | .register => r.modifyEntry update.name (·.addInheritedRoute update.route)
      | .unregister => r.modifyEntry update.name (·.removeInheritedRoute update.route)
      | .removeFace => r)
    rib

/-- The RIB side of `Rib::onFibUpdateSuccess`: apply the batch's updates, then the
inherited routes the FIB updater computed. -/
def applyBatch (batch : RibUpdateBatch) (inheritedRoutes : List RibUpdate) (rib : Rib) : Rib :=
  (batch.updates.foldl
      (fun r update =>
        match update.action with
        | .register => r.insert update.name update.route
        | .unregister | .removeFace => r.erase update.name update.route)
      rib).modifyInheritedRoutes inheritedRoutes

end Table

end Nfd.Rib
