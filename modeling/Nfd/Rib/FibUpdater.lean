import Nfd.Rib.Rib

/-!
# The FIB updater

`FibUpdater::computeUpdates` turns one `RibUpdateBatch` into the FIB commands
(`FibUpdate`s) that bring the forwarder's FIB in line with the RIB after the batch, and into
the inherited routes that `Rib::modifyInheritedRoutes` then records in the entries.  The
computation reads the RIB before the batch is applied and writes only the updater's own
lists: `m_inheritedRoutes`, and the FIB updates for the batch's face and for other faces.

The RIB's parent and children pointers are followed with the number of entries as fuel.

`ruleNextHop` states what the updates are meant to compute: the next hops that route
inheritance gives each RIB entry.
-/

set_option autoImplicit false

namespace Nfd.Rib

/-- `FibUpdate::Action`. -/
inductive FibAction where
  | addNexthop
  | removeNexthop
deriving DecidableEq, Repr

structure FibUpdate where
  name : Name
  faceId : Nat
  cost : Nat
  action : FibAction
deriving DecidableEq, Repr

namespace FibUpdate

def createAddUpdate (name : Name) (faceId cost : Nat) : FibUpdate := ⟨name, faceId, cost, .addNexthop⟩

/-- The cost of a removal is the default-constructed `0`. -/
def createRemoveUpdate (name : Name) (faceId : Nat) : FibUpdate := ⟨name, faceId, 0, .removeNexthop⟩

end FibUpdate

/-- The state `FibUpdater` keeps while it computes and sends one batch. -/
structure FibUpdater where
  batchFaceId : Nat
  inheritedRoutes : List RibUpdate
  updatesForBatchFaceId : List FibUpdate
  updatesForNonBatchFaceId : List FibUpdate
deriving DecidableEq, Repr

namespace FibUpdater

/-- An update for a name and face already in the list replaces its action and cost. -/
def replaceOrAppend (update : FibUpdate) : List FibUpdate → List FibUpdate
  | [] => [update]
  | other :: rest =>
      if update.name == other.name && update.faceId == other.faceId then
        { other with action := update.action, cost := update.cost } :: rest
      else other :: replaceOrAppend update rest

def addFibUpdate (update : FibUpdate) (s : FibUpdater) : FibUpdater :=
  if update.faceId == s.batchFaceId then
    { s with updatesForBatchFaceId := replaceOrAppend update s.updatesForBatchFaceId }
  else { s with updatesForNonBatchFaceId := replaceOrAppend update s.updatesForNonBatchFaceId }

def addInheritedRoute (name : Name) (route : Route) (s : FibUpdater) : FibUpdater :=
  { s with inheritedRoutes := s.inheritedRoutes ++ [⟨.register, name, route⟩] }

def removeInheritedRoute (name : Name) (route : Route) (s : FibUpdater) : FibUpdater :=
  { s with inheritedRoutes := s.inheritedRoutes ++ [⟨.unregister, name, route⟩] }

/-- `addInheritedRoutes(entry, routesToAdd)`: to the faces the entry has no route on. -/
def addInheritedRoutes (entry : RibEntry) (routesToAdd : RouteSet) (s : FibUpdater) : FibUpdater :=
  routesToAdd.foldl
    (fun s route =>
      if !entry.hasFaceId route.faceId then
        (s.addInheritedRoute entry.name route).addFibUpdate
          (.createAddUpdate entry.name route.faceId route.cost)
      else s)
    s

/-- `addInheritedRoutes(name, routesToAdd, ignore)`: to every face but the ignored route's. -/
def addInheritedRoutesToName (name : Name) (routesToAdd : RouteSet) (ignore : Route)
    (s : FibUpdater) : FibUpdater :=
  routesToAdd.foldl
    (fun s route =>
      if route.faceId != ignore.faceId then
        (s.addInheritedRoute name route).addFibUpdate (.createAddUpdate name route.faceId route.cost)
      else s)
    s

/-- `removeInheritedRoutes`: only the routes the entry inherited. -/
def removeInheritedRoutes (entry : RibEntry) (routesToRemove : RouteSet) (s : FibUpdater) :
    FibUpdater :=
  routesToRemove.foldl
    (fun s route =>
      if entry.hasInheritedRoute route then
        (s.removeInheritedRoute entry.name route).addFibUpdate
          (.createRemoveUpdate entry.name route.faceId)
      else s)
    s

/-- The removal loop of `traverseSubTree`: a route on a face where the entry has a
child-inherit route of its own is dropped from the set passed further down; the others
remove the entry's inherited route on their face, if it has one. -/
def pruneRemovals (entry : RibEntry) : RouteSet → FibUpdater → RouteSet × FibUpdater
  | [], s => ([], s)
  | route :: rest, s =>
      if entry.hasChildInheritOnFaceId route.faceId then pruneRemovals entry rest s
      else
        let s := if entry.hasInheritedRoute route then
            (s.removeInheritedRoute entry.name route).addFibUpdate
              (.createRemoveUpdate entry.name route.faceId)
          else s
        let (kept, s) := pruneRemovals entry rest s
        (route :: kept, s)

/-- The addition loop of `traverseSubTree`: a route is dropped as above, and the others are
inherited on the faces the entry has no route on. -/
def pruneAdditions (entry : RibEntry) : RouteSet → FibUpdater → RouteSet × FibUpdater
  | [], s => ([], s)
  | route :: rest, s =>
      if entry.hasChildInheritOnFaceId route.faceId then pruneAdditions entry rest s
      else
        let s := if !entry.hasFaceId route.faceId then
            (s.addInheritedRoute entry.name route).addFibUpdate
              (.createAddUpdate entry.name route.faceId route.cost)
          else s
        let (kept, s) := pruneAdditions entry rest s
        (route :: kept, s)

variable (rib : Rib)

/-- Run `f` on the entry of each child, in order. -/
def forChildren (f : RibEntry → FibUpdater → FibUpdater) (children : List Name) (s : FibUpdater) :
    FibUpdater :=
  children.foldl
    (fun s child =>
      match rib.find child with
      | some c => f c s
      | none => s)
    s

/-- `traverseSubTree`: an entry with capture stops the walk into its subtree. -/
def traverseSubTree : Nat → RibEntry → RouteSet → RouteSet → FibUpdater → FibUpdater
  | 0, _, _, _, s => s
  | fuel + 1, entry, routesToAdd, routesToRemove, s =>
      if entry.hasCapture then s
      else
        let (routesToRemove, s) := pruneRemovals entry routesToRemove s
        let (routesToAdd, s) := pruneAdditions entry routesToAdd s
        forChildren rib (fun c => traverseSubTree fuel c routesToAdd routesToRemove) entry.children s

def modifyChildrensInheritedRoutes (children : List Name) (routesToAdd routesToRemove : RouteSet)
    (s : FibUpdater) : FibUpdater :=
  forChildren rib (fun c => traverseSubTree rib rib.table.length c routesToAdd routesToRemove)
    children s

def createFibUpdatesForNewRibEntry (name : Name) (route : Route) (children : List Name)
    (s : FibUpdater) : FibUpdater :=
  let s := s.addFibUpdate (.createAddUpdate name route.faceId route.cost)
  if !route.isChildInherit && !route.isRibCapture then
    s.addInheritedRoutesToName name (rib.getAncestorRoutesOfName name) route
  else if route.isChildInherit && route.isRibCapture then
    modifyChildrensInheritedRoutes rib children (RouteSet.insert route [])
      (rib.getAncestorRoutesOfName name) s
  else if route.isChildInherit then
    let ancestorRoutes := rib.getAncestorRoutesOfName name
    let s := s.addInheritedRoutesToName name ancestorRoutes route
    -- an ancestor route on the new route's face is replaced by the new route
    let ancestorRoutes := RouteSet.insert route (RouteSet.erase route ancestorRoutes)
    modifyChildrensInheritedRoutes rib children ancestorRoutes [] s
  else
    modifyChildrensInheritedRoutes rib children [] (rib.getAncestorRoutesOfName name) s

def createFibUpdatesForNewRoute (entry : RibEntry) (route : Route) (captureWasTurnedOn : Bool)
    (s : FibUpdater) : FibUpdater :=
  let prevRoute := entry.getRouteWithLowestCostAndChildInheritByFaceId route.faceId
  let routesToAdd :=
    if route.isChildInherit && prevRoute.all (route.cost ≤ ·.cost) then RouteSet.insert route []
    else []
  let routesToRemove := if captureWasTurnedOn then rib.getAncestorRoutes entry else []
  let s := if captureWasTurnedOn then s.removeInheritedRoutes entry routesToRemove else s
  let s := modifyChildrensInheritedRoutes rib entry.children routesToAdd routesToRemove s
  -- the FIB update comes last, so that it replaces a removal computed above
  if (entry.getRouteWithLowestCostByFaceId route.faceId).all (route.cost ≤ ·.cost) then
    s.addFibUpdate (.createAddUpdate entry.name route.faceId route.cost)
  else s

/-- The cost part of `createFibUpdatesForUpdatedRoute`, and whether it returned early. -/
def updatedCost (entry : RibEntry) (route existingRoute : Route) (prevRoute : Option Route)
    (s : FibUpdater) : FibUpdater × Bool :=
  -- the entry holds the updated route, so it has a lowest route on the face
  match entry.getRouteWithLowestCostByFaceId route.faceId with
  | none => (s, false)
  | some lowest =>
      let s :=
        if route.cost ≤ lowest.cost then
          s.addFibUpdate (.createAddUpdate entry.name route.faceId route.cost)
        else if existingRoute.cost < lowest.cost then
          -- `prevRoute->faceId` and `prevRoute->cost`: a null `prevRoute` is dereferenced
          -- in the source; the model adds nothing then
          match prevRoute with
          | some prev => s.addFibUpdate (.createAddUpdate entry.name prev.faceId prev.cost)
          | none => s
        else s
      if prevRoute.all (route.cost ≤ ·.cost) && route.flags == existingRoute.flags &&
          route.isChildInherit then
        (modifyChildrensInheritedRoutes rib entry.children (RouteSet.insert route []) [] s, true)
      else (s, false)

def createFibUpdatesForUpdatedRoute (entry : RibEntry) (route existingRoute : Route)
    (s : FibUpdater) : FibUpdater :=
  let costDidChange := route.cost != existingRoute.cost
  let prevRoute := entry.getRouteWithLowestCostAndChildInheritByFaceId route.faceId
  if route.flags == existingRoute.flags && !costDidChange then s
  else
    let (s, returned) :=
      if costDidChange then updatedCost rib entry route existingRoute prevRoute s else (s, false)
    if returned then s
    else
      let s :=
        if !existingRoute.isChildInherit && route.isChildInherit then
          if prevRoute.all (route.cost ≤ ·.cost) then
            modifyChildrensInheritedRoutes rib entry.children (RouteSet.insert route []) [] s
          else s
        else if existingRoute.isChildInherit && !route.isChildInherit then
          let routesToAdd := match prevRoute with
            | some prev => RouteSet.insert prev []
            | none =>
                match RouteSet.find route (rib.getAncestorRoutes entry) with
                | some ancestor => RouteSet.insert ancestor []
                | none => []
          modifyChildrensInheritedRoutes rib entry.children routesToAdd (RouteSet.insert route []) s
        else s
      if !existingRoute.isRibCapture && route.isRibCapture then
        let ancestorRoutes := rib.getAncestorRoutes entry
        let s := s.removeInheritedRoutes entry ancestorRoutes
        modifyChildrensInheritedRoutes rib entry.children [] ancestorRoutes s
      else if existingRoute.isRibCapture && !route.isRibCapture then
        let ancestorRoutes := rib.getAncestorRoutes entry
        let s := s.addInheritedRoutes entry ancestorRoutes
        modifyChildrensInheritedRoutes rib entry.children ancestorRoutes [] s
      else s

/-- The ancestors' routes an entry takes back when its capture goes. -/
def uncapturedRoutes (entry : RibEntry) (captureWasTurnedOff : Bool) : RouteSet :=
  if captureWasTurnedOff && entry.getNRoutes != 0 then rib.getAncestorRoutes entry else []

def createFibUpdatesForErasedRoute (entry : RibEntry) (route : Route) (captureWasTurnedOff : Bool)
    (s : FibUpdater) : FibUpdater :=
  let s := s.addFibUpdate (.createRemoveUpdate entry.name route.faceId)
  let s :=
    if route.isChildInherit && route.isRibCapture then
      let routesToAdd := uncapturedRoutes rib entry captureWasTurnedOff
      let s := s.addInheritedRoutes entry routesToAdd
      modifyChildrensInheritedRoutes rib entry.children routesToAdd (RouteSet.insert route []) s
    else if route.isChildInherit then
      let routesToAdd := if !entry.hasCapture then rib.getAncestorRoutes entry else []
      modifyChildrensInheritedRoutes rib entry.children routesToAdd (RouteSet.insert route []) s
    else if route.isRibCapture then
      let routesToAdd := uncapturedRoutes rib entry captureWasTurnedOff
      let s := s.addInheritedRoutes entry routesToAdd
      modifyChildrensInheritedRoutes rib entry.children routesToAdd [] s
    else s
  -- the erased route may have hidden an ancestor's route on its face
  if !entry.hasCapture && entry.getNRoutes != 0 then
    match RouteSet.find route (rib.getAncestorRoutes entry) with
    | some ancestor =>
        (s.addInheritedRoute entry.name ancestor).addFibUpdate
          (.createAddUpdate entry.name ancestor.faceId ancestor.cost)
    | none => s
  else s

def createFibUpdatesForErasedRibEntry (entry : RibEntry) (s : FibUpdater) : FibUpdater :=
  entry.inheritedRoutes.foldl
    (fun s route => s.addFibUpdate (.createRemoveUpdate entry.name route.faceId)) s

def computeUpdatesForRegistration (update : RibUpdate) (s : FibUpdater) : FibUpdater :=
  let route := update.route
  match rib.find update.name with
  | some entry =>
      match entry.findRoute route with
      | none =>
          createFibUpdatesForNewRoute rib entry route (!entry.hasCapture && route.isRibCapture) s
      | some i =>
          match entry.routes[i]? with
          | none => s
          | some existingRoute =>
              let entryCopy := { entry with
                routes := entry.routes.modify i fun r => { r with flags := route.flags, cost := route.cost } }
              createFibUpdatesForUpdatedRoute rib entryCopy route existingRoute s
  | none =>
      let parent := (rib.findParent update.name).map RibEntry.name
      -- the descendants whose parent the new entry takes over
      let children := ((rib.findDescendantsForNonInsertedName update.name).filter
        fun descendant => descendant.parent == parent).map RibEntry.name
      createFibUpdatesForNewRibEntry rib update.name route children s

def computeUpdatesForUnregistration (update : RibUpdate) (s : FibUpdater) : FibUpdater :=
  let route := update.route
  match rib.find update.name with
  | none => s
  | some entry =>
      match entry.findRoute route with
      | none => s
      | some i =>
          match entry.routes[i]? with
          | none => s
          | some existing =>
              let temp := entry.eraseRoute route
              let captureWasTurnedOff := entry.hasCapture && !temp.hasCapture
              let s := createFibUpdatesForErasedRoute rib temp existing captureWasTurnedOff s
              -- another route on the face now gives the entry's cost on it
              let s := match entry.getRouteWithSecondLowestCostByFaceId route.faceId with
                | some next => createFibUpdatesForNewRoute rib temp next false s
                | none => s
              if entry.getNRoutes == 1 then createFibUpdatesForErasedRibEntry entry s else s

/-- One update of `computeUpdates`.  The updates for the face of a `REMOVE_FACE` are dropped,
since the forwarder has already removed that face. -/
def computeUpdate (s : FibUpdater) (update : RibUpdate) : FibUpdater :=
  match update.action with
  | .register => computeUpdatesForRegistration rib update s
  | .unregister => computeUpdatesForUnregistration rib update s
  | .removeFace => { computeUpdatesForUnregistration rib update s with updatesForBatchFaceId := [] }

/-- `computeAndSendFibUpdates` up to the sending: the lists are cleared and refilled. -/
def computeUpdates (batch : RibUpdateBatch) : FibUpdater :=
  batch.updates.foldl (computeUpdate rib) ⟨batch.faceId, [], [], []⟩

end FibUpdater

/-- The forwarder's FIB as the RIB service sees it: the cost of the next hop of a name on a
face, if there is one. -/
abbrev FibView := Name → Nat → Option Nat

/-- What a FIB command does once the forwarder has accepted it. -/
def applyFibUpdate (fib : FibView) (update : FibUpdate) : FibView := fun name faceId =>
  if name = update.name ∧ faceId = update.faceId then
    match update.action with
    | .addNexthop => some update.cost
    | .removeNexthop => none
  else fib name faceId

/-- The updates of a batch whose commands all succeed, batch face first. -/
def FibUpdater.updates (s : FibUpdater) : List FibUpdate :=
  s.updatesForBatchFaceId ++ s.updatesForNonBatchFaceId

/-- A batch whose FIB commands all succeed: the updates it sends, and the RIB after
`Rib::onFibUpdateSuccess`. -/
def applyUpdate (rib : Rib) (batch : RibUpdateBatch) : Rib × List FibUpdate :=
  let s := FibUpdater.computeUpdates rib batch
  (rib.applyBatch batch s.inheritedRoutes, s.updates)

/-- A batch of one update, as `Rib::addUpdateToQueue` makes it. -/
def RibUpdate.batch (update : RibUpdate) : RibUpdateBatch := ⟨update.route.faceId, [update]⟩

/-- Batches applied one after another from a RIB, every FIB command succeeding. -/
def applyUpdates (rib : Rib) (updates : List RibUpdate) : Rib :=
  updates.foldl (fun r update => (applyUpdate r update.batch).1) rib

section Rule

/-- The least cost of a list of routes. -/
def minCost (routes : List Route) : Option Nat := (routes.map Route.cost).min?

/-- Inheritance from the entries of `name.getPrefix(k - 1)`, …, `name.getPrefix(0)`: the
nearest one with a child-inherit route on the face gives its least such cost, and the
search stops after an entry with a capture route. -/
def inheritedCost (rib : Rib) (name : Name) (faceId : Nat) : Nat → Option Nat
  | 0 => none
  | k + 1 =>
      match rib.find (name.take k) with
      | none => inheritedCost rib name faceId k
      | some ancestor =>
          match minCost (ancestor.routes.filter fun r => r.faceId == faceId && r.isChildInherit) with
          | some cost => some cost
          | none =>
              if ancestor.routes.any Route.isRibCapture then none
              else inheritedCost rib name faceId k

/-- Route inheritance: the next hop cost the RIB gives an entry on a face.  The entry's own
routes on the face give their least cost; an entry without them and without a capture route
inherits from its nearest ancestor with a child-inherit route on the face. -/
def ruleNextHop (rib : Rib) : FibView := fun name faceId =>
  match rib.find name with
  | none => none
  | some entry =>
      match minCost (entry.routes.filter (·.faceId == faceId)) with
      | some cost => some cost
      | none =>
          if entry.routes.any Route.isRibCapture then none
          else inheritedCost rib name faceId name.length

/-- Two child-inherit routes of `/a` on face 1, of costs 10 and 5 (origins 0 and 65), then
a route of `/a/b` on face 2: the updates install `/a/b` on face 1 at cost 10, the cost of
the first of the two in `/a`'s list, where route inheritance gives their least cost, 5. -/
theorem registerChild_inheritsFirstOriginCost :
    let a : Name := [⟨8, [97]⟩]
    let ab : Name := a ++ [⟨8, [98]⟩]
    let rib := applyUpdates Rib.empty
      [⟨.register, a, ⟨1, 0, 10, routeFlagChildInherit⟩⟩,
        ⟨.register, a, ⟨1, 65, 5, routeFlagChildInherit⟩⟩]
    let (after, updates) := applyUpdate rib (RibUpdate.batch ⟨.register, ab, ⟨2, 0, 1, 0⟩⟩)
    updates.foldl applyFibUpdate (ruleNextHop rib) ab 1 = some 10 ∧
      ruleNextHop after ab 1 = some 5 := by
  decide

end Rule

end Nfd.Rib
