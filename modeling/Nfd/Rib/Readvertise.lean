import Nfd.Rib.Rib

/-!
# Readvertising RIB routes

`Readvertise` follows the RIB's `afterAddRoute` and `beforeRemoveRoute` signals and keeps,
for each prefix its policy readvertises, a `ReadvertisedRoute` counting the RIB routes
behind it; the first route advertises the prefix to the destination and the last one's
removal withdraws it.  The destination answers each advertise and withdraw later, with
success or failure, and the answer's callback acts on the `ReadvertisedRoute` the call
captured (an iterator into `m_rrs`); a success of advertise arms a refresh, a failure a
retry, each as the route's one `retryEvt` (a `ScopedEventId`: arming it cancels the event
it held, and erasing the route cancels it too).

A `ReadvertisedRoute` is told apart by a number given when it is created, standing for its
iterator.  A callback or event whose route has been erased is a dangling iterator in the
source; the model records it and changes nothing.  The log records each call of advertise
and withdraw with the route's `nRibRoutes` at that moment, and each erasure with whether a
`m_routeToRr` entry or an unanswered call still names the route.  Timer durations are not
modelled: an armed event may fire at any later step.  The signer of a readvertisement is
passed along to the destination and read by nothing here, so it is left out.
-/

set_option autoImplicit false

namespace Nfd.Rib

/-- `Readvertise::RETRY_DELAY_MIN`, 50 s in milliseconds. -/
def retryDelayMin : Nat := 50000

/-- `Readvertise::RETRY_DELAY_MAX`, 1 h in milliseconds. -/
def retryDelayMax : Nat := 3600000

/-- `RibRouteRef`, as its `operator<` tells routes apart: the entry's name, the route's face
and origin. -/
structure RibRouteRef where
  name : Name
  faceId : Nat
  origin : Nat
deriving DecidableEq, Repr

/-- `ndn::nfd::ROUTE_ORIGIN_CLIENT`. -/
def routeOriginClient : Nat := 65

/-- `ClientToNlsrReadvertisePolicy::handleNewRoute`: client routes are readvertised under
their own name. -/
def clientToNlsrPolicy (ribRoute : RibRouteRef) : Option Name :=
  if ribRoute.origin == routeOriginClient then some ribRoute.name else none

/-- What the destination is asked to do, and what an armed event calls. -/
inductive Call where
  | advertise
  | withdraw
deriving DecidableEq, Repr

structure ReadvertisedRoute where
  id : Nat
  prefixName : Name
  nRibRoutes : Nat
  retryDelay : Nat
  retryEvt : Option Call
deriving DecidableEq, Repr

/-- A call to the destination not yet answered, and the route its callbacks captured. -/
structure Pending where
  call : Call
  rr : Nat
deriving DecidableEq, Repr

inductive ReadvertiseEvent where
  | called (call : Call) (rr : Nat) (nRibRoutes : Nat)
  | erased (rr : Nat) (referenced : Bool)
  | dangling (rr : Nat)
deriving DecidableEq, Repr

structure Readvertise where
  rrs : List ReadvertisedRoute
  routeToRr : List (RibRouteRef × Nat)
  pending : List Pending
  isAvailable : Bool
  nextId : Nat
  log : List ReadvertiseEvent
deriving DecidableEq, Repr

namespace Readvertise

def initial : Readvertise := ⟨[], [], [], false, 0, []⟩

def emit (event : ReadvertiseEvent) (r : Readvertise) : Readvertise := { r with log := r.log ++ [event] }

def findRr (id : Nat) (r : Readvertise) : Option ReadvertisedRoute := r.rrs.find? (·.id == id)

def modifyRr (id : Nat) (f : ReadvertisedRoute → ReadvertisedRoute) (r : Readvertise) :
    Readvertise :=
  { r with rrs := r.rrs.map fun rr => if rr.id == id then f rr else rr }

/-- Whether an entry of `m_routeToRr` or an unanswered call names the route. -/
def referenced (id : Nat) (r : Readvertise) : Bool :=
  r.routeToRr.any (·.2 == id) || r.pending.any (·.rr == id)

/-- `m_rrs.erase(rrIt)`, which also cancels the route's event. -/
def eraseRr (id : Nat) (r : Readvertise) : Readvertise :=
  { r with rrs := r.rrs.filter (·.id != id) }.emit (.erased id (r.referenced id))

/-- `Readvertise::advertise`. -/
def advertise (id : Nat) (r : Readvertise) : Readvertise :=
  match r.findRr id with
  | none => r.emit (.dangling id)
  | some rr =>
      let r := r.emit (.called .advertise id rr.nRibRoutes)
      if !r.isAvailable then r
      else { r with pending := r.pending ++ [⟨.advertise, id⟩] }

/-- `Readvertise::withdraw`. -/
def withdraw (id : Nat) (r : Readvertise) : Readvertise :=
  match r.findRr id with
  | none => r.emit (.dangling id)
  | some rr =>
      let r := r.emit (.called .withdraw id rr.nRibRoutes)
      if !r.isAvailable then r.eraseRr id
      else { r with pending := r.pending ++ [⟨.withdraw, id⟩] }

def call : Call → Nat → Readvertise → Readvertise
  | .advertise => advertise
  | .withdraw => withdraw

/-- The doubled retry delay, at most `RETRY_DELAY_MAX`. -/
def backOff (delay : Nat) : Nat := min retryDelayMax (delay * 2)

/-- The route for a prefix: the one in `m_rrs`, or a new one (`m_rrs.emplace`). -/
def emplaceRr (prefixName : Name) (r : Readvertise) : Readvertise × Nat :=
  match r.rrs.find? (·.prefixName == prefixName) with
  | some rr => (r, rr.id)
  | none => ({ r with rrs := r.rrs ++ [⟨r.nextId, prefixName, 0, 0, none⟩], nextId := r.nextId + 1 },
      r.nextId)

variable (policy : RibRouteRef → Option Name)

/-- `Readvertise::afterAddRoute`. -/
def afterAddRoute (ribRoute : RibRouteRef) (r : Readvertise) : Readvertise :=
  match policy ribRoute with
  | none => r
  | some prefixName =>
      let (r, id) := r.emplaceRr prefixName
      -- `m_routeToRr.emplace` keeps an entry already there
      let r := if r.routeToRr.any (·.1 == ribRoute) then r
        else { r with routeToRr := r.routeToRr ++ [(ribRoute, id)] }
      match r.findRr id with
      | none => r
      | some rr =>
          let r := r.modifyRr id fun rr => { rr with nRibRoutes := rr.nRibRoutes + 1 }
          if rr.nRibRoutes > 0 then r
          else (r.modifyRr id fun rr => { rr with retryDelay := retryDelayMin }).advertise id

/-- `Readvertise::beforeRemoveRoute`. -/
def beforeRemoveRoute (ribRoute : RibRouteRef) (r : Readvertise) : Readvertise :=
  match r.routeToRr.find? (·.1 == ribRoute) with
  | none => r
  | some (_, id) =>
      let r := { r with routeToRr := r.routeToRr.filter (·.1 != ribRoute) }
      match r.findRr id with
      | none => r
      | some rr =>
          let r := r.modifyRr id fun rr => { rr with nRibRoutes := rr.nRibRoutes - 1 }
          if rr.nRibRoutes - 1 > 0 then r
          else (r.modifyRr id fun rr => { rr with retryDelay := retryDelayMin }).withdraw id

/-- `afterDestinationAvailable`: every route is advertised again. -/
def afterDestinationAvailable (r : Readvertise) : Readvertise :=
  r.rrs.foldl
    (fun r rr => (r.modifyRr rr.id fun rr => { rr with retryDelay := retryDelayMin }).advertise rr.id) r

/-- `afterDestinationUnavailable`: routes still needed stop their events, the others are
taken as withdrawn and erased. -/
def afterDestinationUnavailable (r : Readvertise) : Readvertise :=
  r.rrs.foldl
    (fun r rr =>
      if rr.nRibRoutes > 0 then r.modifyRr rr.id fun rr => { rr with retryEvt := none }
      else r.eraseRr rr.id)
    r

/-- `ReadvertiseDestination::setAvailability`: the signal fires only on a change. -/
def setAvailability (isAvailable : Bool) (r : Readvertise) : Readvertise :=
  if r.isAvailable == isAvailable then r
  else
    let r := { r with isAvailable := isAvailable }
    if isAvailable then r.afterDestinationAvailable else r.afterDestinationUnavailable

/-- The callbacks of an answered call. -/
def answer (pending : Pending) (ok : Bool) (r : Readvertise) : Readvertise :=
  match r.findRr pending.rr with
  | none => r.emit (.dangling pending.rr)
  | some rr =>
      match pending.call, ok with
      | .advertise, true =>
          r.modifyRr rr.id fun rr => { rr with retryDelay := retryDelayMin, retryEvt := some .advertise }
      | .advertise, false =>
          r.modifyRr rr.id fun rr =>
            { rr with retryDelay := backOff rr.retryDelay, retryEvt := some .advertise }
      | .withdraw, true => r.eraseRr rr.id
      | .withdraw, false =>
          r.modifyRr rr.id fun rr =>
            { rr with retryDelay := backOff rr.retryDelay, retryEvt := some .withdraw }

/-- The armed event of a route fires. -/
def fire (id : Nat) (r : Readvertise) : Readvertise :=
  match r.findRr id with
  | none => r
  | some rr =>
      match rr.retryEvt with
      | none => r
      | some c => (r.modifyRr id fun rr => { rr with retryEvt := none }).call c id

/-- The environment's inputs: the RIB's signals, the destination's answer to the call at a
position, the event of a route firing, and availability changes. -/
inductive Input where
  | afterAddRoute (ribRoute : RibRouteRef)
  | beforeRemoveRoute (ribRoute : RibRouteRef)
  | respond (position : Nat) (ok : Bool)
  | fire (rr : Nat)
  | setAvailability (isAvailable : Bool)
deriving DecidableEq, Repr

def step (r : Readvertise) : Input → Readvertise
  | .afterAddRoute ribRoute => r.afterAddRoute policy ribRoute
  | .beforeRemoveRoute ribRoute => r.beforeRemoveRoute ribRoute
  | .respond position ok =>
      match r.pending[position]? with
      | none => r
      | some pending => { r with pending := r.pending.eraseIdx position }.answer pending ok
  | .fire id => r.fire id
  | .setAvailability isAvailable => r.setAvailability isAvailable

def run (r : Readvertise) (inputs : List Input) : Readvertise := inputs.foldl (step policy) r

section Delays

/-- The retry delay of a readvertised route lies in `[RETRY_DELAY_MIN, RETRY_DELAY_MAX]`. -/
def InRange (rr : ReadvertisedRoute) : Prop := retryDelayMin ≤ rr.retryDelay ∧ rr.retryDelay ≤ retryDelayMax

/-- The routes' numbers are below the next one to be given, and every delay is in range. -/
structure DelaysInRange (r : Readvertise) : Prop where
  below : ∀ rr ∈ r.rrs, rr.id < r.nextId
  inRange : ∀ rr ∈ r.rrs, InRange rr

theorem inRange_backOff {delay : Nat} (inRange : retryDelayMin ≤ delay ∧ delay ≤ retryDelayMax) :
    retryDelayMin ≤ backOff delay ∧ backOff delay ≤ retryDelayMax := by
  simp only [backOff, retryDelayMin, retryDelayMax] at *
  omega

variable {r : Readvertise}

@[simp] theorem emit_rrs (event : ReadvertiseEvent) : (r.emit event).rrs = r.rrs := rfl
@[simp] theorem emit_nextId (event : ReadvertiseEvent) : (r.emit event).nextId = r.nextId := rfl
@[simp] theorem modifyRr_nextId (id : Nat) (f : ReadvertisedRoute → ReadvertisedRoute) :
    (r.modifyRr id f).nextId = r.nextId := rfl

/-- Routes only leave, and no number is given. -/
theorem DelaysInRange.of_sublist {r' : Readvertise} (inv : DelaysInRange r) (sub : r'.rrs.Sublist r.rrs)
    (sameNext : r'.nextId = r.nextId) : DelaysInRange r' where
  below rr mem := sameNext ▸ inv.below rr (sub.subset mem)
  inRange rr mem := inv.inRange rr (sub.subset mem)

theorem DelaysInRange.emit (inv : DelaysInRange r) (event : ReadvertiseEvent) :
    DelaysInRange (r.emit event) :=
  inv.of_sublist (List.Sublist.refl _) rfl

theorem DelaysInRange.eraseRr (inv : DelaysInRange r) (id : Nat) : DelaysInRange (r.eraseRr id) :=
  inv.of_sublist List.filter_sublist rfl

theorem advertise_rrs (id : Nat) : (r.advertise id).rrs = r.rrs := by
  unfold Readvertise.advertise
  split
  · rfl
  · dsimp only
    split <;> rfl

theorem advertise_nextId (id : Nat) : (r.advertise id).nextId = r.nextId := by
  unfold Readvertise.advertise
  split
  · rfl
  · dsimp only
    split <;> rfl

theorem withdraw_rrs (id : Nat) : (r.withdraw id).rrs.Sublist r.rrs := by
  unfold Readvertise.withdraw
  split
  · exact List.Sublist.refl _
  · dsimp only
    split
    · exact List.filter_sublist
    · exact List.Sublist.refl _

theorem withdraw_nextId (id : Nat) : (r.withdraw id).nextId = r.nextId := by
  unfold Readvertise.withdraw
  split
  · rfl
  · dsimp only
    split <;> rfl

theorem DelaysInRange.advertise (inv : DelaysInRange r) (id : Nat) : DelaysInRange (r.advertise id) :=
  inv.of_sublist (by rw [advertise_rrs]) (advertise_nextId id)

theorem DelaysInRange.withdraw (inv : DelaysInRange r) (id : Nat) : DelaysInRange (r.withdraw id) :=
  inv.of_sublist (withdraw_rrs id) (withdraw_nextId id)

theorem DelaysInRange.call (inv : DelaysInRange r) (c : Call) (id : Nat) : DelaysInRange (r.call c id) := by
  cases c
  · exact inv.advertise id
  · exact inv.withdraw id

/-- A change of the route `id` that keeps its number and leaves it in range, from a state
where every other route is in range. -/
theorem DelaysInRange.modifyRr {id : Nat} {f : ReadvertisedRoute → ReadvertisedRoute}
    (below : ∀ rr ∈ r.rrs, rr.id < r.nextId) (others : ∀ rr ∈ r.rrs, rr.id ≠ id → InRange rr)
    (keepsId : ∀ rr, (f rr).id = rr.id) (target : ∀ rr ∈ r.rrs, rr.id = id → InRange (f rr)) :
    DelaysInRange (r.modifyRr id f) where
  below rr mem := by
    obtain ⟨old, oldMem, rfl⟩ := List.mem_map.mp mem
    by_cases same : old.id = id
    · simpa [same, keepsId] using below old oldMem
    · simpa [same] using below old oldMem
  inRange rr mem := by
    obtain ⟨old, oldMem, rfl⟩ := List.mem_map.mp mem
    by_cases same : old.id = id
    · simpa [same] using target old oldMem same
    · simpa [same] using others old oldMem same

theorem DelaysInRange.modifyRr_keep (inv : DelaysInRange r) (id : Nat)
    (f : ReadvertisedRoute → ReadvertisedRoute) (keepsId : ∀ rr, (f rr).id = rr.id)
    (keeps : ∀ rr, InRange rr → InRange (f rr)) : DelaysInRange (r.modifyRr id f) :=
  DelaysInRange.modifyRr inv.below (fun rr mem _ => inv.inRange rr mem) keepsId
    fun rr mem _ => keeps rr (inv.inRange rr mem)

theorem DelaysInRange.setMin (inv : DelaysInRange r) (id : Nat) :
    DelaysInRange (r.modifyRr id fun rr => { rr with retryDelay := retryDelayMin }) :=
  inv.modifyRr_keep id _ (fun _ => rfl) fun _ _ => by simp [InRange, retryDelayMin, retryDelayMax]

theorem mem_modifyRr {id : Nat} {f : ReadvertisedRoute → ReadvertisedRoute} {x : ReadvertisedRoute}
    (mem : x ∈ (r.modifyRr id f).rrs) (keepsId : ∀ rr, (f rr).id = rr.id) :
    ∃ old ∈ r.rrs, old.id = x.id ∧ (x.id ≠ id → x = old) := by
  obtain ⟨old, oldMem, rfl⟩ := List.mem_map.mp mem
  by_cases same : old.id = id
  · exact ⟨old, oldMem, by simp [same, keepsId], fun other => absurd (by simp [same, keepsId]) other⟩
  · exact ⟨old, oldMem, by simp [same], fun _ => by simp [same]⟩

/-- The tail of `afterAddRoute` for a route already in `m_rrs`. -/
theorem DelaysInRange.countRoute (inv : DelaysInRange r) (id : Nat) :
    DelaysInRange (match r.findRr id with
      | none => r
      | some rr =>
          let r := r.modifyRr id fun rr => { rr with nRibRoutes := rr.nRibRoutes + 1 }
          if rr.nRibRoutes > 0 then r
          else (r.modifyRr id fun rr => { rr with retryDelay := retryDelayMin }).advertise id) := by
  split
  · exact inv
  · have counted := inv.modifyRr_keep id (fun rr => { rr with nRibRoutes := rr.nRibRoutes + 1 })
      (fun _ => rfl) fun _ within => within
    dsimp only
    split
    · exact counted
    · exact (counted.setMin id).advertise id

/-- The tail of `afterAddRoute` for a new route: it is found, counts no RIB route, and is
the only route out of range; the delay it is given brings it in range. -/
theorem DelaysInRange.countNewRoute {id : Nat} {rr : ReadvertisedRoute}
    (below : ∀ rr ∈ r.rrs, rr.id < r.nextId) (others : ∀ rr ∈ r.rrs, rr.id ≠ id → InRange rr)
    (found : r.findRr id = some rr) (unused : rr.nRibRoutes = 0) :
    DelaysInRange (match r.findRr id with
      | none => r
      | some rr =>
          let r := r.modifyRr id fun rr => { rr with nRibRoutes := rr.nRibRoutes + 1 }
          if rr.nRibRoutes > 0 then r
          else (r.modifyRr id fun rr => { rr with retryDelay := retryDelayMin }).advertise id) := by
  rw [found]
  dsimp only
  rw [if_neg (by omega)]
  apply DelaysInRange.advertise
  apply DelaysInRange.modifyRr
  case keepsId => intro _; rfl
  case target => intro x _ _; simp [InRange, retryDelayMin, retryDelayMax]
  case below =>
    intro x mem
    obtain ⟨old, oldMem, sameId, -⟩ := mem_modifyRr mem fun _ => rfl
    simpa [← sameId] using below old oldMem
  case others =>
    intro x mem other
    obtain ⟨old, oldMem, -, unchanged⟩ := mem_modifyRr mem fun _ => rfl
    rw [unchanged other]
    exact others old oldMem (by rw [← unchanged other]; exact other)

theorem DelaysInRange.afterAddRoute (policy : RibRouteRef → Option Name) (inv : DelaysInRange r)
    (ribRoute : RibRouteRef) : DelaysInRange (r.afterAddRoute policy ribRoute) := by
  unfold Readvertise.afterAddRoute
  cases policy ribRoute with
  | none => exact inv
  | some prefixName =>
      cases found : r.rrs.find? (·.prefixName == prefixName) with
      | some rr =>
          -- the prefix has its route already; only `m_routeToRr` changes before the count
          simp only [emplaceRr, found]
          apply DelaysInRange.countRoute
          split <;> exact inv.of_sublist (List.Sublist.refl _) rfl
      | none =>
          -- a new route, numbered `r.nextId`, at the end of `m_rrs`
          simp only [emplaceRr, found]
          have fresh : ∀ rr ∈ r.rrs, rr.id ≠ r.nextId := fun rr mem => Nat.ne_of_lt (inv.below rr mem)
          have located : (r.rrs ++ [(⟨r.nextId, prefixName, 0, 0, none⟩ : ReadvertisedRoute)]).find? (·.id == r.nextId) =
              some (⟨r.nextId, prefixName, 0, 0, none⟩ : ReadvertisedRoute) := by
            rw [List.find?_append, List.find?_eq_none.mpr (by simpa using fresh)]
            simp
          have below : ∀ rr ∈ r.rrs ++ [(⟨r.nextId, prefixName, 0, 0, none⟩ : ReadvertisedRoute)], rr.id < r.nextId + 1 := by
            intro rr mem
            rcases List.mem_append.mp mem with old | new
            · exact Nat.lt_succ_of_lt (inv.below rr old)
            · simp [List.mem_singleton.mp new]
          have others : ∀ rr ∈ r.rrs ++ [(⟨r.nextId, prefixName, 0, 0, none⟩ : ReadvertisedRoute)], rr.id ≠ r.nextId →
              InRange rr := by
            intro rr mem other
            rcases List.mem_append.mp mem with old | new
            · exact inv.inRange rr old
            · exact absurd (by simp [List.mem_singleton.mp new]) other
          apply DelaysInRange.countNewRoute
          case below => split <;> exact below
          case others => split <;> exact others
          case found => split <;> exact located
          case unused => rfl

theorem DelaysInRange.beforeRemoveRoute (inv : DelaysInRange r) (ribRoute : RibRouteRef) :
    DelaysInRange (r.beforeRemoveRoute ribRoute) := by
  unfold Readvertise.beforeRemoveRoute
  split
  · exact inv
  · rename_i id _
    have removed : DelaysInRange { r with routeToRr := r.routeToRr.filter (·.1 != ribRoute) } :=
      inv.of_sublist (List.Sublist.refl _) rfl
    dsimp only
    split
    · exact removed
    · have counted := removed.modifyRr_keep id (fun rr => { rr with nRibRoutes := rr.nRibRoutes - 1 })
        (fun _ => rfl) fun _ within => within
      split
      · exact counted
      · exact (counted.setMin id).withdraw id

theorem foldl_delaysInRange {α : Type} (g : Readvertise → α → Readvertise)
    (keeps : ∀ s a, DelaysInRange s → DelaysInRange (g s a)) (l : List α) {s : Readvertise}
    (inv : DelaysInRange s) : DelaysInRange (l.foldl g s) := by
  induction l generalizing s with
  | nil => exact inv
  | cons a rest ih => exact ih (keeps s a inv)

theorem DelaysInRange.afterDestinationAvailable (inv : DelaysInRange r) :
    DelaysInRange r.afterDestinationAvailable :=
  foldl_delaysInRange _ (fun _ rr within => (within.setMin rr.id).advertise rr.id) r.rrs inv

theorem DelaysInRange.afterDestinationUnavailable (inv : DelaysInRange r) :
    DelaysInRange r.afterDestinationUnavailable := by
  refine foldl_delaysInRange _ (fun s rr within => ?_) r.rrs inv
  split
  · exact within.modifyRr_keep rr.id _ (fun _ => rfl) fun _ kept => kept
  · exact within.eraseRr rr.id

theorem DelaysInRange.setAvailability (inv : DelaysInRange r) (isAvailable : Bool) :
    DelaysInRange (r.setAvailability isAvailable) := by
  unfold Readvertise.setAvailability
  split
  · exact inv
  · have switched : DelaysInRange { r with isAvailable := isAvailable } :=
      inv.of_sublist (List.Sublist.refl _) rfl
    dsimp only
    split
    · exact switched.afterDestinationAvailable
    · exact switched.afterDestinationUnavailable

theorem DelaysInRange.answer (inv : DelaysInRange r) (pending : Pending) (ok : Bool) :
    DelaysInRange (r.answer pending ok) := by
  unfold Readvertise.answer
  split
  · exact inv.emit _
  · rename_i rr _
    -- a success sets the delay to the minimum, a failure doubles it up to the maximum
    split
    · exact inv.modifyRr_keep rr.id _ (fun _ => rfl) fun _ _ => by
        simp [InRange, retryDelayMin, retryDelayMax]
    · exact inv.modifyRr_keep rr.id _ (fun _ => rfl) fun _ within => inRange_backOff within
    · exact inv.eraseRr rr.id
    · exact inv.modifyRr_keep rr.id _ (fun _ => rfl) fun _ within => inRange_backOff within

theorem DelaysInRange.fire (inv : DelaysInRange r) (id : Nat) : DelaysInRange (r.fire id) := by
  unfold Readvertise.fire
  split
  · exact inv
  · split
    · exact inv
    · rename_i c _
      exact (inv.modifyRr_keep id (fun rr => { rr with retryEvt := none }) (fun _ => rfl)
        fun _ within => within).call c id

theorem DelaysInRange.step (policy : RibRouteRef → Option Name) (inv : DelaysInRange r)
    (input : Input) : DelaysInRange (r.step policy input) := by
  cases input with
  | afterAddRoute ribRoute => exact inv.afterAddRoute policy ribRoute
  | beforeRemoveRoute ribRoute => exact inv.beforeRemoveRoute ribRoute
  | respond position ok =>
      simp only [Readvertise.step]
      split
      · exact inv
      · have answered : DelaysInRange { r with pending := r.pending.eraseIdx position } :=
          inv.of_sublist (List.Sublist.refl _) rfl
        exact answered.answer _ ok
  | fire id => exact inv.fire id
  | setAvailability isAvailable => exact inv.setAvailability isAvailable

/-- Over every run from the start, in any order of the RIB's signals, the destination's
answers, fired events and availability changes, every readvertised route's retry delay
stays within `[RETRY_DELAY_MIN, RETRY_DELAY_MAX]`. -/
theorem run_delaysInRange (policy : RibRouteRef → Option Name) (inputs : List Input) :
    ∀ rr ∈ (initial.run policy inputs).rrs,
      retryDelayMin ≤ rr.retryDelay ∧ rr.retryDelay ≤ retryDelayMax := by
  have start : DelaysInRange initial := ⟨by simp [initial], by simp [initial]⟩
  exact (foldl_delaysInRange (step policy) (fun _ input inv => inv.step policy input) inputs start).inRange

/-- A client route of `/a` whose first advertise fails: its retry delay doubles to 100 s. -/
theorem run_delaysInRange_failedAdvertise :
    (⟨0, [⟨8, [97]⟩], 1, 100000, some .advertise⟩ : ReadvertisedRoute) ∈
        (initial.run clientToNlsrPolicy
          [.setAvailability true, .afterAddRoute ⟨[⟨8, [97]⟩], 1, routeOriginClient⟩, .respond 0 false]).rrs ∧
      retryDelayMin ≤ 100000 ∧ 100000 ≤ retryDelayMax :=
  ⟨by decide, run_delaysInRange clientToNlsrPolicy
    [.setAvailability true, .afterAddRoute ⟨[⟨8, [97]⟩], 1, routeOriginClient⟩, .respond 0 false]
    ⟨0, [⟨8, [97]⟩], 1, 100000, some .advertise⟩ (by decide)⟩

end Delays

/-- A client route of `/a` is readvertised and its advertise succeeds, arming the refresh;
the route is removed, and while the withdraw is unanswered the refresh fires and
advertises `/a` with `nRibRoutes` 0; the route comes back, and the withdraw's success then
erases the `ReadvertisedRoute` that its `m_routeToRr` entry and two unanswered advertise
calls still name. -/
theorem refresh_during_withdraw :
    let a : Name := [⟨8, [97]⟩]
    let route : RibRouteRef := ⟨a, 1, routeOriginClient⟩
    let r := initial.run clientToNlsrPolicy
      [.setAvailability true, .afterAddRoute route, .respond 0 true, .beforeRemoveRoute route,
        .fire 0, .afterAddRoute route, .respond 0 true]
    r.log =
      [.called .advertise 0 1, .called .withdraw 0 0, .called .advertise 0 0,
        .called .advertise 0 1, .erased 0 true] := by
  decide

end Readvertise

end Nfd.Rib
