import Nfd.Face.GenericLinkService

/-!
# faces/update

`FaceManager::updateFace` checks every requested change before it makes any.  Enabling local
fields needs a local face.  A persistency change needs `Transport::canChangePersistencyTo`.  An
MTU override, clamped to `ssize_t`, needs a `GenericLinkService` whose `canOverrideMtuTo`
accepts it.  When all are valid it sets the persistency, and `updateLinkServiceOptions` writes
the requested options of the face's `GenericLinkService`; a face with another link service keeps
its link service as it is.

A face is modelled by what the command reads and writes: the transport's scope, persistency and
MTU, the `canChangePersistencyToImpl` of the transport's class, and the options of its link
service when that is a `GenericLinkService`.  The face table maps a FaceId to its face.
`ControlParameters` keeps the fields the command reads and its responses set, with the flag
bits of the management protocol.
-/

set_option autoImplicit false

namespace Nfd.Mgmt

/-- `ndn::nfd::FacePersistency`. -/
inductive FacePersistency where
  | persistencyNone
  | persistencyPersistent
  | persistencyOnDemand
  | persistencyPermanent
deriving DecidableEq, Repr

/-- `ndn::nfd::FaceScope`. -/
inductive FaceScope where
  | scopeNonLocal
  | scopeLocal
deriving DecidableEq, Repr

def bitLocalFieldsEnabled : Nat := 0

def bitLpReliabilityEnabled : Nat := 1

def bitCongestionMarkingEnabled : Nat := 2

/-- `std::numeric_limits<ssize_t>::max()`. -/
def ssizeMax : Nat := 2 ^ 63 - 1

/-- The fields of `ControlParameters` that faces/update reads and its responses set. -/
structure ControlParameters where
  faceId : Option Nat := none
  facePersistency : Option FacePersistency := none
  mtu : Option Nat := none
  flags : Option UInt64 := none
  mask : Option UInt64 := none
  /-- In nanoseconds. -/
  baseCongestionMarkingInterval : Option Nat := none
  defaultCongestionThreshold : Option Nat := none
deriving DecidableEq, Repr

namespace ControlParameters

def hasFlagBit (bit : Nat) (p : ControlParameters) : Bool :=
  match p.mask with
  | some mask => mask &&& (1 <<< bit.toUInt64) != 0
  | none => false

def getFlagBit (bit : Nat) (p : ControlParameters) : Bool :=
  match p.flags with
  | some flags => flags &&& (1 <<< bit.toUInt64) != 0
  | none => false

def setFlagBit (bit : Nat) (value wantMask : Bool) (p : ControlParameters) : ControlParameters :=
  let flags := p.flags.getD 0
  let flags := if value then flags ||| (1 <<< bit.toUInt64) else flags &&& ~~~(1 <<< bit.toUInt64)
  let p := { p with flags := some flags }
  if wantMask then { p with mask := some (p.mask.getD 0 ||| (1 <<< bit.toUInt64)) } else p

end ControlParameters

structure ControlResponse where
  code : Nat
  text : String
  body : Option ControlParameters
deriving DecidableEq, Repr

/-- `GenericLinkService::Options` as faces/update sees it: `allowLocalFields`, the reliability
options and the options of the send path. -/
structure LinkServiceOptions where
  allowLocalFields : Bool
  reliabilityOptions : Face.LpReliability.Options
  sendOptions : Face.GenericLinkService.Options

structure Face where
  scope : FaceScope
  persistency : FacePersistency
  /-- `getTransport()->getMtu()`. -/
  transportMtu : Int
  /-- `canChangePersistencyToImpl` of the transport's class. -/
  canChangePersistencyToImpl : FacePersistency → Bool
  /-- The options of the face's link service when it is a `GenericLinkService`. -/
  linkService : Option LinkServiceOptions

abbrev FaceId := Nat

namespace Face

/-- `Transport::canChangePersistencyTo`. -/
def canChangePersistencyTo (face : Face) (newPersistency : FacePersistency) : Bool :=
  -- not changing, or setting initial persistency in subclass constructor
  if face.persistency = newPersistency ∨ face.persistency = .persistencyNone then true
  else if newPersistency = .persistencyNone then false
  else face.canChangePersistencyToImpl newPersistency

/-- `Face::setPersistency`, whose assertion `canChangePersistencyTo` the caller has checked. -/
def setPersistency (newPersistency : FacePersistency) (face : Face) : Face :=
  { face with persistency := newPersistency }

/-- `Face::getMtu`: the effective MTU of the link service. -/
def getMtu (face : Face) : Int :=
  match face.linkService with
  | some options => min options.sendOptions.overrideMtu face.transportMtu
  | none => face.transportMtu

/-- `GenericLinkService::canOverrideMtuTo`. -/
def canOverrideMtuTo (face : Face) (mtu : Int) : Bool :=
  -- not allowed to override unlimited transport MTU
  if face.transportMtu = Face.mtuUnlimited then false
  else decide (Face.minMtu ≤ mtu)

end Face

/-- `updateLinkServiceOptions(face, parameters)`. -/
def updateLinkServiceOptions (face : Face) (parameters : ControlParameters) : Face :=
  match face.linkService with
  | none => face
  | some options =>
      let options := if parameters.hasFlagBit bitLocalFieldsEnabled && face.scope == .scopeLocal then
          { options with allowLocalFields := parameters.getFlagBit bitLocalFieldsEnabled }
        else options
      let options := if parameters.hasFlagBit bitLpReliabilityEnabled then
          { options with reliabilityOptions := { options.reliabilityOptions with
              isEnabled := parameters.getFlagBit bitLpReliabilityEnabled } }
        else options
      let options := if parameters.hasFlagBit bitCongestionMarkingEnabled then
          { options with sendOptions := { options.sendOptions with
              allowCongestionMarking := parameters.getFlagBit bitCongestionMarkingEnabled } }
        else options
      let options := match parameters.baseCongestionMarkingInterval with
        | some interval => { options with sendOptions := { options.sendOptions with
            baseCongestionMarkingInterval := interval } }
        | none => options
      let options := match parameters.defaultCongestionThreshold with
        | some threshold => { options with sendOptions := { options.sendOptions with
            defaultCongestionThreshold := threshold } }
        | none => options
      let options := match parameters.mtu with
        -- the face system limits MTUs to ssize_t, but the management protocol uses uint64_t
        | some mtu => { options with sendOptions := { options.sendOptions with
            overrideMtu := ((min ssizeMax mtu : Nat) : Int) } }
        | none => options
      { face with linkService := some options }

/-- `copyMtu(face, to)`. -/
def copyMtu (face : Face) (params : ControlParameters) : ControlParameters :=
  if face.getMtu ≥ 0 then { params with mtu := some (min face.getMtu.toNat Lp.maxNdnPacketSize) }
  else if face.getMtu = Face.mtuUnlimited then { params with mtu := some Lp.maxNdnPacketSize }
  else params

/-- `makeUpdateFaceResponse(face)`. -/
def makeUpdateFaceResponse (faceId : FaceId) (face : Face) : ControlParameters :=
  let params := copyMtu face { faceId := some faceId, facePersistency := some face.persistency }
  match face.linkService with
  | some options =>
      ({ params with baseCongestionMarkingInterval := some options.sendOptions.baseCongestionMarkingInterval,
                     defaultCongestionThreshold := some options.sendOptions.defaultCongestionThreshold }
        |>.setFlagBit bitLocalFieldsEnabled options.allowLocalFields false
        |>.setFlagBit bitLpReliabilityEnabled options.reliabilityOptions.isEnabled false
        |>.setFlagBit bitCongestionMarkingEnabled options.sendOptions.allowCongestionMarking false)
  | none => params

/-- The check on local fields: enabling them on a face that is not local. -/
def rejectsLocalFields (face : Face) (parameters : ControlParameters) : Bool :=
  parameters.hasFlagBit bitLocalFieldsEnabled && parameters.getFlagBit bitLocalFieldsEnabled &&
    face.scope != .scopeLocal

/-- The check on the persistency, when one is requested. -/
def rejectsPersistency (face : Face) (parameters : ControlParameters) : Bool :=
  match parameters.facePersistency with
  | some persistency => !face.canChangePersistencyTo persistency
  | none => false

/-- The check on the MTU override, when one is requested: clamped to `ssize_t`, it needs a
`GenericLinkService` that accepts it. -/
def rejectsMtu (face : Face) (parameters : ControlParameters) : Bool :=
  match parameters.mtu with
  | some mtu => face.linkService.isNone || !face.canOverrideMtuTo (min ssizeMax mtu : Nat)
  | none => false

/-- One check of the validity pass: a rejected change clears `areParamsValid` and is named in
the response. -/
def checkChange (rejected : Bool) (name : ControlParameters → ControlParameters)
    (checked : Bool × ControlParameters) : Bool × ControlParameters :=
  if rejected then (false, name checked.2) else checked

/-- The validity pass of `updateFace`: whether every requested change is valid, and the
response that names those that are not. -/
def verifyChanges (face : Face) (parameters : ControlParameters) : Bool × ControlParameters :=
  (true, {})
    |> checkChange (rejectsLocalFields face parameters) (fun response =>
      response.setFlagBit bitLocalFieldsEnabled (parameters.getFlagBit bitLocalFieldsEnabled) true)
    |> checkChange (rejectsPersistency face parameters) (fun response =>
      { response with facePersistency := parameters.facePersistency })
    |> checkChange (rejectsMtu face parameters) (fun response => { response with mtu := parameters.mtu })

/-- The face a faces/update command is for: its FaceId, or on a self-update the IncomingFaceId of
the command Interest. -/
def targetFaceId (incomingFaceId : Option FaceId) (parameters : ControlParameters) : Option FaceId :=
  let faceId := parameters.faceId.getD 0
  -- self-update
  if faceId = 0 then incomingFaceId else some faceId

/-- `FaceManager::updateFace`: the response, and the face table after it.  `incomingFaceId` is
the IncomingFaceId tag of the command Interest. -/
def updateFace (incomingFaceId : Option FaceId) (parameters : ControlParameters)
    (faceTable : FaceId → Option Face) : ControlResponse × (FaceId → Option Face) :=
  match targetFaceId incomingFaceId parameters with
  | none => (⟨404, "No FaceId specified and IncomingFaceId not available", none⟩, faceTable)
  | some faceId =>
      match faceTable faceId with
      | none => (⟨404, "Specified face does not exist", none⟩, faceTable)
      | some face =>
          let (areParamsValid, response) := verifyChanges face parameters
          if !areParamsValid then (⟨409, "Invalid properties specified", some response⟩, faceTable)
          else
            let face := match parameters.facePersistency with
              | some persistency => face.setPersistency persistency
              | none => face
            let face := updateLinkServiceOptions face parameters
            (⟨200, "OK", some (makeUpdateFaceResponse faceId face)⟩,
              Function.update faceTable faceId (some face))

/-- What faces/update asks of the options of a `GenericLinkService`: every field the request
carries takes its value, local fields only on a local face and the MTU override clamped to
`ssize_t`; the other fields keep theirs. -/
def requestedOptions (parameters : ControlParameters) (scope : FaceScope)
    (options : LinkServiceOptions) : LinkServiceOptions where
  allowLocalFields :=
    if parameters.hasFlagBit bitLocalFieldsEnabled = true ∧ scope = .scopeLocal then
      parameters.getFlagBit bitLocalFieldsEnabled
    else options.allowLocalFields
  reliabilityOptions := { options.reliabilityOptions with
    isEnabled := if parameters.hasFlagBit bitLpReliabilityEnabled then
      parameters.getFlagBit bitLpReliabilityEnabled else options.reliabilityOptions.isEnabled }
  sendOptions := { options.sendOptions with
    allowCongestionMarking := if parameters.hasFlagBit bitCongestionMarkingEnabled then
      parameters.getFlagBit bitCongestionMarkingEnabled else options.sendOptions.allowCongestionMarking
    baseCongestionMarkingInterval :=
      parameters.baseCongestionMarkingInterval.getD options.sendOptions.baseCongestionMarkingInterval
    defaultCongestionThreshold :=
      parameters.defaultCongestionThreshold.getD options.sendOptions.defaultCongestionThreshold
    overrideMtu := match parameters.mtu with
      | some mtu => ((min ssizeMax mtu : Nat) : Int)
      | none => options.sendOptions.overrideMtu }

theorem updateLinkServiceOptions_eq (face : Face) (parameters : ControlParameters) :
    updateLinkServiceOptions face parameters =
      { face with linkService := face.linkService.map (requestedOptions parameters face.scope) } := by
  obtain ⟨scope, persistency, transportMtu, impl, linkService⟩ := face
  cases linkService with
  | none => rfl
  | some options =>
      unfold updateLinkServiceOptions requestedOptions
      generalize parameters.hasFlagBit bitLocalFieldsEnabled = wantsLocal
      generalize parameters.hasFlagBit bitLpReliabilityEnabled = wantsReliability
      generalize parameters.hasFlagBit bitCongestionMarkingEnabled = wantsMarking
      cases wantsLocal <;> cases scope <;> cases wantsReliability <;> cases wantsMarking <;>
        cases parameters.baseCongestionMarkingInterval <;> cases parameters.defaultCongestionThreshold <;>
        cases parameters.mtu <;> rfl

/-- The changes faces/update refuses: enabling local fields on a face that is not local, a
persistency that `canChangePersistencyTo` refuses, or an MTU override, clamped to `ssize_t`, on
a face without a `GenericLinkService` or whose `canOverrideMtuTo` refuses it. -/
def Rejected (face : Face) (parameters : ControlParameters) : Prop :=
  (parameters.hasFlagBit bitLocalFieldsEnabled = true ∧
      parameters.getFlagBit bitLocalFieldsEnabled = true ∧ face.scope ≠ .scopeLocal) ∨
    (∃ persistency, parameters.facePersistency = some persistency ∧
      face.canChangePersistencyTo persistency = false) ∨
    ∃ mtu, parameters.mtu = some mtu ∧
      (face.linkService = none ∨ face.canOverrideMtuTo (min ssizeMax mtu : Nat) = false)

theorem rejectsLocalFields_iff {face : Face} {parameters : ControlParameters} :
    rejectsLocalFields face parameters = true ↔
      parameters.hasFlagBit bitLocalFieldsEnabled = true ∧
        parameters.getFlagBit bitLocalFieldsEnabled = true ∧ face.scope ≠ .scopeLocal := by
  simp [rejectsLocalFields, Bool.and_assoc]

theorem rejectsPersistency_iff {face : Face} {parameters : ControlParameters} :
    rejectsPersistency face parameters = true ↔
      ∃ persistency, parameters.facePersistency = some persistency ∧
        face.canChangePersistencyTo persistency = false := by
  unfold rejectsPersistency
  cases parameters.facePersistency <;> simp

theorem rejectsMtu_iff {face : Face} {parameters : ControlParameters} :
    rejectsMtu face parameters = true ↔
      ∃ mtu, parameters.mtu = some mtu ∧
        (face.linkService = none ∨ face.canOverrideMtuTo (min ssizeMax mtu : Nat) = false) := by
  unfold rejectsMtu
  cases parameters.mtu <;> simp

theorem checkChange_fst (rejected : Bool) (name : ControlParameters → ControlParameters)
    (checked : Bool × ControlParameters) :
    (checkChange rejected name checked).1 = (checked.1 && !rejected) := by
  cases rejected <;> simp [checkChange]

theorem checkChange_snd (rejected : Bool) (name : ControlParameters → ControlParameters)
    (checked : Bool × ControlParameters) :
    (checkChange rejected name checked).2 = if rejected then name checked.2 else checked.2 := by
  cases rejected <;> rfl

/-- The validity pass refuses exactly the requests that ask for a rejected change. -/
theorem verifyChanges_valid_iff (face : Face) (parameters : ControlParameters) :
    (verifyChanges face parameters).1 = false ↔ Rejected face parameters := by
  simp only [verifyChanges, checkChange_fst, Rejected, ← rejectsLocalFields_iff,
    ← rejectsPersistency_iff, ← rejectsMtu_iff]
  cases rejectsLocalFields face parameters <;> cases rejectsPersistency face parameters <;>
    cases rejectsMtu face parameters <;> decide

/-- faces/update on a face it finds.  It answers 409 exactly when a requested change is
rejected, and then leaves the face table as it was; otherwise it answers 200, sets the requested
persistency and gives a `GenericLinkService` the requested options.  A face whose link service
is not a `GenericLinkService` keeps it as it is. -/
theorem updateFace_all_or_nothing (incomingFaceId : Option FaceId) (parameters : ControlParameters)
    (faceTable : FaceId → Option Face) {faceId : FaceId} {face : Face}
    (resolved : targetFaceId incomingFaceId parameters = some faceId)
    (found : faceTable faceId = some face) :
    ((updateFace incomingFaceId parameters faceTable).1.code = 409 ↔ Rejected face parameters) ∧
      (Rejected face parameters → (updateFace incomingFaceId parameters faceTable).2 = faceTable) ∧
      (¬Rejected face parameters → (updateFace incomingFaceId parameters faceTable).1.code = 200 ∧
        (updateFace incomingFaceId parameters faceTable).2 = Function.update faceTable faceId
          (some { face with
            persistency := parameters.facePersistency.getD face.persistency
            linkService := face.linkService.map (requestedOptions parameters face.scope) })) := by
  by_cases rejected : Rejected face parameters
  · -- the validity pass refuses, and the command returns before the second pass
    have invalid := (verifyChanges_valid_iff face parameters).mpr rejected
    have refused : updateFace incomingFaceId parameters faceTable =
        (⟨409, "Invalid properties specified", some (verifyChanges face parameters).2⟩, faceTable) := by
      simp [updateFace, resolved, found, invalid]
    rw [refused]
    exact ⟨iff_of_true rfl rejected, fun _ => rfl, fun notRejected => absurd rejected notRejected⟩
  · have valid : (verifyChanges face parameters).1 = true :=
      Bool.of_not_eq_false (mt (verifyChanges_valid_iff face parameters).mp rejected)
    have changed : (updateFace incomingFaceId parameters faceTable).2 = Function.update faceTable faceId
        (some { face with
          persistency := parameters.facePersistency.getD face.persistency
          linkService := face.linkService.map (requestedOptions parameters face.scope) }) := by
      cases persistency : parameters.facePersistency <;>
        simp [updateFace, resolved, found, valid, persistency, updateLinkServiceOptions_eq, Face.setPersistency]
    have accepted : (updateFace incomingFaceId parameters faceTable).1.code = 200 := by
      simp [updateFace, resolved, found, valid]
    exact ⟨iff_of_false (by rw [accepted]; decide) rejected, fun r => absurd r rejected,
      fun _ => ⟨accepted, changed⟩⟩

/-- A non-local on-demand face at FaceId 300, of transport MTU 1452, with a `GenericLinkService`
and a transport that accepts every persistency. -/
def udpFace : Face :=
  ⟨.scopeNonLocal, .persistencyOnDemand, 1452, fun _ => true,
    some ⟨false, ⟨false, 3, 3⟩, ⟨true, ⟨1452⟩, true, 100000000, 65536, Face.mtuUnlimited⟩⟩⟩

def udpTable : FaceId → Option Face := Function.update (fun _ => none) 300 (some udpFace)

/-- Make face 300 permanent, override its MTU to 1500 and enable reliability. -/
def udpRequest : ControlParameters :=
  { faceId := some 300, facePersistency := some .persistencyPermanent, mtu := some 1500,
    flags := some 2, mask := some 2 }

theorem updateFace_all_or_nothing_udpRequest :
    targetFaceId none udpRequest = some 300 ∧ udpTable 300 = some udpFace ∧
      (((updateFace none udpRequest udpTable).1.code = 409 ↔ Rejected udpFace udpRequest) ∧
        (Rejected udpFace udpRequest → (updateFace none udpRequest udpTable).2 = udpTable) ∧
        (¬Rejected udpFace udpRequest → (updateFace none udpRequest udpTable).1.code = 200 ∧
          (updateFace none udpRequest udpTable).2 = Function.update udpTable 300
            (some { udpFace with
              persistency := udpRequest.facePersistency.getD udpFace.persistency
              linkService := udpFace.linkService.map (requestedOptions udpRequest udpFace.scope) }))) :=
  ⟨rfl, rfl, updateFace_all_or_nothing none udpRequest udpTable rfl rfl⟩

/-- The face of `makeNullFace()`, at FaceId 255: a local, permanent `NullTransport` of unlimited
MTU that keeps the default `canChangePersistencyToImpl`, with a `NullLinkService`. -/
def nullFace : Face := ⟨.scopeLocal, .persistencyPermanent, Face.mtuUnlimited, fun _ => false, none⟩

/-- Enabling reliability on the null face is answered 200 while its link service, not a
`GenericLinkService`, takes no option: the request is accepted and not applied. -/
theorem updateFace_nullFace_accepts_unapplied :
    let request : ControlParameters := { faceId := some 255, flags := some 2, mask := some 2 }
    let faceTable := Function.update (fun _ => none) 255 (some nullFace)
    request.hasFlagBit bitLpReliabilityEnabled = true ∧ request.getFlagBit bitLpReliabilityEnabled = true ∧
      (updateFace none request faceTable).1.code = 200 ∧
      ((updateFace none request faceTable).2 255).map (fun face => face.linkService.isSome) = some false := by
  decide

end Nfd.Mgmt
