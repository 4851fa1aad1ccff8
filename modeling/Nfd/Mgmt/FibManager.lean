import Nfd.Fw.FaceTable

/-!
# fib/add-nexthop and fib/remove-nexthop

`FibManager::addNextHop` answers 414 to a prefix longer than `Fib::getMaxDepth()` and 410 to a
face the face table does not hold; otherwise it inserts the FIB entry of the prefix and adds the
next hop of the face, or updates its cost.  `removeNextHop` answers 200 before it looks at
anything, then removes the next hop of the face from the FIB entry of the prefix when both
exist.  A FaceId of 0 asks for the face the command came in on (`setFaceForSelfRegistration`).

The parameters are those the commands read once ndn-cxx's `FibAddNextHopCommand` and
`FibRemoveNextHopCommand` have validated the request and applied their defaults (FaceId 0,
Cost 0).  Both commands run on the face table and the tables of the forwarder, and each is a run
of steps of `Fw.Step`; so is every interleaving of them with faces coming and going.
-/

set_option autoImplicit false

namespace Nfd.Mgmt.FibManager

open NameTree Cleanup

variable {M S : Type}

/-- The `ControlParameters` the FIB commands read. -/
structure ControlParameters where
  name : Name
  faceId : Fw.FaceId
  cost : Nat
deriving DecidableEq, Repr

structure ControlResponse where
  code : Nat
  text : String
  body : Option ControlParameters
deriving DecidableEq, Repr

/-- `setFaceForSelfRegistration(request, parameters)`: FaceId 0 is the face of the request's
IncomingFaceId tag, which the internal face always sets. -/
def setFaceForSelfRegistration (incomingFaceId : Fw.FaceId) (parameters : ControlParameters) :
    ControlParameters :=
  if parameters.faceId = 0 then { parameters with faceId := incomingFaceId } else parameters

section Commands

variable (componentHash : Component → HashValue)

/-- `addNextHop(topPrefix, interest, parameters, done)`: the response passed to `done`, and the
face table and tables after the command. -/
def addNextHop (incomingFaceId : Fw.FaceId) (parameters : ControlParameters)
    (state : Fw.ForwardingState M S) : ControlResponse × Fw.ForwardingState M S :=
  let parameters := setFaceForSelfRegistration incomingFaceId parameters
  if getMaxDepth < parameters.name.length then
    (⟨414, "FIB entry prefix cannot exceed " ++ toString getMaxDepth ++ " components", none⟩, state)
  else
    match state.faceTable.get parameters.faceId with
    | none => (⟨410, "Face not found", none⟩, state)
    | some face =>
        -- `insert` returns an entry, the prefix being within `getMaxDepth()`
        match state.tables.insert componentHash parameters.name with
        | ((some nte, _), tables) =>
            (⟨200, "Success", some parameters⟩,
              { state with tables := (tables.addOrUpdateNextHop nte face.id parameters.cost).1 })
        | ((none, _), tables) => (⟨200, "Success", some parameters⟩, { state with tables := tables })

/-- `removeNextHop(topPrefix, interest, parameters, done)`: `done` gets 200 before the face and
the FIB entry are looked up. -/
def removeNextHop (incomingFaceId : Fw.FaceId) (parameters : ControlParameters)
    (state : Fw.ForwardingState M S) : ControlResponse × Fw.ForwardingState M S :=
  let parameters := setFaceForSelfRegistration incomingFaceId parameters
  (⟨200, "Success", some parameters⟩,
    match state.faceTable.get parameters.faceId with
    | none => state
    | some face =>
        -- `m_fib.findExactMatch(name)`, as the name tree entry holding the FIB entry
        match state.tables.nameTree.findExactMatch componentHash parameters.name parameters.name.length with
        | none => state
        | some nte =>
            match Fib.fibEntryAt state.tables.nameTree nte with
            | none => state
            | some _ => { state with tables := state.tables.removeNextHop nte face.id })

/-- What the management face and the face system do to the forwarder: a face is created or
closes, or a FIB command arrives. -/
inductive Command where
  | addFace (face : Fw.Face)
  | removeFace (faceId : Fw.FaceId)
  | addNextHop (incomingFaceId : Fw.FaceId) (parameters : ControlParameters)
  | removeNextHop (incomingFaceId : Fw.FaceId) (parameters : ControlParameters)

def Command.apply (state : Fw.ForwardingState M S) : Command → Fw.ForwardingState M S
  | .addFace face => { state with faceTable := state.faceTable.add face }
  | .removeFace faceId => state.remove faceId
  | .addNextHop incomingFaceId parameters =>
      (FibManager.addNextHop componentHash incomingFaceId parameters state).2
  | .removeNextHop incomingFaceId parameters =>
      (FibManager.removeNextHop componentHash incomingFaceId parameters state).2

def run (commands : List Command) (state : Fw.ForwardingState M S) : Fw.ForwardingState M S :=
  commands.foldl (Command.apply componentHash) state

end Commands

section Lookup

variable {componentHash : Component → HashValue} {tables tables' : Tables M S}

/-- On a well-formed tree, `Fib::findExactMatch(name)` gives the FIB entry of the entry named
`name`. -/
theorem findExactMatch_at (valid : Valid componentHash tables.nameTree.ht) {nte : NodeId}
    {e : Entry Fib.Entry Fw.PitEntry M S} (stored : entries tables.nameTree.ht.nodes nte = some e) :
    tables.findExactMatch componentHash e.name = e.fibEntry := by
  unfold Fib.findExactMatch
  rw [(valid.findExactMatch_eq_some_iff_name e.name nte).mpr ⟨e, stored, rfl⟩, Option.bind_some,
    fibEntryAt_eq, stored, Option.bind_some]

theorem findExactMatch_eq_some_iff (valid : Valid componentHash tables.nameTree.ht) (name : Name)
    (fe : Fib.Entry) :
    tables.findExactMatch componentHash name = some fe ↔
      ∃ nte e, entries tables.nameTree.ht.nodes nte = some e ∧ e.name = name ∧ e.fibEntry = some fe := by
  constructor
  · intro found
    unfold Fib.findExactMatch at found
    obtain ⟨nte, exact, held⟩ := Option.bind_eq_some_iff.mp found
    obtain ⟨e, stored, named⟩ := (valid.findExactMatch_eq_some_iff_name name nte).mp exact
    rw [fibEntryAt_eq, stored, Option.bind_some] at held
    exact ⟨nte, e, stored, named, held⟩
  · rintro ⟨nte, e, stored, rfl, held⟩
    rw [findExactMatch_at valid stored, held]

/-- The FIB entries by name are part of what the tables see of the name tree. -/
theorem findExactMatch_of_tablesView (valid : Valid componentHash tables.nameTree.ht)
    (valid' : Valid componentHash tables'.nameTree.ht)
    (same : tablesView (entries tables'.nameTree.ht.nodes) = tablesView (entries tables.nameTree.ht.nodes))
    (name : Name) :
    tables'.findExactMatch componentHash name = tables.findExactMatch componentHash name := by
  -- an entry holding a FIB entry is seen, with its name, in both stores
  have holds : ∀ (e : Entry Fib.Entry Fw.PitEntry M S) fe, e.fibEntry = some fe → e.hasTableEntries = true := by
    intro e fe held
    cases holding : e.hasTableEntries
    · rw [Entry.fibEntry_of_hasTableEntries holding] at held
      cases held
    · rfl
  ext fe
  rw [findExactMatch_eq_some_iff valid', findExactMatch_eq_some_iff valid]
  constructor
  · rintro ⟨nte, e, stored, named, held⟩
    obtain ⟨e', stored', renamed, retabled⟩ := tablesView_stored same.symm stored (holds e fe held)
    exact ⟨nte, e', stored', renamed.trans named, by simpa [Entry.tables, held] using congrArg Prod.fst retabled⟩
  · rintro ⟨nte, e, stored, named, held⟩
    obtain ⟨e', stored', renamed, retabled⟩ := tablesView_stored same stored (holds e fe held)
    exact ⟨nte, e', stored', renamed.trans named, by simpa [Entry.tables, held] using congrArg Prod.fst retabled⟩

/-- Setting the FIB entry of one name tree entry leaves the FIB entries of the other names. -/
theorem findExactMatch_of_setFibEntry (valid : Valid componentHash tables.nameTree.ht)
    (valid' : Valid componentHash tables'.nameTree.ht) {nte : NodeId} {e : Entry Fib.Entry Fw.PitEntry M S}
    (stored : entries tables.nameTree.ht.nodes nte = some e) {x : Option Fib.Entry}
    (updated : tables'.nameTree.ht = updateEntry nte (Entry.setFibEntry x) tables.nameTree.ht)
    {name : Name} (other : name ≠ e.name) :
    tables'.findExactMatch componentHash name = tables.findExactMatch componentHash name := by
  ext fe
  rw [findExactMatch_eq_some_iff valid', findExactMatch_eq_some_iff valid, updated, entries_updateEntry]
  constructor
  · rintro ⟨id, e', stored', named, held⟩
    by_cases atNte : id = nte
    · subst atNte
      rw [Function.update_self, stored, Option.map_some, Option.some.injEq] at stored'
      subst stored'
      exact absurd named.symm other
    · rw [Function.update_of_ne atNte] at stored'
      exact ⟨id, e', stored', named, held⟩
  · rintro ⟨id, e', stored', named, held⟩
    by_cases atNte : id = nte
    · subst atNte
      rw [stored, Option.some.injEq] at stored'
      subst stored'
      exact absurd named.symm other
    · exact ⟨id, e', by rw [Function.update_of_ne atNte]; exact stored', named, held⟩

/-- `insert(prefix)` returns the name tree entry of the prefix, holding the FIB entry the prefix
had, or a new one without next hops; the FIB entries of the other names stay. -/
theorem insert_found (inv : Invariant componentHash tables.nameTree) {prefixName : Name}
    (shallow : prefixName.length ≤ getMaxDepth) :
    ∃ nte e, (tables.insert componentHash prefixName).1.1 = some nte ∧
      entries (tables.insert componentHash prefixName).2.nameTree.ht.nodes nte = some e ∧
      e.name = prefixName ∧
      e.fibEntry = some ((tables.findExactMatch componentHash prefixName).getD ⟨prefixName, []⟩) ∧
      ∀ name ≠ prefixName, (tables.insert componentHash prefixName).2.findExactMatch componentHash name =
        tables.findExactMatch componentHash name := by
  obtain ⟨chains, layout⟩ := inv.valid.layout
  have validInserted := (inv.insert shallow).valid
  have view := layout.tablesView_lookup (le_refl prefixName.length)
  obtain ⟨validLooked, q, e, returned, stored, named⟩ := inv.valid.lookup (le_refl prefixName.length) shallow
  rw [List.take_length] at named
  revert validInserted
  unfold Fib.insert
  generalize tables.nameTree.lookup componentHash prefixName prefixName.length = result at returned stored view validLooked
  obtain ⟨nte, nameTree⟩ := result
  dsimp only at returned stored view validLooked ⊢
  subst returned
  let lookedUp : Tables M S := { tables with nameTree := nameTree }
  -- `lookup` adds entries without table entries only, so the FIB entries by name stay
  have looked : ∀ name, lookedUp.findExactMatch componentHash name = tables.findExactMatch componentHash name :=
    findExactMatch_of_tablesView inv.valid validLooked view
  have storedLooked : entries lookedUp.nameTree.ht.nodes q = some e := stored
  have before : tables.findExactMatch componentHash prefixName = e.fibEntry := by
    rw [← looked, ← named, findExactMatch_at validLooked storedLooked]
  dsimp only
  rw [fibEntryAt_eq, stored, Option.bind_some]
  cases held : e.fibEntry with
  | some fe =>
      intro _
      rw [held] at before
      exact ⟨q, e, rfl, stored, named, by rw [before, held]; rfl, fun name _ => looked name⟩
  | none =>
      intro validInserted
      rw [held] at before
      refine ⟨q, Entry.setFibEntry (some ⟨prefixName, []⟩) e, rfl, by simp [stored], named,
        by rw [before]; rfl, fun name other => ?_⟩
      rw [← looked name]
      exact findExactMatch_of_setFibEntry validLooked validInserted storedLooked rfl (named ▸ other)

/-- The FIB entry of a name after `addOrUpdateNextHop` on the entry of that name, and those of
the other names. -/
theorem findExactMatch_addOrUpdateNextHop (inv : Invariant componentHash tables.nameTree)
    {nte : NodeId} {e : Entry Fib.Entry Fw.PitEntry M S} (stored : entries tables.nameTree.ht.nodes nte = some e)
    {fe : Fib.Entry} (held : e.fibEntry = some fe) (face : Fib.FaceId) (cost : Nat) :
    (tables.addOrUpdateNextHop nte face cost).1.findExactMatch componentHash e.name =
        some (fe.addOrUpdateNextHop face cost).1 ∧
      ∀ name ≠ e.name, (tables.addOrUpdateNextHop nte face cost).1.findExactMatch componentHash name =
        tables.findExactMatch componentHash name := by
  have found : Fib.fibEntryAt tables.nameTree nte = some fe := by
    rw [fibEntryAt_eq, stored, Option.bind_some, held]
  have valid := (inv.addOrUpdateNextHop nte face cost).valid
  have updated : (tables.addOrUpdateNextHop nte face cost).1.nameTree.ht =
      updateEntry nte (Entry.setFibEntry (some (fe.addOrUpdateNextHop face cost).1)) tables.nameTree.ht := by
    simp only [Fib.addOrUpdateNextHop, found]
  have storedUpdated : entries (tables.addOrUpdateNextHop nte face cost).1.nameTree.ht.nodes nte =
      some (Entry.setFibEntry (some (fe.addOrUpdateNextHop face cost).1) e) := by
    simp [updated, stored]
  exact ⟨findExactMatch_at valid storedUpdated, fun name other =>
    findExactMatch_of_setFibEntry inv.valid valid stored updated other⟩

/-- The FIB entry of a name after `removeNextHop` on the entry of that name, and those of the
other names. -/
theorem findExactMatch_removeNextHop (inv : Invariant componentHash tables.nameTree)
    {nte : NodeId} {e : Entry Fib.Entry Fw.PitEntry M S} (stored : entries tables.nameTree.ht.nodes nte = some e)
    {fe : Fib.Entry} (held : e.fibEntry = some fe) (face : Fib.FaceId) :
    (tables.removeNextHop nte face).findExactMatch componentHash e.name = fibEntryWithout face fe ∧
      ∀ name ≠ e.name, (tables.removeNextHop nte face).findExactMatch componentHash name =
        tables.findExactMatch componentHash name := by
  have found : Fib.fibEntryAt tables.nameTree nte = some fe := by
    rw [fibEntryAt_eq, stored, Option.bind_some, held]
  have valid := (inv.removeNextHop nte face).valid
  rw [removeNextHop_eq_without found (inv.facesDistinct found) face] at valid ⊢
  have storedUpdated : entries (updateEntry nte (Entry.setFibEntry (fibEntryWithout face fe)) tables.nameTree.ht).nodes
      nte = some (Entry.setFibEntry (fibEntryWithout face fe) e) := by
    simp [stored]
  exact ⟨findExactMatch_at valid storedUpdated, fun name other =>
    findExactMatch_of_setFibEntry inv.valid valid stored rfl other⟩

/-- Removing a face that no next hop names leaves a FIB entry as it is. -/
theorem fibEntryWithout_of_absent {face : Nat} {fe : Fib.Entry} (absent : ∀ nh ∈ fe.nextHops, nh.face ≠ face) :
    fibEntryWithout face fe = some fe := by
  have kept : fe.nextHops.filter (fun nh => nh.face != face) = fe.nextHops :=
    List.filter_eq_self.mpr fun nh member => by simpa using absent nh member
  unfold fibEntryWithout
  rw [if_neg, kept]
  intro only
  have onFace : face ∈ fe.nextHops.map Fib.NextHop.face := by
    rw [only]
    exact List.mem_singleton_self face
  obtain ⟨nh, member, same⟩ := List.mem_map.mp onFace
  exact absent nh member same

end Lookup

section Runs

variable {componentHash : Component → HashValue} {state : Fw.ForwardingState M S}

/-- fib/add-nexthop is `insert` and `addOrUpdateNextHop`, two steps of the tables that name only
a face of the table, or no step at all. -/
theorem reachable_addNextHop (reachable : Fw.Reachable componentHash state) (incomingFaceId : Fw.FaceId)
    (parameters : ControlParameters) :
    Fw.Reachable componentHash (addNextHop componentHash incomingFaceId parameters state).2 := by
  unfold FibManager.addNextHop
  generalize setFaceForSelfRegistration incomingFaceId parameters = p
  dsimp only
  split
  · exact reachable
  · rename_i shallow
    split
    · exact reachable
    · rename_i face stored
      have own : face.id = p.faceId := reachable.faceInvariant.faceTable.ownId _ face stored
      have inserted := reachable.step (Fw.Step.table state (.fibInsert p.name)
        (decide_eq_true (Nat.le_of_not_lt shallow)) fun _ named => by cases named)
      rcases inserting : state.tables.insert componentHash p.name with ⟨⟨_ | nte, isNew⟩, tables⟩
      all_goals
        have insertedAt : Fw.Reachable componentHash { state with tables := tables } := by
          have applied : (state.tables.insert componentHash p.name).2 = tables := by rw [inserting]
          rw [← applied]
          exact inserted
      · exact insertedAt
      · refine insertedAt.step (Fw.Step.table _ (.addOrUpdateNextHop nte face.id p.cost) rfl fun id named => ?_)
        cases named
        show (state.faceTable.get face.id).isSome
        rw [own, stored]
        rfl

/-- fib/remove-nexthop is one `removeNextHop` step of the tables, or none. -/
theorem reachable_removeNextHop (reachable : Fw.Reachable componentHash state) (incomingFaceId : Fw.FaceId)
    (parameters : ControlParameters) :
    Fw.Reachable componentHash (removeNextHop componentHash incomingFaceId parameters state).2 := by
  unfold FibManager.removeNextHop
  generalize setFaceForSelfRegistration incomingFaceId parameters = p
  dsimp only
  split
  · exact reachable
  · split
    · exact reachable
    · split
      · exact reachable
      · exact reachable.step (Fw.Step.table state (.removeNextHop _ _) rfl fun _ named => by cases named)

theorem reachable_command (reachable : Fw.Reachable componentHash state) (command : Command) :
    Fw.Reachable componentHash (command.apply componentHash state) := by
  cases command with
  | addFace face => exact reachable.step (.add state face)
  | removeFace faceId =>
      -- the face table calls `remove` for faces it holds; of another id nothing is removed
      cases present : state.faceTable.get faceId with
      | none =>
          show Fw.Reachable componentHash (state.remove faceId)
          rw [Fw.ForwardingState.remove, present]
          exact reachable
      | some face => exact reachable.step (.remove state faceId (by rw [present]; rfl))
  | addNextHop incomingFaceId parameters => exact reachable_addNextHop reachable incomingFaceId parameters
  | removeNextHop incomingFaceId parameters => exact reachable_removeNextHop reachable incomingFaceId parameters

theorem reachable_run (reachable : Fw.Reachable componentHash state) (commands : List Command) :
    Fw.Reachable componentHash (run componentHash commands state) := by
  induction commands generalizing state with
  | nil => exact reachable
  | cons command commands ih => exact ih (reachable_command reachable command)

end Runs

section Guarantees

variable {componentHash : Component → HashValue} {state : Fw.ForwardingState M S}

/-- fib/add-nexthop, from any reachable state, answers 200 exactly when the prefix is within
`Fib::getMaxDepth()` and the face (the requester's for FaceId 0) is in the face table, and
otherwise leaves everything as it was.  On 200 the FIB entry of the prefix holds the next hops
it held for the other faces and one next hop of the face at the requested cost; the FIB entries
of the other prefixes stay, and the state is still reachable. -/
theorem addNextHop_installs_nextHop (reachable : Fw.Reachable componentHash state)
    (incomingFaceId : Fw.FaceId) (parameters : ControlParameters) :
    let p := setFaceForSelfRegistration incomingFaceId parameters
    let result := addNextHop componentHash incomingFaceId parameters state
    Fw.Reachable componentHash result.2 ∧
      (result.1.code = 200 ↔ p.name.length ≤ getMaxDepth ∧ (state.faceTable.get p.faceId).isSome) ∧
      (result.1.code ≠ 200 → result.2 = state) ∧
      (result.1.code = 200 → ∃ entry, result.2.tables.findExactMatch componentHash p.name = some entry ∧
        entry.nextHops.Perm
          ((((state.tables.findExactMatch componentHash p.name).map Fib.Entry.nextHops).getD []).filter
            (fun nh => nh.face != p.faceId) ++ [⟨p.faceId, p.cost⟩])) ∧
      ∀ name ≠ p.name, result.2.tables.findExactMatch componentHash name =
        state.tables.findExactMatch componentHash name := by
  dsimp only
  refine ⟨reachable_addNextHop reachable incomingFaceId parameters, ?_⟩
  have inv := reachable.faceInvariant
  unfold addNextHop
  generalize setFaceForSelfRegistration incomingFaceId parameters = p
  dsimp only
  by_cases shallow : p.name.length ≤ getMaxDepth
  · rw [if_neg (Nat.not_lt.mpr shallow)]
    cases stored : state.faceTable.get p.faceId with
    | none =>
        -- 410: the face is not in the table
        dsimp only
        refine ⟨⟨fun wrong => absurd wrong (by decide), fun ⟨_, present⟩ => absurd present (by simp)⟩,
          fun _ => rfl, fun wrong => absurd wrong (by decide), fun _ _ => rfl⟩
    | some face =>
        have own : face.id = p.faceId := inv.faceTable.ownId _ face stored
        obtain ⟨nte, e, returned, storedE, named, held, others⟩ := insert_found inv.tables shallow
        have invInserted := inv.tables.insert shallow
        rcases inserting : state.tables.insert componentHash p.name with ⟨⟨entry, isNew⟩, tables⟩
        rw [inserting] at returned storedE others invInserted
        dsimp only at returned
        subst returned
        dsimp only
        obtain ⟨atName, elsewhere⟩ := findExactMatch_addOrUpdateNextHop invInserted storedE held face.id p.cost
        rw [named] at atName elsewhere
        refine ⟨⟨fun _ => ⟨shallow, rfl⟩, fun _ => rfl⟩, fun wrong => absurd rfl wrong,
          fun _ => ⟨_, atName, ?_⟩, fun name other => (elsewhere name other).trans (others name other)⟩
        -- the entry `insert` returned held the prefix's FIB entry, or none without next hops
        have found : Fib.fibEntryAt tables.nameTree nte =
            some ((state.tables.findExactMatch componentHash p.name).getD ⟨p.name, []⟩) := by
          rw [fibEntryAt_eq, storedE, Option.bind_some, held]
        have hops : ((state.tables.findExactMatch componentHash p.name).map Fib.Entry.nextHops).getD [] =
            ((state.tables.findExactMatch componentHash p.name).getD ⟨p.name, []⟩).nextHops := by
          cases state.tables.findExactMatch componentHash p.name <;> rfl
        rw [hops, ← own]
        exact Fib.Entry.addOrUpdateNextHop_perm face.id p.cost (invInserted.facesDistinct found)
  · -- 414: the prefix is too long
    rw [if_pos (Nat.lt_of_not_le shallow)]
    dsimp only
    refine ⟨⟨fun wrong => absurd wrong (by decide), fun ⟨short, _⟩ => absurd short shallow⟩,
      fun _ => rfl, fun wrong => absurd wrong (by decide), fun _ _ => rfl⟩

/-- Face 256, which ‘/X’ routes to at cost 10, registers ‘/X’ again for itself at cost 20. -/
theorem addNextHop_installs_nextHop_selfRegistered :
    Fw.Reachable Fw.churnHash Fw.routedState ∧
      let p := setFaceForSelfRegistration 256 ⟨[Fib.componentX], 0, 20⟩
      let result := addNextHop Fw.churnHash 256 ⟨[Fib.componentX], 0, 20⟩ Fw.routedState
      Fw.Reachable Fw.churnHash result.2 ∧
        (result.1.code = 200 ↔ p.name.length ≤ getMaxDepth ∧ (Fw.routedState.faceTable.get p.faceId).isSome) ∧
        (result.1.code ≠ 200 → result.2 = Fw.routedState) ∧
        (result.1.code = 200 → ∃ entry, result.2.tables.findExactMatch Fw.churnHash p.name = some entry ∧
          entry.nextHops.Perm
            ((((Fw.routedState.tables.findExactMatch Fw.churnHash p.name).map Fib.Entry.nextHops).getD []).filter
              (fun nh => nh.face != p.faceId) ++ [⟨p.faceId, p.cost⟩])) ∧
        ∀ name ≠ p.name, result.2.tables.findExactMatch Fw.churnHash name =
          Fw.routedState.tables.findExactMatch Fw.churnHash name :=
  ⟨Fw.routedState_reachable, addNextHop_installs_nextHop Fw.routedState_reachable 256 ⟨[Fib.componentX], 0, 20⟩⟩

example : (addNextHop Fw.churnHash 256 ⟨[Fib.componentX], 0, 20⟩ Fw.routedState).2.tables.findExactMatch
    Fw.churnHash [Fib.componentX] = some ⟨[Fib.componentX], [⟨256, 20⟩]⟩ := by
  decide +kernel

/-- fib/remove-nexthop, from any reachable state, answers 200 with the parameters, the FaceId
resolved, and does to the FIB entry of the prefix what removing the face does to it: its next
hop of the face goes, and the entry goes with its last next hop.  When the face is not in the
table, no next hop names it and nothing changes.  The FIB entries of the other prefixes stay,
and the state is still reachable. -/
theorem removeNextHop_removes_face (reachable : Fw.Reachable componentHash state)
    (incomingFaceId : Fw.FaceId) (parameters : ControlParameters) :
    let p := setFaceForSelfRegistration incomingFaceId parameters
    let result := removeNextHop componentHash incomingFaceId parameters state
    result.1 = ⟨200, "Success", some p⟩ ∧ Fw.Reachable componentHash result.2 ∧
      result.2.tables.findExactMatch componentHash p.name =
        (state.tables.findExactMatch componentHash p.name).bind (fibEntryWithout p.faceId) ∧
      ∀ name ≠ p.name, result.2.tables.findExactMatch componentHash name =
        state.tables.findExactMatch componentHash name := by
  dsimp only
  refine ⟨rfl, reachable_removeNextHop reachable incomingFaceId parameters, ?_⟩
  have inv := reachable.faceInvariant
  unfold removeNextHop
  generalize setFaceForSelfRegistration incomingFaceId parameters = p
  dsimp only
  cases stored : state.faceTable.get p.faceId with
  | none =>
      -- no next hop names a face out of the table, so there is none to remove
      refine ⟨?_, fun _ _ => rfl⟩
      cases before : state.tables.findExactMatch componentHash p.name with
      | none => rfl
      | some fe =>
          obtain ⟨nte, e, storedE, -, held⟩ := (findExactMatch_eq_some_iff inv.tables.valid p.name fe).mp before
          have found : Fib.fibEntryAt state.tables.nameTree nte = some fe := by
            rw [fibEntryAt_eq, storedE, Option.bind_some, held]
          refine (fibEntryWithout_of_absent fun nh member onFace => ?_).symm
          have present := inv.namesOnly.nextHop found member
          rw [onFace, stored] at present
          cases present
  | some face =>
      have own : face.id = p.faceId := inv.faceTable.ownId _ face stored
      dsimp only
      cases exact : state.tables.nameTree.findExactMatch componentHash p.name p.name.length with
      | none =>
          have absent : state.tables.findExactMatch componentHash p.name = none := by
            simp only [Fib.findExactMatch, exact, Option.bind_none]
          exact ⟨by rw [absent]; rfl, fun _ _ => rfl⟩
      | some nte =>
          obtain ⟨e, storedE, named⟩ := (inv.tables.valid.findExactMatch_eq_some_iff_name p.name nte).mp exact
          have before : state.tables.findExactMatch componentHash p.name = e.fibEntry := by
            rw [← named, findExactMatch_at inv.tables.valid storedE]
          dsimp only
          cases found : Fib.fibEntryAt state.tables.nameTree nte with
          | none =>
              have held : e.fibEntry = none := by
                rwa [fibEntryAt_eq, storedE, Option.bind_some] at found
              exact ⟨by rw [before, held]; rfl, fun _ _ => rfl⟩
          | some fe =>
              have held : e.fibEntry = some fe := by
                rwa [fibEntryAt_eq, storedE, Option.bind_some] at found
              obtain ⟨atName, elsewhere⟩ := findExactMatch_removeNextHop inv.tables storedE held face.id
              rw [named] at atName elsewhere
              dsimp only
              exact ⟨by rw [atName, before, held, Option.bind_some, own], elsewhere⟩

/-- Face 256 withdraws ‘/X’, its only next hop, and the FIB entry goes. -/
theorem removeNextHop_removes_face_routed :
    Fw.Reachable Fw.churnHash Fw.routedState ∧
      let p := setFaceForSelfRegistration 256 ⟨[Fib.componentX], 256, 0⟩
      let result := removeNextHop Fw.churnHash 256 ⟨[Fib.componentX], 256, 0⟩ Fw.routedState
      result.1 = ⟨200, "Success", some p⟩ ∧ Fw.Reachable Fw.churnHash result.2 ∧
        result.2.tables.findExactMatch Fw.churnHash p.name =
          (Fw.routedState.tables.findExactMatch Fw.churnHash p.name).bind (fibEntryWithout p.faceId) ∧
        ∀ name ≠ p.name, result.2.tables.findExactMatch Fw.churnHash name =
          Fw.routedState.tables.findExactMatch Fw.churnHash name :=
  ⟨Fw.routedState_reachable, removeNextHop_removes_face Fw.routedState_reachable 256 ⟨[Fib.componentX], 256, 0⟩⟩

/-- Over every interleaving of faces created and closed with fib/add-nexthop and
fib/remove-nexthop commands, from a new forwarder, every FIB next hop names a face of the face
table. -/
theorem run_names_table_faces (nBuckets : Nat) (positive : 0 < nBuckets) (commands : List Command) :
    let state : Fw.ForwardingState M S :=
      run componentHash commands (Fw.ForwardingState.initial nBuckets positive)
    ∀ nte fe, Fib.fibEntryAt state.tables.nameTree nte = some fe →
      ∀ nh ∈ fe.nextHops, (state.faceTable.get nh.face).isSome := by
  intro state nte fe found nh member
  have reachable : Fw.Reachable componentHash state := reachable_run ⟨nBuckets, positive, .refl⟩ commands
  exact reachable.faceInvariant.namesOnly.nextHop found member

/-- A face is created, routes ‘/X’ and ‘/Y’ to itself, withdraws ‘/X’ and closes. -/
def churnCommands : List Command :=
  [.addFace Fw.faceNew, .addNextHop 256 ⟨[Fib.componentX], 0, 10⟩, .addNextHop 256 ⟨[Fib.componentY], 0, 5⟩,
    .removeNextHop 256 ⟨[Fib.componentX], 0, 0⟩, .removeFace 256]

theorem run_names_table_faces_churn :
    0 < 16 ∧
      let state : Fw.ForwardingState Unit Unit :=
        run Fw.churnHash churnCommands (Fw.ForwardingState.initial 16 NameTree.sixteen_pos)
      ∀ nte fe, Fib.fibEntryAt state.tables.nameTree nte = some fe →
        ∀ nh ∈ fe.nextHops, (state.faceTable.get nh.face).isSome :=
  ⟨NameTree.sixteen_pos, run_names_table_faces 16 NameTree.sixteen_pos churnCommands⟩

end Guarantees

end Nfd.Mgmt.FibManager
