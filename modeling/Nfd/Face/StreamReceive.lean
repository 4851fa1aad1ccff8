import Mathlib.Data.List.Basic
import Nfd.Lib.PrefixCode
import Nfd.Tlv
import Nfd.Face.LpReliability

/-!
# Receiving on a stream transport

`StreamTransport::handleReceive` appends what a receive completion brought to
`m_receiveBuffer`, passes every element `Block::fromBuffer` finds from the front to
`Transport::receive`, keeps the bytes after the last one, and fails the transport when a full
buffer holds no element at its start.  The decoder is any prefix parser: one that finds the
first complete element and reads nothing past it, as `Tlv.fromBuffer` does.

For a stream of elements of at most `MAX_NDN_PACKET_SIZE` octets, cut into completions that
each fit the space `startReceive` offers, the receiver passes on exactly the elements of the
stream, in order, and after each completion holds exactly the bytes of the element under way
(`handleReceive_delivers_blocks`).  How the bytes are cut does not matter.
-/

set_option autoImplicit false

namespace Nfd.Face.StreamTransport

open PrefixCode Nfd.Lp

/-- The receive side of a stream transport: `m_receiveBuffer` up to `m_receiveBufferSize`, the
blocks passed to `Transport::receive`, and whether `handleReceive` set the state to FAILED. -/
structure Receiver where
  receiveBuffer : List UInt8
  received : List (List UInt8)
  failed : Bool
deriving DecidableEq, Repr

def Receiver.initial : Receiver := ⟨[], [], false⟩

/-- The loop of `handleReceive` from `offset`: `isOk`, the final offset, and the elements passed
to `receive`.  Each element has at least one octet, so `fuel` at the buffer's length lets the
loop run to its end. -/
def parseLoop (fromBuffer : List UInt8 → Option Nat) (buffer : List UInt8) : Nat → Nat → Bool × Nat × List (List UInt8)
  | 0, offset => (true, offset, [])
  | fuel + 1, offset =>
    if offset < buffer.length then
      match fromBuffer (buffer.drop offset) with
      | none => (false, offset, [])
      | some size =>
        let rest := parseLoop fromBuffer buffer fuel (offset + size)
        (rest.1, rest.2.1, (buffer.drop offset).take size :: rest.2.2)
    else (true, offset, [])

/-- `handleReceive` after a completion without error that brought `bytes`. -/
def handleReceive (fromBuffer : List UInt8 → Option Nat) (bytes : List UInt8) (s : Receiver) : Receiver :=
  -- after FAILED the socket is closed and no receive is outstanding
  if s.failed then s
  else
    let buffer := s.receiveBuffer ++ bytes
    let result := parseLoop fromBuffer buffer buffer.length 0
    let isOk := result.1
    let offset := result.2.1
    let received := s.received ++ result.2.2
    if !isOk && buffer.length == maxNdnPacketSize && offset == 0 then
      { receiveBuffer := buffer, received := received, failed := true }
    else
      let receiveBuffer :=
        if 0 < offset then (if offset ≠ buffer.length then buffer.drop offset else []) else buffer
      { receiveBuffer := receiveBuffer, received := received, failed := false }

/-- The completions of a run, in order. -/
def receiveRun (fromBuffer : List UInt8 → Option Nat) (s : Receiver) (chunks : List (List UInt8)) : Receiver :=
  chunks.foldl (fun s bytes => handleReceive fromBuffer bytes s) s

/-! ## The parsing loop -/

theorem parseLoop_of_le (fromBuffer : List UInt8 → Option Nat) {buffer : List UInt8} (fuel : Nat) {offset : Nat}
    (done : buffer.length ≤ offset) : parseLoop fromBuffer buffer fuel offset = (true, offset, []) := by
  cases fuel with
  | zero => rfl
  | succ fuel => simp [parseLoop, Nat.not_lt.mpr done]

theorem offset_le_parseLoop (fromBuffer : List UInt8 → Option Nat) (buffer : List UInt8) (fuel offset : Nat) :
    offset ≤ (parseLoop fromBuffer buffer fuel offset).2.1 := by
  induction fuel generalizing offset with
  | zero => exact Nat.le_refl _
  | succ fuel ih =>
    simp only [parseLoop]
    split
    · split
      · exact Nat.le_refl _
      · rename_i size _
        exact Nat.le_trans (Nat.le_add_right offset size) (ih (offset + size))
    · exact Nat.le_refl _

/-- What the loop from `offset` did over a buffer that holds a stream of elements `es` from
there: it passed on the first `j` of them, and the rest of the buffer begins the next one and
does not complete it; it stopped with `isOk` false only inside that one. -/
def Parsed (es : List (List UInt8)) (buffer : List UInt8) (offset : Nat) (result : Bool × Nat × List (List UInt8))
    (j : Nat) : Prop :=
  result.2 = (offset + (es.take j).flatten.length, es.take j) ∧
    buffer.drop offset = (es.take j).flatten ++ buffer.drop (offset + (es.take j).flatten.length) ∧
    Incomplete (buffer.drop (offset + (es.take j).flatten.length)) (es.drop j) ∧
    (result.1 = false → offset + (es.take j).flatten.length < buffer.length)

theorem parsed_of_le {es : List (List UInt8)} (positive : ∀ e ∈ es, 0 < e.length) {buffer : List UInt8}
    {offset : Nat} (done : buffer.length ≤ offset) : Parsed es buffer offset (true, offset, []) 0 := by
  refine ⟨rfl, ?_, ?_, fun stopped => nomatch stopped⟩ <;>
    simp only [List.take_zero, List.flatten_nil, List.length_nil, Nat.add_zero, List.drop_zero,
      List.drop_of_length_le done, List.append_nil]
  exact Incomplete.nil positive

theorem parsed_of_incomplete {es : List (List UInt8)} {buffer : List UInt8} {offset : Nat}
    (incomplete : Incomplete (buffer.drop offset) es) (inside : offset < buffer.length) :
    Parsed es buffer offset (false, offset, []) 0 := by
  refine ⟨rfl, ?_, ?_, fun _ => ?_⟩ <;>
    simp only [List.take_zero, List.flatten_nil, List.length_nil, Nat.add_zero, List.nil_append]
  · exact incomplete
  · exact inside

theorem Parsed.cons {e : List UInt8} {es : List (List UInt8)} {buffer : List UInt8} {offset : Nat}
    {result : Bool × Nat × List (List UInt8)} {j : Nat} (parsed : Parsed es buffer (offset + e.length) result j)
    (whole : buffer.drop offset = e ++ buffer.drop (offset + e.length)) :
    Parsed (e :: es) buffer offset (result.1, result.2.1, e :: result.2.2) (j + 1) := by
  obtain ⟨isOk, last, delivered⟩ := result
  obtain ⟨loop, front, incomplete, stops⟩ := parsed
  have taken : (e :: es).take (j + 1) = e :: es.take j := rfl
  have length : offset + ((e :: es).take (j + 1)).flatten.length = offset + e.length + (es.take j).flatten.length := by
    simp only [taken, List.flatten_cons, List.length_append]
    omega
  refine ⟨?_, ?_, ?_, ?_⟩
  · rw [length, taken]
    simp only [Prod.mk.injEq] at loop ⊢
    exact ⟨loop.1, congrArg (e :: ·) loop.2⟩
  · rw [length, taken, List.flatten_cons, List.append_assoc, ← front, whole]
  · simpa only [length, List.drop_succ_cons] using incomplete
  · rw [length]
    exact stops

/-- The loop over a buffer that holds a stream of elements from `offset` passes on the elements
the buffer holds whole and stops at the next one. -/
theorem parseLoop_parsed (P : PrefixParser UInt8) {es : List (List UInt8)}
    (elements : ∀ e ∈ es, P.IsElement e) {buffer : List UInt8} {offset fuel : Nat}
    (within : buffer.drop offset <+: es.flatten) (enough : buffer.length - offset ≤ fuel) :
    ∃ j, Parsed es buffer offset (parseLoop P.parse buffer fuel offset) j := by
  induction es generalizing offset fuel with
  | nil =>
    have done : buffer.length ≤ offset := by simpa using List.eq_nil_of_prefix_nil within
    exact ⟨0, parseLoop_of_le _ fuel done ▸ parsed_of_le (fun _ mem => absurd mem List.not_mem_nil) done⟩
  | cons e es ih =>
    have element := elements e List.mem_cons_self
    by_cases done : buffer.length ≤ offset
    · have positive : ∀ e' ∈ e :: es, 0 < e'.length := fun e' mem => (elements e' mem).length_pos
      exact ⟨0, parseLoop_of_le _ fuel done ▸ parsed_of_le positive done⟩
    obtain ⟨fuel, rfl⟩ : ∃ rest, fuel = rest + 1 := ⟨fuel - 1, by omega⟩
    rcases prefix_flatten_cons within with ⟨front, short⟩ | ⟨rest, split, restWithin⟩
    · -- the buffer ends inside `e`: `fromBuffer` fails at `offset`
      have missing := element.parse_of_lt front short
      have stop : parseLoop P.parse buffer (fuel + 1) offset = (false, offset, []) := by
        simp only [parseLoop, if_pos (Nat.lt_of_not_le done), missing]
      exact ⟨0, stop ▸ parsed_of_incomplete ⟨within, fun e' first => by cases first; exact short⟩
        (Nat.lt_of_not_le done)⟩
    · -- `e` is whole: it is passed on and the loop goes on after it
      have found : P.parse (e ++ rest) = some e.length := element.parse_append rest
      have after : buffer.drop (offset + e.length) = rest := by
        rw [← List.drop_drop, split, List.drop_left]
      have step : parseLoop P.parse buffer (fuel + 1) offset =
          ((parseLoop P.parse buffer fuel (offset + e.length)).1,
            (parseLoop P.parse buffer fuel (offset + e.length)).2.1,
            e :: (parseLoop P.parse buffer fuel (offset + e.length)).2.2) := by
        simp only [parseLoop, if_pos (Nat.lt_of_not_le done), split, found, List.take_left]
      have longer := element.length_pos
      have enoughAfter : buffer.length - (offset + e.length) ≤ fuel := by omega
      obtain ⟨j, parsed⟩ := ih (fun e' mem => elements e' (List.mem_cons_of_mem e mem)) (after ▸ restWithin)
        enoughAfter
      exact ⟨j + 1, step ▸ parsed.cons (after ▸ split)⟩

/-! ## One completion -/

theorem receiveBuffer_eq_drop (buffer : List UInt8) (offset : Nat) :
    (if 0 < offset then (if offset ≠ buffer.length then buffer.drop offset else []) else buffer) =
      buffer.drop offset := by
  by_cases moved : 0 < offset
  · by_cases whole : offset = buffer.length
    · simp [whole]
    · simp [moved, whole]
  · have zero : offset = 0 := by omega
    simp [zero]

/-- A completion that does not fail the transport passes on what the loop found and keeps the
bytes after it. -/
theorem handleReceive_eq {fromBuffer : List UInt8 → Option Nat} {bytes : List UInt8} {s : Receiver}
    {isOk : Bool} {offset : Nat} {elements : List (List UInt8)}
    (loop : parseLoop fromBuffer (s.receiveBuffer ++ bytes) (s.receiveBuffer ++ bytes).length 0 = (isOk, offset, elements))
    (notFailed : s.failed = false)
    (moving : ¬(isOk = false ∧ (s.receiveBuffer ++ bytes).length = maxNdnPacketSize ∧ offset = 0)) :
    handleReceive fromBuffer bytes s = ⟨(s.receiveBuffer ++ bytes).drop offset, s.received ++ elements, false⟩ := by
  have quiet : (!isOk && (s.receiveBuffer ++ bytes).length == maxNdnPacketSize && offset == 0) = false := by
    cases isOk <;> simp_all
  simp only [handleReceive, notFailed, Bool.false_eq_true, if_false, loop, quiet, receiveBuffer_eq_drop]

/-- The loop stops at once, with `isOk` false, exactly when no element can be parsed at the start. -/
theorem parseLoop_stuck (P : PrefixParser UInt8) {buffer : List UInt8} (fuel : Nat) (inside : 0 < buffer.length) :
    (!(parseLoop P.parse buffer (fuel + 1) 0).1 && (parseLoop P.parse buffer (fuel + 1) 0).2.1 == 0) =
      (P.parse buffer == none) := by
  cases parsed : P.parse buffer with
  | none => simp [parseLoop, inside, parsed]
  | some size =>
    -- an element at the start moves the offset past it
    have moved := Nat.lt_of_lt_of_le (P.pos parsed) (offset_le_parseLoop P.parse buffer fuel size)
    simp [parseLoop, inside, parsed, Nat.pos_iff_ne_zero.mp moved]

/-- `handleReceive` fails the transport exactly when the buffer it fills is full and no element
can be parsed at its start. -/
theorem failed_handleReceive (P : PrefixParser UInt8) (bytes : List UInt8) (s : Receiver) :
    (handleReceive P.parse bytes s).failed =
      (s.failed || ((s.receiveBuffer ++ bytes).length == maxNdnPacketSize &&
        P.parse (s.receiveBuffer ++ bytes) == none)) := by
  by_cases failed : s.failed
  · simp [handleReceive, failed]
  simp only [handleReceive, failed, Bool.false_eq_true, if_false, Bool.false_or]
  generalize s.receiveBuffer ++ bytes = buffer
  have stuck : (!(parseLoop P.parse buffer buffer.length 0).1 && buffer.length == maxNdnPacketSize &&
      (parseLoop P.parse buffer buffer.length 0).2.1 == 0) =
        (buffer.length == maxNdnPacketSize && P.parse buffer == none) := by
    by_cases full : buffer.length = maxNdnPacketSize
    · have inside : 0 < buffer.length := by rw [full]; decide
      obtain ⟨fuel, filled⟩ : ∃ fuel, buffer.length = fuel + 1 := ⟨buffer.length - 1, by omega⟩
      have key := parseLoop_stuck P fuel inside
      rw [← filled, full] at key
      rw [full, beq_self_eq_true, Bool.and_true, Bool.true_and]
      exact key
    · have notFull : (buffer.length == maxNdnPacketSize) = false := by simpa using full
      simp only [notFull, Bool.and_false, Bool.false_and]
  rw [stuck]
  cases buffer.length == maxNdnPacketSize && P.parse buffer == none <;> rfl

/-! ## Where the receiver stands in a stream -/

/-- After the bytes `consumed` of a stream of `blocks`: the transport has not failed, the first
`i` blocks were passed to `receive`, in order, and the buffer holds what was consumed after them,
which begins the next block and does not complete it. -/
structure Deframed (blocks : List (List UInt8)) (consumed : List UInt8) (s : Receiver) : Prop where
  notFailed : s.failed = false
  position : ∃ i, s.received = blocks.take i ∧ consumed = (blocks.take i).flatten ++ s.receiveBuffer ∧
    Incomplete s.receiveBuffer (blocks.drop i)

theorem flatten_take_append_drop (blocks : List (List UInt8)) (i : Nat) :
    (blocks.take i).flatten ++ (blocks.drop i).flatten = blocks.flatten := by
  rw [← List.flatten_append, List.take_append_drop]

/-- At the end of the stream every block was passed on and the buffer is empty. -/
theorem Deframed.complete {blocks : List (List UInt8)} {s : Receiver} (deframed : Deframed blocks blocks.flatten s) :
    s.received = blocks ∧ s.receiveBuffer = [] := by
  obtain ⟨-, i, received, split, incomplete⟩ := deframed
  have rest : s.receiveBuffer = (blocks.drop i).flatten := by
    rw [← flatten_take_append_drop blocks i] at split
    exact (List.append_cancel_left split).symm
  rw [rest] at incomplete
  have ended := incomplete.eq_nil_of_flatten
  rw [List.drop_eq_nil_iff] at ended
  rw [received, List.take_of_length_le ended, rest, List.drop_of_length_le ended, List.flatten_nil]
  exact ⟨rfl, rfl⟩

section Stream

variable (P : PrefixParser UInt8) {blocks : List (List UInt8)}
  (wellFormed : ∀ b ∈ blocks, P.IsElement b ∧ b.length ≤ maxNdnPacketSize)
include wellFormed

theorem Deframed.initial : Deframed blocks [] Receiver.initial :=
  ⟨rfl, 0, rfl, rfl, Incomplete.nil fun b mem => (wellFormed b (List.mem_of_mem_drop mem)).1.length_pos⟩

/-- The buffer never fills: `startReceive` always offers free space. -/
theorem Deframed.receiveBuffer_lt {consumed : List UInt8} {s : Receiver} (deframed : Deframed blocks consumed s) :
    s.receiveBuffer.length < maxNdnPacketSize := by
  obtain ⟨-, i, -, -, incomplete⟩ := deframed
  by_cases empty : s.receiveBuffer = []
  · rw [empty]
    decide
  · obtain ⟨b, mem, shorter⟩ := incomplete.exists_longer empty
    have bounded := (wellFormed b (List.mem_of_mem_drop mem)).2
    omega

/-- The step lemma: a completion that keeps within the stream passes on the blocks it
completes and keeps the start of the next. -/
theorem Deframed.step {consumed bytes : List UInt8} {s : Receiver} (deframed : Deframed blocks consumed s)
    (within : consumed ++ bytes <+: blocks.flatten) :
    Deframed blocks (consumed ++ bytes) (handleReceive P.parse bytes s) := by
  obtain ⟨notFailed, i, received, split, -⟩ := deframed
  have buffered : (s.receiveBuffer ++ bytes).drop 0 <+: (blocks.drop i).flatten := by
    rw [split, ← flatten_take_append_drop blocks i, List.append_assoc] at within
    exact (List.prefix_append_right_inj _).mp within
  obtain ⟨j, parsed⟩ := parseLoop_parsed P (fun e mem => (wellFormed e (List.mem_of_mem_drop mem)).1) buffered
    (Nat.sub_le _ 0)
  rcases loop : parseLoop P.parse (s.receiveBuffer ++ bytes) (s.receiveBuffer ++ bytes).length 0
    with ⟨isOk, offset, elements⟩
  rw [loop] at parsed
  obtain ⟨result, front, incomplete, stops⟩ := parsed
  simp only [Nat.zero_add, List.drop_zero, Prod.mk.injEq] at result front incomplete stops
  obtain ⟨rfl, rfl⟩ := result
  have moving : ¬(isOk = false ∧ (s.receiveBuffer ++ bytes).length = maxNdnPacketSize ∧
      ((blocks.drop i).take j).flatten.length = 0) := by
    rintro ⟨stopped, full, nothing⟩
    -- the whole buffer would begin a block and not complete it, yet hold `MAX_NDN_PACKET_SIZE` octets
    rw [nothing, List.drop_zero] at incomplete
    obtain ⟨b, mem, shorter⟩ := incomplete.exists_longer (List.ne_nil_of_length_pos (by rw [full]; decide))
    have bounded := (wellFormed b (List.mem_of_mem_drop (List.mem_of_mem_drop mem))).2
    omega
  rw [handleReceive_eq loop notFailed moving]
  refine ⟨rfl, i + j, ?_, ?_, ?_⟩
  · rw [received, List.take_add]
  · rw [split, List.append_assoc, List.take_add, List.flatten_append, List.append_assoc]
    exact congrArg _ front
  · rwa [List.drop_drop] at incomplete

/-- The run lemma: through completions that keep within the stream, however it is cut, the
receiver stays `Deframed`. -/
theorem Deframed.run {consumed : List UInt8} {s : Receiver} (deframed : Deframed blocks consumed s)
    (chunks : List (List UInt8)) (within : consumed ++ chunks.flatten <+: blocks.flatten) :
    ∀ k ≤ chunks.length, Deframed blocks (consumed ++ (chunks.take k).flatten) (receiveRun P.parse s (chunks.take k)) := by
  induction chunks generalizing consumed s with
  | nil =>
    intro k _
    simpa [receiveRun] using deframed
  | cons bytes chunks ih =>
    intro k bounded
    cases k with
    | zero => simpa [receiveRun] using deframed
    | succ k =>
      have first : consumed ++ bytes <+: blocks.flatten :=
        (List.prefix_append _ _).trans (by simpa [List.append_assoc] using within)
      have next := deframed.step P wellFormed first
      have later := ih next (by simpa [List.append_assoc] using within) k (Nat.le_of_succ_le_succ bounded)
      rw [List.take_succ_cons, List.flatten_cons, ← List.append_assoc]
      exact later

end Stream

theorem handleReceive_delivers_blocks (P : PrefixParser UInt8) (blocks chunks : List (List UInt8))
    (wellFormed : ∀ b ∈ blocks, P.IsElement b ∧ b.length ≤ maxNdnPacketSize)
    (split : chunks.flatten = blocks.flatten) :
    (∀ k ≤ chunks.length,
      Deframed blocks (chunks.take k).flatten (receiveRun P.parse Receiver.initial (chunks.take k)) ∧
        (receiveRun P.parse Receiver.initial (chunks.take k)).receiveBuffer.length < maxNdnPacketSize) ∧
      (receiveRun P.parse Receiver.initial chunks).received = blocks ∧
      (receiveRun P.parse Receiver.initial chunks).receiveBuffer = [] ∧
      ∀ (bytes : List UInt8) (s : Receiver), (handleReceive P.parse bytes s).failed =
        (s.failed || ((s.receiveBuffer ++ bytes).length == maxNdnPacketSize &&
          P.parse (s.receiveBuffer ++ bytes) == none)) := by
  have run := (Deframed.initial P wellFormed).run P wellFormed chunks (by simp [split])
  have ended : Deframed blocks blocks.flatten (receiveRun P.parse Receiver.initial chunks) := by
    simpa [split] using run chunks.length (Nat.le_refl _)
  refine ⟨fun k bounded => ?_, ended.complete.1, ended.complete.2, failed_handleReceive P⟩
  have deframed : Deframed blocks (chunks.take k).flatten (receiveRun P.parse Receiver.initial (chunks.take k)) := by
    simpa using run k bounded
  exact ⟨deframed, deframed.receiveBuffer_lt P wellFormed⟩

/-- The stream of the TLV elements `[8, 1, 65]` and `[7, 0]`, cut inside the first and inside the
second. -/
theorem handleReceive_delivers_blocks_cut :
    (∀ b ∈ [[8, 1, 65], [7, 0]], Tlv.parser.IsElement b ∧ b.length ≤ maxNdnPacketSize) ∧
      ([[8], [1, 65, 7], [0]] : List (List UInt8)).flatten = [[8, 1, 65], [7, 0]].flatten ∧
      (receiveRun Tlv.parser.parse Receiver.initial [[8], [1, 65, 7], [0]]).received = [[8, 1, 65], [7, 0]] :=
  have wellFormed : ∀ b ∈ ([[8, 1, 65], [7, 0]] : List (List UInt8)),
      Tlv.parser.IsElement b ∧ b.length ≤ maxNdnPacketSize := by
    decide
  ⟨wellFormed, rfl, (handleReceive_delivers_blocks Tlv.parser [[8, 1, 65], [7, 0]] [[8], [1, 65, 7], [0]]
    wellFormed rfl).2.1⟩

end Nfd.Face.StreamTransport
