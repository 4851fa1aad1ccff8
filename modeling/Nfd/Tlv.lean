import Mathlib
import Nfd.Lib.PrefixCode

/-!
# TLV decoding

How ndn-cxx reads the first TLV element off a buffer (`tlv::readVarNumber`, `tlv::readType`,
`Block::fromBuffer`), which the stream transport calls on its receive buffer.  A VAR-NUMBER is
one octet below 253, or 253, 254 or 255 followed by a big-endian number of 2, 4 or 8 octets; a
TLV-TYPE is a VAR-NUMBER other than `tlv::Invalid` (0) that fits in 32 bits; the element is there
when the buffer holds the TLV-LENGTH octets of its value.  Each read takes only the octets it
decodes, so `fromBuffer` is a prefix parser (`parser`).
-/

set_option autoImplicit false

namespace Nfd.Tlv

open PrefixCode

/-- The value of a big-endian unsigned number. -/
def readNumber (bytes : List UInt8) : Nat := bytes.foldl (fun n b => n * 256 + b.toNat) 0

/-- `tlv::readVarNumber`: the number and the octets after it. -/
def readVarNumber : List UInt8 → Option (Nat × List UInt8)
  | [] => none
  | firstOctet :: rest =>
    if firstOctet.toNat < 253 then some (firstOctet.toNat, rest)
    else
      let len := if firstOctet.toNat = 253 then 2 else if firstOctet.toNat = 254 then 4 else 8
      if rest.length < len then none else some (readNumber (rest.take len), rest.drop len)

/-- `tlv::readType`. -/
def readType (bytes : List UInt8) : Option (Nat × List UInt8) :=
  match readVarNumber bytes with
  | none => none
  | some (number, rest) => if number = 0 ∨ 2 ^ 32 - 1 < number then none else some (number, rest)

/-- `Block::fromBuffer`: the size of the first element, type and length octets included. -/
def fromBuffer (bytes : List UInt8) : Option Nat :=
  match readType bytes with
  | none => none
  | some (_, afterType) =>
    match readVarNumber afterType with
    | none => none
    | some (length, value) =>
      if value.length < length then none else some (bytes.length - value.length + length)

example : fromBuffer [8, 1, 65, 7, 0] = some 3 := by decide
example : fromBuffer [8, 2, 65] = none := by decide
example : fromBuffer [253, 1, 0, 0] = some 4 := by decide

theorem readVarNumber_append {bytes rest : List UInt8} {number : Nat}
    (read : readVarNumber bytes = some (number, rest)) (more : List UInt8) :
    readVarNumber (bytes ++ more) = some (number, rest ++ more) := by
  cases bytes with
  | nil => simp [readVarNumber] at read
  | cons firstOctet tail =>
    simp only [readVarNumber, List.cons_append] at read ⊢
    by_cases small : firstOctet.toNat < 253
    · simp only [if_pos small, Option.some.injEq, Prod.mk.injEq] at read ⊢
      obtain ⟨rfl, rfl⟩ := read
      exact ⟨rfl, rfl⟩
    · simp only [if_neg small] at read ⊢
      generalize (if firstOctet.toNat = 253 then 2 else if firstOctet.toNat = 254 then 4 else 8) = len
        at read ⊢
      by_cases short : tail.length < len
      · simp [if_pos short] at read
      · simp only [if_neg short, Option.some.injEq, Prod.mk.injEq] at read
        obtain ⟨rfl, rfl⟩ := read
        have longer : ¬(tail ++ more).length < len := by simp only [List.length_append]; omega
        rw [if_neg longer, List.take_append_of_le_length (by omega), List.drop_append_of_le_length (by omega)]

theorem readVarNumber_length {bytes rest : List UInt8} {number : Nat}
    (read : readVarNumber bytes = some (number, rest)) : rest.length < bytes.length := by
  cases bytes with
  | nil => simp [readVarNumber] at read
  | cons firstOctet tail =>
    simp only [readVarNumber] at read
    by_cases small : firstOctet.toNat < 253
    · simp only [if_pos small, Option.some.injEq, Prod.mk.injEq] at read
      obtain ⟨-, rfl⟩ := read
      simp
    · simp only [if_neg small] at read
      generalize (if firstOctet.toNat = 253 then 2 else if firstOctet.toNat = 254 then 4 else 8) = len at read
      by_cases short : tail.length < len
      · simp [if_pos short] at read
      · simp only [if_neg short, Option.some.injEq, Prod.mk.injEq] at read
        obtain ⟨-, rfl⟩ := read
        simp only [List.length_drop, List.length_cons]
        omega

theorem readType_spec {bytes rest : List UInt8} {type : Nat} :
    readType bytes = some (type, rest) ↔
      readVarNumber bytes = some (type, rest) ∧ type ≠ 0 ∧ type ≤ 2 ^ 32 - 1 := by
  unfold readType
  cases readVarNumber bytes with
  | none => simp
  | some read =>
    obtain ⟨number, after⟩ := read
    by_cases invalid : number = 0 ∨ 2 ^ 32 - 1 < number
    · simp only [if_pos invalid, reduceCtorEq, false_iff, Option.some.injEq, Prod.mk.injEq]
      omega
    · simp only [if_neg invalid, Option.some.injEq, Prod.mk.injEq]
      constructor
      · rintro ⟨rfl, rfl⟩
        exact ⟨⟨rfl, rfl⟩, by omega, by omega⟩
      · rintro ⟨same, -, -⟩
        exact same

/-- The inversion of `fromBuffer`: a type, a length, and at least that many octets after them. -/
theorem fromBuffer_spec {bytes : List UInt8} {size : Nat} :
    fromBuffer bytes = some size ↔
      ∃ type afterType length value, readType bytes = some (type, afterType) ∧
        readVarNumber afterType = some (length, value) ∧ length ≤ value.length ∧
        size = bytes.length - value.length + length := by
  unfold fromBuffer
  constructor
  · intro found
    split at found
    · cases found
    · rename_i type afterType readsType
      split at found
      · cases found
      · rename_i length value readsLength
        split_ifs at found with short
        cases found
        exact ⟨type, afterType, length, value, readsType, readsLength, by omega, rfl⟩
  · rintro ⟨type, afterType, length, value, readsType, readsLength, enough, rfl⟩
    rw [readsType]
    simp only [readsLength, if_neg (Nat.not_lt.mpr enough)]

theorem fromBuffer_pos {bytes : List UInt8} {size : Nat} (found : fromBuffer bytes = some size) : 0 < size := by
  obtain ⟨type, afterType, length, value, readsType, readsLength, -, rfl⟩ := fromBuffer_spec.mp found
  have typeRead := readVarNumber_length (readType_spec.mp readsType).1
  have lengthRead := readVarNumber_length readsLength
  omega

theorem fromBuffer_le_length {bytes : List UInt8} {size : Nat} (found : fromBuffer bytes = some size) :
    size ≤ bytes.length := by
  obtain ⟨type, afterType, length, value, readsType, readsLength, enough, rfl⟩ := fromBuffer_spec.mp found
  have typeRead := readVarNumber_length (readType_spec.mp readsType).1
  have lengthRead := readVarNumber_length readsLength
  omega

theorem fromBuffer_append {bytes : List UInt8} {size : Nat} (more : List UInt8) (found : fromBuffer bytes = some size) :
    fromBuffer (bytes ++ more) = some size := by
  obtain ⟨type, afterType, length, value, readsType, readsLength, enough, rfl⟩ := fromBuffer_spec.mp found
  obtain ⟨typeRead, valid, fits⟩ := readType_spec.mp readsType
  have typeShorter := readVarNumber_length typeRead
  have lengthRead := readVarNumber_length readsLength
  refine fromBuffer_spec.mpr ⟨type, afterType ++ more, length, value ++ more,
    readType_spec.mpr ⟨readVarNumber_append typeRead more, valid, fits⟩,
    readVarNumber_append readsLength more, by simp only [List.length_append]; omega, ?_⟩
  simp only [List.length_append]
  omega

/-- `Block::fromBuffer` as a prefix parser. -/
def parser : PrefixParser UInt8 :=
  ⟨fromBuffer, fromBuffer_pos, fromBuffer_le_length, fun more found => fromBuffer_append more found⟩

end Nfd.Tlv
