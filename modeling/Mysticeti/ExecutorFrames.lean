import Mysticeti.Lib.Varint
import Mysticeti.Types

/-!
# Frames to the executor

A sub-dag is sent as its encoding after the length of the encoding, which is written in the
base-128 format that the reader of the executor expects. The loop that writes a length pushes
its digits in order, so that the frames of a connection are read back one by one.
-/

namespace Mysticeti

open List Lib.Varint

lemma toNat_shifted (val : UInt64) : (val >>> 7).toNat = val.toNat / 128 := by
  simp [UInt64.toNat_shiftRight, Nat.shiftRight_eq_div_pow]

/-- The bytes of a number, pushed to a buffer, low digits first. -/
def writeUvarint (buf : Bytes) (val : UInt64) : Bytes :=
  let b := (val &&& 0x7F).toUInt8
  let shifted := val >>> 7
  if shifted = 0 then buf ++ [b]
  else writeUvarint (buf ++ [b ||| 0x80]) shifted
termination_by val.toNat
decreasing_by
  rename_i more
  have shift := toNat_shifted val
  have pos : (val >>> 7).toNat ≠ 0 := fun none => more (UInt64.toNat_inj.mp none)
  show (val >>> 7).toNat < val.toNat
  omega

def sendBlockData (epochDataBytes : Bytes) : Bytes :=
  writeUvarint [] (UInt64.ofNat epochDataBytes.length) ++ epochDataBytes

lemma toNat_masked (val : UInt64) : (val &&& 0x7F).toUInt8.toNat = val.toNat % 128 := by
  have masked := Nat.and_two_pow_sub_one_eq_mod (val.toNat % 256) 7
  rw [Nat.mod_mod_of_dvd _ (by decide)] at masked
  simpa using masked

lemma toNat_marked {byte : UInt8} (low : byte.toNat < 128) :
    (byte ||| 0x80).toNat = byte.toNat + 128 := by
  have apart : 2 ^ 7 * 1 + byte.toNat = 2 ^ 7 * 1 ||| byte.toNat :=
    Nat.two_pow_add_eq_or_of_lt low 1
  rw [UInt8.toNat_or, Nat.or_comm, Nat.add_comm]
  exact apart.symm

lemma writeUvarint_eq (buf : Bytes) (val : UInt64) :
    writeUvarint buf val = buf ++ encode val.toNat := by
  fun_induction writeUvarint buf val with
  | case1 buf val b shifted done =>
    have low : val.toNat < 128 := by
      have none := congrArg UInt64.toNat done
      rw [toNat_shifted] at none
      simp at none
      exact none
    rw [encode_low low, append_cancel_left_eq, cons.injEq]
    refine ⟨UInt8.toNat_inj.mp ?_, rfl⟩
    rw [toNat_masked, toNat_ofNat (by omega), Nat.mod_eq_of_lt low]
  | case2 buf val b shifted more ih =>
    have high : 128 ≤ val.toNat := by
      by_contra low
      refine more (UInt64.toNat_inj.mp ?_)
      rw [toNat_shifted, Nat.div_eq_of_lt (Nat.lt_of_not_le low)]
      rfl
    have digit : b ||| 0x80 = UInt8.ofNat (val.toNat % 128 + 128) := by
      have small : b.toNat = val.toNat % 128 := toNat_masked val
      rw [← UInt8.toNat_inj, toNat_marked (by omega), toNat_ofNat (by omega), small]
    rw [ih, encode_high high, toNat_shifted, digit, append_assoc, singleton_append]

lemma sendBlockData_eq {payload : Bytes} (small : payload.length < 2 ^ 64) :
    sendBlockData payload = delimit payload := by
  rw [sendBlockData, writeUvarint_eq, nil_append, UInt64.toNat_ofNat', Nat.mod_eq_of_lt small,
    delimit]

/-- Every 64-bit number is read back from what is written for it, at most ten bytes and no more
than necessary, without touching what follows; so a connection carries exactly the payloads. -/
theorem frames_decode :
    (∀ (val : UInt64) (rest : Bytes),
      decode (writeUvarint [] val ++ rest) = some (val.toNat, rest)) ∧
    (∀ val : UInt64, (writeUvarint [] val).length ≤ 10 ∧
      ∀ bytes, decode bytes = some (val.toNat, []) →
        (writeUvarint [] val).length ≤ bytes.length) ∧
    ∀ payloads : List Bytes, (∀ payload ∈ payloads, payload.length < 2 ^ 64) →
      readAll (payloads.flatMap sendBlockData).length (payloads.flatMap sendBlockData) =
        some payloads := by
  refine ⟨fun val rest => ?_, fun val => ⟨?_, fun bytes read => ?_⟩, fun payloads small => ?_⟩
  · rw [writeUvarint_eq, nil_append]
    exact decode_encode val.toNat_lt rest
  · rw [writeUvarint_eq, nil_append, @length_encode_le_iff _ 9]
    exact Nat.lt_trans val.toNat_lt (by decide)
  · rw [writeUvarint_eq, nil_append]
    exact length_encode_le read
  · have written : payloads.flatMap sendBlockData = payloads.flatMap delimit :=
      flatMap_congr fun payload mem => sendBlockData_eq (small payload mem)
    rw [written]
    exact readAll_delimited small (Nat.le_refl _)

end Mysticeti
