import Mathlib

/-!
# Base-128 numbers and length prefixes

A number is written in base 128, low digits first, with the high bit set in every byte but the
last. Reading stops at the first byte without that bit, so that what follows is left alone; from
this a payload after its length, and a stream of such payloads, can be read back. A reader takes
at most ten bytes and no number beyond 64 bits.
-/

namespace Lib.Varint

open List

variable {val limit : Nat} {bytes rest : List UInt8}

def encode (val : Nat) : List UInt8 :=
  if val < 128 then [UInt8.ofNat val]
  else UInt8.ofNat (val % 128 + 128) :: encode (val / 128)

def digits : Nat → List UInt8 → Option (Nat × List UInt8)
  | 0, _ => none
  | _ + 1, [] => none
  | limit + 1, byte :: rest =>
    if byte.toNat < 128 then some (byte.toNat, rest)
    else (digits limit rest).map fun high => (byte.toNat - 128 + 128 * high.1, high.2)

def decode (bytes : List UInt8) : Option (Nat × List UInt8) :=
  (digits 10 bytes).filter fun read => read.1 < 2 ^ 64

lemma encode_low (low : val < 128) : encode val = [UInt8.ofNat val] := by
  rw [encode, if_pos low]

lemma encode_high (high : 128 ≤ val) :
    encode val = UInt8.ofNat (val % 128 + 128) :: encode (val / 128) := by
  rw [encode, if_neg (Nat.not_lt_of_le high)]

lemma toNat_ofNat (small : val < 256) : (UInt8.ofNat val).toNat = val := by
  rw [UInt8.toNat_ofNat', Nat.mod_eq_of_lt small]

lemma digits_encode (small : val < 128 ^ (limit + 1)) (rest : List UInt8) :
    digits (limit + 1) (encode val ++ rest) = some (val, rest) := by
  induction limit generalizing val with
  | zero =>
    have low : val < 128 := by simpa using small
    rw [encode_low low, singleton_append, digits, toNat_ofNat (by omega), if_pos low]
  | succ limit ih =>
    by_cases low : val < 128
    · rw [encode_low low, singleton_append, digits, toNat_ofNat (by omega), if_pos low]
    · have digit : (UInt8.ofNat (val % 128 + 128)).toNat = val % 128 + 128 :=
        toNat_ofNat (by omega)
      have fewer : val / 128 < 128 ^ (limit + 1) := by
        rw [Nat.div_lt_iff_lt_mul (by decide), ← Nat.pow_succ]
        exact small
      rw [encode_high (Nat.le_of_not_lt low), cons_append, digits, digit,
        if_neg (by omega), ih fewer, Option.map_some, Option.some.injEq, Prod.mk.injEq]
      exact ⟨by omega, rfl⟩

lemma decode_encode (small : val < 2 ^ 64) (rest : List UInt8) :
    decode (encode val ++ rest) = some (val, rest) := by
  rw [decode, @digits_encode val 9 (Nat.lt_trans small (by decide)) rest, Option.filter_some,
    if_pos (decide_eq_true small)]

lemma length_encode_le_iff : (encode val).length ≤ limit + 1 ↔ val < 128 ^ (limit + 1) := by
  induction limit generalizing val with
  | zero =>
    by_cases low : val < 128
    · simp [encode_low low, low]
    · have more : (encode (val / 128)).length ≠ 0 := by
        rw [encode]
        split <;> simp
      simp only [encode_high (Nat.le_of_not_lt low), length_cons]
      omega
  | succ limit ih =>
    by_cases low : val < 128
    · have fits : val < 128 ^ (limit + 1 + 1) :=
        Nat.lt_of_lt_of_le low (Nat.le_self_pow (by omega) 128)
      simp [encode_low low, fits]
    · rw [encode_high (Nat.le_of_not_lt low), length_cons, Nat.add_le_add_iff_right, ih,
        Nat.div_lt_iff_lt_mul (by decide), ← Nat.pow_succ]

lemma length_encode_pos : 0 < (encode val).length := by
  rw [encode]
  split <;> simp

lemma digits_lt (read : digits limit bytes = some (val, rest)) :
    ∃ used, bytes = used ++ rest ∧ 0 < used.length ∧ val < 128 ^ used.length := by
  induction limit generalizing bytes val with
  | zero => cases read
  | succ limit ih =>
    cases bytes with
    | nil => cases read
    | cons byte tail =>
      rw [digits] at read
      split at read
      · cases read
        exact ⟨[byte], rfl, Nat.one_pos, by simpa⟩
      · obtain ⟨⟨high, post⟩, more, same⟩ := Option.map_eq_some_iff.mp read
        obtain ⟨rfl, rfl⟩ := Prod.mk.inj same
        obtain ⟨used, rfl, -, bounded⟩ := ih more
        have small := byte.toNat_lt
        refine ⟨byte :: used, rfl, Nat.succ_pos _, ?_⟩
        rw [length_cons, Nat.pow_succ]
        omega

lemma length_encode_le (read : decode bytes = some (val, [])) :
    (encode val).length ≤ bytes.length := by
  obtain ⟨used, rfl, pos, bounded⟩ := digits_lt (Option.filter_eq_some_iff.mp read).1
  obtain ⟨fewer, length⟩ := Nat.exists_eq_succ_of_ne_zero (Nat.ne_of_gt pos)
  rw [length] at bounded
  rw [append_nil, length]
  exact length_encode_le_iff.mpr bounded

/-- A payload after its length. -/
def delimit (payload : List UInt8) : List UInt8 := encode payload.length ++ payload

def readDelimited (bytes : List UInt8) : Option (List UInt8 × List UInt8) :=
  (decode bytes).bind fun (length, rest) =>
    if rest.length < length then none else some (rest.take length, rest.drop length)

lemma readDelimited_delimit {payload : List UInt8} (small : payload.length < 2 ^ 64)
    (rest : List UInt8) : readDelimited (delimit payload ++ rest) = some (payload, rest) := by
  rw [readDelimited, delimit, append_assoc, decode_encode small, Option.bind_some]
  simp

def readAll : Nat → List UInt8 → Option (List (List UInt8))
  | _, [] => some []
  | 0, _ :: _ => none
  | fuel + 1, byte :: more =>
    (readDelimited (byte :: more)).bind fun (payload, rest) =>
      (readAll fuel rest).map (payload :: ·)

lemma readAll_delimited {payloads : List (List UInt8)}
    (small : ∀ payload ∈ payloads, payload.length < 2 ^ 64) {fuel : Nat}
    (enough : (payloads.flatMap delimit).length ≤ fuel) :
    readAll fuel (payloads.flatMap delimit) = some payloads := by
  induction payloads generalizing fuel with
  | nil => cases fuel <;> rfl
  | cons payload payloads ih =>
    have read := readDelimited_delimit (small payload (by simp)) (payloads.flatMap delimit)
    have pos : 0 < (delimit payload).length := by
      rw [delimit, length_append]
      have := @length_encode_pos payload.length
      omega
    rw [flatMap_cons] at enough ⊢
    rw [length_append] at enough
    cases bytes : delimit payload ++ payloads.flatMap delimit with
    | nil => simp_all
    | cons byte more =>
      cases fuel with
      | zero => omega
      | succ fuel =>
        rw [readAll, ← bytes, read, Option.bind_some]
        dsimp only
        rw [ih (fun other mem => small other (by simp [mem])) (by omega), Option.map_some]

end Lib.Varint
