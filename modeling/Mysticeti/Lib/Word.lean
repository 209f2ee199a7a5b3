import Mathlib

/-!
# Arithmetic of machine words

A word of some number of bits holds a natural number up to a power of two. An operation
without overflow checks keeps the remainder, so its result is exact precisely when the exact
result fits.
-/

namespace Lib.Word

variable {bits : Nat}

/-- What a word keeps of a number. -/
def wrap (bits number : Nat) : Nat := number % 2 ^ bits

def wrapSub (bits left right : Nat) : Nat := wrap bits (left + (2 ^ bits - right))

lemma wrap_lt (bits number : Nat) : wrap bits number < 2 ^ bits :=
  Nat.mod_lt number (Nat.two_pow_pos bits)

lemma wrap_of_lt {number : Nat} (fits : number < 2 ^ bits) : wrap bits number = number :=
  Nat.mod_eq_of_lt fits

lemma wrap_eq_self_iff {number : Nat} : wrap bits number = number ↔ number < 2 ^ bits :=
  ⟨fun same => same ▸ wrap_lt bits number, wrap_of_lt⟩

@[simp]
lemma wrap_zero (bits : Nat) : wrap bits 0 = 0 := Nat.zero_mod _

lemma wrap_add_wrap (bits left right : Nat) :
    wrap bits (wrap bits left + right) = wrap bits (left + right) :=
  Nat.mod_add_mod left (2 ^ bits) right

lemma foldl_wrap_add (start : Nat) (numbers : List Nat) :
    numbers.foldl (fun sum number => wrap bits (sum + number)) (wrap bits start) =
      wrap bits (start + numbers.sum) := by
  induction numbers generalizing start with
  | nil => rfl
  | cons number rest ih => rw [List.foldl_cons, wrap_add_wrap, ih, List.sum_cons, Nat.add_assoc]

lemma wrapSub_wrap {left right : Nat} (less : right ≤ left) (fits : right ≤ 2 ^ bits) :
    wrapSub bits (wrap bits left) right = wrap bits (left - right) := by
  have shifted : left + (2 ^ bits - right) = left - right + 2 ^ bits := by omega
  rw [wrapSub, wrap_add_wrap, shifted, wrap, Nat.add_mod_right, wrap]

end Lib.Word
