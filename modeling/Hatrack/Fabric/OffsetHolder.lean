import Mathlib.Algebra.Group.Int

/-! Offsets in place of pointers (`offset_holder.h`, `HATRACK_FABRIC` builds): a pointer is stored
as its distance from the word holding it, flagged in the top bit, so that a mapping restored at
another address still decodes. -/

namespace Hatrack

/-- Bit `k` of `2 ^ k + x`, for `x` below `2 ^ k`, is set, and every other bit is that of `x`. -/
theorem testBit_two_pow_add_of_lt {x k : Nat} (lt : x < 2 ^ k) (i : Nat) :
    (2 ^ k + x).testBit i = (decide (i = k) || x.testBit i) := by
  rcases Nat.lt_trichotomy i k with below | rfl | above
  · rw [Nat.testBit_two_pow_add_gt below, decide_eq_false (Nat.ne_of_lt below), Bool.false_or]
  · simp [Nat.testBit_two_pow_add_eq, Nat.testBit_lt_two_pow lt]
  · -- Both numbers are below `2 ^ i`.
    have small : 2 ^ k + x < 2 ^ i :=
      Nat.lt_of_lt_of_le (by rw [Nat.pow_succ]; omega) (Nat.pow_le_pow_right (by decide) above)
    rw [Nat.testBit_lt_two_pow small, decide_eq_false (Nat.ne_of_gt above),
      Nat.testBit_lt_two_pow (Nat.lt_trans lt (Nat.lt_of_le_of_lt (Nat.le_add_right _ x) small))]
    rfl

section Bits

variable {x k : Nat}

/-- Setting bit `k` of a number below `2 ^ k` adds `2 ^ k`. -/
theorem or_two_pow_of_lt (lt : x < 2 ^ k) : x ||| 2 ^ k = 2 ^ k + x :=
  Nat.eq_of_testBit_eq fun i => by
    rw [Nat.testBit_or, Nat.testBit_two_pow, testBit_two_pow_add_of_lt lt]
    by_cases same : i = k
    · subst same; simp
    · simp [same, Ne.symm same]

/-- Setting bit `k` of `2 ^ k + x` changes nothing. -/
theorem two_pow_add_or (lt : x < 2 ^ k) : (2 ^ k + x) ||| 2 ^ k = 2 ^ k + x :=
  Nat.eq_of_testBit_eq fun i => by
    rw [Nat.testBit_or, Nat.testBit_two_pow, testBit_two_pow_add_of_lt lt]
    by_cases same : i = k
    · subst same; simp
    · simp [same, Ne.symm same]

/-- Flipping bit `k` of a number below `2 ^ k` adds `2 ^ k`. -/
theorem xor_two_pow_of_lt (lt : x < 2 ^ k) : x ^^^ 2 ^ k = 2 ^ k + x :=
  Nat.eq_of_testBit_eq fun i => by
    rw [Nat.testBit_xor, Nat.testBit_two_pow, testBit_two_pow_add_of_lt lt]
    by_cases same : i = k
    · subst same; simp [Nat.testBit_lt_two_pow lt]
    · simp [same, Ne.symm same]

/-- Flipping bit `k` of `2 ^ k + x` takes `2 ^ k` off. -/
theorem two_pow_add_xor (lt : x < 2 ^ k) : (2 ^ k + x) ^^^ 2 ^ k = x := by
  rw [← xor_two_pow_of_lt lt, Nat.xor_assoc, Nat.xor_self, Nat.xor_zero]

end Bits

/-- `OFF_HOLDER_FLAG`: the top bit of a 64-bit `uintptr_t`, set in every encoded offset. -/
def offHolderFlag : BitVec 64 := 1 <<< 63

/-- `OFF_HOLDER_MASK`: the bits below the flag. -/
def offHolderMask : BitVec 64 := offHolderFlag - 1

/-- `OFF_XOR_MASK`: the bit below the flag, the sign bit of an offset. -/
def offXorMask : BitVec 64 := 1 <<< 62

/-- `sign_ext_off`: the offset's 63 low bits, sign-extended from bit 62. The `intptr_t` result is
kept as its two's-complement word: the masked value is below `2 ^ 63`, so neither the XOR nor the
subtraction overflows, and the signed subtraction is the word subtraction. -/
def signExtOff (off : BitVec 64) : BitVec 64 :=
  let x := off &&& offHolderMask
  (x ^^^ offXorMask) - offXorMask

/-- `_ptr2off`: `NULL` stays 0; any other pointer is stored as its distance from the holder, with
the flag set. -/
def ptr2off (ptr holder : BitVec 64) : BitVec 64 :=
  if ptr = 0 then 0 else (ptr - holder) ||| offHolderFlag

/-- `_off2ptr`: a flagged word is an offset from the holder, any other word is a plain pointer.
The `intptr_t` from `sign_ext_off` converts to `uintptr_t` for the addition, modulo `2 ^ 64`. -/
def off2ptr (off holder : BitVec 64) : BitVec 64 :=
  if off &&& offHolderFlag ≠ 0 then signExtOff off + holder else off

/-- The flag is bit 63. -/
@[simp] theorem offHolderFlag_toNat : offHolderFlag.toNat = 2 ^ 63 := rfl

/-- The mask is the 63 bits below the flag. -/
@[simp] theorem offHolderMask_toNat : offHolderMask.toNat = 2 ^ 63 - 1 := rfl

/-- The sign bit of an offset is bit 62. -/
@[simp] theorem offXorMask_toNat : offXorMask.toNat = 2 ^ 62 := rfl

/-- Sign-extending a flagged word gives back the word before the flag was set, when that word,
read as signed, lies in `[-2 ^ 62, 2 ^ 62)`: its two top bits then agree. -/
theorem signExtOff_or_flag {v : BitVec 64} (near : -2 ^ 62 ≤ v.toInt ∧ v.toInt < 2 ^ 62) :
    signExtOff (v ||| offHolderFlag) = v := by
  have bound := v.isLt
  rw [BitVec.toInt_eq_toNat_cond] at near
  apply BitVec.eq_of_toNat_eq
  simp only [signExtOff, BitVec.toNat_sub, BitVec.toNat_xor, BitVec.toNat_and, BitVec.toNat_or,
    offHolderFlag_toNat, offHolderMask_toNat, offXorMask_toNat, Nat.and_pow_two_sub_one_eq_mod]
  by_cases low : v.toNat < 2 ^ 62
  · -- A short forward offset: bits 62 and 63 are clear.
    have masked : (v.toNat ||| 2 ^ 63) % 2 ^ 63 = v.toNat := by
      rw [or_two_pow_of_lt (by omega), Nat.add_mod_left, Nat.mod_eq_of_lt (by omega)]
    rw [masked, xor_two_pow_of_lt low]
    omega
  · -- A short backward offset: bits 62 and 63 are set.
    split at near
    · omega
    · obtain ⟨r, split⟩ : ∃ r, v.toNat = 2 ^ 63 + (2 ^ 62 + r) := ⟨v.toNat - 3 * 2 ^ 62, by omega⟩
      have masked : (v.toNat ||| 2 ^ 63) % 2 ^ 63 = 2 ^ 62 + r := by
        rw [split, two_pow_add_or (by omega), Nat.add_mod_left, Nat.mod_eq_of_lt (by omega)]
      rw [masked, two_pow_add_xor (by omega)]
      omega

/-- An encoded non-`NULL` pointer has its flag set. -/
theorem ptr2off_flag {ptr holder : BitVec 64} (nonNull : ptr ≠ 0) :
    ptr2off ptr holder &&& offHolderFlag ≠ 0 := by
  rw [ptr2off, if_neg nonNull]
  intro cleared
  have := congrArg (BitVec.getLsbD · 63) cleared
  simp [offHolderFlag] at this

/-- Decoding an offset against a holder moved by `d` gives the pointer moved by `d`, for every
non-`NULL` pointer within `2 ^ 62` bytes of its holder, and `NULL` decodes as `NULL` against any
holder. -/
theorem off2ptr_ptr2off_relocate (ptr holder d : BitVec 64) :
    (ptr ≠ 0 → -2 ^ 62 ≤ (ptr - holder).toInt ∧ (ptr - holder).toInt < 2 ^ 62 →
      off2ptr (ptr2off ptr holder) (holder + d) = ptr + d) ∧
    ∀ holder', off2ptr (ptr2off 0 holder) holder' = 0 := by
  refine ⟨fun nonNull near => ?_, fun holder' => ?_⟩
  rw [off2ptr, if_pos (ptr2off_flag nonNull), ptr2off, if_neg nonNull, signExtOff_or_flag near,
    ← BitVec.add_assoc, BitVec.sub_add_cancel]
  -- `NULL` is stored as 0, whose flag is clear.
  rw [ptr2off, if_pos rfl, off2ptr, if_neg (by decide)]

/-- A pointer `0x1000` bytes before its holder, decoded against the holder moved by `0x10`. -/
theorem backwardOffset_relocates :
    (0x1000#64 ≠ 0 ∧ -2 ^ 62 ≤ (0x1000#64 - 0x2000#64).toInt ∧
      (0x1000#64 - 0x2000#64).toInt < 2 ^ 62) ∧
    off2ptr (ptr2off 0x1000#64 0x2000#64) (0x2000#64 + 0x10#64) = 0x1000#64 + 0x10#64 :=
  ⟨by decide, (off2ptr_ptr2off_relocate 0x1000#64 0x2000#64 0x10#64).1 (by decide) (by decide)⟩

end Hatrack
