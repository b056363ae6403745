import Mathlib.Algebra.GroupWithZero.Nat

/-! Machine integers whose value is small: signed and unsigned operations on them are those
of the natural numbers. -/

set_option autoImplicit false

namespace Foundation

section Small

variable {k m : Nat}

section

variable (small : k < 2 ^ 31)

include small

theorem msb_ofNat : (BitVec.ofNat 32 k).msb = false := by
  rw [BitVec.msb_eq_false_iff_two_mul_lt, BitVec.toNat_ofNat]
  omega

theorem toNat_ofNat32 : (BitVec.ofNat 32 k).toNat = k := by
  rw [BitVec.toNat_ofNat]
  exact Nat.mod_eq_of_lt (by omega)

theorem toInt_ofNat : (BitVec.ofNat 32 k).toInt = k := by
  rw [BitVec.toInt_eq_toNat_of_msb (msb_ofNat small), toNat_ofNat32 small]

theorem toNat_signExtend_ofNat : ((BitVec.ofNat 32 k).signExtend 64).toNat = k := by
  rw [BitVec.signExtend_eq_setWidth_of_msb_false (msb_ofNat small), BitVec.toNat_setWidth,
    BitVec.toNat_ofNat]
  omega

theorem signExtend_ofNat : (BitVec.ofNat 32 k).signExtend 64 = BitVec.ofNat 64 k := by
  apply BitVec.eq_of_toNat_eq
  rw [toNat_signExtend_ofNat small, BitVec.toNat_ofNat]
  omega

theorem ofNat_inj (other : m < 2 ^ 31) (same : BitVec.ofNat 32 k = BitVec.ofNat 32 m) : k = m := by
  have values := congrArg BitVec.toNat same
  rwa [toNat_ofNat32 small, toNat_ofNat32 other] at values

end

theorem sub_ofNat (order : m ≤ k) (small : k < 2 ^ 31) :
    BitVec.ofNat 32 k - BitVec.ofNat 32 m = BitVec.ofNat 32 (k - m) := by
  apply BitVec.eq_of_toNat_eq
  rw [BitVec.toNat_sub, toNat_ofNat32 small, toNat_ofNat32 (by omega), toNat_ofNat32 (by omega)]
  omega

theorem srem_ofNat (small : k < 2 ^ 31) (other : m < 2 ^ 31) :
    (BitVec.ofNat 32 k).srem (BitVec.ofNat 32 m) = BitVec.ofNat 32 (k % m) := by
  have inside : k % m < 2 ^ 31 := Nat.lt_of_le_of_lt (Nat.mod_le k m) small
  apply BitVec.eq_of_toNat_eq
  rw [BitVec.srem_eq, msb_ofNat small, msb_ofNat other]
  simp only
  rw [BitVec.toNat_umod, toNat_ofNat32 small, toNat_ofNat32 other,
    toNat_ofNat32 inside]

theorem sdiv_ofNat (small : k < 2 ^ 31) (other : m < 2 ^ 31) :
    (BitVec.ofNat 32 k).sdiv (BitVec.ofNat 32 m) = BitVec.ofNat 32 (k / m) := by
  have inside : k / m < 2 ^ 31 := Nat.lt_of_le_of_lt (Nat.div_le_self k m) small
  apply BitVec.eq_of_toNat_eq
  rw [BitVec.sdiv_eq, msb_ofNat small, msb_ofNat other]
  simp only
  rw [BitVec.udiv_eq, BitVec.toNat_udiv, toNat_ofNat32 small, toNat_ofNat32 other,
    toNat_ofNat32 inside]

theorem sle_ofNat (small : k < 2 ^ 31) (other : m < 2 ^ 31) :
    (BitVec.ofNat 32 k).sle (BitVec.ofNat 32 m) = decide (k ≤ m) := by
  rw [BitVec.sle, toInt_ofNat small, toInt_ofNat other]
  congr 1
  apply propext
  omega

end Small

end Foundation
