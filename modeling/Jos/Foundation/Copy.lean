import Mathlib.Algebra.GroupWithZero.Nat

/-! Ranges of a memory of bytes with 64-bit addresses. A range is copied in units, upwards or
downwards, to a place that it may overlap. -/

set_option autoImplicit false

namespace Foundation

universe u

variable {Byte : Type u}

/-- The memory with `n` bytes moved at once. -/
def moved (mem : BitVec 64 → Byte) (dst src : BitVec 64) (n : Nat) : BitVec 64 → Byte := fun a =>
  if (a - dst).toNat < n then mem (src + (a - dst)) else mem a

/-- Moves `n` units, upwards from the first one. -/
def moveUp (unit : Nat) : Nat → BitVec 64 → BitVec 64 → (BitVec 64 → Byte) → BitVec 64 → Byte
  | 0, _, _, mem => mem
  | n + 1, dst, src, mem =>
    moveUp unit n (dst + BitVec.ofNat 64 unit) (src + BitVec.ofNat 64 unit)
      (moved mem dst src unit)

/-- Moves `n` units, downwards from the last one. -/
def moveDown (unit : Nat) : Nat → BitVec 64 → BitVec 64 → (BitVec 64 → Byte) → BitVec 64 → Byte
  | 0, _, _, mem => mem
  | n + 1, dst, src, mem =>
    moveDown unit n (dst - BitVec.ofNat 64 unit) (src - BitVec.ofNat 64 unit)
      (moved mem dst src unit)

/-- The memory with `n` bytes from an address on filled, by their distance from it. -/
def filled (mem : BitVec 64 → Byte) (dst : BitVec 64) (n : Nat) (byte : Nat → Byte) :
    BitVec 64 → Byte := fun a =>
  if (a - dst).toNat < n then byte (a - dst).toNat else mem a

/-- Fills `n` units, upwards. -/
def fillUp (unit : Nat) (byte : Nat → Byte) :
    Nat → BitVec 64 → (BitVec 64 → Byte) → BitVec 64 → Byte
  | 0, _, mem => mem
  | n + 1, dst, mem =>
    fillUp unit byte n (dst + BitVec.ofNat 64 unit) (filled mem dst unit byte)

variable {mem : BitVec 64 → Byte} {dst src a : BitVec 64} {unit n : Nat}

theorem moved_inside (low : dst.toNat ≤ a.toNat) (high : a.toNat < dst.toNat + n) :
    moved mem dst src n a = mem (src + (a - dst)) := by
  have inside : (a - dst).toNat < n := by
    rw [BitVec.toNat_sub]
    omega
  exact if_pos inside

theorem moved_outside (fits : dst.toNat + n ≤ 2 ^ 64)
    (outside : a.toNat < dst.toNat ∨ dst.toNat + n ≤ a.toNat) : moved mem dst src n a = mem a := by
  have beyond : ¬(a - dst).toNat < n := by
    rw [BitVec.toNat_sub]
    omega
  exact if_neg beyond

theorem moved_none : moved mem dst src 0 = mem := by
  funext a
  exact if_neg (Nat.not_lt_zero _)

/-- The address that a byte comes from. -/
theorem source_toNat (fits : src.toNat + n ≤ 2 ^ 64) (low : dst.toNat ≤ a.toNat)
    (high : a.toNat < dst.toNat + n) :
    (src + (a - dst)).toNat = src.toNat + (a.toNat - dst.toNat) := by
  rw [BitVec.toNat_add, BitVec.toNat_sub]
  omega

section Join

variable {dst' src' : BitVec 64} {k m : Nat}

/-- A byte behind the first part has the same distance to where it comes from. -/
theorem source_next (next : dst'.toNat = dst.toNat + m) (next' : src'.toNat = src.toNat + m) :
    src' + (a - dst') = src + (a - dst) := by
  apply BitVec.eq_of_toNat_eq
  rw [BitVec.toNat_add, BitVec.toNat_add, BitVec.toNat_sub, BitVec.toNat_sub]
  omega

/-- Two moves upwards make one: the first has not stored to what the second one reads. -/
theorem moved_up (fits : dst.toNat + (m + k) ≤ 2 ^ 64) (fits' : src.toNat + (m + k) ≤ 2 ^ 64)
    (next : dst'.toNat = dst.toNat + m) (next' : src'.toNat = src.toNat + m)
    (order : dst.toNat ≤ src.toNat ∨ src.toNat + (m + k) ≤ dst.toNat) :
    moved (moved mem dst src m) dst' src' k = moved mem dst src (m + k) := by
  funext a
  by_cases low : a.toNat < dst.toNat
  · rw [moved_outside (by omega) (.inl (by omega)), moved_outside (by omega) (.inl low),
      moved_outside fits (.inl low)]
  · by_cases first : a.toNat < dst.toNat + m
    · rw [moved_outside (by omega) (.inl (by omega)), moved_inside (by omega) first,
        moved_inside (by omega) (by omega)]
    · by_cases second : a.toNat < dst.toNat + (m + k)
      · have source := @source_toNat dst src a (m + k) fits' (by omega) second
        rw [moved_inside (by omega) (by omega), source_next next next',
          moved_outside (by omega) (by omega), moved_inside (by omega) second]
      · rw [moved_outside (by omega) (.inr (by omega)), moved_outside (by omega) (.inr (by omega)),
          moved_outside fits (.inr (by omega))]

/-- Two moves downwards make one. -/
theorem moved_down (fits : dst.toNat + (m + k) ≤ 2 ^ 64) (next : dst'.toNat = dst.toNat + m)
    (next' : src'.toNat = src.toNat + m) (order : src.toNat ≤ dst.toNat) :
    moved (moved mem dst' src' k) dst src m = moved mem dst src (m + k) := by
  funext a
  by_cases low : a.toNat < dst.toNat
  · rw [moved_outside (by omega) (.inl low), moved_outside (by omega) (.inl (by omega)),
      moved_outside fits (.inl low)]
  · by_cases first : a.toNat < dst.toNat + m
    · have source := @source_toNat dst src a m (by omega) (by omega) first
      rw [moved_inside (by omega) first, moved_outside (by omega) (.inl (by omega)),
        moved_inside (by omega) (by omega)]
    · rw [moved_outside (by omega) (.inr (by omega))]
      by_cases second : a.toNat < dst.toNat + (m + k)
      · rw [moved_inside (by omega) (by omega), source_next next next',
          moved_inside (by omega) second]
      · rw [moved_outside (by omega) (.inr (by omega)), moved_outside fits (.inr (by omega))]

end Join

theorem toNat_add_unit {p : BitVec 64} (fits : p.toNat + (unit + unit * n) ≤ 2 ^ 64) (more : n ≠ 0) :
    (p + BitVec.ofNat 64 unit).toNat = p.toNat + unit := by
  have least := Nat.le_mul_of_pos_right unit (Nat.pos_of_ne_zero more)
  rw [BitVec.toNat_add, BitVec.toNat_ofNat]
  omega

/-- Units moved upwards, when none is stored to before it has been read. -/
theorem moveUp_eq (fits : dst.toNat + unit * n ≤ 2 ^ 64) (fits' : src.toNat + unit * n ≤ 2 ^ 64)
    (order : dst.toNat ≤ src.toNat ∨ src.toNat + unit * n ≤ dst.toNat) :
    moveUp unit n dst src mem = moved mem dst src (unit * n) := by
  induction n generalizing dst src mem with
  | zero => exact moved_none.symm
  | succ n ih =>
    rw [Nat.mul_succ, Nat.add_comm (unit * n)] at fits fits' order ⊢
    rw [moveUp]
    by_cases last : n = 0
    · subst last
      rfl
    · have next := toNat_add_unit fits last
      have next' := toNat_add_unit fits' last
      rw [ih (by omega) (by omega) (by omega)]
      exact moved_up fits fits' next next' order

/-- Units moved downwards, from the last one on. -/
theorem moveDown_eq (fits : dst.toNat + unit * n ≤ 2 ^ 64) (fits' : src.toNat + unit * n ≤ 2 ^ 64)
    (order : src.toNat ≤ dst.toNat) :
    moveDown unit n (dst + BitVec.ofNat 64 (unit * n) - BitVec.ofNat 64 unit)
      (src + BitVec.ofNat 64 (unit * n) - BitVec.ofNat 64 unit) mem = moved mem dst src (unit * n) := by
  induction n generalizing mem with
  | zero => exact moved_none.symm
  | succ n ih =>
    have back (p : BitVec 64) : p + BitVec.ofNat 64 (unit * (n + 1)) - BitVec.ofNat 64 unit =
        p + BitVec.ofNat 64 (unit * n) := by
      rw [Nat.mul_succ, BitVec.ofNat_add, ← BitVec.add_assoc, BitVec.add_sub_cancel]
    rw [back, back, moveDown, Nat.mul_succ] at *
    rw [ih (by omega) (by omega)]
    by_cases none : unit = 0
    · subst none
      rw [Nat.zero_mul, moved_none]
      exact moved_none
    · have next (p : BitVec 64) (fits : p.toNat + (unit * n + unit) ≤ 2 ^ 64) :
          (p + BitVec.ofNat 64 (unit * n)).toNat = p.toNat + unit * n := by
        rw [BitVec.toNat_add, BitVec.toNat_ofNat]
        omega
      exact moved_down fits (next dst fits) (next src fits') order

theorem filled_filled {byte : Nat → Byte} {k : Nat} (small : unit + k < 2 ^ 64)
    (same : ∀ i, byte (unit + i) = byte i) :
    filled (filled mem dst unit byte) (dst + BitVec.ofNat 64 unit) k byte =
      filled mem dst (unit + k) byte := by
  funext a
  have shifted : (a - (dst + BitVec.ofNat 64 unit)).toNat < k →
      (a - dst).toNat = unit + (a - (dst + BitVec.ofNat 64 unit)).toNat := by
    rw [BitVec.toNat_sub, BitVec.toNat_sub, BitVec.toNat_add, BitVec.toNat_ofNat]
    omega
  have place : (a - dst).toNat < unit + k ↔
      (a - dst).toNat < unit ∨ (a - (dst + BitVec.ofNat 64 unit)).toNat < k := by
    rw [BitVec.toNat_sub, BitVec.toNat_sub, BitVec.toNat_add, BitVec.toNat_ofNat]
    omega
  unfold filled
  by_cases second : (a - (dst + BitVec.ofNat 64 unit)).toNat < k
  · rw [if_pos second, if_pos (place.mpr (.inr second)), shifted second, same]
  · rw [if_neg second]
    by_cases first : (a - dst).toNat < unit
    · rw [if_pos first, if_pos (place.mpr (.inl first))]
    · rw [if_neg first, if_neg fun other => (place.mp other).elim first second]

/-- Units that are filled alike. -/
theorem fillUp_eq {byte : Nat → Byte} (small : unit * n < 2 ^ 64)
    (same : ∀ i, byte (unit + i) = byte i) :
    fillUp unit byte n dst mem = filled mem dst (unit * n) byte := by
  induction n generalizing dst mem with
  | zero =>
    funext a
    exact (if_neg (Nat.not_lt_zero _)).symm
  | succ n ih =>
    rw [Nat.mul_succ, Nat.add_comm (unit * n)] at small ⊢
    rw [fillUp, ih (by omega), filled_filled small same]

end Foundation
