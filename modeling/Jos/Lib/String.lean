import Mathlib.Logic.Function.Basic
import Jos.Foundation.Copy

/-! `memset` and `memmove` of lib/string.c: the functions of string instructions, and those that
the file has in their place when `ASM` is not set. -/

set_option autoImplicit false

namespace Jos

open Foundation Function

namespace Strings

abbrev Pointer := BitVec 64
abbrev Memory := Pointer → BitVec 8

/-- `(int64_t)p%4 == 0` -/
def aligned (p : Pointer) : Bool := p.srem 4 = 0

/-- `rep stosb` and `rep stosl`, with the direction flag clear. -/
def repStosb (edi : Pointer) (eax : BitVec 32) (ecx : Nat) (mem : Memory) : Memory :=
  fillUp 1 (fun _ => eax.setWidth 8) ecx edi mem

def repStosl (edi : Pointer) (eax : BitVec 32) (ecx : Nat) (mem : Memory) : Memory :=
  fillUp 4 (fun i => eax.extractLsb' (8 * (i % 4)) 8) ecx edi mem

/-- `memset`, with the pointer that it returns. -/
def memset (v : Pointer) (c : BitVec 32) (n : BitVec 64) (mem : Memory) : Pointer × Memory :=
  if n = 0 then (v, mem)
  else if aligned v ∧ n.toNat % 4 = 0 then
    let c := c &&& 0xFF
    let c := c <<< 24 ||| c <<< 16 ||| c <<< 8 ||| c
    (v, repStosl v c (n.toNat / 4) mem)
  else (v, repStosb v c n.toNat mem)

/-- `memmove`. An instruction moves a byte or a word at a time, upwards with `cld` and downwards
with `std`. -/
def memmove (dst src : Pointer) (n : BitVec 64) (mem : Memory) : Pointer × Memory :=
  if src < dst ∧ dst < src + n then
    let s := src + n
    let d := dst + n
    if aligned s ∧ aligned d ∧ n.toNat % 4 = 0 then
      (dst, moveDown 4 (n.toNat / 4) (d - 4) (s - 4) mem)
    else (dst, moveDown 1 n.toNat (d - 1) (s - 1) mem)
  else if aligned src ∧ aligned dst ∧ n.toNat % 4 = 0 then
    (dst, moveUp 4 (n.toNat / 4) dst src mem)
  else (dst, moveUp 1 n.toNat dst src mem)

/-- `while (n-- > 0) *--d = *--s;` -/
def copyDown : Nat → Pointer → Pointer → Memory → Memory
  | 0, _, _, mem => mem
  | n + 1, d, s, mem => copyDown n (d - 1) (s - 1) (update mem (d - 1) (mem (s - 1)))

/-- `while (n-- > 0) *d++ = *s++;` -/
def copyUp : Nat → Pointer → Pointer → Memory → Memory
  | 0, _, _, mem => mem
  | n + 1, d, s, mem => copyUp n (d + 1) (s + 1) (update mem d (mem s))

/-- `*p++ = c;`, as often as `m` says. -/
def setUp (c : BitVec 8) : Nat → Pointer → Memory → Memory
  | 0, _, mem => mem
  | m + 1, p, mem => setUp c m (p + 1) (update mem p c)

/-- The second `memset` of the file, whose count is an `int`. -/
def plainMemset (v : Pointer) (c : BitVec 32) (n : BitVec 64) (mem : Memory) : Pointer × Memory :=
  let m := (n.setWidth 32).toInt
  (v, setUp (c.setWidth 8) m.toNat v mem)

/-- The second `memmove` of the file. -/
def plainMemmove (dst src : Pointer) (n : BitVec 64) (mem : Memory) : Pointer × Memory :=
  if src < dst ∧ dst < src + n then (dst, copyDown n.toNat (dst + n) (src + n) mem)
  else (dst, copyUp n.toNat dst src mem)

section Moves

variable {mem : Memory} {dst src v : Pointer} {n : BitVec 64} {c : BitVec 32} {k : Nat}

theorem moved_one : moved mem dst src 1 = update mem dst (mem src) := by
  funext a
  unfold moved
  by_cases here : a = dst
  · subst here
    rw [update_self, BitVec.sub_self, if_pos (by decide), BitVec.add_zero]
  · have apart : ¬(a - dst).toNat < 1 := fun less => here (by
      apply BitVec.eq_of_toNat_eq
      rw [BitVec.toNat_sub] at less
      omega)
    rw [update_of_ne here, if_neg apart]

theorem filled_one {c : BitVec 8} : filled mem v 1 (fun _ => c) = update mem v c := by
  funext a
  unfold filled
  by_cases here : a = v
  · subst here
    rw [update_self, BitVec.sub_self, if_pos (by decide)]
  · have apart : ¬(a - v).toNat < 1 := fun less => here (by
      apply BitVec.eq_of_toNat_eq
      rw [BitVec.toNat_sub] at less
      omega)
    rw [update_of_ne here, if_neg apart]

theorem copyUp_eq : copyUp k dst src mem = moveUp 1 k dst src mem := by
  induction k generalizing dst src mem with
  | zero => rfl
  | succ k ih =>
    rw [copyUp, moveUp, ih, moved_one]
    rfl

theorem copyDown_eq : copyDown k dst src mem = moveDown 1 k (dst - 1) (src - 1) mem := by
  induction k generalizing dst src mem with
  | zero => rfl
  | succ k ih =>
    rw [copyDown, moveDown, ih, moved_one]
    rfl

theorem setUp_eq {c : BitVec 8} : setUp c k v mem = fillUp 1 (fun _ => c) k v mem := by
  induction k generalizing v mem with
  | zero => rfl
  | succ k ih =>
    rw [setUp, fillUp, ih, filled_one]
    rfl

/-- Both functions, in units that make up the whole count, move the range as it was. -/
theorem units_moved {unit count : Nat} (fits : dst.toNat + n.toNat ≤ 2 ^ 64)
    (fits' : src.toNat + n.toNat ≤ 2 ^ 64) (whole : unit * count = n.toNat) :
    (src < dst ∧ dst < src + n → moveDown unit count (dst + n - BitVec.ofNat 64 unit)
      (src + n - BitVec.ofNat 64 unit) mem = moved mem dst src n.toNat) ∧
    (¬(src < dst ∧ dst < src + n) →
      moveUp unit count dst src mem = moved mem dst src n.toNat) := by
  have same : n = BitVec.ofNat 64 n.toNat := by rw [BitVec.ofNat_toNat, BitVec.setWidth_eq]
  rw [BitVec.lt_def, BitVec.lt_def, BitVec.toNat_add]
  refine ⟨fun overlap => ?_, fun apart => ?_⟩
  · have down := @moveDown_eq _ mem dst src unit count (by omega) (by omega) (by omega)
    rw [whole, ← same] at down
    exact down
  · have up := @moveUp_eq _ mem dst src unit count (by omega) (by omega) (by omega)
    rw [up, whole]

theorem memmove_moved (fits : dst.toNat + n.toNat ≤ 2 ^ 64) (fits' : src.toNat + n.toNat ≤ 2 ^ 64) :
    memmove dst src n mem = (dst, moved mem dst src n.toNat) := by
  have words (whole : n.toNat % 4 = 0) :=
    @units_moved mem dst src n 4 (n.toNat / 4) fits fits' (by omega)
  have bytes := @units_moved mem dst src n 1 n.toNat fits fits' (Nat.one_mul _)
  unfold memmove
  by_cases overlap : src < dst ∧ dst < src + n
  · rw [if_pos overlap]
    dsimp only
    by_cases whole : aligned (src + n) = true ∧ aligned (dst + n) = true ∧ n.toNat % 4 = 0
    · rw [if_pos whole]
      exact congrArg _ ((words whole.2.2).1 overlap)
    · rw [if_neg whole]
      exact congrArg _ (bytes.1 overlap)
  · rw [if_neg overlap]
    by_cases whole : aligned src = true ∧ aligned dst = true ∧ n.toNat % 4 = 0
    · rw [if_pos whole, (words whole.2.2).2 overlap]
    · rw [if_neg whole, bytes.2 overlap]

theorem plainMemmove_moved (fits : dst.toNat + n.toNat ≤ 2 ^ 64)
    (fits' : src.toNat + n.toNat ≤ 2 ^ 64) :
    plainMemmove dst src n mem = (dst, moved mem dst src n.toNat) := by
  have bytes := @units_moved mem dst src n 1 n.toNat fits fits' (Nat.one_mul _)
  unfold plainMemmove
  by_cases overlap : src < dst ∧ dst < src + n
  · rw [if_pos overlap, copyDown_eq]
    exact congrArg _ (bytes.1 overlap)
  · rw [if_neg overlap, copyUp_eq, bytes.2 overlap]

theorem getLsbD_low (j : Nat) : (c &&& 0xFF).getLsbD j = (decide (j < 8) && c.getLsbD j) := by
  have mask : (0xFF : BitVec 32) = (BitVec.allOnes 8).setWidth 32 := by decide
  rw [BitVec.getLsbD_and, mask, BitVec.getLsbD_setWidth, BitVec.getLsbD_allOnes]
  by_cases low : j < 8
  · have few : j < 32 := by omega
    simp only [low, few, decide_true, Bool.true_and, Bool.and_true]
  · simp only [low, decide_false, Bool.and_false, Bool.false_and]

theorem byte_of_word (i : Nat) :
    ((c &&& 0xFF) <<< 24 ||| (c &&& 0xFF) <<< 16 ||| (c &&& 0xFF) <<< 8 ||| (c &&& 0xFF)).extractLsb'
      (8 * (i % 4)) 8 = c.setWidth 8 := by
  refine BitVec.eq_of_getLsbD_eq fun j small => ?_
  simp only [BitVec.getLsbD_extractLsb', BitVec.getLsbD_or, BitVec.getLsbD_shiftLeft, getLsbD_low,
    BitVec.getLsbD_setWidth, small, decide_true, Bool.true_and]
  have four : i % 4 < 4 := Nat.mod_lt i (by decide)
  generalize i % 4 = k at four
  have place : k = 0 ∨ k = 1 ∨ k = 2 ∨ k = 3 := by omega
  rcases place with rfl | rfl | rfl | rfl
  · simp [small, show j < 24 by omega, show j < 16 by omega]
  · simp [small, show 8 + j < 24 by omega, show 8 + j < 16 by omega, show 8 + j < 32 by omega,
      show ¬8 + j < 8 by omega]
  · simp [small, show 16 + j < 24 by omega, show 16 + j < 32 by omega,
      show ¬16 + j - 8 < 8 by omega, show ¬16 + j < 16 by omega, show ¬16 + j < 8 by omega]
  · simp [small, show 24 + j < 32 by omega, show ¬24 + j - 8 < 8 by omega,
      show ¬24 + j - 16 < 8 by omega, show ¬24 + j < 24 by omega, show ¬24 + j < 8 by omega]

theorem memset_filled : memset v c n mem = (v, filled mem v n.toNat fun _ => c.setWidth 8) := by
  have small := n.isLt
  unfold memset
  by_cases none : n = 0
  · subst none
    rw [if_pos rfl]
    exact congrArg _ (funext fun a => (if_neg (Nat.not_lt_zero _)).symm)
  · rw [if_neg none]
    by_cases whole : aligned v = true ∧ n.toNat % 4 = 0
    · have count : 4 * (n.toNat / 4) = n.toNat := by omega
      rw [if_pos whole]
      dsimp only
      rw [repStosl, fillUp_eq (by omega) (fun i => by rw [Nat.add_mod_left]), count]
      exact congrArg _ (congrArg _ (funext byte_of_word))
    · rw [if_neg whole, repStosb, fillUp_eq (by omega) (fun _ => rfl), Nat.one_mul]

theorem plainMemset_filled (small : n.toNat < 2 ^ 31) :
    plainMemset v c n mem = (v, filled mem v n.toNat fun _ => c.setWidth 8) := by
  have count : (n.setWidth 32).toInt.toNat = n.toNat := by
    have value : (n.setWidth 32).toNat = n.toNat := by
      rw [BitVec.toNat_setWidth, Nat.mod_eq_of_lt (by omega)]
    rw [BitVec.toInt_eq_toNat_of_lt (by omega), value, Int.toNat_natCast]
  unfold plainMemset
  dsimp only
  rw [count, setUp_eq, fillUp_eq (by omega) (fun _ => rfl), Nat.one_mul]

end Moves

/-- The string instructions do what the loops do: every byte of the range is as its source was,
and no other is changed. -/
theorem strings_agree :
    (∀ (mem : Memory) (dst src : Pointer) (n : BitVec 64), dst.toNat + n.toNat ≤ 2 ^ 64 →
      src.toNat + n.toNat ≤ 2 ^ 64 →
      memmove dst src n mem = plainMemmove dst src n mem ∧
      (∀ i < n.toNat, (memmove dst src n mem).2 (dst + BitVec.ofNat 64 i) =
        mem (src + BitVec.ofNat 64 i)) ∧
      ∀ a, (∀ i < n.toNat, a ≠ dst + BitVec.ofNat 64 i) → (memmove dst src n mem).2 a = mem a) ∧
    ∀ (mem : Memory) (v : Pointer) (c : BitVec 32) (n : BitVec 64), n.toNat < 2 ^ 31 →
      memset v c n mem = plainMemset v c n mem := by
  refine ⟨fun mem dst src n fits fits' => ⟨?_, fun i small => ?_, fun a outside => ?_⟩,
    fun mem v c n small => ?_⟩
  · rw [memmove_moved fits fits', plainMemmove_moved fits fits']
  · have distance : dst + BitVec.ofNat 64 i - dst = BitVec.ofNat 64 i := by
      rw [BitVec.add_comm, BitVec.add_sub_cancel]
    have inside : (BitVec.ofNat 64 i).toNat < n.toNat := by
      rw [BitVec.toNat_ofNat]
      omega
    rw [memmove_moved fits fits']
    dsimp only
    rw [moved, distance, if_pos inside]
  · rw [memmove_moved fits fits']
    refine if_neg fun inside => outside _ inside ?_
    rw [BitVec.ofNat_toNat, BitVec.setWidth_eq, BitVec.add_comm, BitVec.sub_add_cancel]
  · rw [memset_filled, plainMemset_filled small]

def addresses : Memory := fun a => a.setWidth 8

/-- A range moved up by half its length, and a range that is filled. -/
theorem strings_agree_small : (memmove 6 4 4 addresses).2 8 = 6 ∧
    memset 8 0x1FF 4 addresses = plainMemset 8 0x1FF 4 addresses :=
  ⟨(strings_agree.1 addresses 6 4 4 (by decide) (by decide)).2.1 2 (by decide),
    strings_agree.2 addresses 8 0x1FF 4 (by decide)⟩

end Strings

end Jos
