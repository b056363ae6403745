import Mathlib.Algebra.GroupWithZero.Nat
import Mathlib.Data.List.Basic
import Mathlib.Logic.Function.Basic

/-! Words of eight bytes, the low byte first, in a memory of bytes. The bytes of a
word lie at `place 0` to `place 7`, which need not be next to each other. -/

set_option autoImplicit false

namespace Foundation

universe u

/-- The byte of a word with an index below 8. -/
def byteOf (word : BitVec 64) (i : Nat) : BitVec 8 := word.extractLsb' (8 * i) 8

def wordOf (bytes : Nat → BitVec 8) : BitVec 64 :=
  bytes 7 ++ bytes 6 ++ bytes 5 ++ bytes 4 ++ bytes 3 ++ bytes 2 ++ bytes 1 ++ bytes 0

section
variable {Addr : Type u}

def loadWord (mem : Addr → BitVec 8) (place : Nat → Addr) : BitVec 64 :=
  wordOf fun i => mem (place i)

/-- The places of the bytes from `n` on. -/
def after (place : Nat → Addr) (n i : Nat) : Addr := place (n + i)

variable [DecidableEq Addr]

/-- Stores the first `n` bytes of a word. -/
def storeBytes (mem : Addr → BitVec 8) (place : Nat → Addr) (word : BitVec 64) :
    Nat → Addr → BitVec 8
  | 0 => mem
  | n + 1 => Function.update (storeBytes mem place word n) (place n) (byteOf word n)

def storeWord (mem : Addr → BitVec 8) (place : Nat → Addr) (word : BitVec 64) : Addr → BitVec 8 :=
  storeBytes mem place word 8

def storeWords : (Addr → BitVec 8) → (Nat → Addr) → List (BitVec 64) → Addr → BitVec 8
  | mem, _, [] => mem
  | mem, place, word :: words => storeWords (storeWord mem place word) (after place 8) words

end

theorem getLsbD_wordOf {bytes : Nat → BitVec 8} {i : Nat} (below : i < 64) :
    (wordOf bytes).getLsbD i = (bytes (i / 8)).getLsbD (i % 8) := by
  unfold wordOf
  simp only [BitVec.getLsbD_append]
  repeat' split
  all_goals refine congrArg₂ (fun q r => (bytes q).getLsbD r) ?_ ?_ <;> omega

theorem wordOf_congr {bytes bytes' : Nat → BitVec 8} (same : ∀ i < 8, bytes i = bytes' i) :
    wordOf bytes = wordOf bytes' := by
  refine BitVec.eq_of_getLsbD_eq fun i below => ?_
  rw [getLsbD_wordOf below, getLsbD_wordOf below, same _ (by omega)]

theorem wordOf_byteOf {word : BitVec 64} : wordOf (byteOf word) = word := by
  refine BitVec.eq_of_getLsbD_eq fun i below => ?_
  have small : i % 8 < 8 := Nat.mod_lt i (by decide)
  rw [getLsbD_wordOf below, byteOf, BitVec.getLsbD_extractLsb', decide_eq_true small,
    Bool.true_and, Nat.div_add_mod]

section
variable {Addr : Type u} {mem mem' : Addr → BitVec 8} {place : Nat → Addr} {word : BitVec 64}
  {words : List (BitVec 64)} {n i : Nat} {p : Addr}

theorem loadWord_congr {place' : Nat → Addr} (same : ∀ i < 8, mem (place i) = mem' (place' i)) :
    loadWord mem place = loadWord mem' place' := wordOf_congr same

theorem loadWord_bytes (bytes : ∀ i < 8, mem (place i) = byteOf word i) :
    loadWord mem place = word :=
  (wordOf_congr bytes).trans wordOf_byteOf

variable [DecidableEq Addr]

theorem storeBytes_other (outside : ∀ i < n, p ≠ place i) :
    storeBytes mem place word n p = mem p := by
  induction n with
  | zero => rfl
  | succ n ih =>
    rw [storeBytes, Function.update_of_ne (outside n (Nat.lt_succ_self n))]
    exact ih fun i below => outside i (Nat.lt_succ_of_lt below)

theorem storeBytes_here (apart : ∀ i < n, ∀ j < n, place i = place j → i = j) (below : i < n) :
    storeBytes mem place word n (place i) = byteOf word i := by
  induction n with
  | zero => exact absurd below (Nat.not_lt_zero i)
  | succ n ih =>
    rw [storeBytes]
    by_cases last : i = n
    · rw [last, Function.update_self]
    · have here : place i ≠ place n := fun same =>
        last (apart i below n (Nat.lt_succ_self n) same)
      rw [Function.update_of_ne here]
      exact ih (fun i small j small' => apart i (by omega) j (by omega)) (by omega)

theorem storeWord_other (outside : ∀ i < 8, p ≠ place i) : storeWord mem place word p = mem p :=
  storeBytes_other outside

theorem loadWord_storeWord (apart : ∀ i < 8, ∀ j < 8, place i = place j → i = j) :
    loadWord (storeWord mem place word) place = word :=
  loadWord_bytes fun _ below => storeBytes_here apart below

theorem storeWords_other (outside : ∀ i < 8 * words.length, p ≠ place i) :
    storeWords mem place words p = mem p := by
  induction words generalizing mem place with
  | nil => rfl
  | cons word words ih =>
    rw [List.length_cons] at outside
    have tail : ∀ i < 8 * words.length, p ≠ after place 8 i := fun i below =>
      outside (8 + i) (by omega)
    rw [storeWords, ih tail]
    exact storeWord_other fun i below => outside i (by omega)

/-- Every word of a list that has been stored can be read back. -/
theorem loadWord_storeWords
    (apart : ∀ i < 8 * words.length, ∀ j < 8 * words.length, place i = place j → i = j)
    {word : BitVec 64} (found : words[n]? = some word) :
    loadWord (storeWords mem place words) (after place (8 * n)) = word := by
  induction words generalizing mem place n with
  | nil => cases found
  | cons first words ih =>
    rw [List.length_cons] at apart
    rw [storeWords]
    cases n with
    | zero =>
      cases found
      refine loadWord_bytes fun i below => ?_
      have inside : after place (8 * 0) i = place i := by rw [after, Nat.mul_zero, Nat.zero_add]
      rw [inside, storeWords_other, storeWord, storeBytes_here _ below]
      · exact fun i small j small' => apart i (by omega) j (by omega)
      · intro j below' same
        have := apart i (by omega) (8 + j) (by omega) same
        omega
    | succ n =>
      have shifted : after place (8 * (n + 1)) = after (after place 8) (8 * n) := by
        funext i
        simp only [after, Nat.mul_succ]
        congr 1
        omega
      rw [shifted]
      refine ih (fun i below j below' same => ?_) found
      have := apart (8 + i) (by omega) (8 + j) (by omega) same
      omega

end

end Foundation
