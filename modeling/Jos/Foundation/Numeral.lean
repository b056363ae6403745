import Mathlib.Data.Nat.Digits.Lemmas

/-! Numbers as they are written: their digits in a base, the first one first. -/

set_option autoImplicit false

namespace Foundation

variable {b n k : Nat}

/-- The digits of a number. That of zero is zero. -/
def digits (b n : Nat) : List Nat := if n = 0 then [0] else (Nat.digits b n).reverse

theorem digits_small (small : n < b) : digits b n = [n] := by
  unfold digits
  split
  · case isTrue zero => rw [zero]
  · case isFalse positive => rw [Nat.digits_of_lt b n positive small, List.reverse_singleton]

theorem digits_large (base : 2 ≤ b) (large : b ≤ n) :
    digits b n = digits b (n / b) ++ [n % b] := by
  have quotient : n / b ≠ 0 := Nat.pos_iff_ne_zero.mp (Nat.div_pos large (by omega))
  unfold digits
  rw [if_neg (by omega), if_neg quotient, Nat.digits_def' (by omega) (by omega), List.reverse_cons]

/-- Induction over the digits of a number, from the first one on. -/
@[elab_as_elim]
theorem digits_induction {P : Nat → Prop} (base : 2 ≤ b) (small : ∀ n < b, P n)
    (large : ∀ n, b ≤ n → P (n / b) → P n) (n : Nat) : P n := by
  induction n using Nat.strongRecOn with
  | _ n ih =>
    rcases Nat.lt_or_ge n b with less | more
    · exact small n less
    · exact large n more (ih (n / b) (Nat.div_lt_self (by omega) (by omega)))

/-- A number is read back from its digits. -/
theorem foldl_digits (base : 2 ≤ b) :
    (digits b n).foldl (fun value d => value * b + d) 0 = n := by
  induction n using digits_induction base with
  | small n less => rw [digits_small less, List.foldl_cons, List.foldl_nil, Nat.zero_mul, Nat.zero_add]
  | large n more ih =>
    rw [digits_large base more, List.foldl_append, ih, List.foldl_cons, List.foldl_nil]
    exact Nat.div_add_mod' n b

theorem digits_lt (base : 2 ≤ b) : ∀ d ∈ digits b n, d < b := by
  induction n using digits_induction base with
  | small n less =>
    rw [digits_small less]
    exact fun d member => List.mem_singleton.mp member ▸ less
  | large n more ih =>
    rw [digits_large base more]
    exact List.forall_mem_append.mpr ⟨ih, fun d member =>
      List.mem_singleton.mp member ▸ Nat.mod_lt n (by omega)⟩

theorem digits_length_pos : 0 < (digits b n).length := by
  unfold digits
  split
  · exact Nat.one_pos
  · case isFalse positive =>
      rw [List.length_reverse]
      exact List.length_pos_iff.mpr (Nat.digits_ne_nil_iff_ne_zero.mpr positive)

theorem digits_length_le (base : 2 ≤ b) (positive : 0 < k) (small : n < b ^ k) :
    (digits b n).length ≤ k := by
  unfold digits
  split
  · exact positive
  · rw [List.length_reverse]
    exact (Nat.digits_length_le_iff (by omega) n).mpr small

end Foundation
