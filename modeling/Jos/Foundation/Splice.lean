import Mathlib.Data.List.Range
import Mathlib.Tactic.Common

/-! Writing into a list behind its end: what lies between is filled up. -/

set_option autoImplicit false

namespace Foundation

universe u

variable {α : Type u}

/-- `old`, filled up to `offset` if it is shorter, with `new` in place of what is there. -/
def splice (filler : α) (old : List α) (offset : Nat) (new : List α) : List α :=
  (old ++ List.replicate (offset - old.length) filler).take offset ++ new ++
    old.drop (offset + new.length)

variable {filler : α} {n offset count : Nat} {b u : Nat → α}

theorem filled_range (filled : ∀ k, n ≤ k → k < offset → b k = filler) :
    (List.range n).map b ++ List.replicate (offset - n) filler =
      (List.range (n + (offset - n))).map b := by
  rw [List.range_add, List.map_append, List.map_map]
  congr 1
  refine (List.eq_replicate_iff.mpr ⟨by rw [List.length_map, List.length_range], ?_⟩).symm
  intro value member
  obtain ⟨k, inside, rfl⟩ := List.mem_map.mp member
  exact filled (n + k) (Nat.le_add_right n k) (by have := List.mem_range.mp inside; omega)

theorem range_parts : List.range (max n (offset + count)) =
    List.range offset ++ (List.range count).map (offset + ·) ++ (List.range n).drop (offset + count) := by
  rw [← List.range_add, List.range_eq_range', List.range_eq_range', List.range_eq_range',
    List.drop_range']
  have rest : max n (offset + count) = offset + count + (n - (offset + count)) := by omega
  rw [rest, ← List.range'_append_1]
  simp

/-- A list that is continued by the filler is spliced place by place. -/
theorem splice_range (filled : ∀ k, n ≤ k → k < offset → b k = filler) :
    splice filler ((List.range n).map b) offset ((List.range count).map u) =
      (List.range (max n (offset + count))).map fun k =>
        if offset ≤ k ∧ k < offset + count then u (k - offset) else b k := by
  rw [splice, List.length_map, List.length_map, List.length_range, List.length_range,
    filled_range filled, ← List.map_take, List.take_range, ← List.map_drop, range_parts,
    List.map_append, List.map_append, List.map_map]
  have front : min offset (n + (offset - n)) = offset := by omega
  rw [front]
  refine congrArg₂ (· ++ ·) (congrArg₂ (· ++ ·) ?_ ?_) ?_
  · refine List.map_congr_left fun k member => (if_neg fun inside => ?_).symm
    exact absurd inside.1 (Nat.not_le.mpr (List.mem_range.mp member))
  · refine List.map_congr_left fun k member => ?_
    have inside := List.mem_range.mp member
    have value : offset + k - offset = k := Nat.add_sub_cancel_left offset k
    rw [Function.comp_apply, if_pos ⟨Nat.le_add_right offset k, by omega⟩, value]
  · refine List.map_congr_left fun k member => (if_neg fun inside => ?_).symm
    rw [List.range_eq_range', List.drop_range', List.mem_range'_1] at member
    omega

end Foundation
