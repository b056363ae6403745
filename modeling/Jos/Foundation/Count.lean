import Mathlib.Data.Set.Card

/-! Counting the references from a finite set of cells: how the number of cells
with a property changes when a single cell does. -/

set_option autoImplicit false

namespace Foundation

universe u

variable {Cell : Type u} [Finite Cell] {before after : Set Cell}

theorem ncard_gain {cell : Cell}
    (same : ∀ other, other ≠ cell → (other ∈ after ↔ other ∈ before))
    (absent : cell ∉ before) (added : cell ∈ after) : after.ncard = before.ncard + 1 := by
  have grown : after = insert cell before := by
    ext other
    by_cases here : other = cell
    · simp [here, added]
    · simp [here, same other here]
  rw [grown, Set.ncard_insert_of_notMem absent before.toFinite]

theorem ncard_lose {cell : Cell}
    (same : ∀ other, other ≠ cell → (other ∈ after ↔ other ∈ before))
    (present : cell ∈ before) (removed : cell ∉ after) : before.ncard = after.ncard + 1 :=
  ncard_gain (fun other differs => (same other differs).symm) removed present

omit [Finite Cell] in
theorem ncard_keep (same : ∀ cell, cell ∈ after ↔ cell ∈ before) : after.ncard = before.ncard := by
  rw [Set.ext same]

theorem ncard_shrink (fewer : after ⊆ before) : after.ncard ≤ before.ncard :=
  Set.ncard_le_ncard fewer before.toFinite

theorem ncard_zero_iff {cells : Set Cell} : cells.ncard = 0 ↔ ∀ cell, cell ∉ cells := by
  rw [Set.ncard_eq_zero cells.toFinite, Set.eq_empty_iff_forall_notMem]

end Foundation
