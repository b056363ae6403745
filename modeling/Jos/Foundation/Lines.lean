import Mathlib.Data.List.Basic

/-! Lines that end in a separator, up to an empty one, and what follows it. -/

set_option autoImplicit false

namespace Foundation

universe u

variable {α : Type u}

/-- Lines, an empty line and the rest. A separator is a mark and what comes after it. -/
def framed (mark : α) (after : List α) : List (List α) → List α → List α
  | [], rest => mark :: (after ++ rest)
  | line :: lines, rest => line ++ mark :: (after ++ framed mark after lines rest)

/-- A line that a reader does not take for the end of the lines, or for two. -/
def IsLine (mark : α) (line : List α) : Prop := line ≠ [] ∧ mark ∉ line

instance [DecidableEq α] (mark : α) (line : List α) : Decidable (IsLine mark line) :=
  inferInstanceAs (Decidable (_ ∧ _))

variable {mark : α} {after rest rest' : List α} {lines lines' : List (List α)}

/-- The first mark splits a list in one way. -/
theorem first_mark {a b x y : List α} (clean : mark ∉ a) (clean' : mark ∉ b)
    (same : a ++ mark :: x = b ++ mark :: y) : a = b ∧ x = y := by
  induction a generalizing b with
  | nil =>
    cases b with
    | nil => exact ⟨rfl, (List.cons.inj same).2⟩
    | cons c b => exact absurd ((List.cons.inj same).1 ▸ List.mem_cons_self) clean'
  | cons c a ih =>
    cases b with
    | nil => exact absurd ((List.cons.inj same).1 ▸ List.mem_cons_self) clean
    | cons c' b =>
      obtain ⟨rfl, later⟩ := List.cons.inj same
      obtain ⟨rfl, rest⟩ := ih (fun member => clean (List.mem_cons_of_mem _ member))
        (fun member => clean' (List.mem_cons_of_mem _ member)) later
      exact ⟨rfl, rest⟩

/-- The lines and the rest can be read off. -/
theorem framed_injective (good : ∀ line ∈ lines, IsLine mark line)
    (good' : ∀ line ∈ lines', IsLine mark line)
    (same : framed mark after lines rest = framed mark after lines' rest') :
    lines = lines' ∧ rest = rest' := by
  induction lines generalizing lines' with
  | nil =>
    cases lines' with
    | nil => exact ⟨rfl, List.append_cancel_left (List.cons.inj same).2⟩
    | cons line lines' =>
      obtain ⟨nonempty, clean⟩ := good' line List.mem_cons_self
      exact absurd (first_mark List.not_mem_nil clean same).1.symm nonempty
  | cons line lines ih =>
    obtain ⟨nonempty, clean⟩ := good line List.mem_cons_self
    cases lines' with
    | nil =>
      exact absurd (first_mark clean List.not_mem_nil same).1 nonempty
    | cons line' lines' =>
      have clean' := (good' line' List.mem_cons_self).2
      obtain ⟨rfl, later⟩ := first_mark clean clean' same
      obtain ⟨rfl, rest⟩ := ih (fun line member => good line (List.mem_cons_of_mem _ member))
        (fun line member => good' line (List.mem_cons_of_mem _ member))
        (List.append_cancel_left later)
      exact ⟨rfl, rest⟩

theorem framed_append (extra : List α) :
    framed mark after lines rest ++ extra = framed mark after lines (rest ++ extra) := by
  induction lines with
  | nil => simp [framed]
  | cons line lines ih => simp [framed, ih]

end Foundation
