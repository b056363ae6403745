import Mathlib.Logic.Function.Basic
import Jos.Foundation.Chain

/-! Lists whose cells have a link to the next cell and one back to the pointer that leads to them. -/

set_option autoImplicit false

namespace Foundation

open Function

universe u

/-- What the back link of a cell points to: the head of the list, or the link of a cell. -/
inductive Back (Cell : Type u) where
  | first
  | next (cell : Cell)
deriving DecidableEq

structure Links (Cell : Type u) where
  first : Option Cell
  next : Cell → Option Cell
  back : Cell → Option (Back Cell)

namespace Links

variable {Cell : Type u}

/-- Null pointers throughout. -/
def empty : Links Cell := ⟨none, fun _ => none, fun _ => none⟩

/-- The cells of the list in order. The first of them can be removed. -/
structure Lists (links : Links Cell) (cells : List Cell) : Prop where
  chain : Chain links.next links.first cells
  head : ∀ cell, links.first = some cell → links.back cell = some .first

theorem lists_empty : (empty : Links Cell).Lists [] := ⟨rfl, nofun⟩

variable [DecidableEq Cell]

def insertHead (links : Links Cell) (cell : Cell) : Links Cell where
  first := some cell
  next := update links.next cell links.first
  back :=
    update (match links.first with
      | none => links.back
      | some old => update links.back old (some (.next cell))) cell (some .first)

/-- The pointer to the cell now leads to what comes after it. There is none to write to when the
back link is null. -/
def remove (links : Links Cell) (cell : Cell) : Option (Links Cell) :=
  let back := match links.next cell with
    | none => links.back
    | some after => update links.back after (links.back cell)
  match back cell with
  | none => none
  | some .first => some { links with first := links.next cell, back }
  | some (.next before) =>
    some { links with next := update links.next before (links.next cell), back }

variable {links : Links Cell} {cells : List Cell} {cell : Cell}

theorem Lists.insertHead (lists : links.Lists cells) (fresh : cell ∉ cells) :
    (links.insertHead cell).Lists (cell :: cells) := by
  refine ⟨lists.chain.push fresh ?_ fun old differs => ?_, fun other here => ?_⟩
  · exact update_self cell _ links.next
  · exact update_of_ne differs _ links.next
  · obtain rfl := Option.some.inj here
    exact update_self cell _ _

theorem Lists.remove_first (lists : links.Lists (cell :: cells)) :
    ∃ rest, links.remove cell = some rest ∧ rest.Lists cells := by
  have back := lists.head cell lists.chain.1
  cases after : links.next cell with
  | none =>
    refine ⟨{ links with first := none }, ?_, ?_, nofun⟩
    · rw [remove, after]
      dsimp only
      rw [back]
    · have tail := lists.chain.2
      rwa [after] at tail
  | some second =>
    have tail := lists.chain.2
    rw [after] at tail
    have apart : cell ≠ second := by
      rintro rfl
      obtain ⟨rest, rfl, -, -⟩ := tail.pop
      exact (List.nodup_cons.mp lists.chain.nodup).1 List.mem_cons_self
    refine ⟨{ links with first := some second, back := update links.back second (some .first) },
      ?_, tail, fun other here => ?_⟩
    · rw [remove, after]
      dsimp only
      rw [update_of_ne apart, back]
    · obtain rfl := Option.some.inj here
      exact update_self second _ links.back

end Links

end Foundation
