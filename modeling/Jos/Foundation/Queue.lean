import Jos.Foundation.Chain

/-! Queues as chains with a pointer to the last cell. The pointer is stale while the
queue is empty. -/

set_option autoImplicit false

namespace Foundation

universe u

structure Queue (Cell : Type u) where
  first : Option Cell
  last : Option Cell
deriving DecidableEq, Repr

variable {Cell : Type u} {next other : Cell → Option Cell} {q : Queue Cell} {cells : List Cell}
  {cell : Cell}

namespace Queue

/-- The cells of a queue, in order. -/
structure Lists (next : Cell → Option Cell) (q : Queue Cell) (cells : List Cell) : Prop where
  chain : Chain next q.first cells
  last : ∀ cell, cells.getLast? = some cell → q.last = some cell

theorem Lists.congr (lists : q.Lists next cells) (same : ∀ cell ∈ cells, other cell = next cell) :
    q.Lists other cells :=
  ⟨lists.chain.congr same, lists.last⟩

theorem Lists.last_mem (lists : q.Lists next cells) (nonempty : q.first ≠ none) :
    ∃ last ∈ cells, q.last = some last := by
  rcases List.eq_nil_or_concat cells with rfl | ⟨front, last, rfl⟩
  · exact absurd lists.chain nonempty
  · exact ⟨last, by simp, lists.last last (by simp)⟩

theorem lists_nil : q.Lists next [] ↔ q.first = none :=
  ⟨fun lists => lists.chain, fun empty => ⟨empty, nofun⟩⟩

theorem Lists.pop (lists : q.Lists next cells) (here : q.first = some cell) :
    ∃ rest, cells = cell :: rest ∧ cell ∉ rest ∧
      Lists next { q with first := next cell } rest := by
  have chain := lists.chain
  rw [here] at chain
  obtain ⟨rest, rfl, tail, fresh⟩ := chain.pop
  refine ⟨rest, rfl, fresh, tail, fun last found => lists.last last ?_⟩
  rw [List.getLast?_cons, found]
  rfl

end Queue

/-- A cell is linked behind the last one. -/
theorem Chain.snoc {head : Option Cell} {last : Cell}
    (chain : Chain next head (cells ++ [last])) (fresh : cell ∉ cells ++ [last])
    (linked : other last = some cell) (ends : other cell = none)
    (same : ∀ old ∈ cells, other old = next old) :
    Chain other head (cells ++ [last] ++ [cell]) := by
  induction cells generalizing head with
  | nil => exact ⟨chain.1, linked, ends⟩
  | cons first cells ih =>
    refine ⟨chain.1, ?_⟩
    rw [same first List.mem_cons_self]
    exact ih chain.2 (fun member => fresh (List.mem_cons_of_mem _ member))
      fun old member => same old (List.mem_cons_of_mem _ member)

namespace Queue

theorem Lists.push_empty (empty : q.first = none) (lists : q.Lists next cells)
    (ends : other cell = none) :
    cells = [] ∧ Lists other ⟨some cell, some cell⟩ [cell] := by
  refine ⟨lists.chain.functional empty, ⟨rfl, ends⟩, fun last found => ?_⟩
  rw [List.getLast?_singleton] at found
  exact found

/-- Pushing onto a queue links its last cell to the new one. -/
theorem Lists.push (lists : q.Lists next cells) (nonempty : q.first ≠ none) (fresh : cell ∉ cells)
    (ends : other cell = none) (linked : ∀ last, q.last = some last → other last = some cell)
    (same : ∀ old ∈ cells, q.last ≠ some old → other old = next old) :
    Lists other { q with last := some cell } (cells ++ [cell]) := by
  rcases List.eq_nil_or_concat cells with rfl | ⟨front, last, rfl⟩
  · exact absurd lists.chain nonempty
  rw [List.concat_eq_append] at *
  have pointed : q.last = some last := lists.last last (by simp)
  have apart := (List.nodup_append.mp lists.chain.nodup).2.2
  refine ⟨?_, fun old found => ?_⟩
  · refine lists.chain.snoc fresh (linked last pointed) ends fun old member => ?_
    refine same old (List.mem_append_left _ member) fun found => ?_
    rw [pointed] at found
    exact apart old member last (by simp) (Option.some.inj found).symm
  · rw [List.getLast?_concat] at found
    exact found

end Queue

end Foundation
