import Mathlib.Data.List.Nodup
import Mathlib.Data.List.Range

/-! Intrusive singly linked lists: a head pointer and a successor field. A chain
lists the cells met from the head until the null pointer. -/

set_option autoImplicit false

namespace Foundation

universe u

variable {Cell : Type u} {cells : List Cell} {head : Option Cell}

/-- The cells met when following `next` from `head` to the null pointer. -/
def Chain (next : Cell → Option Cell) : Option Cell → List Cell → Prop
  | head, [] => head = none
  | head, cell :: cells => head = some cell ∧ Chain next (next cell) cells

variable {next other : Cell → Option Cell}

@[simp] theorem chain_nil {head : Option Cell} : Chain next head [] ↔ head = none := Iff.rfl

@[simp] theorem chain_cons {head : Option Cell} {cell : Cell} {cells : List Cell} :
    Chain next head (cell :: cells) ↔ head = some cell ∧ Chain next (next cell) cells := Iff.rfl

theorem Chain.functional {first second : List Cell}
    (left : Chain next head first) (right : Chain next head second) : first = second := by
  induction first generalizing head second with
  | nil =>
    cases second with
    | nil => rfl
    | cons cell cells => simp_all
  | cons cell cells ih =>
    cases second with
    | nil => simp_all
    | cons cell' cells' =>
      obtain ⟨here, rest⟩ := left
      obtain ⟨here', rest'⟩ := right
      have same : cell = cell' := Option.some.inj (here.symm.trans here')
      subst same
      rw [ih rest rest']

/-- A chain that reaches the null pointer meets no cell twice. -/
theorem Chain.nodup (chain : Chain next head cells) : cells.Nodup := by
  induction cells generalizing head with
  | nil => exact List.nodup_nil
  | cons cell cells ih =>
    refine List.nodup_cons.mpr ⟨fun again => ?_, ih chain.2⟩
    -- a second visit would make the chain from `cell` both longer and shorter
    obtain ⟨front, back, split⟩ := List.append_of_mem again
    have tail : Chain next (some cell) (cell :: back) := by
      have rest := chain.2
      rw [split] at rest
      clear split again ih chain
      generalize next cell = start at rest
      induction front generalizing start with
      | nil => exact ⟨rfl, rest.2⟩
      | cons _ front ih => exact ih _ rest.2
    have whole : Chain next (some cell) (cell :: cells) := ⟨rfl, chain.2⟩
    have same := tail.functional whole
    rw [split] at same
    have lengths := congrArg List.length same
    simp at lengths
    omega

/-- Successor fields of cells outside the chain do not matter. -/
theorem Chain.congr (chain : Chain next head cells)
    (same : ∀ cell ∈ cells, other cell = next cell) : Chain other head cells := by
  induction cells generalizing head with
  | nil => exact chain
  | cons cell cells ih =>
    refine ⟨chain.1, ?_⟩
    rw [same cell List.mem_cons_self]
    exact ih chain.2 fun later member => same later (List.mem_cons_of_mem _ member)

theorem Chain.push {cell : Cell}
    (chain : Chain next head cells) (fresh : cell ∉ cells) (linked : other cell = head)
    (same : ∀ old, old ≠ cell → other old = next old) :
    Chain other (some cell) (cell :: cells) := by
  refine ⟨rfl, ?_⟩
  rw [linked]
  exact chain.congr fun old member => same old fun equal => fresh (equal ▸ member)

theorem Chain.pop {cell : Cell} (chain : Chain next (some cell) cells) :
    ∃ rest, cells = cell :: rest ∧ Chain next (next cell) rest ∧ cell ∉ rest := by
  cases cells with
  | nil => simp at chain
  | cons first rest =>
    obtain ⟨here, tail⟩ := chain
    have same : cell = first := Option.some.inj here
    subst same
    have whole : Chain next (some cell) (cell :: rest) := ⟨rfl, tail⟩
    exact ⟨rest, rfl, tail, (List.nodup_cons.mp whole.nodup).1⟩

/-- Of the cells in a chain, the last one alone has no successor. -/
theorem Chain.next_eq_none_iff {cell : Cell}
    (chain : Chain next head cells) (listed : cell ∈ cells) :
    next cell = none ↔ cells.getLast? = some cell := by
  induction cells generalizing head with
  | nil => cases listed
  | cons first cells ih =>
    cases cells with
    | nil =>
      obtain rfl := List.mem_singleton.mp listed
      exact iff_of_true chain.2 rfl
    | cons second rest =>
      rw [List.getLast?_cons_cons]
      cases List.mem_cons.mp listed with
      | inl same =>
        subst same
        have linked : next cell = some second := chain.2.1
        have apart := (List.nodup_cons.mp chain.nodup).1
        refine iff_of_false (linked ▸ nofun) fun last => apart ?_
        exact List.mem_of_getLast? last
      | inr later => exact ih chain.2 later

theorem Chain.next_mem {cell after : Cell}
    (chain : Chain next head cells) (listed : cell ∈ cells) (linked : next cell = some after) :
    after ∈ cells := by
  induction cells generalizing head with
  | nil => cases listed
  | cons first cells ih =>
    refine List.mem_cons_of_mem _ ?_
    cases List.mem_cons.mp listed with
    | inl same =>
      subst same
      have tail := chain.2
      rw [linked] at tail
      obtain ⟨rest, rfl, -, -⟩ := tail.pop
      exact List.mem_cons_self
    | inr later => exact ih chain.2 later

/-- Cells that all have a successor among them are on no chain. -/
theorem not_chain_of_closed {ring : List Cell} {cell : Cell}
    (closed : ∀ old ∈ ring, ∃ after ∈ ring, next old = some after) (inside : cell ∈ ring) :
    ¬Chain next (some cell) cells := by
  intro chain
  induction cells generalizing cell with
  | nil => cases chain
  | cons first cells ih =>
    obtain ⟨rest, same, tail, -⟩ := chain.pop
    obtain ⟨after, among, linked⟩ := closed cell inside
    rw [linked] at tail
    exact ih among ((List.cons.inj same).2 ▸ tail)

/-! Cells in an array, linked in order. -/

/-- The cell at an index of the array, if there is one. -/
def cellAt (size i : Nat) : Option (Fin size) := if bound : i < size then some ⟨i, bound⟩ else none

/-- The cells from one index on, some of them. -/
def cellRange (size start count : Nat) : List (Fin size) :=
  (List.range' start count).filterMap (cellAt size)

variable {size start count : Nat}

theorem cellAt_lt {i : Nat} (bound : i < size) : cellAt size i = some ⟨i, bound⟩ := dif_pos bound

theorem mem_cellRange {cell : Fin size} :
    cell ∈ cellRange size start count ↔ start ≤ cell.val ∧ cell.val < start + count := by
  simp only [cellRange, List.mem_filterMap, List.mem_range'_1]
  constructor
  · rintro ⟨i, range, found⟩
    unfold cellAt at found
    split at found
    · obtain rfl := Option.some.inj found
      exact range
    · cases found
  · intro range
    exact ⟨cell.val, range, cellAt_lt cell.isLt⟩

theorem cellRange_succ (here : start < size) :
    cellRange size start (count + 1) = ⟨start, here⟩ :: cellRange size (start + 1) count := by
  simp [cellRange, List.range'_succ, cellAt_lt here]

theorem length_cellRange (bound : start + count ≤ size) :
    (cellRange size start count).length = count := by
  induction count generalizing start with
  | zero => rfl
  | succ count ih =>
    rw [cellRange_succ (by omega), List.length_cons, ih (by omega)]

/-- A run of cells that are linked in order is a piece of a chain, which goes on
behind the last of them. -/
theorem chain_cellRange {next : Fin size → Option (Fin size)} {rest : List (Fin size)}
    (bound : start + count < size)
    (steps : ∀ cell : Fin size, start ≤ cell.val → cell.val < start + count →
      next cell = cellAt size (cell.val + 1))
    (last : Chain next (next ⟨start + count, bound⟩) rest) :
    Chain next (cellAt size start) (cellRange size start (count + 1) ++ rest) := by
  induction count generalizing start with
  | zero =>
    have here : start < size := bound
    rw [cellRange_succ here, cellAt_lt here]
    exact ⟨rfl, last⟩
  | succ count ih =>
    have here : start < size := by omega
    have inside : start < start + (count + 1) := by omega
    have shift : start + (count + 1) = start + 1 + count := by omega
    have linked : next ⟨start, here⟩ = cellAt size (start + 1) :=
      steps ⟨start, here⟩ le_rfl inside
    rw [cellRange_succ here, cellAt_lt here]
    refine ⟨rfl, ?_⟩
    rw [linked]
    refine ih (by omega) (fun cell low high => steps cell (by omega) (by omega)) ?_
    simpa only [shift] using last

end Foundation
