import Mathlib.Data.List.Basic

/-! Loops that can fail: what each round keeps, the whole loop keeps, and a loop
whose rounds succeed succeeds. -/

set_option autoImplicit false

namespace Foundation

universe u v

variable {State : Type u} {Item : Type v} {round : State → Item → Option State}

/-- The invariant speaks of the items done and of the state. -/
theorem foldlM_invariant {items : List Item} {start final : State}
    (ran : items.foldlM round start = some final) (invariant : List Item → State → Prop)
    (begun : invariant [] start)
    (kept : ∀ done item state next, (∃ rest, items = done ++ item :: rest) → invariant done state →
      round state item = some next → invariant (done ++ [item]) next) :
    invariant items final := by
  have loop : ∀ rest done state, items = done ++ rest → invariant done state →
      rest.foldlM round state = some final → invariant items final := by
    intro rest
    induction rest with
    | nil =>
      intro done state split holds ended
      have same : state = final := by simpa using ended
      simpa [split, same] using holds
    | cons item rest ih =>
      intro done state split holds ended
      rw [List.foldlM_cons] at ended
      obtain ⟨next, stepped, ended⟩ := Option.bind_eq_some_iff.mp ended
      exact ih (done ++ [item]) next (by simp [split])
        (kept done item state next ⟨rest, split⟩ holds stepped) ended
  exact loop items [] start rfl begun ran

/-- A loop whose rounds all succeed from states with the invariant succeeds. -/
theorem foldlM_total {items : List Item} {start : State} (invariant : List Item → State → Prop)
    (begun : invariant [] start)
    (steps : ∀ done item state, (∃ rest, items = done ++ item :: rest) → invariant done state →
      ∃ next, round state item = some next ∧ invariant (done ++ [item]) next) :
    ∃ final, items.foldlM round start = some final ∧ invariant items final := by
  have loop : ∀ rest done state, items = done ++ rest → invariant done state →
      ∃ final, rest.foldlM round state = some final ∧ invariant items final := by
    intro rest
    induction rest with
    | nil =>
      intro done state split holds
      exact ⟨state, rfl, by simpa [split] using holds⟩
    | cons item rest ih =>
      intro done state split holds
      obtain ⟨next, stepped, holds⟩ := steps done item state ⟨rest, split⟩ holds
      obtain ⟨final, ended, holds⟩ := ih (done ++ [item]) next (by simp [split]) holds
      exact ⟨final, by rw [List.foldlM_cons, stepped]; exact ended, holds⟩
  exact loop items [] start rfl begun

/-- A loop from a related state does the same, when every round does. -/
theorem foldlM_related {items : List Item} {start start' final : State}
    (ran : items.foldlM round start = some final) (related : State → State → Prop)
    (begun : related start start')
    (steps : ∀ item ∈ items, ∀ state state' next, related state state' →
      round state item = some next → ∃ next', round state' item = some next' ∧ related next next') :
    ∃ final', items.foldlM round start' = some final' ∧ related final final' := by
  induction items generalizing start start' with
  | nil =>
    cases ran
    exact ⟨start', rfl, begun⟩
  | cons item items ih =>
    rw [List.foldlM_cons] at ran
    obtain ⟨next, stepped, ran⟩ := Option.bind_eq_some_iff.mp ran
    obtain ⟨next', stepped', begun⟩ := steps item List.mem_cons_self _ _ _ begun stepped
    obtain ⟨final', ended, same⟩ := ih ran begun fun later member =>
      steps later (List.mem_cons_of_mem _ member)
    exact ⟨final', by rw [List.foldlM_cons, stepped']; exact ended, same⟩

end Foundation
