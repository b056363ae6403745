import Mathlib.Data.List.Basic
import Mathlib.Logic.Function.Basic

/-! A memory after a list of stores, the last of which counts. -/

set_option autoImplicit false

namespace Foundation

universe u v

variable {Addr : Type u} {Value : Type v} [DecidableEq Addr]

def overwrite : (Addr → Value) → List (Addr × Value) → Addr → Value
  | mem, [] => mem
  | mem, (place, value) :: rest => overwrite (Function.update mem place value) rest

variable {mem : Addr → Value} {stores : List (Addr × Value)} {place : Addr} {value : Value}

theorem overwrite_other (outside : ∀ store ∈ stores, store.1 ≠ place) :
    overwrite mem stores place = mem place := by
  induction stores generalizing mem with
  | nil => rfl
  | cons store rest ih =>
    have differ := outside store List.mem_cons_self
    have later := @ih (Function.update mem store.1 store.2) fun store member =>
      outside store (List.mem_cons_of_mem _ member)
    exact later.trans (Function.update_of_ne differ.symm ..)

/-- Where no place is stored to twice, every store is found again. -/
theorem overwrite_mem (nodup : (stores.map Prod.fst).Nodup) (member : (place, value) ∈ stores) :
    overwrite mem stores place = value := by
  induction stores generalizing mem with
  | nil => cases member
  | cons store rest ih =>
    obtain ⟨fresh, nodup⟩ := List.nodup_cons.mp nodup
    rcases List.mem_cons.mp member with rfl | later
    · have untouched : overwrite (Function.update mem place value) rest place =
          Function.update mem place value place := overwrite_other fun store member same =>
        fresh (List.mem_map.mpr ⟨store, member, same⟩)
      exact untouched.trans (Function.update_self ..)
    · exact ih nodup later

end Foundation
