import Mathlib.Data.List.Basic

/-! Rings of buffers: ranges of a memory of bytes, places on a ring, and the order in
which what was put in comes out. -/

set_option autoImplicit false

namespace Foundation

variable {Byte : Type} {mem : Nat → Byte} {bytes : List Byte} {addr addr' count size : Nat}

/-- The bytes from an address on. -/
def load (mem : Nat → Byte) (addr count : Nat) : List Byte :=
  (List.range count).map fun i => mem (addr + i)

/-- The memory with a list of bytes stored from an address on. -/
def store (mem : Nat → Byte) (addr : Nat) (bytes : List Byte) (a : Nat) : Byte :=
  if addr ≤ a then (bytes[a - addr]?).getD (mem a) else mem a

theorem load_length : (load mem addr count).length = count := by simp [load]

theorem load_store : load (store mem addr bytes) addr bytes.length = bytes := by
  refine List.ext_getElem load_length fun i below within => ?_
  simp [load, store, within]

/-- A store leaves what does not overlap it. -/
theorem load_store_apart (apart : addr + bytes.length ≤ addr' ∨ addr' + count ≤ addr) :
    load (store mem addr bytes) addr' count = load mem addr' count := by
  refine List.map_congr_left fun i listed => ?_
  have within := List.mem_range.mp listed
  unfold store
  split
  · rename_i reached
    have beyond : bytes.length ≤ addr' + i - addr := by omega
    rw [List.getElem?_eq_none beyond, Option.getD_none]
  · rfl

/-- Places on a ring, counted without end, that are less than a turn apart are different
when the counts are. -/
theorem ring_injective {first second base : Nat} (same : first % size = second % size)
    (low : base ≤ first) (high : first < base + size) (low' : base ≤ second)
    (high' : second < base + size) : first = second := by
  have one := Nat.div_add_mod first size
  have two := Nat.div_add_mod second size
  rcases Nat.lt_trichotomy (first / size) (second / size) with less | equal | more
  · have step := Nat.mul_le_mul_left size (Nat.succ_le_of_lt less)
    rw [Nat.mul_succ] at step
    omega
  · rw [equal] at one
    omega
  · have step := Nat.mul_le_mul_left size (Nat.succ_le_of_lt more)
    rw [Nat.mul_succ] at step
    omega

/-- One list is the first part of another, and so it is when the next element follows. -/
theorem prefix_snoc {Item : Type} {first whole : List Item} {item : Item}
    (order : first <+: whole) (next : whole[first.length]? = some item) :
    first ++ [item] <+: whole := by
  obtain ⟨rest, rfl⟩ := order
  rw [List.getElem?_append_right (Nat.le_refl _), Nat.sub_self] at next
  cases rest with
  | nil => cases next
  | cons head rest =>
    cases next
    exact ⟨rest, by simp⟩

end Foundation
