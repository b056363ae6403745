import Jos.Foundation.Ring
import Mathlib.Logic.Function.Basic

/-! The descriptors that the driver and the network card share, and the packets that lie
in the buffers of a ring of them. -/

set_option autoImplicit false

namespace Jos

open Foundation Function

abbrev Packet := List (BitVec 8)

/-- What `struct tx_desc` and `struct rx_desc` have in common. -/
structure Desc where
  addr : Nat
  length : BitVec 16
  status : BitVec 8
deriving DecidableEq, Repr

namespace Desc

/-- Bit 0 of the status: the card is done with the descriptor. -/
def done (desc : Desc) : Bool := desc.status.getLsbD 0

def Separate (size : Nat) (desc : Nat → Desc) : Prop :=
  ∀ i j, i < size → j < size → i ≠ j →
    (desc i).addr + 4096 ≤ (desc j).addr ∨ (desc j).addr + 4096 ≤ (desc i).addr

structure Holds (desc : Nat → Desc) (mem : Nat → BitVec 8) (j : Nat) (packet : Packet) :
    Prop where
  short : packet.length ≤ 4096
  length : (desc j).length.toNat = packet.length
  bytes : load mem (desc j).addr packet.length = packet

variable {size i j : Nat} {desc desc' : Nat → Desc} {mem mem' : Nat → BitVec 8}
  {packet : Packet}

theorem Separate.of_pages {page : Nat → Nat}
    (distinct : ∀ i j, i < size → j < size → page i = page j → i = j)
    (addr : ∀ i, (desc i).addr = page i * 4096) : Separate size desc := by
  intro i j inside inside' differs
  have := mt (distinct i j inside inside') differs
  rw [addr, addr]
  omega

theorem Separate.keep (separate : Separate size desc)
    (addr : ∀ j, (desc' j).addr = (desc j).addr) : Separate size desc' := by
  intro i j inside inside' differs
  rw [addr, addr]
  exact separate i j inside inside' differs

theorem Separate.store_apart (separate : Separate size desc) (short : packet.length ≤ 4096)
    (inside : i < size) (inside' : j < size) (differs : j ≠ i) {count : Nat}
    (fits : count ≤ 4096) :
    load (store mem (desc i).addr packet) (desc j).addr count = load mem (desc j).addr count := by
  refine load_store_apart ?_
  rcases separate j i inside' inside differs with before | after
  · exact .inr (by omega)
  · exact .inl (by omega)

theorem Holds.keep (holds : Holds desc mem j packet) (addr : (desc' j).addr = (desc j).addr)
    (length : (desc' j).length = (desc j).length)
    (bytes : load mem' (desc j).addr packet.length = load mem (desc j).addr packet.length) :
    Holds desc' mem' j packet where
  short := holds.short
  length := by rw [length]; exact holds.length
  bytes := by rw [addr, bytes]; exact holds.bytes

theorem Holds.load_eq (holds : Holds desc mem j packet) :
    load mem (desc j).addr (desc j).length.toNat = packet := by
  rw [holds.length]
  exact holds.bytes

theorem update_addr {value : Desc} (addr : value.addr = (desc i).addr) :
    (update desc i value j).addr = (desc j).addr := by
  by_cases same : j = i
  · subst same
    rw [update_self, addr]
  · rw [update_of_ne same]

theorem update_length {value : Desc} (length : value.length = (desc i).length) :
    (update desc i value j).length = (desc j).length := by
  by_cases same : j = i
  · subst same
    rw [update_self, length]
  · rw [update_of_ne same]

end Desc

end Jos
