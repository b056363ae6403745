import Jos.Lib.Inheritance

/-! Reads and writes of user code, with the page fault handler of lib/fork.c. -/

set_option autoImplicit false

namespace Jos

open Function

def Pte.cow (entry : Pte) : Bool := entry.perm.getLsbD 11

/-- The PGOFF macro. -/
def pgOff (la : Nat) : Fin 4096 := Fin.ofNat 4096 la

/-- `pgfault`; `write` is the bit FEC_WR of the error code. -/
def pgfault (answers : ForkCall → Int) (e : Nat) (write : Bool) (pn : Nat) (r : Forking) :
    Option Forking :=
  if !write && ((r.world.space e).uvpt pn).any Pte.cow then none
  else
    let (allocated, r) := r.pageAlloc answers e (vpn pftemp) permPrivate
    if allocated ≠ 0 then none
    else
      (r.memmove e (vpn pftemp) pn).bind fun r =>
        let (mapped, r) := r.pageMap answers e (vpn pftemp) e pn permPrivate
        if mapped < 0 then none
        else
          let (unmapped, r) := r.ask answers (.pageUnmap e (vpn pftemp)) fun w =>
            w.remove e (vpn pftemp)
          if unmapped < 0 then none else some r

namespace World

variable {w : World} {e va : Nat} {byte : BitVec 8} {entry : Pte}

/-- A byte in a page that is mapped. A fault on any other page is taken again in the
handler, until the exception stack is used up. -/
def readByte (w : World) (e va : Nat) : Option (BitVec 8) :=
  ((w.space e).uvpt (vpn va)).map fun entry => w.mem entry.ppn (pgOff va)

def poke (w : World) (ppn va : Nat) (byte : BitVec 8) : World :=
  w.store ppn (update (w.mem ppn) (pgOff va) byte)

def tryWrite (w : World) (e va : Nat) (byte : BitVec 8) : Option World :=
  ((w.space e).uvpt (vpn va)).bind fun entry =>
    if entry.writable then some (w.poke entry.ppn va byte) else none

def writeByte (answers : ForkCall → Int) (w : World) (e va : Nat) (byte : BitVec 8) :
    Option World :=
  match w.tryWrite e va byte with
  | some w => some w
  | none => (pgfault answers e true (vpn va) ⟨w, []⟩).bind fun r => r.world.tryWrite e va byte

end World

/-- The kernel carries out every call but `sys_exofork`, whose answer is free. -/
def Succeeds (answers : ForkCall → Int) : Prop := ∀ call, call ≠ .exofork → answers call = 0

structure Handles (answers : ForkCall → Int) (e pn : Nat) : Prop where
  allocated : answers (.pageAlloc e (vpn pftemp) permPrivate) = 0
  mapped : 0 ≤ answers (.pageMap e (vpn pftemp) e pn permPrivate)
  unmapped : 0 ≤ answers (.pageUnmap e (vpn pftemp))

theorem Succeeds.handles {answers : ForkCall → Int} {e pn : Nat} (answered : Succeeds answers) :
    Handles answers e pn where
  allocated := answered _ (by simp)
  mapped := (answered _ (by simp)).ge
  unmapped := (answered _ (by simp)).ge

structure Privatized (w w' : World) (e va : Nat) (byte : BitVec 8) (entry : Pte) : Prop where
  mem : w'.mem = update w.mem w.next
    (update (w.mem entry.ppn) (pgOff va) byte)
  uvpt : ∀ other q, (w'.space other).uvpt q =
    if other = e ∧ q = vpn pftemp then none
    else if other = e ∧ q = vpn va then some ⟨w.next, permPrivate ||| pteP⟩
    else (w.space other).uvpt q

section

variable {answers : ForkCall → Int} {w : World} {e va : Nat} {byte : BitVec 8} {entry : Pte}

theorem private_writable {ppn : Nat} : (⟨ppn, permPrivate ||| pteP⟩ : Pte).writable = true := by
  rw [writable_or]
  decide

/-- The handler maps a private copy of a page that is present, whatever the page allowed. -/
theorem pgfault_present {pn : Nat} (answered : Handles answers e pn) (apart : pn ≠ vpn pftemp)
    (found : (w.space e).uvpt pn = some entry) :
    ∃ r, pgfault answers e true pn ⟨w, []⟩ = some r ∧
      r.world.mem = update w.mem w.next (w.mem entry.ppn) ∧
      ∀ other q, (r.world.space other).uvpt q =
        if other = e ∧ q = vpn pftemp then none
        else if other = e ∧ q = pn then some ⟨w.next, permPrivate ||| pteP⟩
        else (w.space other).uvpt q := by
  unfold pgfault Forking.pageAlloc Forking.pageMap
  simp only [Bool.not_true, Bool.false_and, Bool.false_eq_true, if_false]
  rw [Forking.ask_answered answered.allocated.ge, answered.allocated]
  simp only [ne_eq, not_true_eq_false, if_false]
  generalize first : w.pageAlloc e (vpn pftemp) permPrivate = w₁
  have uvpt₁ : ∀ other q, (w₁.space other).uvpt q =
      if other = e ∧ q = vpn pftemp then some ⟨w.next, permPrivate ||| pteP⟩
      else (w.space other).uvpt q := fun other q => first ▸ World.pageAlloc_uvpt
  have mem₁ : w₁.mem = w.mem := first ▸ rfl
  have there : (w₁.space e).uvpt (vpn pftemp) = some ⟨w.next, permPrivate ||| pteP⟩ := by
    rw [uvpt₁, if_pos ⟨rfl, rfl⟩]
  have here : (w₁.space e).uvpt pn = some entry := by
    rw [uvpt₁, if_neg fun both => apart both.2, found]
  unfold Forking.memmove
  simp only [there, here, private_writable, if_true, Option.bind_some]
  rw [Forking.ask_answered answered.mapped]
  simp only [Int.not_lt.mpr answered.mapped, if_false]
  have still : ((w₁.store w.next (w₁.mem entry.ppn)).space e).uvpt (vpn pftemp) =
      some ⟨w.next, permPrivate ||| pteP⟩ := there
  rw [Forking.ask_answered answered.unmapped]
  simp only [Int.not_lt.mpr answered.unmapped, if_false]
  refine ⟨_, rfl, ?_, fun other q => ?_⟩
  · rw [World.pageMap_some still]
    change update w₁.mem w.next (w₁.mem entry.ppn) = _
    rw [mem₁]
  · rw [World.remove_uvpt, World.pageMap_some still, World.insert_uvpt]
    change (if _ then _ else if _ then _ else (w₁.space other).uvpt q) = _
    rw [uvpt₁]
    split
    · rfl
    · rfl

theorem writeByte_writable (found : (w.space e).uvpt (vpn va) = some entry)
    (writable : entry.writable = true) :
    w.writeByte answers e va byte = some (w.poke entry.ppn va byte) := by
  unfold World.writeByte World.tryWrite
  simp only [found, Option.bind_some, writable, if_true]

theorem writeByte_unshared (answered : Handles answers e (vpn va)) (apart : vpn va ≠ vpn pftemp)
    (found : (w.space e).uvpt (vpn va) = some entry) (fixed : entry.writable = false) :
    ∃ w', w.writeByte answers e va byte = some w' ∧ Privatized w w' e va byte entry := by
  obtain ⟨r, faulted, mem, uvpt⟩ := @pgfault_present answers w e entry _ answered apart found
  have refused : w.tryWrite e va byte = none := by
    unfold World.tryWrite
    simp only [found, Option.bind_some, fixed, Bool.false_eq_true, if_false]
  have copy : (r.world.space e).uvpt (vpn va) = some ⟨w.next, permPrivate ||| pteP⟩ := by
    rw [uvpt, if_neg fun both => apart both.2, if_pos ⟨rfl, rfl⟩]
  refine ⟨r.world.poke w.next va byte, ?_, ?_, fun other q => ?_⟩
  · unfold World.writeByte
    rw [refused]
    simp only [faulted, Option.bind_some, World.tryWrite, copy, private_writable, if_true]
  · unfold World.poke World.store
    simp only [mem, update_self, update_idem]
  · exact uvpt other q

theorem writeByte_absent (apart : vpn va ≠ vpn pftemp)
    (absent : (w.space e).uvpt (vpn va) = none) : w.writeByte answers e va byte = none := by
  unfold World.writeByte World.tryWrite
  simp only [absent, Option.bind_none]
  unfold pgfault
  simp only [Bool.not_true, Bool.false_and, Bool.false_eq_true, if_false]
  split
  · rfl
  -- The handler cannot copy a page that is not there.
  have gone : ∀ w' : World, w' = w ∨ w' = w.pageAlloc e (vpn pftemp) permPrivate →
      (w'.space e).uvpt (vpn va) = none := by
    rintro w' (rfl | rfl)
    · exact absent
    · rw [World.pageAlloc_uvpt, if_neg fun both => apart both.2, absent]
  unfold Forking.memmove Forking.pageAlloc Forking.ask
  dsimp only
  rw [gone _ (by split <;> simp)]
  split
  · contradiction
  · rfl

theorem pgfault_handles {pn : Nat} {r r' : Forking}
    (faulted : pgfault answers e true pn r = some r') : Handles answers e pn := by
  unfold pgfault at faulted
  simp only [Bool.not_true, Bool.false_and, Bool.false_eq_true, if_false] at faulted
  split at faulted
  · cases faulted
  rename_i allocated
  obtain ⟨moved, -, rest⟩ := Option.bind_eq_some_iff.mp faulted
  split at rest
  · cases rest
  rename_i mapped
  split at rest
  · cases rest
  rename_i unmapped
  exact ⟨Decidable.not_not.mp allocated, Int.not_lt.mp mapped, Int.not_lt.mp unmapped⟩

theorem writeByte_handles {w' : World} (wrote : w.writeByte answers e va byte = some w')
    (found : (w.space e).uvpt (vpn va) = some entry) (fixed : entry.writable = false) :
    Handles answers e (vpn va) := by
  unfold World.writeByte World.tryWrite at wrote
  simp only [found, Option.bind_some, fixed, Bool.false_eq_true, if_false] at wrote
  obtain ⟨r, faulted, -⟩ := Option.bind_eq_some_iff.mp wrote
  exact pgfault_handles faulted

end

end Jos
