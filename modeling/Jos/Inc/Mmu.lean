import Mathlib.Algebra.GroupWithZero.Nat
import Mathlib.Data.Fin.Basic

/-! The constants and address arithmetic of inc/mmu.h and inc/memlayout.h. A
virtual address is a natural number; every 64-bit address is one, and the
macros read only bits 12 to 47. -/

set_option autoImplicit false

namespace Jos

def pgSize : Nat := 4096

/-- The VPN macro. -/
def vpn (la : Nat) : Nat := la / pgSize
def ptSize : Nat := pgSize * 512
def pgShift : Nat := 12
def ptxShift : Nat := 12
def pdxShift : Nat := 21
def pdpeShift : Nat := 30
def pml4Shift : Nat := 39

def kernBase : Nat := 0x8004000000
def kstackTop : Nat := kernBase
def kstkSize : Nat := 16 * pgSize
def kstkGap : Nat := 8 * pgSize
def mmioLim : Nat := kstackTop - ptSize
def mmioBase : Nat := mmioLim - ptSize
def ulim : Nat := mmioBase
def uvpt : Nat := 0x10000000000
def upages : Nat := ulim - 25 * ptSize
def uenvs : Nat := upages - ptSize
def utop : Nat := uenvs
def uxstackTop : Nat := 0xef800000
def ustackTop : Nat := uxstackTop - 2 * pgSize

/-- An index into one of the 512-entry tables. -/
abbrev Index := Fin 512

instance neZero_two : NeZero 2 := ⟨by decide⟩
instance neZero_maxFd : NeZero 32 := ⟨by decide⟩
instance neZero_table : NeZero 512 := ⟨by decide⟩
instance neZero_nenv : NeZero 1024 := ⟨by decide⟩
instance neZero_page : NeZero 4096 := ⟨by decide⟩

/-- The PML4 macro. -/
def pml4 (la : Nat) : Index := Fin.ofNat 512 (la >>> pml4Shift)
/-- The PDPE macro. -/
def pdpe (la : Nat) : Index := Fin.ofNat 512 (la >>> pdpeShift)
/-- The PDX macro. -/
def pdx (la : Nat) : Index := Fin.ofNat 512 (la >>> pdxShift)
/-- The PTX macro. -/
def ptx (la : Nat) : Index := Fin.ofNat 512 (la >>> ptxShift)

/-- The PGADDR macro. -/
def pgAddr (m p d t : Index) (o : Nat) : Nat :=
  m.val <<< pml4Shift ||| p.val <<< pdpeShift ||| d.val <<< pdxShift ||| t.val <<< ptxShift ||| o

theorem pgAddr_eq {m p d t : Index} {o : Nat} (offset : o < 4096) :
    pgAddr m p d t o = m.val * 2 ^ 39 + p.val * 2 ^ 30 + d.val * 2 ^ 21 + t.val * 2 ^ 12 + o := by
  have lower : t.val <<< ptxShift ||| o = t.val * 2 ^ 12 + o := by
    rw [← Nat.shiftLeft_add_eq_or_of_lt (by simpa [ptxShift] using offset), Nat.shiftLeft_eq]
    rfl
  have middle : d.val <<< pdxShift ||| (t.val <<< ptxShift ||| o) =
      d.val * 2 ^ 21 + (t.val * 2 ^ 12 + o) := by
    rw [lower, ← Nat.shiftLeft_add_eq_or_of_lt (by simp only [pdxShift]; omega), Nat.shiftLeft_eq]
    rfl
  have upper : p.val <<< pdpeShift ||| (d.val <<< pdxShift ||| (t.val <<< ptxShift ||| o)) =
      p.val * 2 ^ 30 + (d.val * 2 ^ 21 + (t.val * 2 ^ 12 + o)) := by
    rw [middle, ← Nat.shiftLeft_add_eq_or_of_lt (by simp only [pdpeShift]; omega),
      Nat.shiftLeft_eq]
    rfl
  unfold pgAddr
  rw [Nat.or_assoc, Nat.or_assoc, Nat.or_assoc, upper,
    ← Nat.shiftLeft_add_eq_or_of_lt (by simp only [pml4Shift]; omega), Nat.shiftLeft_eq]
  simp only [pml4Shift]
  omega

theorem indices_pgAddr {m p d t : Index} {o : Nat} (offset : o < 4096) :
    pml4 (pgAddr m p d t o) = m ∧ pdpe (pgAddr m p d t o) = p ∧ pdx (pgAddr m p d t o) = d ∧
      ptx (pgAddr m p d t o) = t := by
  rw [pgAddr_eq offset]
  simp only [pml4, pdpe, pdx, ptx, pml4Shift, pdpeShift, pdxShift, ptxShift, Nat.shiftRight_eq_div_pow]
  refine ⟨Fin.ext ?_, Fin.ext ?_, Fin.ext ?_, Fin.ext ?_⟩ <;> simp only [Fin.ofNat] <;> omega
def pteP : BitVec 12 := 0x001#12
def pteW : BitVec 12 := 0x002#12
def pteU : BitVec 12 := 0x004#12
def ptePwt : BitVec 12 := 0x008#12
def ptePcd : BitVec 12 := 0x010#12
def pteAvail : BitVec 12 := 0xE00#12
def pteSyscall : BitVec 12 := pteAvail ||| pteP ||| pteW ||| pteU

/-- A 64-bit entry of a table at any level: the page number above the low
twelve bits, and the flags in them. -/
structure Pte where
  ppn : Nat
  perm : BitVec 12
deriving DecidableEq, Repr, Inhabited

namespace Pte

/-- The all-zero entry, which the walkers compare with the null pointer. -/
protected def zero : Pte := ⟨0, 0#12⟩

instance : Zero Pte := ⟨Pte.zero⟩

@[simp] theorem ppn_zero : (0 : Pte).ppn = 0 := rfl
@[simp] theorem perm_zero : (0 : Pte).perm = 0#12 := rfl

def present (entry : Pte) : Bool := entry.perm.getLsbD 0
def writable (entry : Pte) : Bool := entry.perm.getLsbD 1
def user (entry : Pte) : Bool := entry.perm.getLsbD 2

@[simp] theorem present_zero : (0 : Pte).present = false := rfl

end Pte

def tablePerm : BitVec 12 := pteW ||| pteU ||| pteP

@[simp] theorem present_table {ppn : Nat} : (⟨ppn, tablePerm⟩ : Pte).present = true := by
  simp [Pte.present, tablePerm, pteW, pteU, pteP]

theorem table_ne_zero {ppn : Nat} : (⟨ppn, tablePerm⟩ : Pte) ≠ 0 := by
  intro same
  have presents := congrArg Pte.present same
  simp at presents

@[simp] theorem present_or {ppn : Nat} {perm : BitVec 12} :
    (⟨ppn, perm ||| pteP⟩ : Pte).present = true := by
  simp [Pte.present, pteP]

@[simp] theorem writable_or {ppn : Nat} {perm : BitVec 12} :
    (⟨ppn, perm ||| pteP⟩ : Pte).writable = perm.getLsbD 1 := by
  simp [Pte.writable, pteP]

@[simp] theorem user_or {ppn : Nat} {perm : BitVec 12} :
    (⟨ppn, perm ||| pteP⟩ : Pte).user = perm.getLsbD 2 := by
  simp [Pte.user, pteP]

theorem ne_zero_of_present {entry : Pte} (there : entry.present = true) : entry ≠ 0 := by
  rintro rfl
  simp at there

end Jos
