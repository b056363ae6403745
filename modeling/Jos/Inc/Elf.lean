import Mathlib.Data.Nat.Basic
import Jos.Inc.Mmu

/-! Program files and their headers, by inc/elf.h. -/

set_option autoImplicit false

namespace Jos

def elfMagic : Nat := 0x464C457F
def elfProgLoad : Nat := 1
def elfProgFlagWrite : Nat := 2

/-- sizeof(struct Proghdr) -/
def proghdrSize : Nat := 56

structure Elf where
  bytes : List (BitVec 8)

/-- The fields of `struct Proghdr` that the loaders look at. -/
structure Proghdr where
  flags : Nat
  offset : Nat
  va : Nat
  filesz : Nat
  memsz : Nat
deriving DecidableEq, Repr

/-- A number of `n` bytes, the low byte first. -/
def littleEndian (mem : Nat → Option (BitVec 8)) : Nat → Nat → Option Nat
  | 0, _ => some 0
  | n + 1, place =>
    (mem (place % 2 ^ 64)).bind fun byte =>
      (littleEndian mem n (place + 1)).map fun rest => byte.toNat + 256 * rest

def proghdr (mem : Nat → Option (BitVec 8)) (place : Nat) : Option Proghdr :=
  (littleEndian mem 4 (place + 4)).bind fun flags => (littleEndian mem 8 (place + 8)).bind fun offset =>
    (littleEndian mem 8 (place + 16)).bind fun va => (littleEndian mem 8 (place + 32)).bind fun filesz =>
      (littleEndian mem 8 (place + 40)).map fun memsz => ⟨flags, offset, va, filesz, memsz⟩

namespace Elf

def byte (file : Elf) (offset : Int) : Option (BitVec 8) :=
  if offset < 0 then none else file.bytes[offset.toNat]?

def field (file : Elf) (n place : Nat) : Nat := (littleEndian (fun i => file.byte i) n place).getD 0

def magic (file : Elf) : Nat := file.field 4 0
def entry (file : Elf) : Nat := file.field 8 24
def phoff (file : Elf) : Nat := file.field 8 32
def phnum (file : Elf) : Nat := file.field 2 56

/-- Where program header `k` is. -/
def header (file : Elf) (k : Nat) : Nat := (file.phoff + k * proghdrSize) % 2 ^ 64

/-- The segment of program header `k`, by the file. -/
def segment (file : Elf) (k : Nat) : Option Proghdr :=
  if k < file.phnum then
    (littleEndian (fun place => file.byte place) 4 (file.header k)).bind fun type =>
      if type ≠ elfProgLoad then none else proghdr (fun place => file.byte place) (file.header k)
  else none

theorem segment_range {file : Elf} {k : Nat} {h : Proghdr} (found : file.segment k = some h) :
    k < file.phnum := by
  unfold segment at found
  split at found
  · assumption
  · cases found

theorem byte_of_lt {file : Elf} {offset : Nat} (within : offset < file.bytes.length) :
    ∃ byte, file.byte offset = some byte := by
  unfold byte
  rw [if_neg (by omega), Int.toNat_natCast, List.getElem?_eq_getElem within]
  exact ⟨_, rfl⟩

end Elf

namespace Proghdr

variable {h : Proghdr}

def Covers (h : Proghdr) (pn : Nat) : Prop := vpn h.va ≤ pn ∧ pn * pgSize < h.va + h.memsz

def pages (h : Proghdr) : Nat := (h.memsz + h.va % pgSize + (pgSize - 1)) / pgSize

theorem covers_iff {pn : Nat} : h.Covers pn ↔ vpn h.va ≤ pn ∧ pn < vpn h.va + h.pages := by
  simp only [Covers, pages, vpn, pgSize]
  omega

theorem covers_byte {i : Nat} (inside : i < h.memsz) : h.Covers (vpn (h.va + i)) := by
  simp only [Covers, vpn, pgSize]
  omega

end Proghdr

theorem littleEndian_congr {mem mem' : Nat → Option (BitVec 8)} {n place : Nat}
    (same : ∀ p, place ≤ p → p < place + n → mem p = mem' p) (small : place + n ≤ 2 ^ 64) :
    littleEndian mem n place = littleEndian mem' n place := by
  induction n generalizing place with
  | zero => rfl
  | succ n ih =>
    unfold littleEndian
    rw [Nat.mod_eq_of_lt (by omega), same place le_rfl (by omega),
      ih (fun p low high => same p (by omega) (by omega)) (by omega)]

end Jos
