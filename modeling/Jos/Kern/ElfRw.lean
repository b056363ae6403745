import Jos.Inc.Mmu
import Mathlib.Data.Fin.Basic
import Mathlib.Data.List.Induction
import Mathlib.Logic.Function.Basic

/-! `read_section_headers` of kern/elf_rw.c: the debug sections of the kernel are read from the
disk to the memory behind the kernel. -/

set_option autoImplicit false

namespace Jos

open Function

namespace ElfRw

abbrev Byte := BitVec 8

def sectSize : Nat := 512

/-- `KELFHDR`, where the boot loader has put the ELF header. -/
def kelfhdr : Nat := 0x10000 + kernBase

/-- The length of `secthdr_ptr`. -/
def secthdrPtrs : Nat := 20

/-- `sizeof(Secthdr)` -/
def secthdrSize : Nat := 64

/-- A `uint64_t`. -/
def u64 (n : Nat) : Nat := n % 2 ^ 64

/-- A number of `n` bytes, the low byte first. -/
def number (mem : Nat → Byte) : Nat → Nat → Nat
  | 0, _ => 0
  | n + 1, a => (mem a).toNat + 256 * number mem n (a + 1)

section Fields

variable (mem : Nat → Byte) (p : Nat)

/-! Fields of `Elf` and `Secthdr`, at a pointer. -/

def eShoff : Nat := number mem 8 (p + 40)
def eShentsize : Nat := number mem 2 (p + 58)
def eShnum : Nat := number mem 2 (p + 60)
def eShstrndx : Nat := number mem 2 (p + 62)

def shName : Nat := number mem 4 p
def shAddr : Nat := number mem 8 (p + 16)
def shOffset : Nat := number mem 8 (p + 24)
def shSize : Nat := number mem 8 (p + 32)

end Fields

/-- The elements of `section_info`. -/
inductive DebugSect where
  | debugInfo
  | debugAbbrev
  | debugFrame
  | debugLine
  | debugStr
deriving DecidableEq, Repr

def chars (text : String) : List Byte := text.toList.map fun c => BitVec.ofNat 8 c.toNat

/-- `ds_name` -/
def DebugSect.name : DebugSect → List Byte
  | .debugInfo => chars ".debug_info"
  | .debugAbbrev => chars ".debug_abbrev"
  | .debugFrame => chars ".eh_frame"
  | .debugLine => chars ".debug_line"
  | .debugStr => chars ".debug_str"

/-- `Dwarf_Section`, apart from its name. -/
structure DwarfSection where
  dsData : Nat
  dsAddr : Nat
  dsSize : Nat
deriving DecidableEq, Repr

/-- `!strcmp(p, text)` -/
def strEq (mem : Nat → Byte) : Nat → List Byte → Bool
  | p, [] => mem p = 0
  | p, c :: text => mem p = c ∧ strEq mem (p + 1) text

/-- The branch of `read_section_headers` for a name. -/
def sectNamed (mem : Nat → Byte) (name : Nat) : Option DebugSect :=
  [DebugSect.debugInfo, .debugAbbrev, .debugLine, .debugFrame, .debugStr].find? fun sect => strEq mem name sect.name

/-- A failed assertion, an access behind the end of `secthdr_ptr` or through a null pointer in it,
or a loop that needs more than the fuel it has. -/
inductive Fault where
  | assertion
  | overrun
  | null
  | fuel
deriving DecidableEq, Repr

/-- `loads` has the start and the length of the memory that each `readseg` has written. -/
structure State where
  mem : Nat → Byte
  kvoffset : Nat
  sectionInfo : DebugSect → DwarfSection
  loads : List (Nat × Nat)

section Read

variable (disk : Nat → Byte)

/-- The kernel starts at sector 1. -/
def file (k : Nat) : Byte := disk (sectSize + k)

def readsect (mem : Nat → Byte) (dst offset : Nat) : Nat → Byte := fun a =>
  if dst ≤ a ∧ a < dst + sectSize then disk (sectSize * offset + (a - dst)) else mem a

/-- The loop of `readseg`. -/
def readsects (endPa : Nat) : Nat → Nat → Nat → State → Except Fault (Nat × Nat × State)
  | 0, _, _, _ => .error .fuel
  | fuel + 1, pa, offset, s =>
    if pa < endPa then
      readsects endPa fuel (u64 (pa + sectSize)) (offset + 1)
        { s with mem := readsect disk s.mem pa offset, kvoffset := u64 (s.kvoffset + sectSize) }
    else .ok (pa, offset, s)

/-- The sector behind the loop, when the bytes do not begin and end in the first one. -/
def readExtra (offset count next sector : Nat) (s : State) : Nat × State :=
  if offset % sectSize + count > sectSize then
    (u64 (next + sectSize),
      { s with mem := readsect disk s.mem next sector, kvoffset := u64 (s.kvoffset + sectSize) })
  else (next, s)

def readseg (fuel pa count offset : Nat) (s : State) : Except Fault State := do
  let endPa := u64 (pa + count)
  if pa % sectSize ≠ 0 then .error .assertion
  else do
    let (next, sector, t) ← readsects disk endPa fuel pa (offset / sectSize + 1) s
    let (next, t) := readExtra disk offset count next sector t
    if t.kvoffset % sectSize ≠ 0 then .error .assertion
    else .ok { t with loads := t.loads ++ [(pa, next - pa)] }

/-- `secthdr_ptr`, whose elements are null at first. -/
abbrev SecthdrPtr := Fin secthdrPtrs → Option Nat

def storePtr (secthdr : Nat) (ptr : SecthdrPtr) (i : Nat) : Except Fault SecthdrPtr :=
  if bound : i < secthdrPtrs then .ok (update ptr ⟨i, bound⟩ (some (secthdr + secthdrSize * i)))
  else .error .overrun

def loadPtr (ptr : SecthdrPtr) (i : Nat) : Except Fault Nat :=
  if bound : i < secthdrPtrs then
    match ptr ⟨i, bound⟩ with
    | some p => .ok p
    | none => .error .null
  else .error .overrun

/-- A round of the second loop of `read_section_headers`. -/
def readSection (fuel kvbase nametab : Nat) (ptr : SecthdrPtr) (s : State) (i : Nat) :
    Except Fault State := do
  let p ← loadPtr ptr i
  if s.kvoffset % sectSize ≠ 0 then .error .assertion
  else
    match sectNamed s.mem (nametab + shName s.mem p) with
    | none => .ok s
    | some .debugFrame =>
      let entry : DwarfSection := ⟨shAddr s.mem p, shAddr s.mem p, shSize s.mem p⟩
      .ok { s with sectionInfo := update s.sectionInfo .debugFrame entry }
    | some sect => do
        let temp := s.kvoffset
        let s ← readseg disk fuel (kvbase + s.kvoffset) (shSize s.mem p) (shOffset s.mem p) s
        let data := kvbase + temp + shOffset s.mem p % sectSize
        .ok { s with sectionInfo := update s.sectionInfo sect ⟨data, data, shSize s.mem p⟩ }

/-- `ROUNDUP(to_va, SECTSIZE)` -/
def kvbaseOf (toVa : Nat) : Nat := (toVa + sectSize - 1) / sectSize * sectSize

/-- `read_section_headers` once the section headers have been read. -/
def readSections (fuel elfhdr kvbase secthdr numSectionHeaders : Nat) (s : State) :
    Except Fault (Nat × State) := do
  let ptr ← (List.range numSectionHeaders).foldlM (storePtr secthdr) fun _ => none
  let secName ← loadPtr ptr (eShstrndx s.mem elfhdr)
  let temp := s.kvoffset
  let stroff := shOffset s.mem secName
  let s ← readseg disk fuel (kvbase + s.kvoffset) (shSize s.mem secName) stroff s
  let nametab := kvbase + temp + stroff % sectSize
  let s ← (List.range numSectionHeaders).foldlM (readSection disk fuel kvbase nametab ptr) s
  return (kvbase + s.kvoffset, s)

def readSectionHeaders (fuel elfhdr toVa : Nat) (s : State) : Except Fault (Nat × State) := do
  let kvbase := kvbaseOf toVa
  let offset :=
    if elfhdr = kelfhdr then eShoff s.mem elfhdr
    else u64 (eShoff s.mem elfhdr + (elfhdr - kernBase))
  let numSectionHeaders := eShnum s.mem elfhdr
  -- the product is an `int`
  let count := (BitVec.ofNat 32 (numSectionHeaders * eShentsize s.mem elfhdr)).signExtend 64
  let s ← readseg disk fuel kvbase count.toNat offset { s with kvoffset := 0, loads := [] }
  readSections disk fuel elfhdr kvbase (kvbase + offset % sectSize) numSectionHeaders s

end Read

/-- The memory with `n` sectors from the one with a number on. -/
def copied (disk mem : Nat → Byte) (pa sector n : Nat) : Nat → Byte := fun a =>
  if pa ≤ a ∧ a < pa + sectSize * n then disk (sectSize * sector + (a - pa)) else mem a

/-- The sectors that `readseg` reads. -/
def sectors (offset count : Nat) : Nat :=
  (count + sectSize - 1) / sectSize + if offset % sectSize + count > sectSize then 1 else 0

section Readseg

variable {disk mem mem' : Nat → Byte} {pa sector n a k fuel count offset endPa : Nat} {s : State}

theorem u64_small (small : n < 2 ^ 64) : u64 n = n := Nat.mod_eq_of_lt small

theorem readsect_eq : readsect disk mem pa sector = copied disk mem pa sector 1 := rfl

theorem copied_none : copied disk mem pa sector 0 = mem :=
  funext fun a => if_neg fun inside => absurd inside.2 (by rw [Nat.mul_zero]; omega)

theorem copied_outside (outside : a < pa ∨ pa + sectSize * n ≤ a) :
    copied disk mem pa sector n a = mem a :=
  if_neg fun inside => by omega

theorem copied_inside (inside : k < sectSize * n) :
    copied disk mem pa sector n (pa + k) = disk (sectSize * sector + k) := by
  rw [copied, if_pos ⟨Nat.le_add_right pa k, Nat.add_lt_add_left inside pa⟩, Nat.add_sub_cancel_left]

theorem copied_copied {m : Nat} :
    copied disk (copied disk mem pa sector n) (pa + sectSize * n) (sector + n) m =
      copied disk mem pa sector (n + m) := by
  have size : sectSize = 512 := rfl
  funext a
  by_cases low : a < pa + sectSize * n
  · rw [copied_outside (.inl low)]
    by_cases below : a < pa
    · rw [copied_outside (.inl below), copied_outside (.inl below)]
    · obtain ⟨k, rfl⟩ := Nat.exists_eq_add_of_le (Nat.not_lt.mp below)
      rw [copied_inside (by omega), copied_inside (by rw [size] at *; omega)]
  · by_cases high : a < pa + sectSize * (n + m)
    · obtain ⟨k, rfl⟩ := Nat.exists_eq_add_of_le (Nat.not_lt.mp low)
      have place : pa + sectSize * n + k = pa + (sectSize * n + k) := Nat.add_assoc _ _ _
      rw [copied_inside (by rw [size] at *; omega), place,
        copied_inside (by rw [size] at *; omega)]
      congr 1
      rw [size]
      omega
    · rw [copied_outside (.inr (by rw [size] at *; omega)), copied_outside (.inr (by omega)),
        copied_outside (.inr (by omega))]

/-- The loop of `readseg` on `n` sectors. -/
theorem readsects_eq (fuels : n < fuel) (least : endPa ≤ pa + sectSize * n)
    (most : pa + sectSize * n < endPa + sectSize) (room : endPa + sectSize ≤ 2 ^ 64)
    (small : s.kvoffset + sectSize * n < 2 ^ 64) :
    readsects disk endPa fuel pa sector s = .ok (pa + sectSize * n, sector + n,
      { s with mem := copied disk s.mem pa sector n, kvoffset := s.kvoffset + sectSize * n }) := by
  have size : sectSize = 512 := rfl
  induction n generalizing fuel pa sector s with
  | zero =>
    obtain ⟨fuel, rfl⟩ : ∃ more, fuel = more + 1 := ⟨fuel - 1, by omega⟩
    rw [readsects, if_neg (by omega), copied_none]
    rfl
  | succ n ih =>
    obtain ⟨fuel, rfl⟩ : ∃ more, fuel = more + 1 := ⟨fuel - 1, by omega⟩
    have more := Nat.mul_add_one sectSize n
    have next : u64 (pa + sectSize) = pa + sectSize := u64_small (by omega)
    have kvoffset : u64 (s.kvoffset + sectSize) = s.kvoffset + sectSize := u64_small (by omega)
    have rest := @ih (pa + sectSize) (sector + 1) fuel
      { s with mem := copied disk s.mem pa sector 1, kvoffset := s.kvoffset + sectSize }
      (by omega) (by omega) (by omega) (by dsimp only; omega)
    have once : sectSize * 1 = sectSize := Nat.mul_one sectSize
    have both := @copied_copied disk s.mem pa sector 1 n
    rw [once, Nat.add_comm 1 n] at both
    have later : pa + sectSize + sectSize * n = pa + sectSize * (n + 1) := by omega
    have kvoffset' : s.kvoffset + sectSize + sectSize * n = s.kvoffset + sectSize * (n + 1) := by
      omega
    have sector' : sector + 1 + n = sector + (n + 1) := by omega
    rw [readsects, if_pos (by omega), next, kvoffset, readsect_eq, rest]
    dsimp only
    rw [both, later, kvoffset', sector']

theorem sectors_enough (some : 0 < count) :
    offset % sectSize + count ≤ sectSize * sectors offset count := by
  have size : sectSize = 512 := rfl
  rw [sectors]
  split <;> rw [size] at * <;> omega

theorem sectors_few : sectSize * sectors offset count ≤ count + 2 * sectSize := by
  have size : sectSize = 512 := rfl
  rw [sectors]
  split <;> rw [size] at * <;> omega

/-- What `readseg` makes of a state. -/
def State.loaded (s : State) (disk : Nat → Byte) (pa count offset : Nat) : State :=
  { s with
    mem := copied disk s.mem pa (offset / sectSize + 1) (sectors offset count)
    kvoffset := s.kvoffset + sectSize * sectors offset count
    loads := s.loads ++ [(pa, sectSize * sectors offset count)] }

/-- `readseg` fills whole sectors from `pa` on, and nothing else. -/
theorem readseg_eq (aligned : pa % sectSize = 0) (whole : s.kvoffset % sectSize = 0)
    (fuels : count + sectSize < fuel) (room : pa + count + 2 * sectSize < 2 ^ 64)
    (small : s.kvoffset + count + 2 * sectSize < 2 ^ 64) :
    readseg disk fuel pa count offset s = .ok (s.loaded disk pa count offset) := by
  have size : sectSize = 512 := rfl
  obtain ⟨n, same⟩ : ∃ n, n = (count + sectSize - 1) / sectSize := ⟨_, rfl⟩
  have bounds : count ≤ sectSize * n ∧ sectSize * n < count + sectSize := by
    rw [same, size]
    omega
  have few : n ≤ count := by
    rw [same, size]
    omega
  let first := offset / sectSize + 1
  have read := @readsects_eq disk pa first n fuel (pa + count) s
    (by omega) (by omega) (by omega) (by omega) (by omega)
  have extra : readExtra disk offset count (pa + sectSize * n) (first + n)
      { s with mem := copied disk s.mem pa first n, kvoffset := s.kvoffset + sectSize * n } =
      (pa + sectSize * sectors offset count, { s with
        mem := copied disk s.mem pa first (sectors offset count)
        kvoffset := s.kvoffset + sectSize * sectors offset count }) := by
    rw [readExtra, sectors, ← same]
    split
    · case isTrue more =>
        have step := Nat.mul_add_one sectSize n
        have next : u64 (pa + sectSize * n + sectSize) = pa + sectSize * (n + 1) := by
          rw [u64_small (by omega)]
          omega
        have kvoffset : u64 (s.kvoffset + sectSize * n + sectSize) =
            s.kvoffset + sectSize * (n + 1) := by
          rw [u64_small (by omega)]
          omega
        rw [next, kvoffset, readsect_eq, copied_copied]
    · case isFalse less => rw [Nat.add_zero]
  have shifted : ¬(s.kvoffset + sectSize * sectors offset count) % sectSize ≠ 0 := by
    rw [Nat.add_mul_mod_self_left]
    exact not_not.mpr whole
  rw [readseg, u64_small (by omega), if_neg (not_not.mpr aligned), read]
  dsimp only [Bind.bind, Except.bind]
  rw [extra]
  dsimp only
  rw [if_neg shifted, Nat.add_sub_cancel_left]
  rfl

end Readseg

def Copied (disk mem : Nat → Byte) (limit a offset len : Nat) : Prop :=
  ∀ k < len, a + k < limit ∧ mem (a + k) = file disk (offset + k)

section Copied

variable {disk mem mem' : Nat → Byte} {limit limit' a b offset len n o e : Nat} {text : List Byte}

theorem Copied.later (copy : Copied disk mem limit a offset len)
    (same : ∀ b < limit, mem' b = mem b) (above : limit ≤ limit') :
    Copied disk mem' limit' a offset len := fun k inside =>
  ⟨Nat.lt_of_lt_of_le (copy k inside).1 above, (same _ (copy k inside).1).trans (copy k inside).2⟩

theorem number_congr (same : ∀ k < n, mem (a + k) = mem' (b + k)) :
    number mem n a = number mem' n b := by
  induction n generalizing a b with
  | zero => rfl
  | succ n ih =>
    have rest : number mem n (a + 1) = number mem' n (b + 1) := ih fun k inside => by
      have next := same (k + 1) (Nat.succ_lt_succ inside)
      rwa [Nat.add_comm k 1, ← Nat.add_assoc, ← Nat.add_assoc] at next
    have first : mem a = mem' b := same 0 (Nat.succ_pos n)
    rw [number, number, first, rest]

theorem number_lt : number mem n a < 256 ^ n := by
  induction n generalizing a with
  | zero => exact Nat.one_pos
  | succ n ih =>
    have rest := @ih (a + 1)
    have byte := (mem a).isLt
    rw [number, Nat.pow_succ]
    omega

theorem Copied.number (copy : Copied disk mem limit a offset len) (inside : o + n ≤ len) :
    ElfRw.number mem n (a + o) = ElfRw.number (file disk) n (offset + o) :=
  number_congr fun k below => by
    rw [Nat.add_assoc, Nat.add_assoc]
    exact (copy (o + k) (by omega)).2

theorem strEq_congr (same : ∀ k ≤ e, mem (a + k) = mem' (b + k)) (ends : mem' (b + e) = 0)
    (nonul : 0 ∉ text) : strEq mem a text = strEq mem' b text := by
  induction text generalizing a b e with
  | nil =>
    have first : mem a = mem' b := same 0 (Nat.zero_le e)
    rw [strEq, strEq, first]
  | cons c text ih =>
    have first : mem a = mem' b := same 0 (Nat.zero_le e)
    rw [strEq, strEq, first]
    by_cases equal : mem' b = c
    · -- the terminator is further on
      have later : e ≠ 0 := by
        rintro rfl
        exact nonul (List.mem_cons.mpr (.inl (ends.symm.trans equal)))
      obtain ⟨e, rfl⟩ := Nat.exists_eq_succ_of_ne_zero later
      have shift (x k : Nat) : x + (k + 1) = x + 1 + k := by omega
      have rest := @ih (a + 1) (b + 1) e (fun k below => by
        rw [← shift, ← shift]
        exact same (k + 1) (Nat.succ_le_succ below)) (by rw [← shift]; exact ends)
        fun member => nonul (List.mem_cons_of_mem _ member)
      rw [rest]
    · rw [decide_eq_false fun both => equal both.1, decide_eq_false fun both => equal both.1]

theorem DebugSect.name_nonul (sect : DebugSect) : 0 ∉ sect.name := by
  cases sect <;> decide

theorem Copied.sectNamed (copy : Copied disk mem limit a offset len) (inside : o + e < len)
    (ends : file disk (offset + o + e) = 0) :
    ElfRw.sectNamed mem (a + o) = ElfRw.sectNamed (file disk) (offset + o) := by
  have same (sect : DebugSect) :
      strEq mem (a + o) sect.name = strEq (file disk) (offset + o) sect.name :=
    strEq_congr (fun k below => by
      rw [Nat.add_assoc, Nat.add_assoc]
      exact (copy (o + k) (by omega)).2) ends sect.name_nonul
  rw [ElfRw.sectNamed, ElfRw.sectNamed]
  simp only [same]

end Copied

section Loaded

variable {disk : Nat → Byte} {pa count offset a : Nat} {s : State}

theorem State.loaded_below (below : a < pa) : (s.loaded disk pa count offset).mem a = s.mem a :=
  copied_outside (.inl below)

/-- After a `readseg` the bytes asked for are there, as far behind `pa` as the offset is behind the
start of its sector. -/
theorem State.loaded_copied : Copied disk (s.loaded disk pa count offset).mem
    (pa + sectSize * sectors offset count) (pa + offset % sectSize) offset count := fun k inside => by
  have size : sectSize = 512 := rfl
  have enough := @sectors_enough count offset (by omega)
  have place : pa + offset % sectSize + k = pa + (offset % sectSize + k) := Nat.add_assoc _ _ _
  refine ⟨by omega, ?_⟩
  rw [place]
  refine (copied_inside (by omega)).trans ?_
  rw [file]
  congr 1
  have parts := Nat.div_add_mod offset sectSize
  rw [Nat.mul_add_one]
  omega

end Loaded

/-! The image by the file, and what is promised of its debug sections. -/

section Image

variable (disk : Nat → Byte)

def shnum : Nat := eShnum (file disk) 0

/-- The section header `i`. -/
def header (i : Nat) : Nat := eShoff (file disk) 0 + secthdrSize * i

def strtab : Nat := header disk (eShstrndx (file disk) 0)

def offsetOf (i : Nat) : Nat := shOffset (file disk) (header disk i)
def sizeOf (i : Nat) : Nat := shSize (file disk) (header disk i)
def nameOf (i : Nat) : Nat := shName (file disk) (header disk i)

/-- The debug section that section `i` is by its name. -/
def sectOf (i : Nat) : Option DebugSect :=
  sectNamed (file disk) (shOffset (file disk) (strtab disk) + nameOf disk i)

/-- A kernel in a file of `size` bytes, all of them in the 2^28 sectors that `readsect` can ask
for. -/
structure Image (size : Nat) : Prop where
  limit : size ≤ 2 ^ 37
  table : header disk (shnum disk) ≤ size
  entries : 0 < shnum disk → eShentsize (file disk) 0 = secthdrSize
  strndx : eShstrndx (file disk) 0 < shnum disk ∨ eShstrndx (file disk) 0 = 0
  names : 0 < shnum disk →
    shOffset (file disk) (strtab disk) + shSize (file disk) (strtab disk) ≤ size
  terminated : ∀ i < shnum disk, ∃ e, nameOf disk i + e < shSize (file disk) (strtab disk) ∧
    file disk (shOffset (file disk) (strtab disk) + nameOf disk i + e) = 0
  inside : ∀ i < shnum disk, sectOf disk i ≠ none → offsetOf disk i + sizeOf disk i ≤ size

/-- What the boot loader leaves: the ELF header, and `.eh_frame` in the kernel below its end. -/
structure Booted (mem : Nat → Byte) (toVa : Nat) : Prop where
  above : kelfhdr + 64 ≤ toVa
  below : toVa ≤ 2 ^ 47
  elf : ∀ k < 64, mem (kelfhdr + k) = file disk k
  frame : ∀ i < shnum disk, sectOf disk i = some .debugFrame →
    Copied disk mem toVa (shAddr (file disk) (header disk i)) (offsetOf disk i) (sizeOf disk i)

/-- Section `i` is the last one, of the first `n`, with the name of a debug section. -/
structure IsLast (sect : DebugSect) (n i : Nat) : Prop where
  lt : i < n
  named : sectOf disk i = some sect
  last : ∀ j, i < j → j < n → sectOf disk j ≠ some sect

/-- An element of `section_info` has section `i`. -/
structure Placed (mem : Nat → Byte) (entry : DwarfSection) (i : Nat) : Prop where
  addr : entry.dsAddr = entry.dsData
  size : entry.dsSize = sizeOf disk i
  bytes : ∀ k < entry.dsSize, mem (entry.dsData + k) = file disk (offsetOf disk i + k)

/-- The debug sections are where `section_info` says, and nothing was loaded over the kernel or
what was loaded before. -/
structure Debuggable (toVa : Nat) (before after : State) : Prop where
  found : ∀ sect i, IsLast disk sect (shnum disk) i →
    Placed disk after.mem (after.sectionInfo sect) i
  others : ∀ sect, (∀ i < shnum disk, sectOf disk i ≠ some sect) →
    after.sectionInfo sect = before.sectionInfo sect
  apart : after.loads.Pairwise fun first second => first.1 + first.2 ≤ second.1
  behind : ∀ load ∈ after.loads, toVa ≤ load.1

end Image

/-- After `n` calls of `readseg`, each of which began where the one before had ended. -/
structure Grown (kvbase : Nat) (before : Nat → Byte) (n : Nat) (s : State) : Prop where
  whole : s.kvoffset % sectSize = 0
  few : s.kvoffset ≤ n * 2 ^ 38
  low : ∀ a < kvbase, s.mem a = before a
  apart : s.loads.Pairwise fun first second => first.1 + first.2 ≤ second.1
  ends : ∀ load ∈ s.loads, kvbase ≤ load.1 ∧ load.1 + load.2 ≤ kvbase + s.kvoffset

section Stages

variable {disk before : Nat → Byte} {kvbase toVa size n i fuel count offset nametab : Nat}
  {s : State} {ptr : SecthdrPtr}

theorem kvbaseOf_whole : kvbaseOf toVa % sectSize = 0 := Nat.mul_mod_left _ _

theorem kvbaseOf_bounds : toVa ≤ kvbaseOf toVa ∧ kvbaseOf toVa < toVa + sectSize := by
  have size : sectSize = 512 := rfl
  rw [kvbaseOf, size]
  omega

/-- The next `readseg` succeeds and leaves alone what was loaded. -/
theorem Grown.load (grown : Grown kvbase before n s) (base : kvbase % sectSize = 0)
    (high : kvbase < 2 ^ 48) (early : n < 64) (short : count ≤ 2 ^ 37)
    (fuels : 2 ^ 38 ≤ fuel) :
    readseg disk fuel (kvbase + s.kvoffset) count offset s =
        .ok (s.loaded disk (kvbase + s.kvoffset) count offset) ∧
      Grown kvbase before (n + 1) (s.loaded disk (kvbase + s.kvoffset) count offset) := by
  have size : sectSize = 512 := rfl
  have few := grown.few
  have more := @sectors_few count offset
  have many : n * 2 ^ 38 ≤ 63 * 2 ^ 38 := Nat.mul_le_mul_right _ (by omega)
  have aligned : (kvbase + s.kvoffset) % sectSize = 0 := by
    rw [Nat.add_mod, base, grown.whole]
    rfl
  refine ⟨readseg_eq aligned grown.whole (by omega) (by omega) (by omega), ?_, ?_, fun a below => ?_,
    ?_, fun load member => ?_⟩
  · change (s.kvoffset + sectSize * sectors offset count) % sectSize = 0
    rw [Nat.add_mul_mod_self_left, grown.whole]
  · change s.kvoffset + sectSize * sectors offset count ≤ (n + 1) * 2 ^ 38
    rw [Nat.add_mul, Nat.one_mul]
    omega
  · rw [State.loaded_below (by omega)]
    exact grown.low a below
  · refine List.pairwise_append.mpr ⟨grown.apart, List.pairwise_singleton _ _, ?_⟩
    intro first old second new
    rw [List.mem_singleton.mp new]
    exact (grown.ends first old).2
  · change _ ∧ _ ≤ kvbase + (s.kvoffset + sectSize * sectors offset count)
    rcases List.mem_append.mp member with old | new
    · have known := grown.ends load old
      omega
    · rw [List.mem_singleton.mp new]
      dsimp only
      omega

/-- Before section `n` is looked at: the headers, the names and the sections found so far are in
the memory below the place where the next `readseg` goes. -/
structure Stage (disk : Nat → Byte) (kvbase nametab : Nat) (start : State) (n : Nat) (s : State) :
    Prop where
  grown : Grown kvbase start.mem (n + 2) s
  table : Copied disk s.mem (kvbase + s.kvoffset) (kvbase + eShoff (file disk) 0 % sectSize)
    (eShoff (file disk) 0) (secthdrSize * shnum disk)
  names : Copied disk s.mem (kvbase + s.kvoffset) nametab (shOffset (file disk) (strtab disk))
    (shSize (file disk) (strtab disk))
  found : ∀ sect i, IsLast disk sect n i →
    (s.sectionInfo sect).dsAddr = (s.sectionInfo sect).dsData ∧
      (s.sectionInfo sect).dsSize = sizeOf disk i ∧
      Copied disk s.mem (kvbase + s.kvoffset) (s.sectionInfo sect).dsData (offsetOf disk i)
        (sizeOf disk i)
  others : ∀ sect, (∀ i < n, sectOf disk i ≠ some sect) → s.sectionInfo sect = start.sectionInfo sect

def State.placed (s : State) (disk : Nat → Byte) (kvbase : Nat) (sect : DebugSect)
    (size offset : Nat) : State :=
  let data := kvbase + s.kvoffset + offset % sectSize
  { s.loaded disk (kvbase + s.kvoffset) size offset with
    sectionInfo := update s.sectionInfo sect ⟨data, data, size⟩ }

/-- Where section header `i` is in the memory. -/
def headerPtr (disk : Nat → Byte) (kvbase i : Nat) : Nat :=
  kvbase + eShoff (file disk) 0 % sectSize + secthdrSize * i

/-- The elements of `secthdr_ptr` are set. -/
def PtrsSet (disk : Nat → Byte) (kvbase : Nat) (ptr : SecthdrPtr) (n : Nat) : Prop :=
  ∀ i : Fin secthdrPtrs, ptr i = if i.val < n then some (headerPtr disk kvbase i) else none

theorem IsLast.succ {sect : DebugSect} (last : IsLast disk sect (n + 1) i) :
    i = n ∨ IsLast disk sect n i ∧ sectOf disk n ≠ some sect := by
  rcases Nat.lt_succ_iff_lt_or_eq.mp last.lt with before | now
  · exact .inr ⟨⟨before, last.named, fun j after lt => last.last j after (by omega)⟩,
      last.last n before (Nat.lt_succ_self n)⟩
  · exact .inl now

theorem table_number {mem : Nat → Byte} {limit o m : Nat} (table : Copied disk mem limit
    (kvbase + eShoff (file disk) 0 % sectSize) (eShoff (file disk) 0) (secthdrSize * shnum disk))
    (known : i < shnum disk) (inside : o + m ≤ secthdrSize) :
    number mem m (headerPtr disk kvbase i + o) = number (file disk) m (header disk i + o) := by
  have fits : secthdrSize * i + o + m ≤ secthdrSize * shnum disk := by
    have next : secthdrSize * (i + 1) ≤ secthdrSize * shnum disk := Nat.mul_le_mul_left _ known
    rw [Nat.mul_add_one] at next
    omega
  have same := table.number fits
  rwa [← Nat.add_assoc, ← Nat.add_assoc] at same

theorem loadPtr_eq (set : PtrsSet disk kvbase ptr (shnum disk)) (known : i < shnum disk)
    (fits : shnum disk ≤ secthdrPtrs) : loadPtr ptr i = .ok (headerPtr disk kvbase i) := by
  have bound : i < secthdrPtrs := Nat.lt_of_lt_of_le known fits
  have here := set ⟨i, bound⟩
  rw [if_pos known] at here
  rw [loadPtr, dif_pos bound, here]

namespace Stage

variable {start : State}

section

variable (stage : Stage disk kvbase nametab start n s)

include stage

theorem name_eq (known : i < shnum disk) :
    shName s.mem (headerPtr disk kvbase i) = nameOf disk i := by
  have same := @table_number _ _ _ _ _ 0 4 stage.table known (by decide)
  rw [Nat.add_zero, Nat.add_zero] at same
  rw [shName, nameOf, shName, same]

theorem addr_eq (known : i < shnum disk) :
    shAddr s.mem (headerPtr disk kvbase i) = shAddr (file disk) (header disk i) := by
  rw [shAddr, shAddr, table_number stage.table known (by decide)]

theorem offset_eq (known : i < shnum disk) :
    shOffset s.mem (headerPtr disk kvbase i) = offsetOf disk i := by
  rw [shOffset, offsetOf, shOffset, table_number stage.table known (by decide)]

theorem size_eq (known : i < shnum disk) :
    shSize s.mem (headerPtr disk kvbase i) = sizeOf disk i := by
  rw [shSize, sizeOf, shSize, table_number stage.table known (by decide)]

/-- The name in the memory is taken for the section that the name in the file is. -/
theorem sect_eq (image : Image disk size) (known : i < shnum disk) :
    sectNamed s.mem (nametab + shName s.mem (headerPtr disk kvbase i)) = sectOf disk i := by
  obtain ⟨e, inside, ends⟩ := image.terminated i known
  rw [stage.name_eq known]
  exact stage.names.sectNamed inside ends

theorem skip (none : sectOf disk n = none) : Stage disk kvbase nametab start (n + 1) s where
  grown := { stage.grown with few := Nat.le_trans stage.grown.few (by omega) }
  table := stage.table
  names := stage.names
  found sect i last := by
    rcases last.succ with rfl | ⟨old, -⟩
    · exact absurd (none.symm.trans last.named) nofun
    · exact stage.found sect i old
  others sect absent := stage.others sect fun i before => absent i (by omega)

/-- `.eh_frame` is left where it is. -/
theorem frame (booted : Booted disk start.mem toVa)
    (above : toVa ≤ kvbase) (known : n < shnum disk) (named : sectOf disk n = some .debugFrame) :
    Stage disk kvbase nametab start (n + 1) { s with
      sectionInfo := update s.sectionInfo .debugFrame ⟨shAddr (file disk) (header disk n),
        shAddr (file disk) (header disk n), sizeOf disk n⟩ } where
  grown := { stage.grown with few := Nat.le_trans stage.grown.few (by omega) }
  table := stage.table
  names := stage.names
  found sect i last := by
    dsimp only
    rcases last.succ with rfl | ⟨old, differs⟩
    · obtain rfl := Option.some.inj (named.symm.trans last.named)
      rw [update_self]
      refine ⟨rfl, rfl, (booted.frame i known named).later (fun a below => ?_) (by omega)⟩
      exact stage.grown.low a (by omega)
    · have other : sect ≠ .debugFrame := fun same => differs (by rw [same, named])
      rw [update_of_ne other]
      exact stage.found sect i old
  others sect absent := by
    have differs : sect ≠ .debugFrame := fun same => absent n (Nat.lt_succ_self n) (same ▸ named)
    exact (update_of_ne differs _ _).trans (stage.others sect fun i before => absent i (by omega))

end

theorem load {sect : DebugSect} (stage : Stage disk kvbase nametab start n s)
    (base : kvbase % sectSize = 0) (high : kvbase < 2 ^ 48) (early : n + 2 < 64)
    (short : sizeOf disk n ≤ 2 ^ 37) (named : sectOf disk n = some sect) :
    Stage disk kvbase nametab start (n + 1)
      (s.placed disk kvbase sect (sizeOf disk n) (offsetOf disk n)) := by
  have grown := (@Grown.load disk start.mem kvbase (n + 2) (2 ^ 38) (sizeOf disk n) (offsetOf disk n) s
    stage.grown base high early short (Nat.le_refl _)).2
  have below : kvbase + s.kvoffset ≤ kvbase + (s.kvoffset +
      sectSize * sectors (offsetOf disk n) (sizeOf disk n)) := by omega
  have kept : ∀ a < kvbase + s.kvoffset,
      (s.loaded disk (kvbase + s.kvoffset) (sizeOf disk n) (offsetOf disk n)).mem a = s.mem a :=
    fun a => State.loaded_below
  refine ⟨⟨grown.whole, grown.few, grown.low, grown.apart, grown.ends⟩, stage.table.later kept below,
    stage.names.later kept below, fun other i last => ?_, fun other absent => ?_⟩
  · dsimp only [State.placed]
    rcases last.succ with rfl | ⟨old, differs⟩
    · obtain rfl := Option.some.inj (named.symm.trans last.named)
      rw [update_self]
      refine ⟨rfl, rfl, ?_⟩
      have copy := @State.loaded_copied disk (kvbase + s.kvoffset) (sizeOf disk i) (offsetOf disk i) s
      exact copy.later (fun _ _ => rfl) (Nat.le_of_eq (Nat.add_assoc _ _ _))
    · have apart : other ≠ sect := fun same => differs (by rw [same, named])
      rw [update_of_ne apart]
      obtain ⟨addr, size, copy⟩ := stage.found other i old
      exact ⟨addr, size, copy.later kept below⟩
  · have differs : other ≠ sect := fun same => absent n (Nat.lt_succ_self n) (same ▸ named)
    exact (update_of_ne differs _ _).trans (stage.others other fun i before => absent i (by omega))

theorem step (stage : Stage disk kvbase nametab start n s) (image : Image disk size)
    (booted : Booted disk start.mem toVa) (base : kvbase % sectSize = 0)
    (bounds : toVa ≤ kvbase ∧ kvbase < 2 ^ 48) (set : PtrsSet disk kvbase ptr (shnum disk))
    (known : n < shnum disk) (fits : shnum disk ≤ secthdrPtrs) (fuels : 2 ^ 38 ≤ fuel) :
    ∃ t, readSection disk fuel kvbase nametab ptr s n = .ok t ∧
      Stage disk kvbase nametab start (n + 1) t := by
  have twenty : secthdrPtrs = 20 := rfl
  have early : n + 2 < 64 := by omega
  rw [readSection, loadPtr_eq set known fits]
  dsimp only [Bind.bind, Except.bind]
  rw [if_neg (not_not.mpr stage.grown.whole), stage.sect_eq image known]
  cases named : sectOf disk n with
  | none => exact ⟨s, rfl, stage.skip named⟩
  | some sect =>
    have inside := image.inside n known (named ▸ nofun)
    have limit := image.limit
    have loaded := stage.load base bounds.2 early (by omega) named
    have ran := (@Grown.load disk start.mem kvbase (n + 2) fuel (sizeOf disk n) (offsetOf disk n) s
      stage.grown base bounds.2 early (by omega) fuels).1
    have size' := loaded.size_eq known
    have offset' := loaded.offset_eq known
    dsimp only [State.placed] at size' offset'
    have others : (readseg disk fuel (kvbase + s.kvoffset) (shSize s.mem (headerPtr disk kvbase n))
        (shOffset s.mem (headerPtr disk kvbase n)) s).bind (fun t =>
          let data := kvbase + s.kvoffset + shOffset t.mem (headerPtr disk kvbase n) % sectSize
          let size := shSize t.mem (headerPtr disk kvbase n)
          .ok { t with sectionInfo := update t.sectionInfo sect ⟨data, data, size⟩ }) =
        .ok (s.placed disk kvbase sect (sizeOf disk n) (offsetOf disk n)) := by
      rw [stage.size_eq known, stage.offset_eq known, ran]
      dsimp only [Except.bind]
      rw [size', offset']
      rfl
    cases sect with
    | debugFrame =>
      rw [stage.addr_eq known, stage.size_eq known]
      exact ⟨_, rfl, stage.frame booted bounds.1 known named⟩
    | debugInfo => exact ⟨_, others, loaded⟩
    | debugAbbrev => exact ⟨_, others, loaded⟩
    | debugLine => exact ⟨_, others, loaded⟩
    | debugStr => exact ⟨_, others, loaded⟩

theorem loop (stage : Stage disk kvbase nametab start 0 s) (image : Image disk size)
    (booted : Booted disk start.mem toVa) (base : kvbase % sectSize = 0)
    (bounds : toVa ≤ kvbase ∧ kvbase < 2 ^ 48) (set : PtrsSet disk kvbase ptr (shnum disk))
    (fits : shnum disk ≤ secthdrPtrs) (fuels : 2 ^ 38 ≤ fuel) (known : n ≤ shnum disk) :
    ∃ t, (List.range n).foldlM (readSection disk fuel kvbase nametab ptr) s = .ok t ∧
      Stage disk kvbase nametab start n t := by
  induction n with
  | zero => exact ⟨s, rfl, stage⟩
  | succ n ih =>
    obtain ⟨t, ran, later⟩ := ih (by omega)
    obtain ⟨u, ran', last⟩ := later.step image booted base bounds set known fits fuels
    refine ⟨u, ?_, last⟩
    rw [List.range_succ, List.foldlM_append, ran]
    change (readSection disk fuel kvbase nametab ptr t n).bind _ = _
    rw [ran']
    rfl

end Stage

/-- The first loop fills the array as far as there are headers, and no further than it reaches. -/
theorem storePtrs_eq (fits : n ≤ secthdrPtrs) {secthdr : Nat} :
    (List.range n).foldlM (storePtr secthdr) (fun _ => none) =
      Except.ok fun i : Fin secthdrPtrs =>
        if i.val < n then some (secthdr + secthdrSize * i.val) else none := by
  induction n with
  | zero => rfl
  | succ n ih =>
    have bound : n < secthdrPtrs := fits
    rw [List.range_succ, List.foldlM_append, ih (Nat.le_of_lt fits)]
    change (storePtr secthdr _ n).bind _ = _
    rw [storePtr, dif_pos bound]
    refine congrArg Except.ok (funext fun i => ?_)
    rw [update_apply]
    by_cases last : i = ⟨n, bound⟩
    · subst last
      rw [if_pos rfl, if_pos (Nat.lt_succ_self n)]
    · have other : i.val ≠ n := fun same => last (Fin.ext same)
      rw [if_neg last]
      exact if_congr (by omega) rfl rfl

theorem storePtrs_overrun {secthdr more : Nat} :
    (List.range (secthdrPtrs + 1 + more)).foldlM (storePtr secthdr) (fun _ => none) =
      Except.error .overrun := by
  induction more with
  | zero =>
    rw [Nat.add_zero, List.range_succ, List.foldlM_append, storePtrs_eq (Nat.le_refl _)]
    dsimp only [Bind.bind, Except.bind, List.foldlM]
    rw [storePtr, dif_neg (Nat.lt_irrefl _)]
  | succ more ih =>
    rw [← Nat.add_assoc, List.range_succ, List.foldlM_append, ih]
    rfl

/-- The product is small enough for an `int`. -/
theorem table_count {num : Nat} (known : num < 2 ^ 16) :
    ((BitVec.ofNat 32 (num * secthdrSize)).signExtend 64).toNat = secthdrSize * num := by
  have size : secthdrSize = 64 := rfl
  have small : num * 64 < 2 ^ 31 := by omega
  have positive : (BitVec.ofNat 32 (num * 64)).msb = false := by
    rw [BitVec.msb_eq_decide, BitVec.toNat_ofNat, Nat.mod_eq_of_lt (by omega)]
    exact decide_eq_false (by omega)
  rw [size, BitVec.signExtend_eq_setWidth_of_msb_false positive, BitVec.toNat_setWidth,
    BitVec.toNat_ofNat, Nat.mod_eq_of_lt (by omega), Nat.mod_eq_of_lt (by omega), Nat.mul_comm]

end Stages

section Elf

variable {disk mem : Nat → Byte} {toVa size : Nat} {s : State}

theorem Booted.elf_number {o n : Nat} (booted : Booted disk mem toVa) (inside : o + n ≤ 64) :
    number mem n (kelfhdr + o) = number (file disk) n (0 + o) := by
  have copy : Copied disk mem (kelfhdr + 64) kelfhdr 0 64 := fun k below =>
    ⟨Nat.add_lt_add_left below _, by rw [Nat.zero_add]; exact booted.elf k below⟩
  exact copy.number inside

theorem Booted.fields (booted : Booted disk mem toVa) :
    eShoff mem kelfhdr = eShoff (file disk) 0 ∧ eShentsize mem kelfhdr = eShentsize (file disk) 0 ∧
      eShnum mem kelfhdr = shnum disk ∧ eShstrndx mem kelfhdr = eShstrndx (file disk) 0 :=
  ⟨booted.elf_number (by decide), booted.elf_number (by decide), booted.elf_number (by decide),
    booted.elf_number (by decide)⟩

/-- What the boot loader left stays while the memory below `end` does. -/
theorem Booted.kept {mem' : Nat → Byte} (booted : Booted disk mem toVa)
    (same : ∀ a < toVa, mem' a = mem a) : Booted disk mem' toVa where
  above := booted.above
  below := booted.below
  elf k inside := by
    have above := booted.above
    exact (same _ (by omega)).trans (booted.elf k inside)
  frame i known named := (booted.frame i known named).later same (Nat.le_refl _)

def State.headers (s : State) (disk : Nat → Byte) (kvbase : Nat) : State :=
  State.loaded { s with kvoffset := 0, loads := [] } disk kvbase (secthdrSize * shnum disk)
    (eShoff (file disk) 0)

/-- The first `readseg` brings the section headers. -/
theorem Image.reads_headers {fuel : Nat} (image : Image disk size) (booted : Booted disk s.mem toVa)
    (fuels : 2 ^ 38 ≤ fuel) :
    readSectionHeaders disk fuel kelfhdr toVa s =
        readSections disk fuel kelfhdr (kvbaseOf toVa)
          (kvbaseOf toVa + eShoff (file disk) 0 % sectSize) (shnum disk)
          (s.headers disk (kvbaseOf toVa)) ∧
      Grown (kvbaseOf toVa) s.mem 1 (s.headers disk (kvbaseOf toVa)) ∧
      Copied disk (s.headers disk (kvbaseOf toVa)).mem
        (kvbaseOf toVa + (s.headers disk (kvbaseOf toVa)).kvoffset)
        (kvbaseOf toVa + eShoff (file disk) 0 % sectSize) (eShoff (file disk) 0)
        (secthdrSize * shnum disk) := by
  have sect : sectSize = 512 := rfl
  have below := booted.below
  have near := (@kvbaseOf_bounds toVa).2
  have small : shnum disk < 2 ^ 16 := @number_lt (file disk) (0 + 60) 2
  have table : secthdrSize * shnum disk ≤ 2 ^ 22 := by
    rw [show secthdrSize = 64 from rfl]
    omega
  have count : ((BitVec.ofNat 32 (shnum disk * eShentsize (file disk) 0)).signExtend 64).toNat =
      secthdrSize * shnum disk := by
    by_cases none : shnum disk = 0
    · rw [none, Nat.zero_mul]
      rfl
    · rw [image.entries (Nat.pos_of_ne_zero none), table_count small]
  have grown : Grown (kvbaseOf toVa) s.mem 0 { s with kvoffset := 0, loads := [] } :=
    ⟨rfl, Nat.zero_le _, fun _ _ => rfl, List.Pairwise.nil, nofun⟩
  obtain ⟨ran, grown'⟩ := @Grown.load disk s.mem (kvbaseOf toVa) 0 fuel (secthdrSize * shnum disk)
    (eShoff (file disk) 0) _ grown kvbaseOf_whole (by omega) (by decide) (by omega) fuels
  dsimp only at ran grown'
  rw [Nat.add_zero (kvbaseOf toVa)] at ran grown'
  obtain ⟨shoff, entsize, num, -⟩ := booted.fields
  refine ⟨?_, grown', ?_⟩
  · rw [readSectionHeaders, if_pos rfl, shoff, entsize, num, count]
    exact congrArg (Except.bind · _) ran
  · have ends : (s.headers disk (kvbaseOf toVa)).kvoffset =
        sectSize * sectors (eShoff (file disk) 0) (secthdrSize * shnum disk) := Nat.zero_add _
    rw [ends]
    exact State.loaded_copied

theorem Image.reads {fuel : Nat} (image : Image disk size) (booted : Booted disk s.mem toVa)
    (some : 0 < shnum disk) (fits : shnum disk ≤ secthdrPtrs) (fuels : 2 ^ 38 ≤ fuel) :
    ∃ ret t, readSectionHeaders disk fuel kelfhdr toVa s = .ok (ret, t) ∧
      Debuggable disk toVa s t := by
  obtain ⟨first, grown, table⟩ := image.reads_headers booted fuels
  have sect : sectSize = 512 := rfl
  have below := booted.below
  have limit := image.limit
  have known := image.names some
  have strndx : eShstrndx (file disk) 0 < shnum disk := by
    have given := image.strndx
    omega
  obtain ⟨above, near⟩ := @kvbaseOf_bounds toVa
  have high : kvbaseOf toVa < 2 ^ 48 := by omega
  generalize headed : s.headers disk (kvbaseOf toVa) = t at first grown table
  generalize based : kvbaseOf toVa = kvbase at *
  have base : kvbase % sectSize = 0 := based ▸ kvbaseOf_whole
  have index : eShstrndx t.mem kelfhdr = eShstrndx (file disk) 0 :=
    (booted.kept fun a low => grown.low a (by omega)).fields.2.2.2
  let ptr : SecthdrPtr := fun i => if i.val < shnum disk then
    Option.some (headerPtr disk kvbase i.val) else none
  have set : PtrsSet disk kvbase ptr (shnum disk) := fun i => rfl
  have stored : (List.range (shnum disk)).foldlM
      (storePtr (kvbase + eShoff (file disk) 0 % sectSize)) (fun _ => none) = .ok ptr :=
    storePtrs_eq fits
  obtain ⟨ran, grown'⟩ := @Grown.load disk s.mem kvbase 1 fuel (shSize (file disk) (strtab disk))
    (shOffset (file disk) (strtab disk)) t grown base high (by decide) (by omega) fuels
  have size' : shSize t.mem (headerPtr disk kvbase (eShstrndx (file disk) 0)) =
      shSize (file disk) (strtab disk) := by
    rw [shSize, shSize, table_number table strndx (by decide), strtab]
  have offset' : shOffset t.mem (headerPtr disk kvbase (eShstrndx (file disk) 0)) =
      shOffset (file disk) (strtab disk) := by
    rw [shOffset, shOffset, table_number table strndx (by decide), strtab]
  have ends : kvbase + (t.loaded disk (kvbase + t.kvoffset) (shSize (file disk) (strtab disk))
      (shOffset (file disk) (strtab disk))).kvoffset = kvbase + t.kvoffset + sectSize *
        sectors (shOffset (file disk) (strtab disk)) (shSize (file disk) (strtab disk)) :=
    (Nat.add_assoc _ _ _).symm
  have stage : Stage disk kvbase
      (kvbase + t.kvoffset + shOffset (file disk) (strtab disk) % sectSize)
      s 0 (t.loaded disk (kvbase + t.kvoffset) (shSize (file disk) (strtab disk))
        (shOffset (file disk) (strtab disk))) := by
    refine ⟨grown', table.later (fun a => State.loaded_below) (by omega), ?_, fun sect i last => ?_,
      fun sect absent => ?_⟩
    · rw [ends]
      exact State.loaded_copied
    · exact absurd last.lt (Nat.not_lt_zero i)
    · rw [← headed]
      rfl
  obtain ⟨u, ran', last⟩ := stage.loop image booted base ⟨above, high⟩ set fits fuels (Nat.le_refl _)
  refine ⟨kvbase + u.kvoffset, u, ?_, fun sect i final => ?_, last.others, last.grown.apart,
    fun load member => Nat.le_trans above (last.grown.ends load member).1⟩
  · rw [first, readSections, stored]
    dsimp only [Bind.bind, Except.bind]
    rw [index, loadPtr_eq set strndx fits]
    dsimp only
    rw [size', offset', ran]
    dsimp only
    rw [ran']
    rfl
  · obtain ⟨addr, length, copy⟩ := last.found sect i final
    exact ⟨addr, length, fun k inside => (copy k (length ▸ inside)).2⟩

/-- The section headers do not fit in the array, or there is none to take the names from. -/
theorem Image.fails {fuel : Nat} (image : Image disk size) (booted : Booted disk s.mem toVa)
    (wrong : shnum disk = 0 ∨ secthdrPtrs < shnum disk) (fuels : 2 ^ 38 ≤ fuel) :
    ∃ fault, readSectionHeaders disk fuel kelfhdr toVa s = .error fault := by
  obtain ⟨first, grown, -⟩ := image.reads_headers booted fuels
  have index : eShstrndx (s.headers disk (kvbaseOf toVa)).mem kelfhdr = eShstrndx (file disk) 0 :=
    (booted.kept fun a low => grown.low a (Nat.lt_of_lt_of_le low kvbaseOf_bounds.1)).fields.2.2.2
  rw [first, readSections]
  cases wrong with
  | inl none =>
    have strndx : eShstrndx (file disk) 0 = 0 := by
      have given := image.strndx
      omega
    rw [index, strndx, none]
    exact ⟨.null, rfl⟩
  | inr many =>
    obtain ⟨more, same⟩ := Nat.exists_eq_add_of_lt many
    have longer : shnum disk = secthdrPtrs + 1 + more := by omega
    rw [longer, storePtrs_overrun]
    exact ⟨.overrun, rfl⟩

/-- `read_section_headers` loads the debug sections of an image where it says if and only if the
image has from 1 to 20 sections. -/
theorem debuggable_iff (image : Image disk size) (booted : Booted disk s.mem toVa) :
    (∃ enough, ∀ fuel, enough ≤ fuel → ∃ ret t,
      readSectionHeaders disk fuel kelfhdr toVa s = .ok (ret, t) ∧ Debuggable disk toVa s t) ↔
      0 < shnum disk ∧ shnum disk ≤ secthdrPtrs := by
  constructor
  · rintro ⟨enough, loads⟩
    by_contra wrong
    obtain ⟨ret, t, ran, -⟩ := loads (max enough (2 ^ 38)) (Nat.le_max_left _ _)
    obtain ⟨fault, failed⟩ := image.fails booted (by omega) (Nat.le_max_right enough (2 ^ 38))
    cases ran.symm.trans failed
  · rintro ⟨some, fits⟩
    exact ⟨2 ^ 38, fun fuel fuels => image.reads booted some fits fuels⟩

end Elf

section Sample

def sparse (stored : List (Nat × Byte)) : Nat → Byte := fun k =>
  (stored.lookup (k - sectSize)).getD 0

def elfOnly (disk : Nat → Byte) : State where
  mem a := if a < kelfhdr + 64 then file disk (a - kelfhdr) else 0
  kvoffset := 0
  sectionInfo _ := ⟨0, 0, 0⟩
  loads := []

def smallEnd : Nat := 0x8004300000

theorem elfOnly_booted {disk : Nat → Byte}
    (unframed : ∀ i < shnum disk, sectOf disk i ≠ some .debugFrame) :
    Booted disk (elfOnly disk).mem smallEnd where
  above := by decide
  below := by decide
  elf k inside := by
    change (if kelfhdr + k < kelfhdr + 64 then file disk (kelfhdr + k - kelfhdr) else 0) = _
    rw [if_pos (Nat.add_lt_add_left inside _), Nat.add_sub_cancel_left]
  frame i known named := absurd named (unframed i known)

/-- Two sections: the names, and three bytes of `.debug_str` from offset 204 on. -/
def withStr : Nat → Byte := sparse
  [(40, 64), (58, 64), (60, 2), (88, 192), (96, 12), (128, 1), (152, 204), (160, 3),
    (193, 46), (194, 100), (195, 101), (196, 98), (197, 117), (198, 103), (199, 95), (200, 115),
    (201, 116), (202, 114), (204, 97), (205, 98), (206, 99)]

theorem withStr_image : Image withStr 207 where
  limit := by decide
  table := by decide
  entries _ := by decide
  strndx := by decide
  names _ := by decide
  terminated i known := by
    have two : shnum withStr = 2 := by decide
    obtain rfl | rfl : i = 0 ∨ i = 1 := by omega
    · exact ⟨0, by decide, by decide⟩
    · exact ⟨10, by decide, by decide⟩
  inside i known _ := by
    have two : shnum withStr = 2 := by decide
    obtain rfl | rfl : i = 0 ∨ i = 1 := by omega
    · decide
    · decide

theorem withStr_debuggable :
    (∃ enough, ∀ fuel, enough ≤ fuel → ∃ ret t,
      readSectionHeaders withStr fuel kelfhdr smallEnd (elfOnly withStr) = .ok (ret, t) ∧
        Debuggable withStr smallEnd (elfOnly withStr) t) ↔
      0 < shnum withStr ∧ shnum withStr ≤ secthdrPtrs :=
  debuggable_iff withStr_image (elfOnly_booted (by decide))

def crowded : Nat → Byte := sparse [(40, 64), (58, 64), (60, 21), (88, 128), (89, 5), (96, 1)]

theorem crowded_image : Image crowded 1409 where
  limit := by decide
  table := by decide
  entries _ := by decide
  strndx := by decide
  names _ := by decide
  terminated i known := by
    have unnamed : ∀ i < shnum crowded, nameOf crowded i = 0 := by decide
    rw [unnamed i known]
    exact ⟨0, by decide, by decide⟩
  inside i known named := by
    have unknown : ∀ i < shnum crowded, sectOf crowded i = none := by decide
    exact absurd (unknown i known) named

/-- The headers of 21 sections do not fit in `secthdr_ptr`. -/
theorem crowded_overruns : Image crowded 1409 ∧
    Booted crowded (elfOnly crowded).mem smallEnd ∧ ¬∃ enough, ∀ fuel, enough ≤ fuel → ∃ ret t,
      readSectionHeaders crowded fuel kelfhdr smallEnd (elfOnly crowded) = .ok (ret, t) ∧
        Debuggable crowded smallEnd (elfOnly crowded) t := by
  have booted : Booted crowded (elfOnly crowded).mem smallEnd := elfOnly_booted (by decide)
  refine ⟨crowded_image, booted, fun ⟨enough, loads⟩ => ?_⟩
  obtain ⟨ret, t, ran, -⟩ := loads (max enough (2 ^ 38)) (Nat.le_max_left _ _)
  obtain ⟨fault, failed⟩ :=
    crowded_image.fails booted (.inr (by decide)) (Nat.le_max_right enough (2 ^ 38))
  cases ran.symm.trans failed

end Sample

end ElfRw

end Jos
