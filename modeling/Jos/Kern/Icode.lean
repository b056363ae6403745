import Jos.Inc.Elf
import Jos.Kern.Upcall

/-! `load_icode` with the bytes that it copies. The pages of the tables are kept apart
from the bytes of the other pages. -/

set_option autoImplicit false

namespace Jos.Icode

variable {npages : Nat}

/-- The clearing of `page_alloc(ALLOC_ZERO)`. -/
def clear (ram : Ram) (page : Nat) : Ram := fun addr => if addr / pgSize = page then 0 else ram addr

def regionAllocLoop (pml4e : Option (Fin npages)) :
    Nat → Nat → Pmap npages × Ram → Option (Pmap npages × Ram)
  | 0, _, s => some s
  | rounds + 1, va, (m, ram) =>
    match pageAlloc m true with
    | none => none
    | some (p, m) =>
      (pageInsert m pml4e p va (pteU ||| pteP ||| pteW)).bind fun (_, m) =>
        regionAllocLoop pml4e rounds (va + pgSize) (m, clear ram p.val)

def regionAlloc (pml4e : Option (Fin npages)) (va len : Nat) (s : Pmap npages × Ram) :
    Option (Pmap npages × Ram) :=
  regionAllocLoop pml4e ((len + pgSize) / pgSize) (va / pgSize * pgSize) s

/-- Stores of the kernel through the tables of an environment. A store to a page that
is not mapped writable is a fault. -/
def copyOut (m : Pmap npages) (pml4e : Option (Fin npages)) :
    Nat → List (BitVec 8) → Ram → Option Ram
  | _, [], ram => some ram
  | va, byte :: rest, ram =>
    (m.translateIn pml4e va).bind fun found =>
      if found.writable then
        copyOut m pml4e (va + 1) rest
          (Function.update ram (found.ppn * pgSize + va % pgSize) byte)
      else none

/-- The bytes of the binary from an offset on. What lies behind them in the kernel is
not modelled. -/
def slice (binary : Elf) (offset : Nat) : Nat → Option (List (BitVec 8))
  | 0 => some []
  | n + 1 => (binary.byte offset).bind fun byte => (slice binary (offset + 1) n).map (byte :: ·)

/-- `memcpy` and `memset` for a segment. -/
def copySegment (pml4e : Option (Fin npages)) (binary : Elf) (h : Proghdr) (s : Pmap npages × Ram) :
    Option (Pmap npages × Ram) :=
  (slice binary h.offset h.filesz).bind fun data =>
    (copyOut s.1 pml4e h.va data s.2).bind fun ram =>
      (copyOut s.1 pml4e (h.va + h.filesz) (List.replicate (h.memsz - h.filesz) 0) ram).map
        fun ram => (s.1, ram)

def loadHeader (pml4e : Option (Fin npages)) (binary : Elf) (s : Pmap npages × Ram) (i : Nat) :
    Option (Pmap npages × Ram) :=
  (littleEndian (fun place => binary.byte place) 4 (binary.header i)).bind fun type =>
    if type ≠ elfProgLoad then some s
    else (proghdr (fun place => binary.byte place) (binary.header i)).bind fun h =>
      if h.filesz ≤ h.memsz then
        (regionAlloc pml4e h.va h.memsz s).bind fun s => copySegment pml4e binary h s
      else some s

def loadIcode (k : Kernel npages) (ram : Ram) (e : EnvIdx) (binary : Elf) :
    Option (Kernel npages × Ram) :=
  if binary.magic ≠ elfMagic then none
  else
    let env := k.envs e
    ((List.range binary.phnum).foldlM (loadHeader env.envPml4e binary) (k.pmap, ram)).bind fun s =>
      (regionAlloc env.envPml4e (ustackTop - pgSize) pgSize s).map fun (m, ram) =>
        ((k.setPmap m).setEnv e
          { env with envTf := { env.envTf with tfRip := BitVec.ofNat 64 binary.entry } }, ram)

/-- The binary as `load_icode` without the bytes takes it. -/
def outline (binary : Elf) : Binary where
  segments := (List.range binary.phnum).filterMap fun i =>
    (binary.segment i).bind fun h => if h.filesz ≤ h.memsz then some (h.va, h.memsz) else none
  entry := BitVec.ofNat 64 binary.entry

section Outline

variable {pml4e : Option (Fin npages)} {binary : Elf} {s s' : Pmap npages × Ram}

theorem regionAllocLoop_outline {rounds va : Nat}
    (ran : regionAllocLoop pml4e rounds va s = some s') :
    Jos.regionAllocLoop pml4e rounds va s.1 = some s'.1 := by
  induction rounds generalizing va s with
  | zero =>
    cases ran
    rfl
  | succ rounds ih =>
    obtain ⟨m, ram⟩ := s
    unfold regionAllocLoop at ran
    unfold Jos.regionAllocLoop
    dsimp only at ran ⊢
    cases allocated : pageAlloc m true with
    | none =>
      rw [allocated] at ran
      cases ran
    | some pair =>
      rw [allocated] at ran
      obtain ⟨⟨code, m'⟩, inserted, ran⟩ := Option.bind_eq_some_iff.mp ran
      dsimp only
      rw [inserted]
      exact ih ran

theorem copySegment_outline {h : Proghdr} (ran : copySegment pml4e binary h s = some s') :
    s'.1 = s.1 := by
  obtain ⟨data, -, ran⟩ := Option.bind_eq_some_iff.mp ran
  obtain ⟨ram, -, ran⟩ := Option.bind_eq_some_iff.mp ran
  obtain ⟨ram', -, rfl⟩ := Option.map_eq_some_iff.mp ran
  rfl

theorem loadHeader_outline {i : Nat} (range : i < binary.phnum)
    (ran : loadHeader pml4e binary s i = some s') :
    (match (binary.segment i).bind fun h =>
        if h.filesz ≤ h.memsz then some (h.va, h.memsz) else none with
      | some segment => Jos.regionAlloc s.1 pml4e segment.1 segment.2
      | none => some s.1) = some s'.1 := by
  obtain ⟨type, found, ran⟩ := Option.bind_eq_some_iff.mp ran
  unfold Elf.segment
  rw [if_pos range, found, Option.bind_some]
  split at ran
  · rename_i other
    cases ran
    rw [if_pos other]
    rfl
  rename_i load
  obtain ⟨h, header, ran⟩ := Option.bind_eq_some_iff.mp ran
  rw [if_neg load, header, Option.bind_some]
  split at ran
  · rename_i fits
    obtain ⟨s'', allocated, ran⟩ := Option.bind_eq_some_iff.mp ran
    rw [if_pos fits, copySegment_outline ran]
    exact regionAllocLoop_outline allocated
  · rename_i wrong
    cases ran
    rw [if_neg wrong]

theorem loadHeaders_outline {l : List Nat} (range : ∀ i ∈ l, i < binary.phnum)
    (ran : l.foldlM (loadHeader pml4e binary) s = some s') :
    (l.filterMap fun i => (binary.segment i).bind fun h =>
      if h.filesz ≤ h.memsz then some (h.va, h.memsz) else none).foldlM
        (fun m segment => Jos.regionAlloc m pml4e segment.1 segment.2) s.1 = some s'.1 := by
  rw [List.foldlM_filterMap]
  induction l generalizing s with
  | nil =>
    cases ran
    rfl
  | cons i l ih =>
    obtain ⟨s'', head, ran⟩ := Option.bind_eq_some_iff.mp ran
    have first := loadHeader_outline (range i List.mem_cons_self) head
    rw [List.foldlM_cons]
    refine Option.bind_eq_some_iff.mpr ⟨s''.1, ?_, ih (fun j member =>
      range j (List.mem_cons_of_mem _ member)) ran⟩
    split at first <;> simp [*]

/-- The bytes apart, this is `load_icode` as the rest of the kernel sees it. -/
theorem loadIcode_outline {k k' : Kernel npages} {ram ram' : Ram} {e : EnvIdx}
    (ran : loadIcode k ram e binary = some (k', ram')) :
    Jos.loadIcode k e (outline binary) = some k' := by
  unfold loadIcode at ran
  split at ran
  · cases ran
  obtain ⟨s, loaded, ran⟩ := Option.bind_eq_some_iff.mp ran
  obtain ⟨⟨m, ram''⟩, stacked, ran⟩ := Option.map_eq_some_iff.mp ran
  cases ran
  have segments := loadHeaders_outline (fun i member => List.mem_range.mp member) loaded
  have stack := regionAllocLoop_outline stacked
  unfold Jos.loadIcode
  refine Option.bind_eq_some_iff.mpr ⟨s.1, segments, Option.bind_eq_some_iff.mpr ⟨m, stack, rfl⟩⟩

end Outline

end Jos.Icode
