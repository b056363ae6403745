import Jos.Kern.Env

/-! The boot of the kernel: `x64_vm_init` of kern/pmap.c, the mapping of device
memory, and `env_init`. Addresses in physical memory are page numbers. -/

set_option autoImplicit false

namespace Jos

variable {npages : Nat}

def ioPhysMem : Nat := 0x0A0000
def extPhysMem : Nat := 0x100000
def mpentryPaddr : Nat := 0x7000
def ncpuMax : Nat := 8

/-- `sizeof(struct PageInfo)` -/
def pageInfoSize : Nat := 16
/-- `sizeof(struct Env)` -/
def envSize : Nat := 288

/-- `upages_max` of `i386_detect_memory`, which is below `kern_mem_max`. -/
def maxNpages : Nat := (ulim - upages) / pageInfoSize

/-- The page after those that hold `n` bytes from the start of a page on. -/
def bootAlloc (nextfree n : Nat) : Nat := nextfree + (n + pgSize - 1) / pgSize

/-- The first page of `pages`, when the kernel image ends before page `kernEnd`. -/
def pagesPage (kernEnd : Nat) : Nat := bootAlloc kernEnd pgSize

/-- The first page of `envs`. -/
def envsPage (npages kernEnd : Nat) : Nat := bootAlloc (pagesPage kernEnd) (npages * pageInfoSize)

/-- The first page behind everything that `boot_alloc` has handed out. -/
def firstFree (npages kernEnd : Nat) : Nat :=
  bootAlloc (envsPage npages kernEnd) (nenv * envSize)

/-- What the drivers ask for at boot: device memory to be mapped, or pages for
their buffers. -/
inductive Device where
  | mmio (pa size : Nat)
  | buffers (count : Nat)
deriving DecidableEq, Repr

/-- What the boot starts from: the pages of the kernel image, the contents of
physical memory, and the devices. The early page tables at `pml4phys` lie in the
image, above the I/O hole. -/
structure Platform (npages : Nat) where
  kernEnd : Nat
  bootPts : Nat
  kstacks : Nat
  mem : Fin npages → Index → Pte
  devices : List Device
  hole : ioPhysMem / pgSize + 1 < bootPts
  image : bootPts + 5 < kernEnd
  room : firstFree npages kernEnd < npages
  limit : npages ≤ maxNpages

/-- The loop of `page_init` links every page to the next one. -/
def linkPages (npages : Nat) (i : Fin npages) : PageInfo npages where
  ppLink := if next : i.val + 1 < npages then some ⟨i.val + 1, next⟩ else none
  ppRef := 0

def skipPages (m : Pmap npages) (page next : Nat) : Option (Pmap npages) := do
  let page ← pa2page npages page
  let next ← pa2page npages next
  return m.setLink page (some next)

def pageInit (m : Pmap npages) (kernE bootPts : Nat) : Option (Pmap npages) := do
  let first ← pa2page npages 0
  let m := { m with pages := linkPages npages }
  let m := { m with pageFreeList := (m.pages first).ppLink }
  let m ← skipPages m (ioPhysMem / pgSize - 1) kernE
  let m ← skipPages m (bootPts - 1) (bootPts + 4 + 1)
  skipPages m (mpentryPaddr / pgSize - 1) (mpentryPaddr / pgSize + 1)

/-- One round of the loop of `boot_map_region` per page. After a walk that finds
no memory, the same address is tried again. -/
def bootMapLoop (perm : BitVec 12) : Nat → Nat → Nat → Pmap npages → Option (Pmap npages)
  | 0, _, _, m => some m
  | rounds + 1, la, pa, m => do
      let (found, m) ← pml4eWalk m (some m.bootPml4e) la true
      match found with
      | none => bootMapLoop perm rounds la pa m
      | some slot => bootMapLoop perm rounds (la + pgSize) (pa + 1) (m.setEntry slot ⟨pa, perm⟩)

def bootMapRegion (m : Pmap npages) (la size pa : Nat) (perm : BitVec 12) :
    Option (Pmap npages) :=
  bootMapLoop perm (size / pgSize) la pa m

def memInitMp (m : Pmap npages) (kstacks : Nat) : Option (Pmap npages) :=
  (List.range ncpuMax).foldlM (fun m i =>
    bootMapRegion m (kstackTop - i * (kstkSize + kstkGap) - kstkSize) kstkSize
      (kstacks + i * (kstkSize / pgSize)) (pteW ||| pteP)) m

/-- The stack pointer that `trap_init_percpu` stores in the TSS of a processor. -/
def tsEsp0 (cpuId : Nat) : Nat := kstackTop + cpuId * (kstkSize + kstkGap)

def x64VmInit (platform : Platform npages) : Option (Pmap npages) := do
  let boot ← pa2page npages platform.kernEnd
  let m : Pmap npages :=
    { pages := fun _ => ⟨none, 0⟩, pageFreeList := none, bootPml4e := boot, mem := platform.mem }
  let m := m.clearPage boot
  let m ← pageInit m (firstFree npages platform.kernEnd) platform.bootPts
  let m ← bootMapRegion m upages (npages * pageInfoSize) (pagesPage platform.kernEnd)
    (pteU ||| pteP)
  let m ← bootMapRegion m uenvs (nenv * envSize) (envsPage npages platform.kernEnd) (pteU ||| pteP)
  let m ← memInitMp m platform.kstacks
  bootMapRegion m kernBase (npages * pgSize) 0 (pteP ||| pteW)

/-- `mmio_map_region`, with its static variable `base`. -/
def mmioMapRegion (m : Pmap npages) (base pa size : Nat) : Option (Nat × Pmap npages) :=
  if base + size ≥ mmioLim then none
  else do
    let size := roundUp size
    let m ← bootMapRegion m base size pa (ptePcd ||| ptePwt ||| pteW ||| pteP)
    return (base + size, m)

def takeBuffers (m : Pmap npages) : Nat → Pmap npages
  | 0 => m
  | count + 1 =>
    match pageAlloc m true with
    | none => takeBuffers m count
    | some (_, m) => takeBuffers m count

def initDevice (state : Nat × Pmap npages) : Device → Option (Nat × Pmap npages)
  | .mmio pa size => mmioMapRegion state.2 state.1 pa size
  | .buffers count => some (state.1, takeBuffers state.2 count)

/-- The kernel data when `i386_init` goes on to create environments. -/
def boot (platform : Platform npages) : Option (Kernel npages) := do
  let m ← x64VmInit platform
  let k := envInit { pmap := m, envs := fun _ => Env.zeroed npages, envFreeList := none }
  let (_, m) ← platform.devices.foldlM initDevice (mmioBase, k.pmap)
  return k.setPmap m

end Jos
