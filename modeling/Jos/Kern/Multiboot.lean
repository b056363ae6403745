import Jos.Kern.Boot

/-! How much memory there is: kern/multiboot.h, and `multiboot_read` and
`i386_detect_memory` of kern/pmap.c. -/

set_option autoImplicit false

namespace Jos

def mbTypeUsable : BitVec 32 := 1
def mbTypeReserved : BitVec 32 := 2
def mbTypeAcpiReclm : BitVec 32 := 3
def mbTypeAcpiNvs : BitVec 32 := 4
def mbTypeBad : BitVec 32 := 5

/-- `memory_map_t`, whose halves of addresses and lengths are joined. -/
structure MemoryMap where
  addr : BitVec 64
  length : BitVec 64
  type : BitVec 32
deriving DecidableEq, Repr

def restrictiveType (t1 t2 : BitVec 32) : BitVec 32 :=
  if t1 = mbTypeBad ∨ t2 = mbTypeBad then mbTypeBad
  else if t1 = mbTypeAcpiNvs ∨ t2 = mbTypeAcpiNvs then mbTypeAcpiNvs
  else if t1 = mbTypeReserved ∨ t2 = mbTypeReserved then mbTypeReserved
  else if t1 = mbTypeAcpiReclm ∨ t2 = mbTypeAcpiReclm then mbTypeAcpiReclm
  else mbTypeUsable

def checkType (mmap : MemoryMap) : MemoryMap :=
  if mmap.type > 5 ∨ mmap.type < 1 then { mmap with type := mbTypeReserved } else mmap

/-- One round of the first loop: behind the regions that do not start later. The
shift also writes the cell after the last one of the array. -/
def insertSorted (mmap : MemoryMap) : List MemoryMap → List MemoryMap
  | [] => [mmap]
  | this :: list =>
    if this.addr > mmap.addr then mmap :: this :: list else this :: insertSorted mmap list

def sortMap (mmaps : List MemoryMap) : List MemoryMap :=
  mmaps.foldl (fun list mmap => insertSorted (checkType mmap) list) []

/-- The second loop, from the region `prev` on. A region that the next one has taken
in is NULL. -/
def sanitize (prev : MemoryMap) : List MemoryMap → List (Option MemoryMap)
  | [] => [some prev]
  | this :: list =>
    if prev.addr + prev.length = this.addr ∧ prev.type = this.type then
      none :: sanitize { this with addr := prev.addr, length := prev.length + this.length } list
    else if prev.addr + prev.length > this.addr then
      let type := restrictiveType prev.type this.type
      some { prev with type } :: sanitize { this with type } list
    else some prev :: sanitize this list

def sanitizeMap : List MemoryMap → List (Option MemoryMap)
  | [] => []
  | first :: list => sanitize first list

def addRegion (total : BitVec 64 × BitVec 64) : Option MemoryMap → BitVec 64 × BitVec 64
  | none => total
  | some mmap =>
    if mmap.type = mbTypeUsable ∨ mmap.type = mbTypeAcpiReclm then
      if mmap.addr < 0x100000 then (total.1 + mmap.length, total.2)
      else (total.1, total.2 + mmap.length)
    else total

/-- What is added to `basemem` and to `extmem`. -/
def multibootRead (mmaps : List MemoryMap) : BitVec 64 × BitVec 64 :=
  (sanitizeMap (sortMap mmaps)).foldl addRegion (0, 0)

def nvramBaseLo : Nat := 0x15
def nvramExtLo : Nat := 0x17
def nvramExtGt16Lo : Nat := 0x34

/-- An `int`, from two registers of the clock chip. -/
def nvramRead (mc146818 : Nat → BitVec 8) (r : Nat) : BitVec 32 :=
  (mc146818 r).setWidth 32 ||| ((mc146818 (r + 1)).setWidth 32 <<< 8)

def kernMemMax : Nat := (uvpt - kernBase) / pgSize

/-- The pages that `pages[]` and the kernel half have room for. -/
def limitPages (npages : Nat) : Nat :=
  let maxNpages := if maxNpages < kernMemMax then maxNpages else kernMemMax
  if npages > maxNpages then maxNpages - 1024 else npages

/-- `npages_extmem`; the product is an `int`, and gcc lets it wrap. -/
def npagesExtmem (mc146818 : Nat → BitVec 8) (extmem : BitVec 64) : BitVec 64 :=
  if nvramRead mc146818 nvramExtLo = 0xffff then
    let pextmem := (nvramRead mc146818 nvramExtGt16Lo * (64 * 1024)).signExtend 64
    (16 * 1024 * 1024 + pextmem - 1 * 1024 * 1024) / 4096
  else extmem / 4096

/-- `npages` and `npages_basemem`; the kernel stops when there is no base memory.
`mbinfo` is the map that the boot loader has passed, if any. -/
def i386DetectMemory (mbinfo : Option (List MemoryMap)) (mc146818 : Nat → BitVec 8) :
    Option (Nat × Nat) :=
  let (basemem, extmem) :=
    match mbinfo with
    | some mmaps => multibootRead mmaps
    | none =>
      ((nvramRead mc146818 nvramBaseLo * 1024).signExtend 64,
        (nvramRead mc146818 nvramExtLo * 1024).signExtend 64)
  if basemem = 0 then none
  else
    let npagesBasemem := basemem / 4096
    let npagesExtmem := npagesExtmem mc146818 extmem
    let npages :=
      if npagesExtmem ≠ 0 then BitVec.ofNat 64 (extPhysMem / pgSize) + npagesExtmem
      else npagesBasemem
    some (limitPages npages.toNat, npagesBasemem.toNat)

end Jos
