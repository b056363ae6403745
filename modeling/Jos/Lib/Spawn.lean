import Mathlib.Algebra.Group.Int.Defs
import Jos.Inc.Elf
import Jos.Lib.Access
import Jos.Lib.Fd

/-! `spawn` of lib/spawn.c. What it calls of the library and of the kernel can fail
at every point; the answers are an input. -/

set_option autoImplicit false

namespace Jos.Spawn

/-- sizeof(elf_buf) -/
def elfBufSize : Nat := 512

def eNotExec : Int := 9

def fdPage (fdnum : Nat) : Nat := vpn (0xD0000000 + fdnum * pgSize)

def pteUser : BitVec 12 := pteAvail ||| pteP ||| pteW ||| pteU

/-- The ways in which `spawn` ends with an error. -/
inductive Step where
  | openFile
  | header
  | exofork
  | initStack
  | segmentAlloc
  | segmentSeek
  | segmentRead
deriving DecidableEq, Repr

/-- The step that failed and what `spawn` returns for it. -/
structure Failure where
  step : Step
  code : Int
deriving DecidableEq, Repr

/-- What the file server and the kernel answer to the calls of one `spawn`. Each
call is named by its place: `header k page j` is page `j` of program header `k`. -/
structure Answers where
  openFile : Int
  readHeader : Int
  exofork : Int
  stackAlloc : Int
  stackMap : Int
  stackUnmap : Int
  /-- The second `sys_page_unmap(0, UTEMP)` of `init_stack`. -/
  stackUndo : Int
  blank : Nat → Nat → Int
  temp : Nat → Nat → Int
  seek : Nat → Nat → Int
  read : Nat → Nat → Int
  map : Nat → Nat → Int
  share : Nat → Int
  setTrapframe : Int
  setStatus : Int

/-- `tf_rip` and `tf_rsp` -/
structure Trapframe where
  rip : Nat
  rsp : Nat

structure State where
  world : World
  exists' : Nat → Bool
  trapframe : Nat → Trapframe
  runnable : Nat → Bool

abbrev Str := List (BitVec 8)

/-- Pointer arithmetic in 64 bits. -/
def back (addr : Nat) (bytes : Int) : Nat := (((addr : Int) - bytes) % 2 ^ 64).toNat

/-- UTEMP2USTACK -/
def utemp2ustack (addr : Nat) : Nat := back (addr + (ustackTop - pgSize)) utemp

def stringSize (argv : List Str) : Nat := (argv.map fun arg => arg.length + 1).sum

/-- `string_store`, before the first string. -/
def stringStore (argv : List Str) : Nat := back (utemp + pgSize) (stringSize argv)

/-- `8 * (argc + 1)` is an int. -/
def argvStore (argv : List Str) : Nat :=
  back (stringStore argv - stringStore argv % 8) ((8 * ((argv.length : Int) + 1)).bmod (2 ^ 32))

def storeWord (va value : Nat) : List (Nat × BitVec 8) :=
  (List.range 8).map fun i => ((va + i) % 2 ^ 64, BitVec.ofNat 8 (value / 256 ^ i))

/-- `strcpy` -/
def strcpy (va : Nat) : Str → List (Nat × BitVec 8)
  | [] => [(va % 2 ^ 64, 0)]
  | byte :: rest => (va % 2 ^ 64, byte) :: strcpy (va + 1) rest

/-- The stores of the loop from the argument `i` on, whose string goes to `store`. -/
def argStores (argv : Nat) : Nat → Nat → List Str → List (Nat × BitVec 8)
  | i, _, [] => storeWord (argv + 8 * i) 0
  | i, store, arg :: rest =>
    storeWord (argv + 8 * i) (utemp2ustack store) ++ strcpy store arg ++
      argStores argv (i + 1) ((store + arg.length + 1) % 2 ^ 64) rest

/-- All stores of `init_stack`, in their order. -/
def initStores (argv : List Str) : List (Nat × BitVec 8) :=
  argStores (argvStore argv) 0 (stringStore argv) argv ++
    storeWord (back (argvStore argv) 8) (utemp2ustack (argvStore argv)) ++
    storeWord (back (argvStore argv) 16) argv.length

/-- Stores to pages that are mapped writable; a store elsewhere does not come back. -/
def storeAll (e : Nat) : List (Nat × BitVec 8) → World → Option World
  | [], w => some w
  | (va, byte) :: rest, w => (w.tryWrite e va byte).bind fun w => storeAll e rest w

/-- `init_stack`, which returns the stack pointer of the child. -/
def initStack (a : Answers) (e child : Nat) (argv : List Str) (w : World) :
    Option (Except Failure Nat × World) :=
  if back (argvStore argv) 16 < utemp then some (.error ⟨.initStack, -eNoMem⟩, w)
  else if a.stackAlloc < 0 then some (.error ⟨.initStack, a.stackAlloc⟩, w)
  else
    (storeAll e (initStores argv) (w.pageAlloc e (vpn utemp) permPrivate)).bind fun w =>
      let undone := if a.stackUndo < 0 then w else w.remove e (vpn utemp)
      if a.stackMap < 0 then some (.error ⟨.initStack, a.stackMap⟩, undone)
      else
        let w := w.pageMap e (vpn utemp) child ustackPage permPrivate
        if a.stackUnmap < 0 then
          some (.error ⟨.initStack, a.stackUnmap⟩,
            if a.stackUndo < 0 then w else w.remove e (vpn utemp))
        else some (.ok (utemp2ustack (back (argvStore argv) 16)), w.remove e (vpn utemp))

/-- What `readn` leaves in a page that it reads `n` bytes of the file to. -/
def fill (file : Elf) (offset : Int) (n : Nat) (page : Page) : Page := fun off =>
  if off.val < n then (file.byte (offset + off.val)).getD (page off) else page off

/-- `readn(fd, UTEMP, n)` behind a `seek`. -/
def readn (e : Nat) (file : Elf) (offset : Int) (n : Nat) (w : World) : World :=
  match (w.space e).uvpt (vpn utemp) with
  | some entry => w.store entry.ppn (fill file offset n (w.mem entry.ppn))
  | none => w

/-- `map_segment` from the page `j` on, with the sizes and the offset adjusted to the
start of a page. `i` is an int: `none` when it would overflow. -/
def mapPages (a : Answers) (e child : Nat) (file : Elf) (k va memsz filesz : Nat)
    (fileoffset : Int) (perm : BitVec 12) : Nat → Nat → World → Option (Except Failure Unit × World)
  | 0, _, _ => none
  | left + 1, j, w =>
    let i := j * pgSize
    let pn := vpn ((va + i) % 2 ^ 64)
    if memsz ≤ i then some (.ok (), w)
    else if filesz ≤ i then
      if a.blank k j < 0 then some (.error ⟨.segmentAlloc, a.blank k j⟩, w)
      else mapPages a e child file k va memsz filesz fileoffset perm left (j + 1)
        (w.pageAlloc child pn perm)
    else if a.temp k j < 0 then some (.error ⟨.segmentAlloc, a.temp k j⟩, w)
    else
      let w := w.pageAlloc e (vpn utemp) permPrivate
      if a.seek k j < 0 then some (.error ⟨.segmentSeek, a.seek k j⟩, w)
      else if a.read k j < 0 then some (.error ⟨.segmentRead, a.read k j⟩, w)
      else
        let w := readn e file (fileoffset + i) (min pgSize (filesz - i)) w
        if a.map k j < 0 then none
        else mapPages a e child file k va memsz filesz fileoffset perm left (j + 1)
          ((w.pageMap e (vpn utemp) child pn perm).remove e (vpn utemp))

def intPages : Nat := 2 ^ 31 / pgSize

def mapSegment (a : Answers) (e child : Nat) (file : Elf) (k : Nat) (h : Proghdr) (w : World) :
    Option (Except Failure Unit × World) :=
  let i := h.va % pgSize
  mapPages a e child file k (h.va - i) ((h.memsz + i) % 2 ^ 64) ((h.filesz + i) % 2 ^ 64)
    ((h.offset : Int).bmod (2 ^ 32) - i)
    (pteP ||| pteU ||| if h.flags / elfProgFlagWrite % 2 = 1 then pteW else 0) intPages 0 w

/-- The memory that program header `k` is read from, by addresses relative to `elf_buf`:
the start of the file, and what lies beyond it on the stack. -/
def elfBuf (file : Elf) (stack : Nat → Nat → Option (BitVec 8)) (k place : Nat) :
    Option (BitVec 8) :=
  if place < elfBufSize then file.byte place else stack k place

def loadHeader (a : Answers) (e child : Nat) (file : Elf) (stack : Nat → Nat → Option (BitVec 8))
    (k : Nat) (w : World) : Option (Except Failure Unit × World) :=
  (littleEndian (elfBuf file stack k) 4 (file.header k)).bind fun type =>
    if type ≠ elfProgLoad then some (.ok (), w)
    else (proghdr (elfBuf file stack k) (file.header k)).bind fun h =>
      mapSegment a e child file k h w

/-- The first `n` rounds of the loop. -/
def loadHeaders (a : Answers) (e child : Nat) (file : Elf)
    (stack : Nat → Nat → Option (BitVec 8)) (w : World) :
    Nat → Option (Except Failure Unit × World)
  | 0 => some (.ok (), w)
  | k + 1 => (loadHeaders a e child file stack w k).bind fun
      | (.ok (), w) => loadHeader a e child file stack k w
      | (.error failure, w) => some (.error failure, w)

/-- `copy_shared_pages` from the page `pn` on. -/
def copySharedPages (a : Answers) (e child : Nat) : Nat → Nat → World → World
  | 0, _, w => w
  | left + 1, pn, w => copySharedPages a e child left (pn + 1) <|
      if (w.space e).Reach pn then
        match (w.space e).uvpt pn with
        | some entry =>
          if entry.perm &&& pteShare = 0 ∨ a.share pn < 0 then w
          else w.pageMap e pn child pn (entry.perm &&& pteUser)
        | none => w
      else w

/-- The descriptor that `open` takes. -/
def fdSlot (e : Nat) (w : World) : Option Nat :=
  (List.range Fds.maxFd).find? fun fdnum => ((w.space e).uvpt (fdPage fdnum)).isNone

def openPage (e fdnum : Nat) (w : World) : World := w.pageAlloc e (fdPage fdnum) Fds.permShare

/-- `close`, whose result `spawn` does not look at. -/
def close (e fdnum : Nat) (w : World) : World := w.remove e (fdPage fdnum)

/-- The child and its stack, with the descriptor of the program file still open. -/
structure Prepared where
  fdnum : Nat
  rsp : Nat

/-- `spawn` up to the program headers. `child` is the environment that `sys_exofork`
makes, if it does. -/
def prepare (a : Answers) (e child : Nat) (file : Elf) (argv : List Str) (s : State) :
    Option (Except Failure Prepared × State) :=
  match fdSlot e s.world with
  | none => some (.error ⟨.openFile, -Fds.eMaxOpen⟩, s)
  | some fdnum =>
    if a.openFile < 0 then some (.error ⟨.openFile, a.openFile⟩, s)
    else
      let s := { s with world := openPage e fdnum s.world }
      if a.readHeader < 0 ∨ file.bytes.length < elfBufSize ∨ file.magic ≠ elfMagic then
        some (.error ⟨.header, -eNotExec⟩, { s with world := close e fdnum s.world })
      else if a.exofork < 0 then some (.error ⟨.exofork, a.exofork⟩, s)
      else
        let s := { s with
          world := s.world.create child
          exists' := Function.update s.exists' child true }
        (initStack a e child argv s.world).map fun
          | (.error failure, w) => (.error failure, { s with world := w })
          | (.ok rsp, w) => (.ok ⟨fdnum, rsp⟩, { s with world := w })

/-- `sys_env_destroy` -/
def destroy (child : Nat) (s : State) : State :=
  { s with
    world := s.world.create child
    exists' := Function.update s.exists' child false }

/-- `spawn` behind the program headers, which returns the child. -/
def finish (a : Answers) (e child : Nat) (file : Elf) (ready : Prepared) (s : State) :
    Option (Except Failure Nat × State) :=
  let w := copySharedPages a e child (vpn utop - vpn utext) (vpn utext) (close e ready.fdnum s.world)
  if a.setTrapframe < 0 ∨ a.setStatus < 0 then none
  else some (.ok child, { s with
    world := w
    trapframe := Function.update s.trapframe child ⟨file.entry, ready.rsp⟩
    runnable := Function.update s.runnable child true })

/-- `spawn`. `none` is a panic or a fault in it. -/
def spawn (a : Answers) (e child : Nat) (file : Elf) (stack : Nat → Nat → Option (BitVec 8))
    (argv : List Str) (s : State) : Option (Except Failure Nat × State) :=
  (prepare a e child file argv s).bind fun
    | (.error failure, s) => some (.error failure, s)
    | (.ok ready, s) =>
      (loadHeaders a e child file stack s.world file.phnum).bind fun
        | (.error failure, w) =>
          let s := destroy child { s with world := w }
          some (.error failure, { s with world := close e ready.fdnum s.world })
        | (.ok (), w) => finish a e child file ready { s with world := w }

end Jos.Spawn
