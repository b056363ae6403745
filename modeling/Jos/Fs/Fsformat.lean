import Jos.Fs.Disk

/-! fs/fsformat.c, which writes a disk image. Its memory has the disk map at 0, with zeros
at the beginning, and behind it the arrays that malloc gives. -/

set_option autoImplicit false

namespace Jos

open Function

namespace Fs

open Disk

namespace Fsformat

def maxDirEnts : Nat := 128
def blkBitSize : Nat := pgSize * 8
def fsMagic : BitVec 32 := 0x4A0530AE

/-- `ROUNDUP` on `uint32_t`. -/
def roundup (n : BitVec 32) : BitVec 32 :=
  n - 1 + BitVec.ofNat 32 pgSize - (n - 1) % BitVec.ofNat 32 pgSize

/-- `ROUNDUP` on `int`. -/
def roundupInt (n : Int) : Int := n - 1 + pgSize - (n - 1).tmod pgSize

def lastName (name : Path) : Path := (name.reverse.takeWhile (· ≠ slash)).reverse

/-- An argument: an option, or the name of a regular file with its bytes. -/
structure Argument where
  name : Path
  contents : List (BitVec 8)
  text : ∀ c ∈ name, c ≠ 0
  named : lastName name ≠ []

/-- The values of `flag`. -/
inductive Flag where
  | root
  | bin
  | sbin
  deriving DecidableEq

/-- `diskpos` is a distance from `diskmap`. -/
structure Format where
  mem : Disk
  diskpos : Nat

structure Dir where
  f : Nat
  ents : Nat
  n : Nat

def entsOf : Flag → Nat
  | .root => 0x10000000
  | .bin => 0x20000000
  | .sbin => 0x30000000

def blockof (pos : Nat) : Nat := pos / pgSize

section

variable (nblocks : Nat)

def alloc (bytes : BitVec 32) (s : Format) : Option (Nat × Format) :=
  let pos := s.diskpos + (roundup bytes).toNat
  if nblocks ≤ blockof pos then none else some (s.diskpos, { s with diskpos := pos })

/-- `memset` -/
def memset (mem : Disk) (addr : Nat) (c : BitVec 8) (n : Nat) : Disk := fun k =>
  if addr ≤ k ∧ k < addr + n then c else mem k

def opendisk (memory : Bytes) : Option Format :=
  let mem : Disk := fun k => if k < nblocks * pgSize then 0 else memory k
  (alloc nblocks (BitVec.ofNat 32 pgSize) ⟨mem, 0⟩).bind fun (_, s) =>
    (alloc nblocks (BitVec.ofNat 32 pgSize) s).bind fun (super, s) =>
      let mem := s.mem.setWord super fsMagic
      let mem := mem.setWord (super + 4) (BitVec.ofNat 32 nblocks)
      let mem := mem.setWord (fTypeAt (super + 8)) ftypeDir
      let mem := mem.setName (super + 8) [slash]
      let nbitblocks := (nblocks + blkBitSize - 1) / blkBitSize
      (alloc nblocks (BitVec.ofNat 32 (nbitblocks * pgSize)) { s with mem }).map fun (bitmap, s) =>
        { s with mem := memset s.mem bitmap 0xFF (nbitblocks * pgSize) }

def finishdisk (s : Format) : Disk :=
  (List.range (blockof s.diskpos)).foldl (fun mem i =>
    let place := bitmap + 4 * (i / 32)
    mem.setWord place (mem.word place &&& ~~~(1#32 <<< (i % 32)))) s.mem

/-- Stores the numbers of the blocks from `i` on, at words that go up from `place`. -/
def setBlocks (place : Nat → Nat) (start : BitVec 32) (i count : Nat) (mem : Disk) : Disk :=
  (List.range' i count).foldl (fun mem i => mem.setWord (place i) (start + BitVec.ofNat 32 i)) mem

def finishfile (f : FilePtr) (start len : BitVec 32) (s : Format) : Option Format :=
  let mem := s.mem.setWord (fSizeAt f) len
  let count := (roundup len).toNat / pgSize
  let mem := setBlocks (fDirectAt f) start 0 (min count nDirect) mem
  if nDirect ≤ count then
    (alloc nblocks (BitVec.ofNat 32 pgSize) { s with mem }).map fun (ind, s) =>
      let mem := s.mem.setWord (fIndirectAt f) (BitVec.ofNat 32 (blockof ind))
      { s with mem := setBlocks (fun i => ind + 4 * (i - nDirect)) start nDirect (count - nDirect) mem }
  else some { s with mem }

def startdir (f : Nat) (ents : Nat) : Dir := ⟨f, ents, 0⟩

def diradd (d : Dir) (type : BitVec 32) (name : Path) (s : Format) :
    Option (FilePtr × Dir × Format) :=
  let out := d.ents + fileSize * d.n
  if maxDirEnts < d.n + 1 then none
  else
    some (out, { d with n := d.n + 1 },
      { s with mem := (s.mem.setName out name).setWord (fTypeAt out) type })

def finishdir (d : Dir) (s : Format) : Option Format :=
  let size := d.n * fileSize
  (alloc nblocks (BitVec.ofNat 32 size) s).bind fun (start, s) =>
    let s := { s with mem := memmove s.mem start s.mem d.ents size }
    finishfile nblocks d.f (BitVec.ofNat 32 (blockof start)) (BitVec.ofInt 32 (roundupInt size)) s

/-- `readn` of the whole file. -/
def readn (mem : Disk) (start : Nat) (contents : List (BitVec 8)) : Disk :=
  memmove mem start (fun k => contents.getD k 0) 0 contents.length

def writefile (dir : Dir) (file : Argument) (s : Format) : Option (Dir × Format) :=
  let size := file.contents.length
  if maxFileSize ≤ size then none
  else
    (diradd dir ftypeReg (lastName file.name) s).bind fun (f, dir, s) =>
      (alloc nblocks (BitVec.ofNat 32 size) s).bind fun (start, s) =>
        (finishfile nblocks f (BitVec.ofNat 32 (blockof start)) (BitVec.ofNat 32 size)
          { s with mem := readn s.mem start file.contents }).map fun s => (dir, s)

def letter (c : Char) : BitVec 8 := BitVec.ofNat 8 c.toNat

def optionBin : Path := [letter '-', letter 'b']
def optionSbin : Path := [letter '-', letter 's', letter 'b']
def nameBin : Path := [letter 'b', letter 'i', letter 'n']
def nameSbin : Path := [letter 's', letter 'b', letter 'i', letter 'n']

/-- The loop of `main` over the arguments. -/
def addArguments : List Argument → Flag → (Flag → Dir) → Format → Option ((Flag → Dir) × Format)
  | [], _, dirs, s => some (dirs, s)
  | arg :: rest, flag, dirs, s =>
    if arg.name = optionBin then addArguments rest .bin dirs s
    else if arg.name = optionSbin then addArguments rest .sbin dirs s
    else
      (writefile nblocks (dirs flag) arg s).bind fun (dir, s) =>
        addArguments rest flag (update dirs flag dir) s

/-- `main`, to the disk image. -/
def main (args : List Argument) (memory : Bytes) : Option Disk :=
  if nblocks < 2 ∨ 10240 < nblocks then none
  else
    (opendisk nblocks memory).bind fun s =>
      (diradd (startdir sRoot (entsOf .root)) ftypeDir nameBin s).bind fun (b, root, s) =>
        (diradd root ftypeDir nameSbin s).bind fun (sb, root, s) =>
          let dirs : Flag → Dir
            | .root => root
            | .bin => startdir b (entsOf .bin)
            | .sbin => startdir sb (entsOf .sbin)
          (addArguments nblocks args .root dirs s).bind fun (dirs, s) =>
            (finishdir nblocks (dirs .bin) s).bind fun s =>
              (finishdir nblocks (dirs .sbin) s).bind fun s =>
                (finishdir nblocks (dirs .root) s).map finishdisk

end

end Fsformat

end Fs

end Jos
