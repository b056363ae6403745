import Mathlib.Data.List.Range
import Jos.Fs.Serv

/-! The functions of fs/fs.c on the bytes from `DISKMAP` on, which are those of the
disk. All blocks are in memory; a pointer is its distance from `DISKMAP`. -/

set_option autoImplicit false

namespace Jos

open Function

namespace Fs

def maxNameLen : Nat := 128
def nDirect : Nat := 10
def nIndirect : Nat := pgSize / 4
def maxFileSize : Nat := (nDirect + nIndirect) * pgSize
def fileSize : Nat := 256
def blkFiles : Nat := pgSize / fileSize

def ftypeReg : BitVec 32 := 0
def ftypeDir : BitVec 32 := 1

abbrev Disk := Bytes

/-- A pointer to a `struct File`. -/
abbrev FilePtr := Nat

namespace Disk

def word (d : Disk) (addr : Nat) : BitVec 32 :=
  d (addr + 3) ++ d (addr + 2) ++ d (addr + 1) ++ d addr

def setWord (d : Disk) (addr : Nat) (value : BitVec 32) : Disk := setInt32 d addr value

/-- The fields of `struct File`. -/
def fSizeAt (f : FilePtr) : Nat := f + 128
def fTypeAt (f : FilePtr) : Nat := f + 132
def fDirectAt (f : FilePtr) (i : Nat) : Nat := f + 136 + 4 * i
def fIndirectAt (f : FilePtr) : Nat := f + 176

def fSize (d : Disk) (f : FilePtr) : BitVec 32 := d.word (fSizeAt f)
def fType (d : Disk) (f : FilePtr) : BitVec 32 := d.word (fTypeAt f)
def fDirect (d : Disk) (f : FilePtr) (i : Nat) : BitVec 32 := d.word (fDirectAt f i)
def fIndirect (d : Disk) (f : FilePtr) : BitVec 32 := d.word (fIndirectAt f)

/-- `super` and `bitmap` -/
def super : Nat := 1 * pgSize
def bitmap : Nat := 2 * pgSize
def sNblocks (d : Disk) : Nat := (d.word (super + 4)).toNat
def sRoot : FilePtr := super + 8

def diskaddr (d : Disk) (blockno : Nat) : Option Nat :=
  if blockno = 0 ∨ d.sNblocks ≤ blockno then none else some (blockno * pgSize)

def blockIsFree (d : Disk) (blockno : Nat) : Bool :=
  decide (blockno < d.sNblocks) && (d.word (bitmap + 4 * (blockno / 32))).getLsbD (blockno % 32)

def freeBlock (d : Disk) (blockno : Nat) : Option Disk :=
  if blockno = 0 then none
  else
    let place := bitmap + 4 * (blockno / 32)
    some (d.setWord place (d.word place ||| 1#32 <<< (blockno % 32)))

/-- `alloc_block`, which gives no block when the disk is full. -/
def allocBlock (d : Disk) : Option (Nat × Disk) :=
  ((List.range d.sNblocks).find? fun blockno => decide (2 ≤ blockno) && d.blockIsFree blockno).map
    fun blockno =>
      let place := bitmap + 4 * (blockno / 32)
      (blockno, d.setWord place (d.word place &&& ~~~(1#32 <<< (blockno % 32))))

/-- The result of a function, negative or a value, and the disk; `none` is a panic. -/
abbrev Outcome (α : Type) := Option (Except Int α × Disk)

def fail {α : Type} (r : Int) (d : Disk) : Outcome α := some (.error r, d)
def done {α : Type} (value : α) (d : Disk) : Outcome α := some (.ok value, d)

def andThen {α β : Type} (call : Outcome α) (next : α → Disk → Outcome β) : Outcome β :=
  call.bind fun (r, d) =>
    match r with
    | .ok value => next value d
    | .error r => fail r d

/-- `f->f_size / BLKSIZE`, as an unsigned number. -/
def blocksOf (size : BitVec 32) : Nat := (size.sdiv (BitVec.ofNat 32 pgSize)).toNat

/-- `file_block_walk`, to the address of the slot. -/
def fileBlockWalk (f : FilePtr) (filebno : Nat) (alloc : Bool) (d : Disk) : Outcome Nat :=
  if nDirect + nIndirect ≤ filebno then fail (-eInval) d
  else if blocksOf (d.fSize f) < filebno then fail (-eNotFound) d
  else if filebno < nDirect then done (fDirectAt f filebno) d
  else if d.fIndirect f ≠ 0 then
    (d.diskaddr (d.fIndirect f).toNat).bind fun indirect =>
      done (indirect + 4 * (filebno - nDirect)) d
  else if alloc then
    match d.allocBlock with
    | none => fail (-eNoDisk) d
    | some (block, d) =>
      let d := d.setWord (fIndirectAt f) (BitVec.ofNat 32 block)
      (d.diskaddr block).bind fun indirect => done (indirect + 4 * (filebno - nDirect)) d
  else fail (-eNotFound) d

/-- `file_get_block`, to the address of the block. -/
def fileGetBlock (f : FilePtr) (filebno : Nat) (d : Disk) : Outcome Nat :=
  if nDirect + nIndirect ≤ filebno then fail (-eInval) d
  else
    (fileBlockWalk f filebno true d).bind fun (slot, d) =>
      match slot with
      | .error _ => fail (-eNoDisk) d
      | .ok slot =>
        if d.word slot ≠ 0 then
          (d.diskaddr (d.word slot).toNat).bind fun blk => done blk d
        else
          match d.allocBlock with
          | none => fail (-eNoDisk) d
          | some (block, d) =>
            let d := d.setWord slot (BitVec.ofNat 32 block)
            (d.diskaddr block).bind fun blk => done blk d

/-- `strcmp(f->f_name, name) == 0` -/
def nameIs (d : Disk) (f : FilePtr) (name : Path) : Bool :=
  (List.range (name.length + 1)).all fun k => d (f + k) = name.getD k 0

/-- `&f[j]` -/
def fileAt (blk j : Nat) : FilePtr := blk + fileSize * j

def entryIn (blk : Nat) (wanted : FilePtr → Bool) : Option FilePtr :=
  ((List.range blkFiles).find? fun j => wanted (fileAt blk j)).map (fileAt blk)

/-- The loop of `dir_lookup` and `dir_alloc_file` over the blocks of a directory. -/
def dirSearch (dir : FilePtr) (wanted : Disk → FilePtr → Bool) :
    Nat → Nat → Disk → Outcome (Option FilePtr)
  | 0, _, d => done none d
  | left + 1, i, d =>
    andThen (fileGetBlock dir i d) fun blk d =>
      match entryIn blk (wanted d) with
      | some f => done (some f) d
      | none => dirSearch dir wanted left (i + 1) d

/-- `assert((dir->f_size % BLKSIZE) == 0)` -/
def wholeBlocks (d : Disk) (dir : FilePtr) : Bool :=
  (d.fSize dir).srem (BitVec.ofNat 32 pgSize) = 0

def dirLookup (dir : FilePtr) (name : Path) (d : Disk) : Outcome FilePtr :=
  if d.wholeBlocks dir then
    andThen (dirSearch dir (fun d f => d.nameIs f name) (blocksOf (d.fSize dir)) 0 d) fun found d =>
      match found with
      | some f => done f d
      | none => fail (-eNotFound) d
  else none

def dirAllocFile (dir : FilePtr) (d : Disk) : Outcome FilePtr :=
  if d.wholeBlocks dir then
    let nblock := blocksOf (d.fSize dir)
    andThen (dirSearch dir (fun d f => d f = 0) nblock 0 d) fun found d =>
      match found with
      | some f => done f d
      | none =>
        let d := d.setWord (fSizeAt dir) (d.fSize dir + BitVec.ofNat 32 pgSize)
        andThen (fileGetBlock dir nblock d) fun blk d => done (fileAt blk 0) d
  else none

def slash : BitVec 8 := BitVec.ofNat 8 '/'.toNat

def skipSlash (path : Path) : Path := path.dropWhile (· = slash)

/-- What `walk_path` finds: the file and its directory, or the directory and the last name
of a path whose file is missing, or an error. -/
inductive Walk where
  | found (dir : Option FilePtr) (f : FilePtr)
  | missing (dir : FilePtr) (lastelem : Path)
  | failed (r : Int)

/-- The loop of `walk_path`, at the file `f` in the directory `dir`. -/
def walkFrom : Nat → Option FilePtr → FilePtr → Path → Disk → Option (Walk × Disk)
  | 0, _, _, _, _ => none
  | left + 1, dir, f, path, d =>
    if path = [] then some (.found dir f, d)
    else
      let name := path.takeWhile (· ≠ slash)
      let rest := skipSlash (path.dropWhile (· ≠ slash))
      if maxNameLen ≤ name.length then some (.failed (-eBadPath), d)
      else if d.fType f ≠ ftypeDir then some (.failed (-eNotFound), d)
      else
        (dirLookup f name d).bind fun (r, d) =>
          match r with
          | .ok next => walkFrom left (some f) next rest d
          | .error r =>
            if r = -eNotFound ∧ rest = [] then some (.missing f name, d)
            else some (.failed r, d)

/-- Every round takes a name off the path, so that the rounds are enough. -/
def walkPath (path : Path) (d : Disk) : Option (Walk × Disk) :=
  walkFrom (path.length + 1) none sRoot (skipSlash path) d

/-- `file_flush` writes nothing to memory, but can panic. -/
def fileFlush (f : FilePtr) (d : Disk) : Option Disk :=
  let blocks := ((d.fSize f + BitVec.ofNat 32 (pgSize - 1)).sdiv (BitVec.ofNat 32 pgSize)).toInt
  ((List.range blocks.toNat).foldlM (fun _ i =>
      match fileBlockWalk f i false d with
      | some (.ok slot, _) =>
        if d.word slot = 0 then some () else (d.diskaddr (d.word slot).toNat).map fun _ => ()
      | some (.error _, _) => some ()
      | none => none) ()).bind fun _ =>
    if d.fIndirect f = 0 then some d else (d.diskaddr (d.fIndirect f).toNat).map fun _ => d

/-- `strcpy(f->f_name, name)` -/
def setName (d : Disk) (f : FilePtr) (name : Path) : Disk := fun addr =>
  if f ≤ addr ∧ addr < f + (name.length + 1) then name.getD (addr - f) 0 else d addr

def fileCreate (path : Path) (d : Disk) : Outcome FilePtr :=
  (walkPath path d).bind fun (walk, d) =>
    match walk with
    | .found _ _ => fail (-eFileExists) d
    | .failed r => fail r d
    | .missing dir name =>
      andThen (dirAllocFile dir d) fun f d =>
        let d := d.setName f name
        (fileFlush dir d).bind fun d => done f d

def fileOpen (path : Path) (d : Disk) : Outcome FilePtr :=
  (walkPath path d).bind fun (walk, d) =>
    match walk with
    | .found _ f => done f d
    | .missing _ _ => fail (-eNotFound) d
    | .failed r => fail r d

/-- `pos < offset + count`, in `size_t`. -/
def before (pos offset : BitVec 32) (count : BitVec 64) : Bool :=
  (pos.signExtend 64).ult (offset.signExtend 64 + count)

/-- `MIN(BLKSIZE - pos % BLKSIZE, offset + count - pos)`, in `size_t`. -/
def chunk (pos offset : BitVec 32) (count : BitVec 64) : Nat :=
  min ((BitVec.ofNat 32 pgSize - pos.srem (BitVec.ofNat 32 pgSize)).signExtend 64).toNat
    (offset.signExtend 64 + count - pos.signExtend 64).toNat

/-- `blk + pos % BLKSIZE` -/
def within (blk : Nat) (pos : BitVec 32) : Nat :=
  (blk + (pos.srem (BitVec.ofNat 32 pgSize)).toInt).toNat

/-- `memmove` of `bn` bytes. -/
def memmove (dst : Bytes) (addr : Nat) (src : Bytes) (start bn : Nat) : Bytes := fun k =>
  if addr ≤ k ∧ k < addr + bn then src (start + (k - addr)) else dst k

/-- The loop of `file_read`, with `base` bytes in the buffer. -/
def readFrom (f : FilePtr) (offset : BitVec 32) (count : BitVec 64) :
    Nat → BitVec 32 → Nat → Bytes → Disk → Option (Int × Bytes × Disk)
  | 0, _, _, _, _ => none
  | left + 1, pos, base, buf, d =>
    if before pos offset count then
      (fileGetBlock f (blocksOf pos) d).bind fun (r, d) =>
        match r with
        | .error r => some (r, buf, d)
        | .ok blk =>
          let bn := chunk pos offset count
          readFrom f offset count left (pos + BitVec.ofNat 32 bn) (base + bn)
            (memmove buf base d (within blk pos) bn) d
    else some ((count.setWidth 32).toInt, buf, d)

/-- `file_read`, with its result as the `int` that the server keeps; a round of its loop
reads a byte at least. -/
def fileRead (f : FilePtr) (buf : Bytes) (count : Nat) (offset : BitVec 32) (d : Disk) :
    Option (Int × Bytes × Disk) :=
  if (d.fSize f).sle offset then some (0, buf, d)
  else
    let left := (d.fSize f - offset).signExtend 64
    let count := if (BitVec.ofNat 64 count).ule left then BitVec.ofNat 64 count else left
    readFrom f offset count (count.toNat + 1) offset 0 buf d

/-- `file_free_block` -/
def fileFreeBlock (f : FilePtr) (filebno : Nat) (d : Disk) : Outcome Unit :=
  andThen (fileBlockWalk f filebno false d) fun slot d =>
    if d.word slot ≠ 0 then
      (d.freeBlock (d.word slot).toNat).bind fun d => done () (d.setWord slot 0)
    else done () d

/-- `(size + BLKSIZE - 1) / BLKSIZE`, as an unsigned number. -/
def blocksFor (size : BitVec 32) : Nat := blocksOf (size + BitVec.ofNat 32 (pgSize - 1))

def fileTruncateBlocks (f : FilePtr) (newsize : BitVec 32) (d : Disk) : Option Disk :=
  let oldNblocks := blocksFor (d.fSize f)
  let newNblocks := blocksFor newsize
  ((List.range' newNblocks (oldNblocks - newNblocks)).foldlM
      (fun d bno => (fileFreeBlock f bno d).map Prod.snd) d).bind fun d =>
    if newNblocks ≤ nDirect ∧ d.fIndirect f ≠ 0 then
      (d.freeBlock (d.fIndirect f).toNat).map fun d => d.setWord (fIndirectAt f) 0
    else some d

def fileSetSize (f : FilePtr) (newsize : BitVec 32) (d : Disk) : Option (Int × Disk) :=
  (if newsize.slt (d.fSize f) then fileTruncateBlocks f newsize d else some d).map fun d =>
    (0, d.setWord (fSizeAt f) newsize)

/-- The loop of `file_write`, with `base` bytes of the buffer written. -/
def writeFrom (f : FilePtr) (buf : Bytes) (offset : BitVec 32) (count : BitVec 64) :
    Nat → BitVec 32 → Nat → Disk → Option (Int × Disk)
  | 0, _, _, _ => none
  | left + 1, pos, base, d =>
    if before pos offset count then
      (fileGetBlock f (blocksOf pos) d).bind fun (r, d) =>
        match r with
        | .error r => some (r, d)
        | .ok blk =>
          let bn := chunk pos offset count
          writeFrom f buf offset count left (pos + BitVec.ofNat 32 bn) (base + bn)
            (memmove d (within blk pos) buf base bn)
    else some ((count.setWidth 32).toInt, d)

/-- `file_write`; a round of its loop writes a byte at least. -/
def fileWrite (f : FilePtr) (buf : Bytes) (count : Nat) (offset : BitVec 32) (d : Disk) :
    Option (Int × Disk) :=
  let count := BitVec.ofNat 64 count
  let ends := offset.signExtend 64 + count
  (if ((d.fSize f).signExtend 64).ult ends then fileSetSize f (ends.setWidth 32) d
    else some (0, d)).bind fun (_, d) =>
      writeFrom f buf offset count (count.toNat + 1) offset 0 d

def fileRemove (path : Path) (d : Disk) : Option (Int × Disk) :=
  (walkPath path d).bind fun (walk, d) =>
    match walk with
    | .missing _ _ => some (-eNotFound, d)
    | .failed r => some (r, d)
    | .found _ f =>
      (fileTruncateBlocks f 0 d).map fun d =>
        (0, setWord (update d f 0) (fSizeAt f) 0)

/-- `fs_sync` writes nothing to memory; `flush_block` panics beyond `DISKSIZE`. -/
def fsSync (d : Disk) : Option Disk := if d.sNblocks ≤ 0xC0000 then some d else none

def fName (d : Disk) (f : FilePtr) : Path :=
  ((List.range fileSize).map fun k => d (f + k)).takeWhile (· ≠ 0)

end Disk

open Disk

/-- fs/fs.c, for the file server. -/
def diskFiles : Files Disk FilePtr where
  fileCreate := fileCreate
  fileOpen := fileOpen
  fileSetSize := fileSetSize
  fileRead := fileRead
  fileWrite := fileWrite
  fileFlush := fileFlush
  fileRemove := fileRemove
  fsSync := fsSync
  fName f d := d.fName f
  fSize f d := d.fSize f
  isDir f d := d.fType f = ftypeDir
  diskMapped d := d

/-- A disk of eight blocks, with an empty root directory in block 3. -/
def smallDisk : Disk := fun addr =>
  if addr = super + 4 then 8
  else if addr = bitmap then 0xF0
  else if addr = sRoot then slash
  else if addr = fSizeAt sRoot + 1 then 16
  else if addr = fTypeAt sRoot then 1
  else if addr = fDirectAt sRoot 0 then 3
  else 0

def createA : Request := fun off => if off = 0 then 97 else if off = maxPathLen + 1 then 1 else 0

end Fs

end Jos
