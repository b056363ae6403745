import Jos.Foundation.Signed
import Jos.Fs.Devfile

/-! Reading a file without holes: `file_read`, one `devfile_read`, and sequences of them. -/

set_option autoImplicit false

namespace Jos

open Foundation Function

namespace Fs

open Disk

theorem pgSize_eq : pgSize = 4096 := rfl

section Words

variable {d : Disk} {addr other : Nat} {value : BitVec 32}

theorem word_setWord : (d.setWord addr value).word addr = value := int32At_setInt32 value

theorem word_setWord_other (apart : other + 4 ≤ addr ∨ addr + 4 ≤ other) :
    (d.setWord addr value).word other = d.word other :=
  int32At_congr fun k low high => setInt32_other (by omega)

theorem word_congr {d' : Disk} (same : ∀ k, addr ≤ k → k < addr + 4 → d' k = d k) :
    d'.word addr = d.word addr := int32At_congr same

theorem word_zero (zeros : ∀ k, addr ≤ k → k < addr + 4 → d k = 0) : d.word addr = 0 := by
  rw [Disk.word, zeros (addr + 3) (by omega) (by omega), zeros (addr + 2) (by omega) (by omega),
    zeros (addr + 1) (by omega) (by omega), zeros addr (by omega) (by omega)]
  decide

theorem setWord_other {k : Nat} (outside : k < addr ∨ addr + 4 ≤ k) :
    d.setWord addr value k = d k := setInt32_other outside

theorem setName_other {f k : Nat} {name : Path}
    (outside : k < f ∨ f + (name.length + 1) ≤ k) : d.setName f name k = d k := by
  have apart : ¬(f ≤ k ∧ k < f + (name.length + 1)) := by omega
  exact if_neg apart

theorem setName_here {f k : Nat} {name : Path} (inside : k ≤ name.length) :
    d.setName f name (f + k) = name.getD k 0 := by
  have here : f ≤ f + k ∧ f + k < f + (name.length + 1) := by omega
  refine (if_pos here).trans ?_
  rw [Nat.add_sub_cancel_left]

end Words

/-- The slot of a block pointer of a file, when the indirect block is there. -/
def Disk.slotAt (d : Disk) (f : FilePtr) (bno : Nat) : Nat :=
  if bno < nDirect then fDirectAt f bno
  else (d.fIndirect f).toNat * pgSize + 4 * (bno - nDirect)

def Disk.blockAt (d : Disk) (f : FilePtr) (bno : Nat) : Nat := (d.word (d.slotAt f bno)).toNat

/-- A block number that `diskaddr` takes. -/
def Disk.OnDisk (d : Disk) (block : Nat) : Prop := block ≠ 0 ∧ block < d.sNblocks

/-- A file of `size` bytes without holes. -/
structure Disk.Whole (d : Disk) (f : FilePtr) (size : Nat) : Prop where
  length : d.fSize f = BitVec.ofNat 32 size
  legal : size ≤ maxFileSize
  indirect : nDirect * pgSize < size → d.OnDisk (d.fIndirect f).toNat
  blocks : ∀ bno, bno * pgSize < size → d.OnDisk (d.blockAt f bno)

def Disk.contents (d : Disk) (f : FilePtr) (k : Nat) : BitVec 8 :=
  d (d.blockAt f (k / pgSize) * pgSize + k % pgSize)

section Lookup

variable {d : Disk} {f : FilePtr} {size bno : Nat}

theorem Disk.OnDisk.diskaddr {block : Nat} (there : d.OnDisk block) :
    d.diskaddr block = some (block * pgSize) := by
  rw [Disk.diskaddr, if_neg]
  rintro (null | beyond)
  · exact there.1 null
  · exact absurd there.2 (not_lt.mpr beyond)

theorem blocksOf_ofNat {k : Nat} (small : k < 2 ^ 31) :
    blocksOf (BitVec.ofNat 32 k) = k / 4096 := by
  have inside : k / 4096 < 2 ^ 31 := Nat.lt_of_le_of_lt (Nat.div_le_self k 4096) small
  rw [blocksOf, pgSize_eq, sdiv_ofNat small (by decide), toNat_ofNat32 inside]

theorem Disk.Whole.small (whole : d.Whole f size) : size < 2 ^ 31 :=
  Nat.lt_of_le_of_lt whole.legal (by decide)

theorem Disk.Whole.inRange (whole : d.Whole f size) (here : bno * pgSize < size) :
    bno < nDirect + nIndirect := by
  have legal : size ≤ (10 + 1024) * 4096 := whole.legal
  have here : bno * 4096 < size := here
  have count : nDirect + nIndirect = 10 + 1024 := rfl
  omega

theorem Disk.Whole.fileBlockWalk (whole : d.Whole f size) (here : bno * pgSize < size)
    (alloc : Bool) : fileBlockWalk f bno alloc d = done (d.slotAt f bno) d := by
  have room := whole.inRange here
  have covered : ¬blocksOf (d.fSize f) < bno := by
    have here : bno * 4096 < size := here
    rw [whole.length, blocksOf_ofNat whole.small]
    omega
  unfold Disk.fileBlockWalk Disk.slotAt
  rw [if_neg (not_le.mpr room), if_neg covered]
  by_cases direct : bno < nDirect
  · rw [if_pos direct, if_pos direct]
  · have beyond : nDirect * pgSize < size :=
      Nat.lt_of_le_of_lt (Nat.mul_le_mul_right pgSize (not_lt.mp direct)) here
    have there := whole.indirect beyond
    have present : d.fIndirect f ≠ 0 := fun null => there.1 (by rw [null]; rfl)
    rw [if_neg direct, if_neg direct, if_pos present, there.diskaddr]
    rfl

theorem Disk.Whole.fileGetBlock (whole : d.Whole f size) (here : bno * pgSize < size) :
    fileGetBlock f bno d = done (d.blockAt f bno * pgSize) d := by
  have there := whole.blocks bno here
  have present : d.word (d.slotAt f bno) ≠ 0 := fun null => there.1 (by
    rw [Disk.blockAt, null]
    rfl)
  unfold Disk.fileGetBlock
  rw [if_neg (not_le.mpr (whole.inRange here)), whole.fileBlockWalk here]
  change (if d.word (d.slotAt f bno) ≠ 0 then _ else _) = _
  rw [if_pos present]
  have there : d.OnDisk (d.word (d.slotAt f bno)).toNat := there
  rw [there.diskaddr]
  rfl

end Lookup

/-! The arithmetic of the loops on positions below 2^31. -/

section Positions

variable {off count base : Nat}

theorem before_ofNat (small : off + count < 2 ^ 31) (inside : base ≤ count) :
    before (BitVec.ofNat 32 (off + base)) (BitVec.ofNat 32 off) (BitVec.ofNat 64 count) =
      decide (base < count) := by
  rw [before, signExtend_ofNat (by omega), signExtend_ofNat (by omega), BitVec.ult,
    BitVec.toNat_add, BitVec.toNat_ofNat, BitVec.toNat_ofNat, BitVec.toNat_ofNat]
  congr 1
  apply propext
  omega

theorem chunk_ofNat (small : off + count < 2 ^ 31) (inside : base ≤ count) :
    chunk (BitVec.ofNat 32 (off + base)) (BitVec.ofNat 32 off) (BitVec.ofNat 64 count) =
      min (4096 - (off + base) % 4096) (count - base) := by
  have left : (off + base) % 4096 < 4096 := Nat.mod_lt _ (by decide)
  rw [chunk, pgSize_eq, srem_ofNat (by omega) (by decide), sub_ofNat (by omega) (by decide),
    signExtend_ofNat (by omega), signExtend_ofNat (by omega), signExtend_ofNat (by omega),
    BitVec.toNat_sub, BitVec.toNat_add]
  simp only [BitVec.toNat_ofNat]
  congr 1
  · omega
  · omega

theorem within_ofNat {blk pos : Nat} (small : pos < 2 ^ 31) :
    within blk (BitVec.ofNat 32 pos) = blk + pos % 4096 := by
  have inside : pos % 4096 < 2 ^ 31 := Nat.lt_of_le_of_lt (Nat.mod_le _ _) small
  rw [within, pgSize_eq, srem_ofNat small (by decide), toInt_ofNat inside]
  omega

end Positions

section Read

variable {d : Disk} {f : FilePtr} {size off count base left : Nat} {buf : Bytes}

/-- What a read leaves in the buffer, of which the first `base` bytes were there before. -/
def Disk.readInto (d : Disk) (f : FilePtr) (off count base : Nat) (buf : Bytes) : Bytes :=
  fun k => if base ≤ k ∧ k < count then d.contents f (off + k) else buf k

/-- The rest of the loop of `file_read`: one round reads up to the end of the block or of the
request. -/
theorem Disk.Whole.readFrom (whole : d.Whole f size) (inside : off + count ≤ size)
    (begun : base ≤ count) (rounds : count - base < left) :
    readFrom f (BitVec.ofNat 32 off) (BitVec.ofNat 64 count) left (BitVec.ofNat 32 (off + base))
      base buf d = some ((count : Int), d.readInto f off count base buf, d) := by
  have small := whole.small
  induction left generalizing base buf with
  | zero => omega
  | succ left ih =>
    rw [Disk.readFrom, before_ofNat (by omega) begun]
    by_cases more : base < count
    · have here : (off + base) / 4096 * pgSize < size := by
        rw [pgSize_eq]
        omega
      obtain ⟨bn, chunked⟩ : ∃ bn, bn = min (4096 - (off + base) % 4096) (count - base) :=
        ⟨_, rfl⟩
      have positive : 0 < bn := by omega
      rw [if_pos (decide_eq_true more), blocksOf_ofNat (by omega), whole.fileGetBlock here]
      dsimp only [done, Option.bind_some]
      rw [chunk_ofNat (by omega) begun, ← chunked, within_ofNat (by omega)]
      have next : BitVec.ofNat 32 (off + base) + BitVec.ofNat 32 bn =
          BitVec.ofNat 32 (off + (base + bn)) := by
        rw [← BitVec.ofNat_add, Nat.add_assoc]
      rw [next, ih (by omega) (by omega)]
      congr 3
      funext k
      unfold Disk.readInto memmove
      by_cases later : base + bn ≤ k ∧ k < count
      · rw [if_pos later, if_pos (by omega)]
      · rw [if_neg later]
        by_cases now : base ≤ k ∧ k < base + bn
        · have block : (off + k) / 4096 = (off + base) / 4096 := by omega
          have place : (off + k) % 4096 = (off + base) % 4096 + (k - base) := by omega
          rw [if_pos now, if_pos (by omega), Disk.contents, pgSize_eq, block, place,
            Nat.add_assoc]
        · rw [if_neg now, if_neg (by omega)]
    · have ended : base = count := by omega
      have value : ((BitVec.ofNat 64 count).setWidth 32).toInt = count := by
        rw [BitVec.setWidth_ofNat_of_le (by decide), toInt_ofNat (by omega)]
      rw [if_neg (by simpa using more), value]
      congr 3
      funext k
      rw [Disk.readInto, if_neg (by omega)]

/-- `file_read` gives the bytes of the file from the offset on, as many as there are. -/
theorem Disk.Whole.fileRead (whole : d.Whole f size) (small : off < 2 ^ 31)
    (few : count < 2 ^ 64) :
    fileRead f buf count (BitVec.ofNat 32 off) d =
      some (((min count (size - off) : Nat) : Int), d.readInto f off (min count (size - off)) 0 buf, d) := by
  have bound := whole.small
  unfold Disk.fileRead
  rw [whole.length, sle_ofNat bound small]
  by_cases ended : size ≤ off
  · have none : min count (size - off) = 0 := by omega
    have same : d.readInto f off 0 0 buf = buf := by
      funext k
      rw [Disk.readInto, if_neg (by omega)]
    rw [if_pos (decide_eq_true ended), none, same]
    rfl
  · rw [if_neg (by simpa using ended), sub_ofNat (by omega) bound, signExtend_ofNat (by omega)]
    have least : (if (BitVec.ofNat 64 count).ule (BitVec.ofNat 64 (size - off)) then
        BitVec.ofNat 64 count else BitVec.ofNat 64 (size - off)) =
          BitVec.ofNat 64 (min count (size - off)) := by
      have order : (BitVec.ofNat 64 count).ule (BitVec.ofNat 64 (size - off)) =
          decide (count ≤ size - off) := by
        rw [BitVec.ule, BitVec.toNat_ofNat, BitVec.toNat_ofNat]
        congr 1
        apply propext
        omega
      rw [order]
      by_cases whole : count ≤ size - off
      · rw [if_pos (decide_eq_true whole), Nat.min_eq_left whole]
      · rw [if_neg (by simpa using whole), Nat.min_eq_right (by omega)]
    dsimp only
    rw [least]
    have enough : min count (size - off) - 0 < (BitVec.ofNat 64 (min count (size - off))).toNat + 1 := by
      rw [BitVec.toNat_ofNat]
      omega
    have inside : off + min count (size - off) ≤ size := by omega
    exact whole.readFrom inside (Nat.zero_le _) enough

end Read

def fsreqRead : Nat := 3
def oWronly : BitVec 32 := 0x0001

/-- `fsipcbuf` as `devfile_read` fills it in. -/
def readRequest (fsipcbuf : Bytes) (fileid : BitVec 32) (n : Nat) : Bytes :=
  setSize (setInt32 fsipcbuf 0 fileid) 8 (BitVec.ofNat 64 n)

theorem reqFileid_readRequest {fsipcbuf : Bytes} {fileid : BitVec 32} {n : Nat} :
    reqFileid (readRequest fsipcbuf fileid n) = fileid := by
  unfold reqFileid readRequest
  rw [int32At_congr fun k _ high => setSize_other (by omega), int32At_setInt32]

namespace Server

variable {σ File : Type}

/-- `devfile_read` on the Fd page of a slot: the count, the caller's buffer, and `fsipcbuf`,
whose page the server has written. -/
def devfileRead (fs : Files σ File) (s : Server σ File) (i : Slot) (fsipcbuf buf : Bytes)
    (n : Nat) : Option (Int × Bytes × Bytes × Server σ File) :=
  (s.serve fs fsreqRead (readRequest fsipcbuf (s.fd i).fileId n) 0).map fun (r, page, _, s) =>
    if r ≤ 0 then (r, buf, page, s) else (r, memmove buf 0 page 0 r.toNat, page, s)

/-- `devfile_read` again and again, with a length and a buffer for each call. -/
def readEach (fs : Files σ File) (i : Slot) :
    List (Nat × Bytes) → Bytes → Server σ File → Option (List (Int × Bytes) × Server σ File)
  | [], _, s => some ([], s)
  | (n, buf) :: rest, fsipcbuf, s =>
    (s.devfileRead fs i fsipcbuf buf n).bind fun (r, buf, fsipcbuf, s) =>
      (readEach fs i rest fsipcbuf s).map fun (results, s) => ((r, buf) :: results, s)

/-- `read` on a descriptor of the file device. -/
def read (fs : Files σ File) (s : Server σ File) (i : Slot) (fsipcbuf buf : Bytes) (n : Nat) :
    Option (Int × Bytes × Bytes × Server σ File) :=
  if (s.fd i).omode &&& oAccMode = oWronly then some (-eInval, buf, fsipcbuf, s)
  else s.devfileRead fs i fsipcbuf buf n

/-- The loop of `readn`, with `tot` bytes read. -/
def readnFrom (fs : Files σ File) (i : Slot) (n : Nat) :
    Nat → Nat → Bytes → Bytes → Server σ File → Option (Int × Bytes × Server σ File)
  | 0, _, _, _, _ => none
  | left + 1, tot, fsipcbuf, buf, s =>
    if tot < n then
      (s.read fs i fsipcbuf (fun k => buf (tot + k)) (n - tot)).bind fun (m, part, fsipcbuf, s) =>
        let buf : Bytes := fun k => if k < tot then buf k else part (k - tot)
        if m < 0 then some (m, buf, s)
        else if m = 0 then some (tot, buf, s)
        else readnFrom fs i n left (tot + m.toNat) fsipcbuf buf s
    else some (tot, buf, s)

/-- `readn`; a round of its loop that does not end it reads a byte at least. -/
def readn (fs : Files σ File) (s : Server σ File) (i : Slot) (fsipcbuf buf : Bytes) (n : Nat) :
    Option (Int × Bytes × Server σ File) := readnFrom fs i n (n + 1) 0 fsipcbuf buf s

end Server

structure ReadsFrom (s : Server Disk FilePtr) (i : Slot) (f : FilePtr) (size off : Nat) : Prop where
  lookup : s.openfileLookup (s.fd i).fileId = .ok i
  file : (s.opentab i).oFile = some f
  whole : s.fs.Whole f size
  offset : (s.fd i).offset = BitVec.ofNat 32 off
  inside : off ≤ size

section Calls

variable {s : Server Disk FilePtr} {i : Slot} {f : FilePtr} {size off n : Nat}

theorem ReadsFrom.advance {count : Nat} (reads : ReadsFrom s i f size off)
    (inside : off + count ≤ size) : ReadsFrom (s.advance i count) i f size (off + count) where
  lookup := by
    have same : ((s.advance i count).fd i).fileId = (s.fd i).fileId := by simp [Server.advance]
    rw [same]
    exact reads.lookup
  file := reads.file
  whole := reads.whole
  offset := by
    have next : ((s.advance i count).fd i).offset =
        (s.fd i).offset + BitVec.ofInt 32 count := by simp [Server.advance]
    rw [next, reads.offset, BitVec.ofInt_natCast, BitVec.ofNat_add]
  inside := inside

/-- One `devfile_read` gives what is left of the file, at most a page of it and at most what
was asked for. -/
theorem ReadsFrom.devfileRead (reads : ReadsFrom s i f size off) (few : n < 2 ^ 64)
    (fsipcbuf buf : Bytes) :
    ∃ part page after, s.devfileRead diskFiles i fsipcbuf buf n =
        some (((min (min n pgSize) (size - off) : Nat) : Int), part, page, after) ∧
      (∀ k, part k = if k < min (min n pgSize) (size - off) then s.fs.contents f (off + k)
        else buf k) ∧
      after.fs = s.fs ∧ (after.fd i).omode = (s.fd i).omode ∧
      ReadsFrom after i f size (off + min (min n pgSize) (size - off)) := by
  have bound := reads.whole.small
  have inside := reads.inside
  obtain ⟨page, request⟩ : ∃ page, readRequest fsipcbuf (s.fd i).fileId n = page := ⟨_, rfl⟩
  have fileid : reqFileid page = (s.fd i).fileId := by rw [← request, reqFileid_readRequest]
  have count : (reqN page).toNat = n := by
    rw [← request, reqN, readRequest, sizeAt_setSize, BitVec.toNat_ofNat]
    omega
  obtain ⟨cut, clamped⟩ : ∃ cut, (if pgSize < (reqN page).toNat then
      setSize page 8 (BitVec.ofNat 64 pgSize) else page) = cut := ⟨_, rfl⟩
  have asked : (reqN cut).toNat = min n pgSize := by
    rw [← clamped, count]
    split
    · have page := pgSize_eq
      rw [reqN, sizeAt_setSize, BitVec.toNat_ofNat]
      omega
    · rw [count]
      omega
  obtain ⟨got, total⟩ : ∃ got, got = min (min n pgSize) (size - off) := ⟨_, rfl⟩
  have served : s.serveRead diskFiles page =
      if (got : Int) ≤ 0 then some ((got : Int), s.fs.readInto f off got 0 cut, s)
      else some ((got : Int), s.fs.readInto f off got 0 cut, s.advance i got) := by
    have whole : fileRead f cut (min n pgSize) (BitVec.ofNat 32 off) s.fs =
        some ((got : Int), s.fs.readInto f off got 0 cut, s.fs) := by
      rw [reads.whole.fileRead (by omega) (by omega), ← total]
    unfold Server.serveRead
    rw [fileid, reads.lookup]
    dsimp only
    rw [reads.file]
    dsimp only
    rw [clamped, asked, reads.offset]
    change ((fileRead f cut (min n pgSize) (BitVec.ofNat 32 off) s.fs).map _) = _
    rw [whole]
    by_cases none : (got : Int) ≤ 0
    · rw [if_pos none, Option.map_some, if_pos none]
    · rw [if_neg none, Option.map_some, if_neg none]
  rw [← total]
  have handled : s.serve diskFiles fsreqRead page 0 =
      (s.serveRead diskFiles page).map fun out => (out.1, out.2.1, none, out.2.2) := rfl
  unfold Server.devfileRead
  rw [request, handled, served]
  by_cases none : (got : Int) ≤ 0
  · have zero : got = 0 := by omega
    subst zero
    rw [if_pos none]
    exact ⟨buf, s.fs.readInto f off 0 0 cut, s, rfl,
      fun k => by rw [if_neg (Nat.not_lt_zero k)], rfl, rfl, reads⟩
  · rw [if_neg none]
    refine ⟨memmove buf 0 (s.fs.readInto f off got 0 cut) 0 got, s.fs.readInto f off got 0 cut,
      s.advance i got, ?_, fun k => ?_, rfl, ?_, reads.advance (by omega)⟩
    · simp only [Option.map_some]
      rw [if_neg none, Int.toNat_natCast]
    · rw [memmove]
      by_cases here : k < got
      · have place : 0 + (k - 0) = k := by omega
        rw [if_pos (by omega), if_pos here, Disk.readInto, place, if_pos (by omega)]
      · rw [if_neg (by omega), if_neg here]
    · simp [Server.advance]

def returned (results : List (Int × Bytes)) : List (BitVec 8) :=
  results.flatMap fun (r, buf) => (List.range r.toNat).map buf

def total (results : List (Int × Bytes)) : Nat := (results.map fun (r, _) => r.toNat).sum

/-- Reads one after the other: what they return, put together, is the next part of the
file. -/
theorem ReadsFrom.readEach {requests : List (Nat × Bytes)} (reads : ReadsFrom s i f size off)
    (few : ∀ request ∈ requests, request.1 < 2 ^ 64) (fsipcbuf : Bytes) :
    ∃ results after, Server.readEach diskFiles i requests fsipcbuf s = some (results, after) ∧
      returned results = (List.range (total results)).map (fun k => s.fs.contents f (off + k)) ∧
      ReadsFrom after i f size (off + total results) ∧
      ∀ k n buf, requests[k]? = some (n, buf) → ∃ (r : Int) (part : Bytes),
        results[k]? = some (r, part) ∧ 0 ≤ r ∧ r ≤ (min n pgSize : Nat) ∧
        (r = 0 → off + total (results.take k) = size ∨ n = 0) := by
  induction requests generalizing s off fsipcbuf with
  | nil => exact ⟨[], s, rfl, rfl, reads, by simp⟩
  | cons request rest ih =>
    obtain ⟨n, buf⟩ := request
    obtain ⟨part, page, next, ran, bytes, same, -, further⟩ :=
      reads.devfileRead (few (n, buf) List.mem_cons_self) fsipcbuf buf
    obtain ⟨got, count⟩ : ∃ got, got = min (min n pgSize) (size - off) := ⟨_, rfl⟩
    dsimp only at further bytes ran
    rw [← count] at ran bytes further
    obtain ⟨results, after, rests, back, final, each⟩ :=
      ih further (fun request member => few request (List.mem_cons_of_mem _ member)) page
    refine ⟨((got : Int), part) :: results, after, ?_, ?_, ?_, ?_⟩
    · rw [Server.readEach, ran]
      simp only [Option.bind_some]
      rw [rests]
      rfl
    · have first : (List.range got).map part =
          (List.range got).map fun k => s.fs.contents f (off + k) :=
        List.map_congr_left fun k member => by rw [bytes, if_pos (List.mem_range.mp member)]
      have later : returned results =
          (List.range (total results)).map fun k => s.fs.contents f (off + (got + k)) := by
        rw [back, same]
        simp only [Nat.add_assoc]
      have both : total (((got : Int), part) :: results) = got + total results := by
        simp [total]
      have split : returned (((got : Int), part) :: results) =
          (List.range got).map part ++ returned results := by simp [returned]
      rw [split, both, first, later, List.range_add, List.map_append, List.map_map]
      rfl
    · have both : total (((got : Int), part) :: results) = got + total results := by
        simp [total]
      rw [both, ← Nat.add_assoc]
      exact final
    · intro k n' buf' here
      cases k with
      | zero =>
        obtain ⟨rfl, rfl⟩ : n = n' ∧ buf = buf' := by simpa using here
        refine ⟨got, part, rfl, by omega, by omega, fun none => ?_⟩
        have inside := reads.inside
        have page := pgSize_eq
        simp only [List.take_zero, total, List.map_nil, List.sum_nil]
        omega
      | succ k =>
        obtain ⟨r, part', there, low, high, ends⟩ := each k n' buf' (by simpa using here)
        refine ⟨r, part', by simpa using there, low, high, fun none => ?_⟩
        have both : total ((((got : Int), part) :: results).take (k + 1)) =
            got + total (results.take k) := by simp [total]
        rw [both, ← Nat.add_assoc]
        exact ends none

theorem ReadsFrom.readnFrom {left tot : Nat} {fsipcbuf buf : Bytes} (few : n < 2 ^ 64)
    (reads : ReadsFrom s i f size tot) (readable : (s.fd i).omode &&& oAccMode ≠ oWronly)
    (enough : tot ≤ n) (rounds : n - tot < left) (filled : ∀ k < tot, buf k = s.fs.contents f k) :
    ∃ part after, Server.readnFrom diskFiles i n left tot fsipcbuf buf s =
        some (((min n size : Nat) : Int), part, after) ∧
      ∀ k < min n size, part k = s.fs.contents f k := by
  have inside := reads.inside
  induction left generalizing s tot fsipcbuf buf with
  | zero => omega
  | succ left ih =>
    rw [Server.readnFrom]
    by_cases more : tot < n
    · obtain ⟨part, page, next, ran, bytes, same, mode, further⟩ :=
        reads.devfileRead (n := n - tot) (by omega) fsipcbuf fun k => buf (tot + k)
      obtain ⟨got, count⟩ : ∃ got, got = min (min (n - tot) pgSize) (size - tot) := ⟨_, rfl⟩
      rw [← count] at ran bytes further
      have page := pgSize_eq
      have merged : ∀ k < tot + got,
          (if k < tot then buf k else part (k - tot)) = s.fs.contents f k := by
        intro k here
        by_cases old : k < tot
        · rw [if_pos old, filled k old]
        · have place : tot + (k - tot) = k := by omega
          rw [if_neg old, bytes, if_pos (by omega), place]
      rw [if_pos more, Server.read, if_neg readable, ran]
      simp only [Option.bind_some]
      rw [if_neg (by omega)]
      by_cases none : got = 0
      · have whole : tot = min n size := by omega
        rw [if_pos (by omega), ← whole]
        exact ⟨_, _, rfl, fun k here => merged k (by omega)⟩
      · rw [if_neg (by omega), Int.toNat_natCast, ← same]
        rw [← mode] at readable
        exact ih further readable (by omega) (by omega)
          (fun k here => by rw [same]; exact merged k here) further.inside
    · have whole : tot = min n size := by omega
      rw [if_neg more, ← whole]
      exact ⟨_, _, rfl, fun k here => filled k here⟩

end Calls

/-- The reads of a file through one id, from offset 0 on, return the bytes of the file in
order: together its first bytes, as many as `fd_offset` then says, each time at most a page
and at most what was asked for, and nothing only at the end of the file or when nothing was
asked for. So `readn` returns all of the file that is asked for. -/
theorem sequential_reads {s : Server Disk FilePtr} {i : Slot} {f : FilePtr} {size : Nat}
    (reads : ReadsFrom s i f size 0) (fsipcbuf : Bytes) :
    (∀ requests : List (Nat × Bytes), (∀ request ∈ requests, request.1 < 2 ^ 64) →
      ∃ results after, Server.readEach diskFiles i requests fsipcbuf s = some (results, after) ∧
        returned results = (List.range (total results)).map (s.fs.contents f) ∧
        total results ≤ size ∧ (after.fd i).offset = BitVec.ofNat 32 (total results) ∧
        ∀ k n buf, requests[k]? = some (n, buf) → ∃ (r : Int) (part : Bytes),
          results[k]? = some (r, part) ∧ 0 ≤ r ∧ r ≤ (min n pgSize : Nat) ∧
          (r = 0 → total (results.take k) = size ∨ n = 0)) ∧
    ((s.fd i).omode &&& oAccMode ≠ oWronly → ∀ n buf, n < 2 ^ 64 →
      ∃ part after, s.readn diskFiles i fsipcbuf buf n =
          some (((min n size : Nat) : Int), part, after) ∧
        ∀ k < min n size, part k = s.fs.contents f k) := by
  constructor
  · intro requests few
    obtain ⟨results, after, ran, back, final, each⟩ := reads.readEach few fsipcbuf
    have inside := final.inside
    have offset := final.offset
    simp only [Nat.zero_add] at back each inside offset
    exact ⟨results, after, ran, back, inside, offset, each⟩
  · intro readable n buf few
    exact reads.readnFrom few readable (Nat.zero_le n) (by omega) (fun k none => by omega)

/-- Five bytes were written to the file "a", and its offset was set back. -/
def rewound : Server Disk FilePtr :=
  let s := ((serverWithFile.devfileWrite diskFiles 0 (fun _ => 0) sevens 5).map Prod.snd).getD
    serverWithFile
  { s with fd := update s.fd 0 { s.fd 0 with offset := 0 } }

theorem rewound_reads : ReadsFrom rewound 0 (3 * pgSize) 5 0 where
  lookup := by decide +kernel
  file := by decide +kernel
  whole := by
    refine ⟨by decide +kernel, by decide, fun more => absurd more (by decide), ?_⟩
    intro bno here
    have first : bno = 0 := by
      rw [pgSize_eq] at here
      omega
    subst first
    exact ⟨by decide +kernel, by decide +kernel⟩
  offset := by decide +kernel
  inside := Nat.zero_le 5

theorem sequential_reads_rewound :
    (∃ results after, Server.readEach diskFiles 0 [(3, sevens), (9, sevens)] (fun _ => 0) rewound =
        some (results, after) ∧
      returned results = (List.range (total results)).map (rewound.fs.contents (3 * pgSize))) ∧
    ∃ part after, rewound.readn diskFiles 0 (fun _ => 0) (fun _ => 0) 9 = some (5, part, after) ∧
      ∀ k < 5, part k = rewound.fs.contents (3 * pgSize) k := by
  obtain ⟨each, all⟩ := sequential_reads rewound_reads fun _ => 0
  constructor
  · obtain ⟨results, after, ran, back, -⟩ := each [(3, sevens), (9, sevens)] (by simp)
    exact ⟨results, after, ran, back⟩
  · exact all (by decide +kernel) 9 (fun _ => 0) (by decide)

end Fs

end Jos
