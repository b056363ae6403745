import Mathlib.Data.Int.Order.Basic
import Jos.Fs.Disk

/-! Reads and writes of a file by a client, as lib/file.c sends them to the server. -/

set_option autoImplicit false

namespace Jos

open Function

namespace Fs

/-! Words in memory. -/

section Words

variable {page : Bytes} {off : Nat}

theorem int32At_setInt32 (value : BitVec 32) : int32At (setInt32 page off value) off = value := by
  unfold int32At setInt32
  have differ : ∀ i j : Nat, i ≠ j → off + i ≠ off + j := fun i j other same => by omega
  have third : off + 2 ≠ off + 3 := differ 2 3 (by decide)
  have second : off + 1 ≠ off + 3 := differ 1 3 (by decide)
  have first : off ≠ off + 3 := differ 0 3 (by decide)
  have second' : off + 1 ≠ off + 2 := differ 1 2 (by decide)
  have first' : off ≠ off + 2 := differ 0 2 (by decide)
  have first'' : off ≠ off + 1 := differ 0 1 (by decide)
  rw [update_self, update_of_ne third, update_self, update_of_ne second, update_of_ne second',
    update_self, update_of_ne first, update_of_ne first', update_of_ne first'', update_self]
  apply BitVec.eq_of_toNat_eq
  have bound := value.isLt
  simp only [BitVec.toNat_append, BitVec.extractLsb'_toNat, Nat.shiftRight_eq_div_pow]
  rw [← Nat.shiftLeft_add_eq_or_of_lt (by omega), ← Nat.shiftLeft_add_eq_or_of_lt (by omega),
    ← Nat.shiftLeft_add_eq_or_of_lt (by omega)]
  simp only [Nat.shiftLeft_eq]
  omega

theorem setInt32_other {value : BitVec 32} {k : Nat} (outside : k < off ∨ off + 4 ≤ k) :
    setInt32 page off value k = page k := by
  unfold setInt32
  rw [update_of_ne (by omega), update_of_ne (by omega), update_of_ne (by omega),
    update_of_ne (by omega)]

theorem int32At_congr {other : Bytes} (same : ∀ k, off ≤ k → k < off + 4 → other k = page k) :
    int32At other off = int32At page off := by
  unfold int32At
  rw [same (off + 3) (by omega) (by omega), same (off + 2) (by omega) (by omega),
    same (off + 1) (by omega) (by omega), same off (by omega) (by omega)]

theorem sizeAt_setSize (value : BitVec 64) : sizeAt (setSize page off value) off = value := by
  have low : int32At (setSize page off value) off = value.extractLsb' 0 32 := by
    unfold setSize
    rw [int32At_congr fun k _ _ => setInt32_other (by omega), int32At_setInt32]
  have high : int32At (setSize page off value) (off + 4) = value.extractLsb' 32 32 :=
    int32At_setInt32 _
  rw [sizeAt, low, high]
  apply BitVec.eq_of_toNat_eq
  have bound := value.isLt
  simp only [BitVec.toNat_append, BitVec.extractLsb'_toNat, Nat.shiftRight_eq_div_pow]
  rw [← Nat.shiftLeft_add_eq_or_of_lt (by omega)]
  simp only [Nat.shiftLeft_eq]
  omega

theorem setSize_other {value : BitVec 64} {k : Nat} (outside : k < off ∨ off + 8 ≤ k) :
    setSize page off value k = page k := by
  unfold setSize
  rw [setInt32_other (by omega), setInt32_other (by omega)]

theorem sizeAt_congr {other : Bytes} (same : ∀ k, off ≤ k → k < off + 8 → other k = page k) :
    sizeAt other off = sizeAt page off := by
  unfold sizeAt
  rw [int32At_congr fun k low high => same k (by omega) (by omega),
    int32At_congr fun k low high => same k (by omega) (by omega)]

end Words

open Disk

/-- The size of `req_buf`, for both sides: `PGSIZE - (sizeof(int) + sizeof(size_t))`. -/
def reqBufSize : Nat := pgSize - (4 + 8)

def fsreqWrite : Nat := 4

/-- `fsipcbuf` as `devfile_write` fills it in. `req_buf` begins after the padding that aligns
`req_n`. -/
def writeRequest (fsipcbuf : Bytes) (fileid : BitVec 32) (buf : Bytes) (n : Nat) : Bytes :=
  memmove (setSize (setInt32 fsipcbuf 0 fileid) 8 (BitVec.ofNat 64 n)) reqBuf buf 0 n

variable {σ File : Type}

namespace Server

/-- `devfile_write` on the Fd page of a slot. The first page of `fsipcbuf` is sent. -/
def devfileWrite (fs : Files σ File) (s : Server σ File) (i : Slot) (fsipcbuf buf : Bytes)
    (n : Nat) : Option (Int × Server σ File) :=
  let n := if reqBufSize < n then reqBufSize else n
  (s.serve fs fsreqWrite (writeRequest fsipcbuf (s.fd i).fileId buf n) 0).map
    fun (r, _, _, s) => (r, s)

/-- The server stored the first `r` bytes of the client's buffer at the old offset, and went
on by `r`: what `serve_write` hands to `file_write` are these bytes. -/
structure Wrote (fs : Files σ File) (s after : Server σ File) (i : Slot) (handed buf : Bytes)
    (n : Nat) (r : Int) : Prop where
  count : 0 < r ∧ r ≤ n
  stored : ∃ f, (s.opentab i).oFile = some f ∧
    fs.fileWrite f handed r.toNat (s.fd i).offset s.fs = some (r, after.fs)
  bytes : ∀ k < r.toNat, handed k = buf k
  advanced : after.fd = update s.fd i { s.fd i with offset := (s.fd i).offset + BitVec.ofInt 32 r }

end Server

section Request

variable {fsipcbuf buf : Bytes} {fileid : BitVec 32} {n : Nat}

theorem reqFileid_writeRequest : reqFileid (writeRequest fsipcbuf fileid buf n) = fileid := by
  unfold reqFileid writeRequest
  have header : ∀ k, 0 ≤ k → k < 0 + 4 →
      memmove (setSize (setInt32 fsipcbuf 0 fileid) 8 (BitVec.ofNat 64 n)) reqBuf buf 0 n k =
        setInt32 fsipcbuf 0 fileid k := by
    intro k _ high
    have start : reqBuf = 16 := rfl
    rw [memmove, if_neg (by omega), setSize_other (by omega)]
  rw [int32At_congr header, int32At_setInt32]

theorem reqN_writeRequest : reqN (writeRequest fsipcbuf fileid buf n) = BitVec.ofNat 64 n := by
  unfold reqN writeRequest
  have header : ∀ k, 8 ≤ k → k < 8 + 8 →
      memmove (setSize (setInt32 fsipcbuf 0 fileid) 8 (BitVec.ofNat 64 n)) reqBuf buf 0 n k =
        setSize (setInt32 fsipcbuf 0 fileid) 8 (BitVec.ofNat 64 n) k := by
    intro k _ high
    have start : reqBuf = 16 := rfl
    rw [memmove, if_neg (by omega)]
  rw [sizeAt_congr header, sizeAt_setSize]

/-- The server finds the client's bytes up to the end of the page, and behind it its own
memory. -/
theorem requestBuf_writeRequest {fs : Files σ File} {s : Server σ File} {k : Nat} (inside : k < n) :
    s.requestBuf fs (writeRequest fsipcbuf fileid buf n) k =
      if k < 4080 then buf k else fs.diskMapped s.fs (k - 4080) := by
  have start : reqBuf = 16 := rfl
  have page : pgSize = 4096 := rfl
  unfold Server.requestBuf writeRequest
  by_cases here : k < 4080
  · have place : 0 + (reqBuf + k - reqBuf) = k := by omega
    rw [if_pos here, if_pos (by omega), memmove, if_pos (by omega), place]
  · have place : reqBuf + k - pgSize = k - 4080 := by omega
    rw [if_neg here, if_neg (by omega), place]

end Request

/-! The results of `file_write`. -/

theorem negative_error {r : Int} (known : r = -eInval ∨ r = -eNoDisk) : r < 0 := by
  rcases known with rfl | rfl <;> decide

theorem fileGetBlock_error {f filebno : Nat} {d after : Disk} {r : Int}
    (ran : fileGetBlock f filebno d = some (.error r, after)) : r = -eInval ∨ r = -eNoDisk := by
  unfold fileGetBlock at ran
  split at ran
  · cases ran
    exact .inl rfl
  · obtain ⟨⟨slot, middle⟩, -, ran⟩ := Option.bind_eq_some_iff.mp ran
    cases slot with
    | error r' =>
      cases ran
      exact .inr rfl
    | ok slot =>
      dsimp only at ran
      split at ran
      · obtain ⟨blk, -, ran⟩ := Option.bind_eq_some_iff.mp ran
        cases ran
      · split at ran
        · cases ran
          exact .inr rfl
        · obtain ⟨blk, -, ran⟩ := Option.bind_eq_some_iff.mp ran
          cases ran

theorem writeFrom_result {f : FilePtr} {buf : Bytes} {offset pos : BitVec 32} {count : BitVec 64}
    {left base : Nat} {d after : Disk} {r : Int}
    (ran : writeFrom f buf offset count left pos base d = some (r, after)) :
    r < 0 ∨ r = (count.setWidth 32).toInt := by
  induction left generalizing pos base d with
  | zero => cases ran
  | succ left ih =>
    rw [writeFrom] at ran
    split at ran
    · obtain ⟨⟨blk, middle⟩, got, ran⟩ := Option.bind_eq_some_iff.mp ran
      cases blk with
      | error r' =>
        cases ran
        exact .inl (negative_error (fileGetBlock_error got))
      | ok blk => exact ih ran
    · cases ran
      exact .inr rfl

/-- `file_write` writes all of the bytes, unless it fails. -/
theorem fileWrite_result {f : FilePtr} {buf : Bytes} {count : Nat} {offset : BitVec 32}
    {d after : Disk} {r : Int} (small : count < 2 ^ 31)
    (ran : fileWrite f buf count offset d = some (r, after)) : r < 0 ∨ r = count := by
  obtain ⟨⟨_, middle⟩, -, ran⟩ := Option.bind_eq_some_iff.mp ran
  have whole : ((BitVec.ofNat 64 count).setWidth 32).toInt = count := by
    rw [BitVec.toInt_eq_toNat_of_lt, BitVec.toNat_setWidth, BitVec.toNat_ofNat]
    · omega
    · rw [BitVec.toNat_setWidth, BitVec.toNat_ofNat]
      omega
  rw [← whole]
  exact writeFrom_result ran

/-- A `devfile_write` with a positive result has written what `serve_write` found in the
request, all of it. -/
theorem devfileWrite_ran {s after : Server Disk FilePtr} {i : Slot} {fsipcbuf buf : Bytes} {n : Nat}
    {r : Int} (own : Server.slotOf (s.fd i).fileId = i)
    (ran : s.devfileWrite diskFiles i fsipcbuf buf n = some (r, after)) (positive : 0 < r) :
    r = min n reqBufSize ∧
      (∃ f, (s.opentab i).oFile = some f ∧
        diskFiles.fileWrite f (s.requestBuf diskFiles
          (writeRequest fsipcbuf (s.fd i).fileId buf (min n reqBufSize))) r.toNat
          (s.fd i).offset s.fs = some (r, after.fs)) ∧
      after.fd = update s.fd i { s.fd i with offset := (s.fd i).offset + BitVec.ofInt 32 r } := by
  have size : reqBufSize = 4084 := rfl
  have cut : (if reqBufSize < n then reqBufSize else n) = min n reqBufSize := by
    split <;> omega
  unfold Server.devfileWrite at ran
  rw [cut] at ran
  dsimp only at ran
  obtain ⟨page, request⟩ : ∃ page,
      writeRequest fsipcbuf (s.fd i).fileId buf (min n reqBufSize) = page := ⟨_, rfl⟩
  rw [request] at ran ⊢
  have fileid : reqFileid page = (s.fd i).fileId := by rw [← request, reqFileid_writeRequest]
  have count : (reqN page).toNat = min n reqBufSize := by
    rw [← request, reqN_writeRequest, BitVec.toNat_ofNat]
    omega
  obtain ⟨⟨r', page', slot, final⟩, served, equal⟩ := Option.map_eq_some_iff.mp ran
  cases equal
  obtain ⟨⟨r', page'', final⟩, served, equal⟩ := Option.map_eq_some_iff.mp served
  cases equal
  unfold Server.serveWrite at served
  rw [fileid] at served
  split at served
  · rename_i refused
    cases served
    unfold Server.openfileLookup at refused
    dsimp only at refused
    split at refused <;> cases refused
    exact absurd positive (show ¬(0 : Int) < -eInval by decide)
  · rename_i j found
    have slot : j = i := by
      unfold Server.openfileLookup at found
      dsimp only at found
      split at found <;> cases found
      exact own
    subst slot
    split at served
    · cases served
      exact absurd positive (show ¬(0 : Int) < -1 by decide)
    · rename_i f file
      obtain ⟨⟨written, disk⟩, wrote, equal⟩ := Option.map_eq_some_iff.mp served
      rw [count] at wrote
      dsimp only at equal
      split at equal
      · cases equal
        omega
      · cases equal
        have whole : r' = min n reqBufSize := by
          rcases fileWrite_result (by omega) wrote with failed | whole
          · omega
          · exact whole
        have length : r'.toNat = min n reqBufSize := by omega
        rw [length]
        exact ⟨whole, ⟨f, file, wrote⟩, rfl⟩

/-- One `devfile_write` with a positive result stores the client's bytes just when they lie
in the page that is sent, or those beyond it are by chance the ones that the server has
there. -/
theorem devfile_write_format {s after : Server Disk FilePtr} {i : Slot} {fsipcbuf buf : Bytes}
    {n : Nat} {r : Int} (own : Server.slotOf (s.fd i).fileId = i)
    (ran : s.devfileWrite diskFiles i fsipcbuf buf n = some (r, after)) (positive : 0 < r) :
    s.Wrote diskFiles after i (s.requestBuf diskFiles
        (writeRequest fsipcbuf (s.fd i).fileId buf (min n reqBufSize))) buf n r ↔
      n ≤ 4080 ∨ ∀ k, 4080 ≤ k → k < min n reqBufSize → s.fs (k - 4080) = buf k := by
  obtain ⟨whole, stored, advanced⟩ := devfileWrite_ran own ran positive
  have length : r.toNat = min n reqBufSize := by omega
  have found : ∀ k < r.toNat, s.requestBuf diskFiles
      (writeRequest fsipcbuf (s.fd i).fileId buf (min n reqBufSize)) k =
        if k < 4080 then buf k else s.fs (k - 4080) := fun k inside =>
    requestBuf_writeRequest (length ▸ inside)
  constructor
  · intro wrote
    by_cases small : n ≤ 4080
    · exact .inl small
    · refine .inr fun k low high => ?_
      have same := wrote.bytes k (length ▸ high)
      rwa [found k (length ▸ high), if_neg (by omega)] at same
  · intro condition
    refine ⟨⟨positive, by omega⟩, stored, fun k inside => ?_, advanced⟩
    rw [found k inside]
    split
    · rfl
    · rename_i beyond
      rcases condition with small | same
      · omega
      · exact same k (by omega) (length ▸ inside)

/-- A server on the small disk, of which a client has opened the new file "a". -/
def serverWithFile : Server Disk FilePtr :=
  (serverStep diskFiles (Server.init smallDisk)
    (.request Server.fsreqOpen (some createA) 0 true)).getD (Server.init smallDisk)

def sevens : Bytes := fun _ => 7

/-- Of 4084 bytes the last four come from block 0 of the disk. -/
theorem devfile_write_4084 :
    ∃ after, serverWithFile.devfileWrite diskFiles 0 (fun _ => 0) sevens 4084 =
        some (4084, after) ∧
      after.fs (4 * pgSize + 4079) = 7 ∧ after.fs (4 * pgSize + 4080) = 0 ∧
      ¬serverWithFile.Wrote diskFiles after 0 (serverWithFile.requestBuf diskFiles
        (writeRequest (fun _ => 0) (serverWithFile.fd 0).fileId sevens 4084)) sevens 4084 4084 := by
  have runs : ((serverWithFile.devfileWrite diskFiles 0 (fun _ => 0) sevens 4084).any
      fun (r, after) => r = 4084 ∧ after.fs (4 * pgSize + 4079) = 7 ∧
        after.fs (4 * pgSize + 4080) = 0) = true := by decide +kernel
  cases ran : serverWithFile.devfileWrite diskFiles 0 (fun _ => 0) sevens 4084 with
  | none =>
    rw [ran] at runs
    cases runs
  | some result =>
    obtain ⟨r, after⟩ := result
    rw [ran] at runs
    obtain ⟨rfl, first, last⟩ := of_decide_eq_true runs
    refine ⟨after, rfl, first, last, fun wrote => ?_⟩
    have same := wrote.bytes 4080 (by decide)
    exact absurd same (by decide +kernel)

theorem serverWithFile_own : Server.slotOf (serverWithFile.fd 0).fileId = 0 := by decide +kernel

theorem devfile_write_format_sevens :
    ∃ after, serverWithFile.devfileWrite diskFiles 0 (fun _ => 0) sevens 4080 =
        some (4080, after) ∧
      serverWithFile.Wrote diskFiles after 0 (serverWithFile.requestBuf diskFiles
        (writeRequest (fun _ => 0) (serverWithFile.fd 0).fileId sevens 4080)) sevens 4080 4080 := by
  have runs : ((serverWithFile.devfileWrite diskFiles 0 (fun _ => 0) sevens 4080).any
      fun (r, _) => r = 4080) = true := by decide +kernel
  cases ran : serverWithFile.devfileWrite diskFiles 0 (fun _ => 0) sevens 4080 with
  | none =>
    rw [ran] at runs
    cases runs
  | some result =>
    obtain ⟨r, after⟩ := result
    rw [ran] at runs
    obtain rfl : r = 4080 := of_decide_eq_true runs
    exact ⟨after, rfl,
      (devfile_write_format serverWithFile_own ran (by decide)).mpr (.inl (by decide))⟩

end Fs

end Jos
