import Mathlib.Data.List.Pairwise
import Jos.Fs.Fsformat
import Jos.Fs.Read

/-! What fsformat writes for a file: a run of blocks, and behind ten of them or more the
indirect block. -/

set_option autoImplicit false

namespace Jos

open Foundation Function

namespace Fs

open Disk

namespace Fsformat

def blocks (size : Nat) : Nat := (size + 4095) / 4096

def total (size : Nat) : Nat := blocks size + if nDirect ≤ blocks size then 1 else 0

section Numbers

variable {n : Nat}

theorem roundup_ofNat (small : n < 2 ^ 31) :
    (roundup (BitVec.ofNat 32 n)).toNat = blocks n * pgSize := by
  have low : (BitVec.ofNat 32 n).toNat = n := toNat_ofNat32 small
  have one : (1 : BitVec 32).toNat = 1 := rfl
  rw [roundup, pgSize_eq, blocks]
  simp only [BitVec.toNat_sub, BitVec.toNat_add, BitVec.toNat_umod, low, one, BitVec.toNat_ofNat, Nat.reducePow,
    Nat.reduceMod]
  omega

theorem roundupInt_ofNat (positive : 0 < n) : roundupInt n = (blocks n * pgSize : Nat) := by
  obtain ⟨m, rfl⟩ : ∃ m, n = m + 1 := ⟨n - 1, by omega⟩
  have rest : (((m + 1 : Nat) : Int) - 1).tmod pgSize = ((m % 4096 : Nat) : Int) := by
    have less : ((m + 1 : Nat) : Int) - 1 = (m : Int) := by omega
    rw [less, pgSize_eq]
    rfl
  rw [roundupInt, rest, blocks, pgSize_eq]
  omega

theorem blocks_le (small : n < maxFileSize) : blocks n ≤ nDirect + nIndirect := by
  have bound : n < (10 + 1024) * 4096 := small
  have count : nDirect + nIndirect = 10 + 1024 := rfl
  rw [blocks]
  omega

end Numbers

section Stores

variable {mem : Disk} {place : Nat → Nat} {start : BitVec 32} {base i count k : Nat}

theorem setBlocks_succ : setBlocks place start i (count + 1) mem =
    (setBlocks place start i count mem).setWord (place (i + count))
      (start + BitVec.ofNat 32 (i + count)) := by
  rw [setBlocks, List.range'_1_concat, List.foldl_append]
  rfl

theorem setBlocks_other (line : ∀ j, place (i + j) = base + 4 * j)
    (outside : k < base ∨ base + 4 * count ≤ k) : setBlocks place start i count mem k = mem k := by
  induction count with
  | zero => rfl
  | succ count ih =>
    rw [setBlocks_succ, setWord_other (by rw [line]; omega), ih (by omega)]

theorem word_setBlocks (line : ∀ j, place (i + j) = base + 4 * j) {j : Nat} (inside : j < count) :
    (setBlocks place start i count mem).word (place (i + j)) = start + BitVec.ofNat 32 (i + j) := by
  induction count with
  | zero => omega
  | succ count ih =>
    rw [setBlocks_succ]
    by_cases last : j = count
    · rw [last, word_setWord]
    · rw [word_setWord_other (by rw [line, line]; omega), ih (by omega)]

theorem memmove_other {src : Bytes} {addr from' n : Nat} (outside : k < addr ∨ addr + n ≤ k) :
    memmove mem addr src from' n k = mem k := by
  rw [memmove, if_neg (by omega)]

theorem memmove_here {src : Bytes} {addr from' n : Nat} (inside : k < n) :
    memmove mem addr src from' n (addr + k) = src (from' + k) := by
  rw [memmove, if_pos (by omega), Nat.add_sub_cancel_left]

end Stores

/-- The size and the pointers of a file at `f`, whose blocks begin at `start`. -/
structure Described (mem : Disk) (f : Nat) (start size : Nat) : Prop where
  length : mem.fSize f = BitVec.ofNat 32 size
  direct : ∀ i < nDirect, i < blocks size → mem.fDirect f i = BitVec.ofNat 32 (start + i)
  indirect : nDirect ≤ blocks size → mem.fIndirect f = BitVec.ofNat 32 (start + blocks size)
  table : ∀ i, nDirect ≤ i → i < blocks size →
    mem.word ((start + blocks size) * pgSize + 4 * (i - nDirect)) = BitVec.ofNat 32 (start + i)
  rest : ∀ i, nDirect ≤ blocks size → blocks size ≤ i → i < nDirect + nIndirect →
    mem.word ((start + blocks size) * pgSize + 4 * (i - nDirect)) = 0

/-- The pointers that a file of this size has no use for are those of `other` at `g`. -/
structure Unused (other : Disk) (g : Nat) (mem : Disk) (f : Nat) (size : Nat) : Prop where
  direct : ∀ i < nDirect, blocks size ≤ i → mem.fDirect f i = other.fDirect g i
  indirect : blocks size < nDirect → mem.fIndirect f = other.fIndirect g

/-- What `finishfile` does to a file whose blocks end at `diskpos`. -/
structure Finished (nblocks : Nat) (f start size : Nat) (s after : Format) : Prop where
  pos : s.diskpos = (start + blocks size) * pgSize → after.diskpos = (start + total size) * pgSize
  same : blocks size < nDirect → after.diskpos = s.diskpos
  fits : start + blocks size < nblocks → start + total size < nblocks
  described : Described after.mem f start size
  unused : Unused s.mem f after.mem f size
  other : ∀ k, k < f + 128 ∨ f + 180 ≤ k ∨ (f + 132 ≤ k ∧ k < f + 136) →
    k < (start + blocks size) * pgSize ∨ (start + total size) * pgSize ≤ k →
      after.mem k = s.mem k

section Alloc

variable {nblocks n addr : Nat} {s after : Format}

theorem alloc_eq (small : n < 2 ^ 31) {pos : Nat} (here : s.diskpos = pos * pgSize)
    (ran : alloc nblocks (BitVec.ofNat 32 n) s = some (addr, after)) :
    addr = pos * pgSize ∧ after = { s with diskpos := (pos + blocks n) * pgSize } ∧
      pos + blocks n < nblocks := by
  unfold alloc at ran
  dsimp only at ran
  rw [roundup_ofNat small, here, ← Nat.add_mul, blockof,
    Nat.mul_div_cancel _ (by decide : 0 < pgSize)] at ran
  split at ran
  · cases ran
  · rename_i fits
    cases ran
    exact ⟨rfl, rfl, not_le.mp fits⟩

end Alloc

section Finishfile

variable {nblocks start size : Nat} {f : Nat} {s after : Format}

theorem line_direct (f : Nat) (j : Nat) : fDirectAt f (0 + j) = f + 136 + 4 * j := by
  rw [fDirectAt, Nat.zero_add]

theorem line_table (ind j : Nat) : ind + 4 * (nDirect + j - nDirect) = ind + 4 * j := by
  rw [Nat.add_sub_cancel_left]

/-- The direct pointers after the first two stores of `finishfile`. -/
theorem stored_direct {mem : Disk} {count i : Nat} {len : BitVec 32} (low : i < nDirect) :
    (setBlocks (fDirectAt f) (BitVec.ofNat 32 start) 0 (min count nDirect)
      (mem.setWord (fSizeAt f) len)).fDirect f i =
        if i < count then BitVec.ofNat 32 (start + i) else mem.fDirect f i := by
  split
  · rename_i inside
    have stored : (setBlocks (fDirectAt f) (BitVec.ofNat 32 start) 0 (min count nDirect)
        (mem.setWord (fSizeAt f) len)).word (fDirectAt f (0 + i)) =
          BitVec.ofNat 32 start + BitVec.ofNat 32 (0 + i) :=
      word_setBlocks (line_direct f) (lt_min inside low)
    rw [Nat.zero_add, ← BitVec.ofNat_add] at stored
    exact stored
  · rename_i outside
    refine word_congr fun k lower upper => ?_
    have place : fDirectAt f i = f + 136 + 4 * i := rfl
    have size : fSizeAt f = f + 128 := rfl
    rw [setBlocks_other (line_direct f) (by omega), setWord_other (by omega)]

/-- The first two stores of `finishfile` leave the size, and nothing else outside of the direct
pointers. -/
theorem stored_length {mem : Disk} {count : Nat} {len : BitVec 32} :
    (setBlocks (fDirectAt f) (BitVec.ofNat 32 start) 0 (min count nDirect)
      (mem.setWord (fSizeAt f) len)).fSize f = len := by
  have sizeAt : fSizeAt f = f + 128 := rfl
  refine (word_congr fun k lower upper => ?_).trans (word_setWord (d := mem))
  rw [setBlocks_other (line_direct f) (by omega)]

theorem stored_other {mem : Disk} {count k : Nat} {len : BitVec 32}
    (outside : k < f + 128 ∨ f + 176 ≤ k ∨ (f + 132 ≤ k ∧ k < f + 136)) :
    setBlocks (fDirectAt f) (BitVec.ofNat 32 start) 0 (min count nDirect)
      (mem.setWord (fSizeAt f) len) k = mem k := by
  have sizeAt : fSizeAt f = f + 128 := rfl
  have ten : nDirect = 10 := rfl
  rw [setBlocks_other (line_direct f) (by omega), setWord_other (by omega)]

/-- Below ten blocks `finishfile` stores the size and the direct pointers. -/
theorem finishfile_few (small : size < maxFileSize) (few : blocks size < nDirect)
    (ran : finishfile nblocks f (BitVec.ofNat 32 start) (BitVec.ofNat 32 size) s = some after) :
    Finished nblocks f start size s after := by
  have size31 : size < 2 ^ 31 := Nat.lt_trans small (by decide)
  have indirectAt : fIndirectAt f = f + 176 := rfl
  have same : total size = blocks size := by
    rw [total, if_neg (not_le.mpr few), Nat.add_zero]
  unfold finishfile at ran
  dsimp only at ran
  rw [roundup_ofNat size31, Nat.mul_div_cancel _ (by decide : 0 < pgSize),
    if_neg (not_le.mpr few)] at ran
  cases ran
  refine ⟨fun pos => by rw [same]; exact pos, fun _ => rfl, fun fits => by rw [same]; exact fits,
    ⟨stored_length, ?_, ?_, ?_, ?_⟩, ⟨?_, ?_⟩, ?_⟩
  · intro i low inside
    exact (stored_direct low).trans (if_pos inside)
  · exact fun many => absurd many (not_le.mpr few)
  · intro i high inside
    omega
  · exact fun i many => absurd many (not_le.mpr few)
  · intro i low outside
    exact (stored_direct low).trans (if_neg (not_lt.mpr outside))
  · intro _
    exact word_congr fun k lower upper => stored_other (by omega)
  · intro k outside _
    exact stored_other (by omega)

theorem finishfile_many (small : size < maxFileSize) (many : nDirect ≤ blocks size)
    (apart : (start + blocks size + 1) * pgSize ≤ f)
    (pos : s.diskpos = (start + blocks size) * pgSize)
    (clean : ∀ k, s.diskpos ≤ k → k < nblocks * pgSize → s.mem k = 0)
    (ran : finishfile nblocks f (BitVec.ofNat 32 start) (BitVec.ofNat 32 size) s = some after) :
    Finished nblocks f start size s after := by
  have bound := blocks_le small
  have size31 : size < 2 ^ 31 := Nat.lt_trans small (by decide)
  have page := pgSize_eq
  have ten : nDirect = 10 := rfl
  have words : nIndirect = 1024 := rfl
  have sizeAt : fSizeAt f = f + 128 := rfl
  have indirectAt : fIndirectAt f = f + 176 := rfl
  unfold finishfile at ran
  dsimp only at ran
  rw [roundup_ofNat size31, Nat.mul_div_cancel _ (by decide : 0 < pgSize), if_pos many] at ran
  obtain ⟨mem, made⟩ : ∃ mem, setBlocks (fDirectAt f) (BitVec.ofNat 32 start) 0
      (min (blocks size) nDirect) (s.mem.setWord (fSizeAt f) (BitVec.ofNat 32 size)) = mem :=
    ⟨_, rfl⟩
  have direct : ∀ i < nDirect, mem.fDirect f i = BitVec.ofNat 32 (start + i) := by
    intro i low
    rw [← made, stored_direct low, if_pos (Nat.lt_of_lt_of_le low many)]
  have length : mem.fSize f = BitVec.ofNat 32 size := by rw [← made, stored_length]
  have other : ∀ k, k < f + 128 ∨ f + 176 ≤ k ∨ (f + 132 ≤ k ∧ k < f + 136) →
      mem k = s.mem k := by
    intro k outside
    rw [← made, stored_other outside]
  rw [made] at ran
  obtain ⟨⟨ind, s1⟩, alloced, same⟩ := Option.map_eq_some_iff.mp ran
  obtain ⟨rfl, rfl, fits⟩ := alloc_eq (by decide) (by exact pos) alloced
  have one : blocks pgSize = 1 := by decide
  rw [one] at same fits
  have whole : total size = blocks size + 1 := by rw [total, if_pos many]
  dsimp only at same
  rw [blockof, Nat.mul_div_cancel _ (by decide : 0 < pgSize)] at same
  obtain ⟨ind, place⟩ : ∃ ind, (start + blocks size) * pgSize = ind := ⟨_, rfl⟩
  have next : (start + blocks size + 1) * pgSize = ind + 4096 := by
    rw [Nat.add_mul, place, Nat.one_mul, page]
  have below : ind + 4096 ≤ f := by rw [← next]; exact apart
  have room : ind + 4096 ≤ nblocks * pgSize := by
    rw [← next]
    exact Nat.mul_le_mul_right pgSize (Nat.le_of_lt fits)
  rw [place] at same
  obtain ⟨last, stored⟩ : ∃ last, setBlocks (fun i => ind + 4 * (i - nDirect))
      (BitVec.ofNat 32 start) nDirect (blocks size - nDirect)
      (mem.setWord (fIndirectAt f) (BitVec.ofNat 32 (start + blocks size))) = last := ⟨_, rfl⟩
  rw [stored] at same
  subst same
  have outer : ∀ k, k < ind ∨ ind + 4 * (blocks size - nDirect) ≤ k →
      k < f + 176 ∨ f + 180 ≤ k → last k = mem k := by
    intro k outside apart
    rw [← stored, setBlocks_other (line_table ind) outside, setWord_other (by omega)]
  refine ⟨fun _ => by rw [whole, ← Nat.add_assoc], fun few => absurd many (not_le.mpr few),
    fun _ => by rw [whole]; exact fits, ⟨?_, ?_, ?_, ?_, ?_⟩, ⟨?_, ?_⟩, ?_⟩
  · rw [← length]
    exact word_congr fun k lower upper => outer k (by omega) (by omega)
  · intro i low _
    have place : fDirectAt f i = f + 136 + 4 * i := rfl
    rw [← direct i low]
    exact word_congr fun k lower upper => outer k (by omega) (by omega)
  · intro _
    change last.word (fIndirectAt f) = _
    rw [← stored]
    refine (word_congr fun k lower upper => ?_).trans (word_setWord (d := mem))
    rw [setBlocks_other (line_table ind) (by omega)]
  · intro i high inside
    obtain ⟨j, rfl⟩ : ∃ j, i = nDirect + j := ⟨i - nDirect, by omega⟩
    rw [place, BitVec.ofNat_add, ← stored]
    exact word_setBlocks (line_table ind) (show j < blocks size - nDirect by omega)
  · intro i _ outside inside
    rw [place]
    refine word_zero fun k lower upper => ?_
    have start : s.diskpos = ind := by rw [pos, place]
    rw [start] at clean
    change last k = 0
    rw [outer k (by omega) (by omega), other k (by omega)]
    exact clean k (by omega) (by omega)
  · intro i low outside
    omega
  · intro few
    omega
  · intro k outside outside'
    rw [whole, place, ← Nat.add_assoc, next] at outside'
    change last k = s.mem k
    rw [outer k (by omega) (by omega), other k (by omega)]

theorem finishfile_spec (small : size < maxFileSize)
    (apart : nDirect ≤ blocks size → (start + blocks size + 1) * pgSize ≤ f)
    (pos : nDirect ≤ blocks size → s.diskpos = (start + blocks size) * pgSize)
    (clean : nDirect ≤ blocks size → ∀ k, s.diskpos ≤ k → k < nblocks * pgSize → s.mem k = 0)
    (ran : finishfile nblocks f (BitVec.ofNat 32 start) (BitVec.ofNat 32 size) s = some after) :
    Finished nblocks f start size s after := by
  rcases Nat.lt_or_ge (blocks size) nDirect with few | many
  · exact finishfile_few small few ran
  · exact finishfile_many small many (apart many) (pos many) (clean many) ran

end Finishfile

section Move

variable {mem mem' other : Disk} {f f' g start size addr addr' : Nat}

theorem word_move (same : ∀ k < 4, mem' (addr' + k) = mem (addr + k)) :
    mem'.word addr' = mem.word addr := by
  have zeroth := same 0 (by decide)
  rw [Nat.add_zero, Nat.add_zero] at zeroth
  rw [Disk.word, same 3 (by decide), same 2 (by decide), same 1 (by decide), zeroth]
  rfl

section

variable (same : ∀ k < fileSize, mem' (f' + k) = mem (f + k))

include same

theorem word_moved {field : Nat}
    (inside : field + 4 ≤ fileSize) : mem'.word (f' + field) = mem.word (f + field) :=
  word_move fun k low => by
    rw [Nat.add_assoc, Nat.add_assoc]
    exact same (field + k) (by omega)

theorem fDirect_moved {i : Nat} (low : i < nDirect) : mem'.fDirect f' i = mem.fDirect f i := by
  have ten : nDirect = 10 := rfl
  have room : fileSize = 256 := rfl
  rw [Disk.fDirect, Disk.fDirect, fDirectAt, fDirectAt, Nat.add_assoc, Nat.add_assoc]
  exact word_moved same (by omega)

theorem fIndirect_moved :
    mem'.fIndirect f' = mem.fIndirect f := word_moved same (by decide : 176 + 4 ≤ fileSize)

theorem fType_moved :
    mem'.fType f' = mem.fType f := word_moved same (by decide : 132 + 4 ≤ fileSize)

end

theorem Described.move (described : Described mem f start size) (small : size < maxFileSize)
    (same : ∀ k < fileSize, mem' (f' + k) = mem (f + k))
    (kept : nDirect ≤ blocks size → ∀ k, start * pgSize ≤ k →
      k < (start + total size) * pgSize → mem' k = mem k) :
    Described mem' f' start size := by
  have bound := blocks_le small
  have ten : nDirect = 10 := rfl
  have words : nIndirect = 1024 := rfl
  have word : ∀ i, nDirect ≤ blocks size → nDirect ≤ i → i < nDirect + nIndirect →
      mem'.word ((start + blocks size) * pgSize + 4 * (i - nDirect)) =
        mem.word ((start + blocks size) * pgSize + 4 * (i - nDirect)) := by
    intro i many high inside
    have whole : total size = blocks size + 1 := by rw [total, if_pos many]
    have next : (start + (blocks size + 1)) * pgSize = (start + blocks size) * pgSize + 4096 := by
      rw [← Nat.add_assoc, Nat.add_mul, Nat.one_mul]
      rfl
    have below : start * pgSize ≤ (start + blocks size) * pgSize :=
      Nat.mul_le_mul_right pgSize (Nat.le_add_right _ _)
    have kept := kept many
    rw [whole, next] at kept
    exact word_congr fun k lower upper => kept k (by omega) (by omega)
  refine ⟨?_, ?_, ?_, ?_, ?_⟩
  · rw [← described.length]
    exact word_moved same (by decide : 128 + 4 ≤ fileSize)
  · intro i low inside
    rw [fDirect_moved same low]
    exact described.direct i low inside
  · intro many
    rw [fIndirect_moved same]
    exact described.indirect many
  · intro i high inside
    rw [word i (by omega) high (by omega)]
    exact described.table i high inside
  · intro i many outside inside
    rw [word i many (by omega) inside]
    exact described.rest i many outside inside

theorem Unused.move (unused : Unused other g mem f size)
    (same : ∀ k < fileSize, mem' (f' + k) = mem (f + k)) : Unused other g mem' f' size := by
  refine ⟨fun i low outside => ?_, fun few => ?_⟩
  · rw [fDirect_moved same low]
    exact unused.direct i low outside
  · rw [fIndirect_moved same]
    exact unused.indirect few

theorem Unused.congr {other' : Disk} (unused : Unused other g mem f size)
    (same : ∀ field, 136 ≤ field → field < 180 → other'.word (g + field) = other.word (g + field)) :
    Unused other' g mem f size := by
  have ten : nDirect = 10 := rfl
  refine ⟨fun i low outside => ?_, fun few => ?_⟩
  · rw [unused.direct i low outside, Disk.fDirect, Disk.fDirect, fDirectAt, Nat.add_assoc]
    exact (same (136 + 4 * i) (by omega) (by omega)).symm
  · rw [unused.indirect few]
    exact (same 176 (by decide) (by decide)).symm

end Move

end Fsformat

end Fs

end Jos
