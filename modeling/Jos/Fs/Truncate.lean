import Jos.Fs.Failure

/-! What `file_truncate_blocks` does to a file, of which it leaves the first blocks or nothing. -/

set_option autoImplicit false

namespace Jos

open Foundation Function

namespace Fs

open Disk

def Disk.dataBlocks (d : Disk) (f : FilePtr) : List Nat :=
  ((List.range (blocksFor (d.fSize f))).filter (d.present f)).map (d.blockAt f)

def Disk.owned (d : Disk) (f : FilePtr) : List Nat :=
  d.dataBlocks f ++ if d.fIndirect f = 0 then [] else [(d.fIndirect f).toNat]

/-- A file with its blocks behind the bitmap, and its slots not in its own record. -/
structure Disk.Stored (d : Disk) (f : Nat) : Prop where
  legal : (d.fSize f).toNat ≤ maxFileSize
  behind : d.bitmapEnd ≤ f
  blocks : ∀ block ∈ d.owned f, d.OnDisk block ∧ d.bitmapEnd ≤ block * pgSize
  outside : d.fIndirect f ≠ 0 → f + fileSize ≤ (d.fIndirect f).toNat * pgSize ∨
    (d.fIndirect f).toNat * pgSize + pgSize ≤ f

structure Disk.Held (d : Disk) (f : Nat) : Prop where
  legal : (d.fSize f).toNat ≤ maxFileSize
  placed : d.Placed f
  blocks : ∀ block ∈ d.owned f, d.OnDisk block ∧ d.bitmapEnd ≤ block * pgSize
  outside : d.fIndirect f ≠ 0 → f + fileSize ≤ (d.fIndirect f).toNat * pgSize ∨
    (d.fIndirect f).toNat * pgSize + pgSize ≤ f

/-- The bytes that are stored to: the bitmap, the record of the file, and its indirect block. -/
def Disk.Touched (d : Disk) (f addr : Nat) : Prop :=
  (bitmap ≤ addr ∧ addr < d.bitmapEnd) ∨ (f ≤ addr ∧ addr < f + fileSize) ∨
    (d.fIndirect f ≠ 0 ∧ (d.fIndirect f).toNat * pgSize ≤ addr ∧
      addr < (d.fIndirect f).toNat * pgSize + pgSize)

section Bitmap

variable {d d' : Disk} {block : Nat}

theorem sNblocks_congr (same : ∀ addr, addr < bitmap → d' addr = d addr) :
    d'.sNblocks = d.sNblocks := by
  have first : bitmap = 8192 := rfl
  have second : super = 4096 := rfl
  rw [Disk.sNblocks, word_congr fun k low high => same k (by omega)]
  rfl

theorem bitmapEnd_congr (same : d'.sNblocks = d.sNblocks) : d'.bitmapEnd = d.bitmapEnd := by
  rw [Disk.bitmapEnd, same]
  rfl

theorem sNblocks_below (same : ∀ addr, addr < 4104 → d' addr = d addr) :
    d'.sNblocks = d.sNblocks := by
  have second : super = 4096 := rfl
  rw [Disk.sNblocks, word_congr fun k low high => same k (by omega)]
  rfl

theorem blockIsFree_kept (same : ∀ addr, addr < 4104 ∨ (bitmap ≤ addr ∧ addr < d.bitmapEnd) →
    d' addr = d addr) (block : Nat) : d'.blockIsFree block = d.blockIsFree block := by
  have count : d'.sNblocks = d.sNblocks := sNblocks_below fun addr low => same addr (.inl low)
  unfold Disk.blockIsFree
  rw [count]
  by_cases inside : block < d.sNblocks
  · have word := bitmap_word inside
    rw [word_congr fun k low high => same k (.inr (by omega))]
  · rw [decide_eq_false inside, Bool.false_and, Bool.false_and]

theorem blockIsFree_congr (same : ∀ addr, addr < d.bitmapEnd → d' addr = d addr) (block : Nat) :
    d'.blockIsFree block = d.blockIsFree block := by
  have first : bitmap = 8192 := rfl
  have least := bitmapEnd_le d
  exact blockIsFree_kept (fun addr near => same addr (by omega)) block

theorem set_bit (word : BitVec 32) {bit other : Nat} (inside : other < 32) :
    (word ||| 1#32 <<< bit).getLsbD other = (word.getLsbD other || decide (other = bit)) := by
  rw [BitVec.getLsbD_or, BitVec.getLsbD_shiftLeft]
  congr 1
  rw [BitVec.getLsbD_one]
  apply Bool.eq_iff_iff.mpr
  simp only [Bool.and_eq_true, Bool.not_eq_true', decide_eq_true_eq, decide_eq_false_iff_not]
  omega

/-- `free_block` marks one block as free, and stores to the bitmap alone. -/
theorem freeBlock_eq (there : d.OnDisk block) :
    ∃ after, d.freeBlock block = some after ∧
      (∀ addr, addr < bitmap ∨ d.bitmapEnd ≤ addr → after addr = d addr) ∧
      ∀ other, after.blockIsFree other = true ↔ d.blockIsFree other = true ∨ other = block := by
  have word := bitmap_word there.2
  have kept : ∀ addr, addr < bitmap ∨ d.bitmapEnd ≤ addr →
      d.setWord (bitmap + 4 * (block / 32))
        (d.word (bitmap + 4 * (block / 32)) ||| 1#32 <<< (block % 32)) addr = d addr :=
    fun addr outside => setWord_other (by omega)
  refine ⟨_, if_neg there.1, kept, fun other => ?_⟩
  have count := sNblocks_congr fun addr low => kept addr (.inl low)
  unfold Disk.blockIsFree
  rw [count]
  by_cases inside : other < d.sNblocks
  · rw [decide_eq_true inside, Bool.true_and, Bool.true_and]
    by_cases near : other / 32 = block / 32
    · rw [near, word_setWord, set_bit _ (Nat.mod_lt _ (by decide)),
        Bool.or_eq_true, decide_eq_true_eq]
      have bits : other % 32 = block % 32 ↔ other = block := by omega
      rw [bits]
    · have differ : other ≠ block := fun same => near (by rw [same])
      rw [word_setWord_other (by omega), or_iff_left differ]
  · have differ : other ≠ block := fun same => inside (by rw [same]; exact there.2)
    rw [decide_eq_false inside, or_iff_left differ, Bool.false_and, Bool.false_and]

end Bitmap

section Cut

variable {d now : Disk} {f : FilePtr} {n m bno : Nat}

theorem blocksFor_eq {size : BitVec 32} (legal : size.toNat ≤ maxFileSize) :
    blocksFor size = (size.toNat + 4095) / 4096 := by
  have legal : size.toNat ≤ (10 + 1024) * 4096 := legal
  have sum : size + BitVec.ofNat 32 (pgSize - 1) = BitVec.ofNat 32 (size.toNat + 4095) := by
    rw [BitVec.ofNat_add, BitVec.ofNat_toNat, BitVec.setWidth_eq]
    rfl
  rw [blocksFor, sum, blocksOf_ofNat (by omega)]

theorem Disk.Held.inside (held : d.Held f) (below : bno < blocksFor (d.fSize f)) :
    bno < nDirect + nIndirect ∧ bno ≤ blocksOf (d.fSize f) := by
  have legal : (d.fSize f).toNat ≤ (10 + 1024) * 4096 := held.legal
  have count : nDirect + nIndirect = 10 + 1024 := rfl
  have small : (d.fSize f).toNat < 2 ^ 31 := by omega
  have blocks := blocksOf_ofNat small
  rw [BitVec.ofNat_toNat, BitVec.setWidth_eq] at blocks
  rw [blocksFor_eq held.legal] at below
  rw [blocks, count]
  omega

def Disk.HasSlot (d : Disk) (f : FilePtr) (bno : Nat) : Prop :=
  bno < nDirect + nIndirect ∧ (bno < nDirect ∨ d.fIndirect f ≠ 0)

theorem slotAt_place (slot : d.HasSlot f bno) :
    (bno < 10 ∧ d.slotAt f bno = f + 136 + 4 * bno) ∨
      (10 ≤ bno ∧ bno < 1034 ∧ d.fIndirect f ≠ 0 ∧
        d.slotAt f bno = (d.fIndirect f).toNat * 4096 + 4 * (bno - 10)) := by
  have ten : nDirect = 10 := rfl
  have count : nDirect + nIndirect = 1034 := rfl
  obtain ⟨inside, reached⟩ := slot
  rw [ten] at reached
  rw [count] at inside
  unfold Disk.slotAt
  by_cases direct : bno < 10
  · exact .inl ⟨direct, if_pos direct⟩
  · exact .inr ⟨not_lt.mp direct, inside, reached.resolve_left direct, if_neg direct⟩

theorem mem_owned_indirect (there : d.fIndirect f ≠ 0) : (d.fIndirect f).toNat ∈ d.owned f := by
  rw [Disk.owned, if_neg there]
  exact List.mem_append_right _ List.mem_cons_self

theorem mem_dataBlocks {block : Nat} : block ∈ d.dataBlocks f ↔
    ∃ bno < blocksFor (d.fSize f), d.present f bno = true ∧ d.blockAt f bno = block := by
  simp only [Disk.dataBlocks, List.mem_map, List.mem_filter, List.mem_range, and_assoc]

theorem present_iff : d.present f bno = true ↔
    (bno < nDirect ∨ d.fIndirect f ≠ 0) ∧ d.word (d.slotAt f bno) ≠ 0 := by
  simp only [Disk.present, Bool.and_eq_true, Bool.or_eq_true, decide_eq_true_eq]

/-- The loop has freed the blocks from `n` on, below `m`. -/
structure Disk.Cut (d : Disk) (f : FilePtr) (n m : Nat) (now : Disk) : Prop where
  frame : ∀ addr, ¬d.Touched f addr → now addr = d addr
  size : now.fSize f = d.fSize f
  type : now.fType f = d.fType f
  indirect : now.fIndirect f = d.fIndirect f
  slots : ∀ bno, bno < n ∨ m ≤ bno → d.HasSlot f bno →
    now.word (d.slotAt f bno) = d.word (d.slotAt f bno)
  cleared : ∀ bno, n ≤ bno → bno < m → d.HasSlot f bno → now.word (d.slotAt f bno) = 0
  free : ∀ block, now.blockIsFree block = true ↔ d.blockIsFree block = true ∨
    ∃ bno, n ≤ bno ∧ bno < m ∧ d.present f bno = true ∧ d.blockAt f bno = block

theorem Disk.Cut.refl (d : Disk) (f : FilePtr) (n : Nat) : d.Cut f n n d where
  frame _ _ := rfl
  size := rfl
  type := rfl
  indirect := rfl
  slots _ _ _ := rfl
  cleared bno low high _ := absurd low (Nat.not_le.mpr high)
  free block := by
    refine ⟨.inl, fun either => either.resolve_right ?_⟩
    rintro ⟨bno, low, high, -⟩
    exact absurd low (Nat.not_le.mpr high)

theorem Disk.Stored.touched_high (stored : d.Stored f) {addr : Nat} (touched : d.Touched f addr) :
    bitmap ≤ addr := by
  have start := bitmapEnd_le d
  have behind := stored.behind
  rcases touched with inside | inside | ⟨there, inside⟩
  · exact inside.1
  · omega
  · have above := (stored.blocks _ (mem_owned_indirect there)).2
    omega

theorem Disk.Held.off {f : Nat} (held : d.Held f) :
    4104 ≤ f ∧ (f + 256 ≤ bitmap ∨ d.bitmapEnd ≤ f) := by
  have first : bitmap = 8192 := rfl
  have least := bitmapEnd_le d
  rcases held.placed with rfl | behind
  · exact ⟨Nat.le_refl 4104, .inl (by decide)⟩
  · omega

theorem Disk.Stored.held (stored : d.Stored f) : d.Held f :=
  ⟨stored.legal, .inr stored.behind, stored.blocks, stored.outside⟩

section

variable (held : d.Held f)

include held

theorem Disk.Held.touched_high {addr : Nat} (touched : d.Touched f addr) : 4104 ≤ addr := by
  have first : bitmap = 8192 := rfl
  have least := bitmapEnd_le d
  have off := held.off
  have length : fileSize = 256 := rfl
  rcases touched with inside | inside | ⟨there, inside⟩
  · omega
  · omega
  · have above := (held.blocks _ (mem_owned_indirect there)).2
    omega

theorem Disk.Held.sNblocks
    (frame : ∀ addr, ¬d.Touched f addr → now addr = d addr) : now.sNblocks = d.sNblocks :=
  sNblocks_below fun addr low => frame addr fun touched =>
    absurd (held.touched_high touched) (not_le.mpr low)

theorem Disk.Held.fileBlockWalk (cut : d.Cut f n m now) (below : m < blocksFor (d.fSize f)) :
    (d.HasSlot f m ∧ fileBlockWalk f m false now = done (d.slotAt f m) now) ∨
      (¬(m < nDirect ∨ d.fIndirect f ≠ 0) ∧ fileBlockWalk f m false now = fail (-eNotFound) now) := by
  obtain ⟨inside, covered⟩ := held.inside below
  unfold Disk.fileBlockWalk
  rw [cut.size, cut.indirect, if_neg (not_le.mpr inside), if_neg (not_lt.mpr covered)]
  by_cases direct : m < nDirect
  · refine .inl ⟨⟨inside, .inl direct⟩, ?_⟩
    rw [if_pos direct, Disk.slotAt, if_pos direct]
  · rw [if_neg direct]
    by_cases there : d.fIndirect f ≠ 0
    · have onDisk : now.OnDisk (d.fIndirect f).toNat := by
        rw [Disk.OnDisk, held.sNblocks cut.frame]
        exact (held.blocks _ (mem_owned_indirect there)).1
      refine .inl ⟨⟨inside, .inr there⟩, ?_⟩
      rw [if_pos there, onDisk.diskaddr, Disk.slotAt, if_neg direct]
      rfl
    · refine .inr ⟨not_or.mpr ⟨direct, there⟩, ?_⟩
      rw [if_neg there]
      rfl

/-- Where a slot lies: outside the bitmap, in what is stored to, and not on the two fields. -/
theorem Disk.Held.slot (slot : d.HasSlot f bno) :
    (4104 ≤ d.slotAt f bno ∧ (d.slotAt f bno + 4 ≤ bitmap ∨ d.bitmapEnd ≤ d.slotAt f bno)) ∧
      (∀ addr, d.slotAt f bno ≤ addr → addr < d.slotAt f bno + 4 → d.Touched f addr) ∧
      (fSizeAt f + 4 ≤ d.slotAt f bno ∨ d.slotAt f bno + 4 ≤ fSizeAt f) ∧
      (fIndirectAt f + 4 ≤ d.slotAt f bno ∨ d.slotAt f bno + 4 ≤ fIndirectAt f) := by
  have off := held.off
  have first : bitmap = 8192 := rfl
  have least := bitmapEnd_le d
  have length : fileSize = 256 := rfl
  have sizeAt : fSizeAt f = f + 128 := rfl
  have indirectAt : fIndirectAt f = f + 176 := rfl
  unfold Disk.Touched
  rw [length, pgSize_eq, sizeAt, indirectAt]
  rcases slotAt_place slot with ⟨low, place⟩ | ⟨low, high, there, place⟩
  · rw [place]
    exact ⟨by omega, fun addr first last => .inr (.inl (by omega)), by omega, by omega⟩
  · have outside := held.outside there
    have above := (held.blocks _ (mem_owned_indirect there)).2
    rw [length, pgSize_eq] at outside
    rw [pgSize_eq] at above
    rw [place]
    exact ⟨⟨by omega, .inr (Nat.le_trans above (Nat.le_add_right _ _))⟩,
      fun addr first last => .inr (.inr ⟨there, by omega⟩), by omega, by omega⟩

theorem Disk.Held.slot_type (slot : d.HasSlot f bno) :
    fTypeAt f + 4 ≤ d.slotAt f bno ∨ d.slotAt f bno + 4 ≤ fTypeAt f := by
  have length : fileSize = 256 := rfl
  have typeAt : fTypeAt f = f + 132 := rfl
  rw [typeAt]
  rcases slotAt_place slot with ⟨low, place⟩ | ⟨low, high, there, place⟩
  · omega
  · have outside := held.outside there
    rw [length, pgSize_eq] at outside
    omega

theorem Disk.Held.slot_apart {other : Nat} (slot : d.HasSlot f bno)
    (slot' : d.HasSlot f other) (differ : bno ≠ other) :
    d.slotAt f other + 4 ≤ d.slotAt f bno ∨ d.slotAt f bno + 4 ≤ d.slotAt f other := by
  have length : fileSize = 256 := rfl
  rcases slotAt_place slot with ⟨low, place⟩ | ⟨low, high, there, place⟩
  · rcases slotAt_place slot' with ⟨low', place'⟩ | ⟨low', high', there', place'⟩
    · omega
    · have outside := held.outside there'
      rw [length, pgSize_eq] at outside
      omega
  · rcases slotAt_place slot' with ⟨low', place'⟩ | ⟨low', high', there', place'⟩
    · have outside := held.outside there
      rw [length, pgSize_eq] at outside
      omega
    · omega

end

theorem Disk.Cut.absent (cut : d.Cut f n m now) (least : n ≤ m) (absent : ¬d.present f m = true) :
    d.Cut f n (m + 1) now where
  frame := cut.frame
  size := cut.size
  type := cut.type
  indirect := cut.indirect
  slots bno outside := cut.slots bno (outside.imp_right Nat.le_of_succ_le)
  cleared bno low high slot := by
    rcases Nat.lt_succ_iff_lt_or_eq.mp high with below | rfl
    · exact cut.cleared bno low below slot
    · rw [cut.slots bno (.inr (Nat.le_refl bno)) slot]
      by_contra full
      exact absent (present_iff.mpr ⟨slot.2, full⟩)
  free block := by
    rw [cut.free]
    refine or_congr_right ⟨fun ⟨bno, low, below, rest⟩ => ⟨bno, low, Nat.lt_succ_of_lt below, rest⟩, ?_⟩
    intro ⟨bno, low, below, there, same⟩
    have differ : bno ≠ m := fun same => absent (by rw [← same]; exact there)
    exact ⟨bno, low, by omega, there, same⟩

theorem Disk.Cut.freed (held : d.Held f) (cut : d.Cut f n m now) {after : Disk}
    (below : n ≤ m) (slot : d.HasSlot f m) (there : d.present f m = true)
    (kept : ∀ addr, addr < bitmap ∨ d.bitmapEnd ≤ addr → after addr = now addr)
    (free : ∀ block, after.blockIsFree block = true ↔
      now.blockIsFree block = true ∨ block = d.blockAt f m) :
    d.Cut f n (m + 1) (after.setWord (d.slotAt f m) 0) := by
  obtain ⟨high, touched, size, indirect⟩ := held.slot slot
  have off := held.off
  have least := bitmapEnd_le d
  have start : bitmap = 8192 := rfl
  have sizeAt : fSizeAt f = f + 128 := rfl
  have indirectAt : fIndirectAt f = f + 176 := rfl
  have frame : ∀ addr, ¬d.Touched f addr → after.setWord (d.slotAt f m) 0 addr = d addr := by
    intro addr untouched
    have outside : addr < d.slotAt f m ∨ d.slotAt f m + 4 ≤ addr := by
      by_contra inside
      exact untouched (touched addr (by omega) (by omega))
    have apart : addr < bitmap ∨ d.bitmapEnd ≤ addr := by
      by_contra inside
      exact untouched (.inl (by omega))
    rw [setWord_other outside, kept addr apart, cut.frame addr untouched]
  have others (bno : Nat) (slot' : d.HasSlot f bno) (differ : m ≠ bno) :
      (after.setWord (d.slotAt f m) 0).word (d.slotAt f bno) = now.word (d.slotAt f bno) := by
    have high' := (held.slot slot').1
    rw [word_setWord_other (held.slot_apart slot slot' differ),
      word_congr fun k low _ => kept k (by omega)]
  have typeAt : fTypeAt f = f + 132 := rfl
  refine ⟨frame, ?_, ?_, ?_, fun bno outside slot' => ?_, fun bno low below slot' => ?_, fun block => ?_⟩
  · rw [Disk.fSize, word_setWord_other size, word_congr fun k low _ => kept k (by omega)]
    exact cut.size
  · rw [Disk.fType, word_setWord_other (held.slot_type slot),
      word_congr fun k low _ => kept k (by omega)]
    exact cut.type
  · rw [Disk.fIndirect, word_setWord_other indirect,
      word_congr fun k low _ => kept k (by omega)]
    exact cut.indirect
  · rw [others bno slot' (by omega)]
    exact cut.slots bno (by omega) slot'
  · rcases Nat.lt_succ_iff_lt_or_eq.mp below with earlier | rfl
    · rw [others bno slot' (by omega)]
      exact cut.cleared bno low earlier slot'
    · rw [word_setWord]
  · have count : after.sNblocks = d.sNblocks :=
      (sNblocks_congr fun addr low => kept addr (.inl low)).trans (held.sNblocks cut.frame)
    have ends := bitmapEnd_congr count
    have away : ∀ addr, addr < 4104 ∨ (bitmap ≤ addr ∧ addr < after.bitmapEnd) →
        after.setWord (d.slotAt f m) 0 addr = after addr :=
      fun addr near => setWord_other (by omega)
    rw [blockIsFree_kept away, free, cut.free, or_assoc]
    refine or_congr_right ⟨?_, ?_⟩
    · rintro (⟨bno, low, below, rest⟩ | rfl)
      · exact ⟨bno, low, Nat.lt_succ_of_lt below, rest⟩
      · exact ⟨m, below, Nat.lt_succ_self m, there, rfl⟩
    · rintro ⟨bno, low, below, there, same⟩
      rcases Nat.lt_succ_iff_lt_or_eq.mp below with below | rfl
      · exact .inl ⟨bno, low, below, there, same⟩
      · exact .inr same.symm

/-- One round of the loop of `file_truncate_blocks`. -/
theorem Disk.Held.fileFreeBlock (held : d.Held f) (cut : d.Cut f n m now) (least : n ≤ m)
    (below : m < blocksFor (d.fSize f)) :
    ∃ next, (fileFreeBlock f m now).map Prod.snd = some next ∧ d.Cut f n (m + 1) next := by
  rcases held.fileBlockWalk cut below with ⟨slot, walked⟩ | ⟨none, walked⟩
  · have same := cut.slots m (.inr (Nat.le_refl m)) slot
    by_cases hole : d.word (d.slotAt f m) = 0
    · refine ⟨now, ?_, cut.absent least fun there => (present_iff.mp there).2 hole⟩
      rw [Disk.fileFreeBlock, walked]
      change (if now.word (d.slotAt f m) ≠ 0 then _ else done () now).map Prod.snd = some now
      rw [same, if_neg (not_not.mpr hole)]
      rfl
    · have there : d.present f m = true := present_iff.mpr ⟨slot.2, hole⟩
      have member := mem_dataBlocks.mpr ⟨m, below, there, rfl⟩
      have count := held.sNblocks cut.frame
      have ends := bitmapEnd_congr count
      have onDisk : now.OnDisk (d.blockAt f m) := by
        rw [Disk.OnDisk, count]
        exact (held.blocks _ (List.mem_append_left _ member)).1
      obtain ⟨after, freed, kept, free⟩ := freeBlock_eq onDisk
      rw [ends] at kept
      refine ⟨after.setWord (d.slotAt f m) 0, ?_, cut.freed held least slot there kept free⟩
      rw [Disk.fileFreeBlock, walked]
      change (if now.word (d.slotAt f m) ≠ 0 then
        (now.freeBlock (now.word (d.slotAt f m)).toNat).bind fun d' =>
          done () (d'.setWord (d.slotAt f m) 0) else _).map Prod.snd = _
      rw [same, if_pos hole]
      change ((now.freeBlock (d.blockAt f m)).bind _).map _ = _
      rw [freed]
      rfl
  · refine ⟨now, ?_, cut.absent least fun there => none (present_iff.mp there).1⟩
    rw [Disk.fileFreeBlock, walked]
    rfl

end Cut

/-- The blocks of a file that go when `n` blocks are left. -/
def Disk.tail (d : Disk) (f : FilePtr) (n : Nat) : List Nat :=
  ((List.range' n (blocksFor (d.fSize f) - n)).filter (d.present f)).map (d.blockAt f) ++
    if n ≤ nDirect ∧ d.fIndirect f ≠ 0 then [(d.fIndirect f).toNat] else []

/-- A file of which the first `n` blocks are left. -/
structure Disk.Trimmed (d : Disk) (f : FilePtr) (n : Nat) (after : Disk) : Prop where
  frame : ∀ addr, ¬d.Touched f addr → after addr = d addr
  size : after.fSize f = d.fSize f
  type : after.fType f = d.fType f
  indirect : after.fIndirect f = if n ≤ nDirect then 0 else d.fIndirect f
  slots : ∀ bno, bno < n ∨ blocksFor (d.fSize f) ≤ bno → d.HasSlot f bno →
    after.word (d.slotAt f bno) = d.word (d.slotAt f bno)
  cleared : ∀ bno, n ≤ bno → bno < blocksFor (d.fSize f) → d.HasSlot f bno →
    after.word (d.slotAt f bno) = 0
  free : ∀ block, after.blockIsFree block = true ↔
    d.blockIsFree block = true ∨ block ∈ d.tail f n

structure Disk.Emptied (d : Disk) (f : FilePtr) (after : Disk) : Prop where
  frame : ∀ addr, ¬d.Touched f addr → after addr = d addr
  free : ∀ block, after.blockIsFree block = true ↔ d.blockIsFree block = true ∨ block ∈ d.owned f

section Truncate

variable {d now : Disk} {f : FilePtr} {n : Nat}

theorem Disk.mem_tail {block : Nat} : block ∈ d.tail f n ↔
    (∃ bno, n ≤ bno ∧ bno < blocksFor (d.fSize f) ∧ d.present f bno = true ∧
      d.blockAt f bno = block) ∨
      (n ≤ nDirect ∧ d.fIndirect f ≠ 0) ∧ block = (d.fIndirect f).toNat := by
  rw [Disk.tail, List.mem_append]
  refine or_congr ?_ ?_
  · simp only [List.mem_map, List.mem_filter, List.mem_range'_1, and_assoc]
    refine exists_congr fun bno => and_congr_right fun low => ?_
    rw [Nat.lt_iff_add_one_le, Nat.lt_iff_add_one_le]
    exact and_congr_left' (by omega)
  · by_cases both : n ≤ nDirect ∧ d.fIndirect f ≠ 0
    · rw [if_pos both, List.mem_singleton, and_iff_right both]
    · rw [if_neg both]
      exact iff_of_false List.not_mem_nil fun other => both other.1

theorem Disk.Held.freeIndirect (held : d.Held f)
    (cut : d.Cut f n (blocksFor (d.fSize f)) now) :
    ∃ after, (if n ≤ nDirect ∧ now.fIndirect f ≠ 0 then
        (now.freeBlock (now.fIndirect f).toNat).map fun d => d.setWord (fIndirectAt f) 0
      else some now) = some after ∧ d.Trimmed f n after := by
  rw [cut.indirect]
  by_cases there : n ≤ nDirect ∧ d.fIndirect f ≠ 0
  · have count := held.sNblocks cut.frame
    have ends := bitmapEnd_congr count
    have onDisk : now.OnDisk (d.fIndirect f).toNat := by
      rw [Disk.OnDisk, count]
      exact (held.blocks _ (mem_owned_indirect there.2)).1
    have off := held.off
    have least := bitmapEnd_le d
    have start : bitmap = 8192 := rfl
    have place : fIndirectAt f = f + 176 := rfl
    have sizeAt : fSizeAt f = f + 128 := rfl
    have length : fileSize = 256 := rfl
    obtain ⟨after, freed, kept, free⟩ := freeBlock_eq onDisk
    rw [ends] at kept
    have count' : after.sNblocks = now.sNblocks := sNblocks_congr fun addr low => kept addr (.inl low)
    have ends' := bitmapEnd_congr (count'.trans count)
    have slots (bno : Nat) (slot : d.HasSlot f bno) :
        (after.setWord (fIndirectAt f) 0).word (d.slotAt f bno) = now.word (d.slotAt f bno) := by
      obtain ⟨high, -, -, apart⟩ := held.slot slot
      rw [word_setWord_other apart.symm, word_congr fun k low _ => kept k (by omega)]
    refine ⟨after.setWord (fIndirectAt f) 0, ?_, ?_⟩
    · rw [if_pos there, freed]
      rfl
    · have typeAt : fTypeAt f = f + 132 := rfl
      refine ⟨fun addr untouched => ?_, ?_, ?_, ?_, fun bno outside slot => ?_,
        fun bno low below slot => ?_, fun block => ?_⟩
      · have apart : addr < bitmap ∨ d.bitmapEnd ≤ addr := by
          by_contra inside
          exact untouched (.inl (by omega))
        have outside : addr < fIndirectAt f ∨ fIndirectAt f + 4 ≤ addr := by
          by_contra inside
          exact untouched (.inr (.inl (by omega)))
        rw [setWord_other outside, kept addr apart, cut.frame addr untouched]
      · rw [Disk.fSize, word_setWord_other (by omega),
          word_congr fun k low _ => kept k (by omega)]
        exact cut.size
      · rw [Disk.fType, word_setWord_other (by omega),
          word_congr fun k low _ => kept k (by omega)]
        exact cut.type
      · rw [if_pos there.1, Disk.fIndirect, word_setWord]
      · rw [slots bno slot]
        exact cut.slots bno outside slot
      · rw [slots bno slot]
        exact cut.cleared bno low below slot
      · have away : ∀ addr, addr < 4104 ∨ (bitmap ≤ addr ∧ addr < after.bitmapEnd) →
            after.setWord (fIndirectAt f) 0 addr = after addr :=
          fun addr near => setWord_other (by omega)
        rw [blockIsFree_kept away, free, cut.free, Disk.mem_tail, and_iff_right there, or_assoc]
  · refine ⟨now, if_neg there, cut.frame, cut.size, cut.type, ?_, cut.slots, cut.cleared, fun block => ?_⟩
    · rw [cut.indirect]
      by_cases few : n ≤ nDirect
      · rw [if_pos few]
        by_contra present
        exact there ⟨few, present⟩
      · rw [if_neg few]
    · have none : ¬((n ≤ nDirect ∧ d.fIndirect f ≠ 0) ∧ block = (d.fIndirect f).toNat) :=
        fun other => there other.1
      rw [cut.free, Disk.mem_tail, or_iff_left none]

theorem Disk.Held.freeBlocks (held : d.Held f) {left m : Nat} (least : n ≤ m)
    (ends : m + left = blocksFor (d.fSize f)) (cut : d.Cut f n m now) :
    ∃ final, (List.range' m left).foldlM (fun d bno => (Disk.fileFreeBlock f bno d).map Prod.snd) now =
      some final ∧ d.Cut f n (blocksFor (d.fSize f)) final := by
  induction left generalizing m now with
  | zero =>
    rw [← ends]
    exact ⟨now, rfl, cut⟩
  | succ left ih =>
    obtain ⟨next, freed, cut⟩ := held.fileFreeBlock cut least (by omega)
    obtain ⟨final, ran, cut⟩ := ih (Nat.le_succ_of_le least) (by omega) cut
    refine ⟨final, ?_, cut⟩
    rw [List.range'_succ, List.foldlM_cons, freed]
    exact ran

/-- `file_truncate_blocks` frees what the file owns behind its first blocks, and nothing else. -/
theorem Disk.Held.fileTruncateBlocks_trims (held : d.Held f) {newsize : BitVec 32}
    (least : blocksFor newsize ≤ blocksFor (d.fSize f)) :
    ∃ after, fileTruncateBlocks f newsize d = some after ∧
      d.Trimmed f (blocksFor newsize) after := by
  obtain ⟨now, looped, cut⟩ :=
    held.freeBlocks (Nat.le_refl _) (Nat.add_sub_cancel' least) (.refl d f _)
  obtain ⟨after, ran, trimmed⟩ := held.freeIndirect cut
  refine ⟨after, ?_, trimmed⟩
  rw [Disk.fileTruncateBlocks, looped]
  exact ran

theorem Disk.Held.fileTruncateBlocks (held : d.Held f) :
    ∃ after, fileTruncateBlocks f 0 d = some after ∧ d.Emptied f after := by
  have least : blocksFor 0 = 0 := by decide
  obtain ⟨after, ran, trimmed⟩ :=
    @Disk.Held.fileTruncateBlocks_trims d f held 0 (least.le.trans (Nat.zero_le _))
  refine ⟨after, ran, trimmed.frame, fun block => ?_⟩
  rw [trimmed.free, least, Disk.mem_tail, Disk.owned, List.mem_append, mem_dataBlocks]
  refine or_congr_right (or_congr ?_ ?_)
  · simp only [Nat.zero_le, true_and]
  · by_cases there : d.fIndirect f = 0
    · rw [if_pos there]
      exact iff_of_false (fun other => other.1.2 there) List.not_mem_nil
    · rw [if_neg there, List.mem_singleton]
      exact and_iff_right ⟨Nat.zero_le _, there⟩

end Truncate

end Fs

end Jos
