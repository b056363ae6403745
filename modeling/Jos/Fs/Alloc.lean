import Jos.Fs.Cache
import Jos.Fs.Fsformat
import Jos.Fs.Grow

/-! `alloc_block` of fs/fs.c over the block cache: what is in memory, and what is on the disk,
when it returns. -/

set_option autoImplicit false

namespace Jos

open Foundation Function

namespace Fs

structure Io.Works (io : Io) : Prop where
  pageAlloc : ∀ blockno, io.pageAlloc blockno = 0
  ideRead : ∀ blockno, io.ideRead blockno = 0
  ideWrite : ∀ blockno, io.ideWrite blockno = 0

namespace Cache

/-- `block_is_free`, which may fault on the superblock and on the bitmap. -/
def readIsFree (io : Io) (blockno : Nat) (c : Cache) : Option (Bool × Cache) :=
  (access (bcPgfault io faultDepth) needsRead 1 c).bind fun c =>
    if c.sNblocks ≤ blockno then some (false, c)
    else
      (access (bcPgfault io faultDepth) needsRead (bitmapBlock blockno) c).map fun c =>
        (c.blockIsFree blockno, c)

/-- The place in its block of the word `bitmap[blockno / 32]`. -/
def bitmapOff (blockno : Nat) : Nat := blockno / 32 * 4 % blkSize

def storeWord (io : Io) (blockno off : Nat) (value : BitVec 32) (c : Cache) : Option Cache :=
  (c.store io blockno off (value.extractLsb' 0 8)).bind fun c =>
    (c.store io blockno (off + 1) (value.extractLsb' 8 8)).bind fun c =>
      (c.store io blockno (off + 2) (value.extractLsb' 16 8)).bind fun c =>
        c.store io blockno (off + 3) (value.extractLsb' 24 8)

/-- `bitmap[blockno / 32] &= ~(1 << (blockno % 32))` -/
def clearBit (io : Io) (blockno : Nat) (c : Cache) : Option Cache :=
  (access (bcPgfault io faultDepth) needsRead (bitmapBlock blockno) c).bind fun c =>
    let value := word (c.page (bitmapBlock blockno)) (bitmapOff blockno)
    c.storeWord io (bitmapBlock blockno) (bitmapOff blockno)
      (value &&& ~~~(1#32 <<< (blockno % 32)))

/-- The loop of `alloc_block`. The flush is of the address `bitmap`, which is in block 2. -/
def allocBlockFrom (io : Io) : Nat → Nat → Cache → Option (Int × Cache)
  | 0, _, _ => none
  | left + 1, blockno, c =>
    (access (bcPgfault io faultDepth) needsRead 1 c).bind fun c =>
      if blockno < c.sNblocks then
        (c.readIsFree io blockno).bind fun (free, c) =>
          if free then
            (c.clearBit io blockno).bind fun c =>
              (c.flushBlock io 2).map fun c => ((blockno : Int), c)
          else c.allocBlockFrom io left (blockno + 1)
      else some (-eNoDisk, c)

/-- `alloc_block`; the number of blocks is less than the loop's rounds here. -/
def allocBlock (io : Io) (c : Cache) : Option (Int × Cache) := c.allocBlockFrom io (2 ^ 32) 2

/-- The bit of a block, where `bytes` are the contents of the blocks. -/
def freeBit (bytes : Nat → Nat → BitVec 8) (blockno : Nat) : Bool :=
  (word (bytes (bitmapBlock blockno)) (bitmapOff blockno)).getLsbD (blockno % 32)

def onDisk (c : Cache) (blockno off : Nat) : BitVec 8 := c.disk (blockno * blkSize + off)

/-- What `block_is_free` returns. -/
def isFree (c : Cache) (blockno : Nat) : Bool :=
  decide (blockno < c.sNblocks) && freeBit c.content blockno

/-- `check_super` comes to its end. -/
def checkSuper (c : Cache) : Bool :=
  decide (word (c.page 1) 0 = Fsformat.fsMagic) && decide (c.sNblocks ≤ diskSize / blkSize)

/-- The loop of `check_bitmap` -/
def checkBitmapFrom (c : Cache) : Nat → Nat → Bool
  | 0, _ => true
  | left + 1, i =>
    if i * blkBitSize < c.sNblocks then !c.isFree (2 + i) && c.checkBitmapFrom left (i + 1)
    else true

/-- `check_bitmap` comes to its end. -/
def checkBitmap (c : Cache) : Bool :=
  c.checkBitmapFrom c.sNblocks 0 && !c.isFree 0 && !c.isFree 1

def Durable (c : Cache) : Prop :=
  ∀ b < c.sNblocks, freeBit c.content b = false → freeBit c.onDisk b = false

/-- What `alloc_block` should leave when it returns `r`. -/
structure Allocates (c : Cache) (r : Int) (after : Cache) : Prop where
  found : ∀ b : Nat, r = b → c.isFree b = true ∧ 2 ≤ b ∧
    (∀ i, i * blkBitSize < c.sNblocks → b ≠ 2 + i) ∧
      freeBit after.content b = false ∧ freeBit after.onDisk b = false
  others : ∀ b : Nat, r ≠ b → freeBit after.content b = freeBit c.content b
  full : r < 0 → r = -eNoDisk ∧ ∀ b, c.isFree b = false
  durable : c.Durable → after.Durable

/-- The block that `alloc_block` comes to. -/
def FirstFree (c : Cache) (b : Nat) : Prop :=
  2 ≤ b ∧ c.isFree b = true ∧ ∀ k, 2 ≤ k → k < b → c.isFree k = false

section Bits

variable {bytes bytes' : Nat → Nat → BitVec 8} {blockno other : Nat}

theorem bitmapOff_bound (blockno : Nat) : bitmapOff blockno + 4 ≤ blkSize := by
  have block : blkSize = 4096 := rfl
  rw [bitmapOff, block]
  omega

theorem freeBit_congr
    (same : ∀ off < blkSize, bytes (bitmapBlock blockno) off = bytes' (bitmapBlock blockno) off) :
    freeBit bytes blockno = freeBit bytes' blockno := by
  have bound := bitmapOff_bound blockno
  exact congrArg (·.getLsbD (blockno % 32))
    (int32At_congr fun k _ high => same k (Nat.lt_of_lt_of_le high bound))

theorem same_word (block : bitmapBlock other = bitmapBlock blockno)
    (off : bitmapOff other = bitmapOff blockno) (differ : other ≠ blockno) :
    other % 32 ≠ blockno % 32 := by
  have bits : blkBitSize = 32768 := rfl
  have size : blkSize = 4096 := rfl
  unfold bitmapBlock at block
  unfold bitmapOff at off
  rw [bits] at block
  rw [size] at off
  omega

theorem other_word (off : bitmapOff other ≠ bitmapOff blockno) {k : Nat}
    (low : bitmapOff other ≤ k) (high : k < bitmapOff other + 4) :
    k < bitmapOff blockno ∨ bitmapOff blockno + 4 ≤ k := by
  have size : blkSize = 4096 := rfl
  unfold bitmapOff at off low high ⊢
  rw [size] at off low high ⊢
  omega

/-- Storing the word with a block's bit cleared clears that bit, and no other. -/
theorem freeBit_cleared (bytes : Nat → Nat → BitVec 8) (blockno other : Nat) :
    freeBit (update bytes (bitmapBlock blockno) (setInt32 (bytes (bitmapBlock blockno))
      (bitmapOff blockno) (word (bytes (bitmapBlock blockno)) (bitmapOff blockno) &&&
        ~~~(1#32 <<< (blockno % 32))))) other =
      (freeBit bytes other && decide (other ≠ blockno)) := by
  have bit : other % 32 < 32 := Nat.mod_lt _ (by decide)
  unfold freeBit
  by_cases block : bitmapBlock other = bitmapBlock blockno
  · rw [block, update_self]
    by_cases off : bitmapOff other = bitmapOff blockno
    · rw [off]
      refine (congrArg (·.getLsbD (other % 32)) (int32At_setInt32 _)).trans ?_
      rw [clear_bit _ bit]
      by_cases same : other = blockno
      · rw [same]
        simp
      · simp [same, same_word block off same]
    · have differ : other ≠ blockno := fun same => off (congrArg bitmapOff same)
      rw [decide_eq_true differ, Bool.and_true]
      exact congrArg (·.getLsbD (other % 32))
        (int32At_congr fun k low high => setInt32_other (other_word off low high))
  · have differ : other ≠ blockno := fun same => block (congrArg bitmapBlock same)
    rw [update_of_ne block, decide_eq_true differ, Bool.and_true]

end Bits

section Alloc

variable {io : Io} {c after : Cache} {blockno : Nat}

theorem Coherent.store_disk {off : Nat} {byte : BitVec 8} (coherent : Coherent c)
    (ran : c.store io blockno off byte = some after) :
    after.disk = c.disk ∧ after.vaIsMapped blockno = true := by
  obtain ⟨middle, accessed, rfl⟩ := Option.map_eq_some_iff.mp ran
  obtain ⟨loads, mapped⟩ := coherent.accessed (by decide) accessed
  obtain ⟨entry, there⟩ := vaIsMapped_iff.mp mapped
  exact ⟨loads.disk, by simp [vaIsMapped, there]⟩

theorem Coherent.storeWord {off : Nat} {value : BitVec 32} (coherent : Coherent c)
    (ran : c.storeWord io blockno off value = some after) :
    Coherent after ∧ after.disk = c.disk ∧ ∀ other pos, pos < blkSize → after.content other pos =
      update c.content blockno (setInt32 (c.content blockno) off value) other pos := by
  obtain ⟨c1, ran1, ran⟩ := Option.bind_eq_some_iff.mp ran
  obtain ⟨c2, ran2, ran⟩ := Option.bind_eq_some_iff.mp ran
  obtain ⟨c3, ran3, ran4⟩ := Option.bind_eq_some_iff.mp ran
  obtain ⟨coherent1, -, content1⟩ := coherent.store ran1
  obtain ⟨coherent2, -, content2⟩ := coherent1.store ran2
  obtain ⟨coherent3, -, content3⟩ := coherent2.store ran3
  obtain ⟨coherent4, -, content4⟩ := coherent3.store ran4
  have disk := (coherent3.store_disk ran4).1.trans ((coherent2.store_disk ran3).1.trans
    ((coherent1.store_disk ran2).1.trans (coherent.store_disk ran1).1))
  refine ⟨coherent4, disk, fun other pos here => ?_⟩
  rw [content4 other pos here]
  by_cases block : other = blockno
  · subst block
    have first := content1 other pos here
    have second := content2 other pos here
    have third := content3 other pos here
    rw [update_self] at first second third
    rw [update_self, update_self, setInt32]
    simp only [update_apply] at first second third ⊢
    rw [third, second, first]
  · rw [update_of_ne block, content3 other pos here, update_of_ne block, content2 other pos here,
      update_of_ne block, content1 other pos here, update_of_ne block, update_of_ne block]

theorem flushBlock_disk (ran : c.flushBlock io blockno = some after) {other off : Nat}
    (differ : other ≠ blockno) (here : off < blkSize) :
    after.disk (other * blkSize + off) = c.disk (other * blkSize + off) := by
  unfold Cache.flushBlock at ran
  by_cases outside : diskSize / blkSize ≤ blockno
  · rw [if_pos outside] at ran
    cases ran
  rw [if_neg outside] at ran
  by_cases idle : c.vaIsMapped blockno = false ∨ c.vaIsDirty blockno = false
  · rw [if_pos idle] at ran
    cases ran
    rfl
  rw [if_neg idle] at ran
  by_cases failed : io.ideWrite blockno ≠ 0
  · rw [if_pos failed] at ran
    cases ran
  rw [if_neg failed] at ran
  obtain ⟨entry, next, -, -, rfl⟩ := remap_eq ran
  exact (ideWrite_block (Nat.lt_of_not_le outside) here).trans (if_neg differ)

theorem Loads.sNblocks (loads : Loads c after) (coherent : Coherent c) :
    after.sNblocks = c.sNblocks := by
  rw [Cache.sNblocks, Cache.sNblocks, (loads.kept 1 coherent.super).2]

theorem Loads.freeBit (loads : Loads c after) (blockno : Nat) :
    Cache.freeBit after.content blockno = Cache.freeBit c.content blockno :=
  freeBit_congr fun _ here => loads.content _ here

theorem Loads.isFree (loads : Loads c after) (coherent : Coherent c) (blockno : Nat) :
    after.isFree blockno = c.isFree blockno := by
  rw [Cache.isFree, Cache.isFree, loads.sNblocks coherent, loads.freeBit]

theorem blockIsFree_eq (mapped : c.vaIsMapped (bitmapBlock blockno) = true) :
    c.blockIsFree blockno = c.isFree blockno := by
  have page : c.content (bitmapBlock blockno) = c.page (bitmapBlock blockno) :=
    funext fun off => if_pos mapped
  rw [Cache.isFree, Cache.freeBit, page]
  rfl

theorem Coherent.readIsFree {free : Bool} (coherent : Coherent c)
    (ran : c.readIsFree io blockno = some (free, after)) :
    Loads c after ∧ free = c.isFree blockno := by
  unfold Cache.readIsFree at ran
  rw [coherent.access (by decide) coherent.super, Option.bind_some] at ran
  by_cases outside : c.sNblocks ≤ blockno
  · rw [if_pos outside] at ran
    cases ran
    exact ⟨.refl c, by rw [Cache.isFree, decide_eq_false (Nat.not_lt.mpr outside), Bool.false_and]⟩
  · rw [if_neg outside] at ran
    obtain ⟨middle, accessed, same⟩ := Option.map_eq_some_iff.mp ran
    cases same
    obtain ⟨loads, mapped⟩ := coherent.accessed (by decide) accessed
    exact ⟨loads, (blockIsFree_eq mapped).trans (loads.isFree coherent blockno)⟩

/-- Clearing a bit leaves every other one as it was, in memory, and the disk as it was. -/
theorem Coherent.clearBit (coherent : Coherent c) (ran : c.clearBit io blockno = some after) :
    Coherent after ∧ after.disk = c.disk ∧
      (∀ other, freeBit after.content other = (freeBit c.content other && decide (other ≠ blockno))) ∧
      ∀ block ≠ bitmapBlock blockno, ∀ off < blkSize,
        after.content block off = c.content block off := by
  obtain ⟨middle, accessed, stored⟩ := Option.bind_eq_some_iff.mp ran
  obtain ⟨loads, mapped⟩ := coherent.accessed (by decide) accessed
  have page : middle.page (bitmapBlock blockno) = middle.content (bitmapBlock blockno) :=
    funext fun off => (if_pos mapped).symm
  rw [page] at stored
  obtain ⟨coherent', disk, content⟩ :=
    (coherent.loads loads).storeWord stored
  refine ⟨coherent', disk.trans loads.disk, fun other => ?_, fun block differ off here => ?_⟩
  · rw [freeBit_congr fun off here => content _ off here, freeBit_cleared, loads.freeBit]
  · rw [content block off here, update_of_ne differ, loads.content block here]

/-- How `alloc_block` ends. -/
theorem Coherent.allocBlockFrom {left : Nat} {r : Int} (coherent : Coherent c)
    (ran : c.allocBlockFrom io left blockno = some (r, after)) :
    (∃ b found cleared, blockno ≤ b ∧ (∀ k, blockno ≤ k → k < b → c.isFree k = false) ∧
      c.isFree b = true ∧ r = b ∧ Loads c found ∧ found.clearBit io b = some cleared ∧
        cleared.flushBlock io 2 = some after) ∨
    Loads c after ∧ r = -eNoDisk ∧ ∀ k, blockno ≤ k → c.isFree k = false := by
  induction left generalizing blockno c with
  | zero => cases ran
  | succ left ih =>
    rw [Cache.allocBlockFrom, coherent.access (by decide) coherent.super, Option.bind_some] at ran
    by_cases more : blockno < c.sNblocks
    · rw [if_pos more] at ran
      obtain ⟨⟨free, found⟩, read, ran⟩ := Option.bind_eq_some_iff.mp ran
      obtain ⟨loads, same⟩ := coherent.readIsFree read
      cases free with
      | true =>
        obtain ⟨cleared, bit, ran⟩ := Option.bind_eq_some_iff.mp ran
        obtain ⟨last, flushed, ends⟩ := Option.map_eq_some_iff.mp ran
        cases ends
        exact .inl ⟨blockno, found, cleared, Nat.le_refl _, fun k low high => absurd low (by omega),
          same.symm, rfl, loads, bit, flushed⟩
      | false =>
        have keeps := loads.isFree coherent
        rcases ih (coherent.loads loads) ran with
          ⟨b, found', cleared, low, before, free, value, loads', bit, flushed⟩ |
          ⟨loads', value, none⟩
        · refine .inl ⟨b, found', cleared, Nat.le_of_succ_le low, fun k first last => ?_,
            (keeps b).symm.trans free, value, loads.trans loads', bit, flushed⟩
          rcases Nat.eq_or_lt_of_le first with rfl | later
          · exact same.symm
          · exact (keeps k).symm.trans (before k later last)
        · refine .inr ⟨loads.trans loads', value, fun k first => ?_⟩
          rcases Nat.eq_or_lt_of_le first with rfl | later
          · exact same.symm
          · exact (keeps k).symm.trans (none k later)
    · rw [if_neg more] at ran
      obtain ⟨rfl, rfl⟩ := Prod.mk.inj (Option.some.inj ran)
      refine .inr ⟨.refl c, rfl, fun k first => ?_⟩
      rw [Cache.isFree, decide_eq_false (by omega), Bool.false_and]

theorem checkBitmapFrom_spec {left i : Nat} (checked : c.checkBitmapFrom left i = true)
    (rounds : c.sNblocks ≤ (left + i) * blkBitSize) {k : Nat} (from' : i ≤ k)
    (inside : k * blkBitSize < c.sNblocks) : c.isFree (2 + k) = false := by
  induction left generalizing i with
  | zero =>
    rw [Nat.zero_add] at rounds
    have last := Nat.le_trans rounds (Nat.mul_le_mul_right blkBitSize from')
    exact absurd inside (Nat.not_lt.mpr last)
  | succ left ih =>
    have more := Nat.lt_of_le_of_lt (Nat.mul_le_mul_right blkBitSize from') inside
    rw [checkBitmapFrom, if_pos more, Bool.and_eq_true, Bool.not_eq_true'] at checked
    rcases Nat.eq_or_lt_of_le from' with rfl | later
    · exact checked.1
    · rw [Nat.add_right_comm] at rounds
      exact ih checked.2 rounds later

/-- The reserved blocks are in use, after `check_bitmap`. -/
theorem checkBitmap_spec (checked : c.checkBitmap = true) :
    (∀ i, i * blkBitSize < c.sNblocks → c.isFree (2 + i) = false) ∧ c.isFree 0 = false ∧
      c.isFree 1 = false := by
  unfold checkBitmap at checked
  simp only [Bool.and_eq_true, Bool.not_eq_true'] at checked
  obtain ⟨⟨loop, boot⟩, super⟩ := checked
  exact ⟨fun i inside => checkBitmapFrom_spec loop
    (Nat.le_mul_of_pos_right c.sNblocks (by decide)) (Nat.zero_le i) inside, boot, super⟩

theorem Coherent.sNblocks_congr (coherent : Coherent c) (coherent' : Coherent after)
    (same : ∀ off < blkSize, after.content 1 off = c.content 1 off) :
    after.sNblocks = c.sNblocks := by
  have page {c : Cache} (coherent : Coherent c) : c.page 1 = c.content 1 :=
    funext fun off => (if_pos coherent.super).symm
  rw [Cache.sNblocks, Cache.sNblocks, page coherent, page coherent']
  have block : blkSize = 4096 := rfl
  exact congrArg BitVec.toNat (int32At_congr fun k _ high => same k (by omega))

/-- A block was allocated: its bit is clear in memory, and block 2 is on the disk. -/
structure Allocated (c after : Cache) (b : Nat) : Prop where
  free : c.isFree b = true
  sNblocks : after.sNblocks = c.sNblocks
  memory : ∀ other, freeBit after.content other = (freeBit c.content other && decide (other ≠ b))
  first : ∀ other < blkBitSize, freeBit after.onDisk other = freeBit after.content other
  later : ∀ other, blkBitSize ≤ other → freeBit after.onDisk other = freeBit c.onDisk other

theorem Coherent.allocated {b : Nat} {found cleared : Cache} (coherent : Coherent c)
    (free : c.isFree b = true) (loads : Loads c found) (bit : found.clearBit io b = some cleared)
    (flushed : cleared.flushBlock io 2 = some after) : Allocated c after b := by
  obtain ⟨coherent', disk, bits, blocks⟩ := (coherent.loads loads).clearBit bit
  have flushes := coherent'.flushBlock flushed
  have memory (other : Nat) : freeBit after.content other =
      (freeBit c.content other && decide (other ≠ b)) := by
    rw [freeBit_congr fun off here => flushes.content _ off here, bits, loads.freeBit]
  have super : 1 ≠ bitmapBlock b :=
    Nat.ne_of_lt (Nat.lt_of_lt_of_le (by decide) (Nat.le_add_right 2 _))
  refine ⟨free, ?_, memory, fun other less => ?_, fun other more => ?_⟩
  · refine coherent.sNblocks_congr flushes.coherent fun off here => ?_
    rw [flushes.content 1 off here, blocks 1 super off here, loads.content 1 here]
  · have block : bitmapBlock other = 2 := by rw [bitmapBlock, Nat.div_eq_of_lt less]
    refine freeBit_congr fun off here => ?_
    rw [block, onDisk, flushes.coherent.disk_eq flushes.clean here]
  · have block : bitmapBlock other ≠ 2 :=
      Nat.ne_of_gt (Nat.lt_add_of_pos_right (Nat.div_pos more (by decide)))
    refine freeBit_congr fun off here => ?_
    rw [onDisk, flushBlock_disk flushed block here, disk, loads.disk]
    rfl

/-! That `alloc_block` comes to an end. -/

theorem pageMapSelf_returns {entry : BitVec 12} (flags : entry &&& pteSyscall = pteSyscall) :
    pageMapSelf entry pteSyscall = some pteSyscall := by
  have writable : entry &&& pteW ≠ 0 := by
    rw [enough flags (by decide)]
    decide
  unfold pageMapSelf
  rw [if_neg (by decide), if_neg (fun both => writable both.1)]
  rfl

theorem Coherent.bcPgfault_eq (coherent : Coherent c) (works : io.Works) (depth : Nat)
    (unmapped : c.uvpt blockno = none) (inside : blockno < c.sNblocks)
    (size : c.sNblocks ≤ diskSize / blkSize) :
    ∃ middle, Loads c middle ∧ middle.vaIsMapped blockno = true ∧
      bcPgfault io (depth + 1) blockno c =
        (Cache.access (bcPgfault io depth) needsRead (bitmapBlock blockno) middle).bind fun c =>
          if c.blockIsFree blockno then none else some c := by
  have small := Nat.lt_of_lt_of_le inside size
  obtain ⟨middle, mapped⟩ : ∃ middle, (readIn io blockno c).remap blockno
      ((((readIn io blockno c).uvpt blockno).getD 0) &&& pteSyscall) = some middle := by
    have entry : (readIn io blockno c).uvpt blockno = some ((pteSyscall ||| pteP) ||| pteD) :=
      update_self ..
    have perm : ((pteSyscall ||| pteP) ||| pteD) &&& pteSyscall = pteSyscall := by decide
    rw [remap, entry, Option.bind_some, Option.getD_some, perm, pageMapSelf_returns perm]
    exact ⟨_, rfl⟩
  obtain ⟨loads, here⟩ := readIn_loads unmapped small mapped
  refine ⟨middle, loads, here, ?_⟩
  rw [bcPgfault, if_neg (Nat.not_le.mpr small), coherent.access (by decide) coherent.super,
    Option.bind_some, if_neg (Nat.not_le.mpr inside), if_neg (not_not.mpr (works.pageAlloc _)),
    if_neg (not_not.mpr (works.ideRead _))]
  simp only [mapped, Option.bind_some]

/-- A block whose bit is in a block that can be read can be read itself, if it is in use. -/
theorem Coherent.access_returns {depth : Nat} (coherent : Coherent c) (works : io.Works)
    (inside : blockno < c.sNblocks) (size : c.sNblocks ≤ diskSize / blkSize)
    (inUse : c.isFree blockno = false)
    (bit : ∀ middle, Loads c middle → middle.vaIsMapped blockno = true →
      ∃ after, Cache.access (bcPgfault io depth) needsRead (bitmapBlock blockno) middle = some after) :
    ∃ after, Cache.access (bcPgfault io (depth + 1)) needsRead blockno c = some after := by
  cases known : c.vaIsMapped blockno with
  | true => exact ⟨c, coherent.access (by decide) known⟩
  | false =>
    have absent := vaIsMapped_false.mp known
    obtain ⟨middle, loads, mapped, faults⟩ := coherent.bcPgfault_eq works depth absent inside size
    obtain ⟨after, accessed⟩ := bit middle loads mapped
    have middle' := coherent.loads loads
    obtain ⟨more, here⟩ := middle'.accessed (by decide) accessed
    have still := (loads.trans more).isFree coherent blockno
    rw [Cache.access, absent]
    simp only [Option.any_none, Bool.false_eq_true, if_false]
    rw [faults, accessed, Option.bind_some, blockIsFree_eq here, still, inUse]
    exact ⟨after, rfl⟩

theorem Coherent.bitmap_returns (coherent : Coherent c) (works : io.Works)
    (super : c.checkSuper = true) (bitmap : c.checkBitmap = true) (low : 2 ≤ blockno)
    (inside : blockno < c.sNblocks) :
    ∃ after, Cache.access (bcPgfault io faultDepth) needsRead (bitmapBlock blockno) c = some after := by
  have size : c.sNblocks ≤ 786432 := by
    unfold checkSuper at super
    rw [Bool.and_eq_true, decide_eq_true_eq, decide_eq_true_eq] at super
    exact super.2
  have bits : blkBitSize = 32768 := rfl
  obtain ⟨reserved, -, -⟩ := checkBitmap_spec bitmap
  have second : bitmapBlock (bitmapBlock blockno) = 2 := by
    rw [bitmapBlock, bitmapBlock, bits]
    omega
  have third : bitmapBlock 2 = 2 := rfl
  refine coherent.access_returns works ?_ size (reserved _ ?_) fun middle loads _ => ?_
  · rw [bitmapBlock, bits]
    omega
  · rw [bits]
    omega
  · have coherent' := coherent.loads loads
    have blocks := loads.sNblocks coherent
    rw [second]
    refine coherent'.access_returns works (by omega) (by rw [blocks]; exact size) ?_
      fun last _ mapped => ?_
    · rw [loads.isFree coherent]
      exact reserved 0 (by omega)
    · rw [third]
      exact ⟨last, (coherent'.loads ‹_›).access (by decide) mapped⟩

theorem Coherent.store_returns {off : Nat} (coherent : Coherent c) (byte : BitVec 8)
    (mapped : c.vaIsMapped blockno = true) : ∃ after, c.store io blockno off byte = some after ∧
      Coherent after ∧ after.vaIsMapped blockno = true := by
  obtain ⟨after, ran⟩ : ∃ after, c.store io blockno off byte = some after := by
    rw [Cache.store, coherent.access (by decide) mapped]
    exact ⟨_, rfl⟩
  exact ⟨after, ran, (coherent.store ran).1, (coherent.store_disk ran).2⟩

theorem Coherent.clearBit_returns (coherent : Coherent c)
    (mapped : c.vaIsMapped (bitmapBlock blockno) = true) :
    ∃ after, c.clearBit io blockno = some after := by
  rw [Cache.clearBit, coherent.access (by decide) mapped, Option.bind_some, Cache.storeWord]
  obtain ⟨c1, ran1, coherent1, mapped1⟩ := coherent.store_returns _ mapped
  obtain ⟨c2, ran2, coherent2, mapped2⟩ := coherent1.store_returns _ mapped1
  obtain ⟨c3, ran3, coherent3, mapped3⟩ := coherent2.store_returns _ mapped2
  obtain ⟨c4, ran4, -, -⟩ := coherent3.store_returns _ mapped3
  rw [ran1, Option.bind_some, ran2, Option.bind_some, ran3, Option.bind_some]
  exact ⟨c4, ran4⟩

theorem Coherent.flushBlock_returns (coherent : Coherent c) (works : io.Works)
    (inside : blockno < diskSize / blkSize) : ∃ after, c.flushBlock io blockno = some after := by
  rw [Cache.flushBlock, if_neg (Nat.not_le.mpr inside)]
  by_cases idle : c.vaIsMapped blockno = false ∨ c.vaIsDirty blockno = false
  · rw [if_pos idle]
    exact ⟨c, rfl⟩
  · rw [if_neg idle, if_neg (not_not.mpr (works.ideWrite blockno))]
    have mapped : c.vaIsMapped blockno = true := by
      simpa using fun unmapped => idle (.inl unmapped)
    obtain ⟨entry, there⟩ := vaIsMapped_iff.mp mapped
    rw [remap, there, Option.bind_some, pageMapSelf_returns (coherent.flags blockno entry there).2]
    exact ⟨_, rfl⟩

theorem Loads.checkSuper (loads : Loads c after) (coherent : Coherent c) :
    after.checkSuper = c.checkSuper := by
  rw [Cache.checkSuper, Cache.checkSuper, loads.sNblocks coherent, (loads.kept 1 coherent.super).2]

theorem Loads.checkBitmap (loads : Loads c after) (coherent : Coherent c) :
    after.checkBitmap = c.checkBitmap := by
  have same (left i : Nat) : after.checkBitmapFrom left i = c.checkBitmapFrom left i := by
    induction left generalizing i with
    | zero => rfl
    | succ left ih =>
      rw [checkBitmapFrom, checkBitmapFrom, loads.sNblocks coherent, loads.isFree coherent, ih]
  rw [Cache.checkBitmap, Cache.checkBitmap, same, loads.sNblocks coherent, loads.isFree coherent,
    loads.isFree coherent]

theorem Coherent.allocBlockFrom_returns {left : Nat} (coherent : Coherent c) (works : io.Works)
    (super : c.checkSuper = true) (bitmap : c.checkBitmap = true) (low : 2 ≤ blockno)
    (rounds : c.sNblocks ≤ left + blockno) :
    ∃ r after, c.allocBlockFrom io (left + 1) blockno = some (r, after) := by
  induction left generalizing blockno c with
  | zero =>
    rw [Cache.allocBlockFrom, coherent.access (by decide) coherent.super, Option.bind_some,
      if_neg (by omega)]
    exact ⟨_, _, rfl⟩
  | succ left ih =>
    rw [Cache.allocBlockFrom, coherent.access (by decide) coherent.super, Option.bind_some]
    by_cases more : blockno < c.sNblocks
    · obtain ⟨found, accessed⟩ := coherent.bitmap_returns works super bitmap low more
      obtain ⟨loads, mapped⟩ := coherent.accessed (by decide) accessed
      have coherent' := coherent.loads loads
      have read : c.readIsFree io blockno = some (found.blockIsFree blockno, found) := by
        rw [Cache.readIsFree, coherent.access (by decide) coherent.super, Option.bind_some,
          if_neg (Nat.not_le.mpr more), accessed, Option.map_some]
      rw [if_pos more, read, Option.bind_some]
      cases free : found.blockIsFree blockno with
      | true =>
        obtain ⟨cleared, bit⟩ := @Coherent.clearBit_returns io _ _ coherent' mapped
        have second : 2 < diskSize / blkSize := by decide
        obtain ⟨last, flushed⟩ := (coherent'.clearBit bit).1.flushBlock_returns works second
        simp only [if_true, bit, Option.bind_some, flushed, Option.map_some]
        exact ⟨_, _, rfl⟩
      | false =>
        have blocks := loads.sNblocks coherent
        exact ih coherent' ((loads.checkSuper coherent).trans super)
          ((loads.checkBitmap coherent).trans bitmap) (by omega) (by omega)
    · rw [if_neg more]
      exact ⟨_, _, rfl⟩

theorem Coherent.allocBlock_returns (coherent : Coherent c) (works : io.Works)
    (super : c.checkSuper = true) (bitmap : c.checkBitmap = true) :
    ∃ r after, c.allocBlock io = some (r, after) := by
  have size := super
  unfold checkSuper at size
  rw [Bool.and_eq_true, decide_eq_true_eq, decide_eq_true_eq] at size
  have few : c.sNblocks ≤ 786432 := size.2
  exact coherent.allocBlockFrom_returns works super bitmap (Nat.le_refl 2) (by omega)

theorem FirstFree.unique {b b' : Nat} (first : c.FirstFree b) (second : c.FirstFree b') : b = b' := by
  rcases Nat.lt_trichotomy b b' with less | same | more
  · have used := second.2.2 b first.1 less
    exact absurd first.2.1 (by rw [used]; decide)
  · exact same
  · have used := first.2.2 b' second.1 more
    exact absurd second.2.1 (by rw [used]; decide)

theorem Allocated.onDisk_iff {b : Nat} (allocated : Allocated c after b) :
    freeBit after.onDisk b = false ↔ b < blkBitSize ∨ freeBit c.onDisk b = false := by
  rcases Nat.lt_or_ge b blkBitSize with less | more
  · rw [allocated.first b less, allocated.memory b]
    simp [less]
  · rw [allocated.later b more]
    simp [Nat.not_lt.mpr more]

theorem Allocated.durable {b : Nat} (allocated : Allocated c after b)
    (onDisk : freeBit after.onDisk b = false) (durable : c.Durable) : after.Durable := by
  intro other inside inUse
  rcases Nat.lt_or_ge other blkBitSize with less | more
  · rw [allocated.first other less, inUse]
  · by_cases same : other = b
    · rw [same, onDisk]
    · rw [allocated.memory, decide_eq_true same, Bool.and_true] at inUse
      rw [allocated.sNblocks] at inside
      rw [allocated.later other more, durable other inside inUse]

/-- What `alloc_block` returns is on the disk exactly when the bit of the block is in the first
block of the bitmap, or was clear on the disk before. -/
theorem allocates_iff (coherent : Coherent c) (super : c.checkSuper = true)
    (bitmap : c.checkBitmap = true) :
    (io.Works → ∃ r after, c.allocBlock io = some (r, after)) ∧
    ∀ r after, c.allocBlock io = some (r, after) →
      (Allocates c r after ↔
        ∀ b, c.FirstFree b → b < blkBitSize ∨ freeBit c.onDisk b = false) := by
  refine ⟨fun works => coherent.allocBlock_returns works super bitmap, fun r after ran => ?_⟩
  obtain ⟨reserved, boot, first⟩ := checkBitmap_spec bitmap
  rcases coherent.allocBlockFrom ran with
    ⟨b, found, cleared, low, before, free, rfl, loads, bit, flushed⟩ | ⟨loads, rfl, none⟩
  · have allocated := coherent.allocated free loads bit flushed
    have here : c.FirstFree b := ⟨low, free, before⟩
    refine ⟨fun allocates b' first' => ?_, fun condition => ?_⟩
    · rw [first'.unique here, ← allocated.onDisk_iff]
      exact (allocates.found b rfl).2.2.2.2
    · have onDisk := allocated.onDisk_iff.mpr (condition b here)
      refine ⟨fun b' same => ?_, fun b' differ => ?_, fun negative => ?_, allocated.durable onDisk⟩
      · obtain rfl := Int.ofNat_inj.mp same
        refine ⟨free, low, fun i inside equal => ?_, ?_, onDisk⟩
        · rw [equal, reserved i inside] at free
          exact absurd free (by decide)
        · rw [allocated.memory]
          simp
      · have other : b' ≠ b := fun same => differ (congrArg Int.ofNat same).symm
        rw [allocated.memory, decide_eq_true other, Bool.and_true]
      · exact absurd negative (by omega)
  · have all (b : Nat) : c.isFree b = false := by
      rcases b with _ | _ | b
      · exact boot
      · exact first
      · exact none (b + 2) (by omega)
    refine iff_of_true ⟨fun b same => ?_, fun b _ => loads.freeBit b, fun _ => ⟨rfl, all⟩, ?_⟩
      fun b here => ?_
    · have negative : -eNoDisk < 0 := by decide
      omega
    · intro durable b inside inUse
      rw [loads.sNblocks coherent] at inside
      rw [loads.freeBit] at inUse
      have disk : after.onDisk = c.onDisk := by
        unfold onDisk
        rw [loads.disk]
      rw [disk, durable b inside inUse]
    · exact absurd here.2.1 (by rw [all b]; decide)

end Alloc

/-- A disk with a superblock, and with one word in its bitmap that is not zero. -/
def diskWith (nblocks place : Nat) (value : BitVec 8) (pos : Nat) : BitVec 8 :=
  if pos = 4096 then 0xAE else if pos = 4097 then 0x30 else if pos = 4098 then 0x05
  else if pos = 4099 then 0x4A
  else if pos = 4100 then BitVec.ofNat 8 nblocks
  else if pos = 4101 then BitVec.ofNat 8 (nblocks / 256)
  else if pos = place then value else 0

/-- The cache that `fs_init` leaves, when the disk is as given. -/
def cacheOf (disk : Nat → BitVec 8) : Cache where
  uvpt blockno := if blockno = 1 ∨ blockno = 2 then some pteSyscall else none
  page blockno off := disk (blockno * blkSize + off)
  disk := disk
  written := []

theorem cacheOf_started (disk : Nat → BitVec 8) : Started (cacheOf disk) := by
  refine ⟨rfl, fun blockno entry there => ?_⟩
  unfold cacheOf at there
  dsimp only at there
  by_cases known : blockno = 1 ∨ blockno = 2
  · rw [if_pos known] at there
    refine ⟨?_, (Option.some.inj there).symm, fun off _ => rfl⟩
    have size : diskSize / blkSize = 786432 := rfl
    omega
  · rw [if_neg known] at there
    cases there

theorem ioOk_works : ioOk.Works := ⟨fun _ => rfl, fun _ => rfl, fun _ => rfl⟩

def lastFree : Cache := cacheOf (diskWith 4 8192 8)

theorem lastFree_allocates : ∃ after, lastFree.allocBlock ioOk = some (3, after) ∧
    Allocates lastFree 3 after := by
  have coherent : Coherent lastFree := (cacheOf_started (diskWith 4 8192 8)).coherent
  obtain ⟨returns, iff⟩ := @allocates_iff ioOk lastFree coherent (by decide) (by decide)
  obtain ⟨r, after, ran⟩ := returns ioOk_works
  have value : (lastFree.allocBlock ioOk).any (fun result => result.1 = 3) = true := by decide +kernel
  rw [ran] at value
  obtain rfl : r = 3 := by simpa using value
  refine ⟨after, ran, (iff 3 after ran).mpr fun b first => .inl ?_⟩
  by_contra more
  have free : lastFree.isFree 3 = true := by decide +kernel
  have used := first.2.2 3 (by decide) (Nat.lt_of_lt_of_le (by decide) (Nat.le_of_not_lt more))
  rw [free] at used
  cases used

/-- Block 32769, whose bit is in the second block of the bitmap, is the only free one. -/
def secondFree : Cache := cacheOf (diskWith 40000 12288 2)

theorem secondFree_firstFree : secondFree.FirstFree 32769 := by
  refine ⟨by decide, by decide +kernel, fun k _ less => ?_⟩
  by_cases last : k = 32768
  · rw [last]
    decide +kernel
  · have bits : blkBitSize = 32768 := rfl
    have block : bitmapBlock k = 2 := by
      rw [bitmapBlock, bits, Nat.div_eq_of_lt (by omega)]
    have zero : freeBit secondFree.content k = freeBit (fun _ _ => 0) k := by
      refine freeBit_congr fun off here => ?_
      have size : blkSize = 4096 := rfl
      rw [size] at here
      rw [block]
      have mapped : secondFree.vaIsMapped 2 = true := rfl
      rw [content, if_pos mapped]
      unfold secondFree cacheOf diskWith
      dsimp only
      rw [size, if_neg (by omega), if_neg (by omega), if_neg (by omega), if_neg (by omega),
        if_neg (by omega), if_neg (by omega), if_neg (by omega)]
    rw [isFree, zero]
    simp [freeBit, word]

/-- The allocated block is still free on the disk. -/
theorem secondFree_not_durable : ∃ after, secondFree.allocBlock ioOk = some (32769, after) ∧
    freeBit after.content 32769 = false ∧ freeBit after.onDisk 32769 = true ∧
      ¬ Allocates secondFree 32769 after := by
  have coherent : Coherent secondFree := (cacheOf_started (diskWith 40000 12288 2)).coherent
  obtain ⟨r, after, ran⟩ := coherent.allocBlock_returns ioOk_works (by decide) (by decide +kernel)
  have first := secondFree_firstFree
  rcases coherent.allocBlockFrom ran with
    ⟨b, found, cleared, low, before, free, rfl, loads, bit, flushed⟩ | ⟨_, _, none⟩
  · have here : secondFree.FirstFree b := ⟨low, free, before⟩
    obtain rfl := here.unique first
    have allocated := coherent.allocated free loads bit flushed
    have memory : freeBit after.content 32769 = false := by
      rw [allocated.memory]
      simp
    have disk : freeBit after.onDisk 32769 = true := by
      rw [allocated.later 32769 (by decide)]
      decide +kernel
    refine ⟨after, ran, memory, disk, fun allocates => ?_⟩
    have clear := (allocates.found 32769 rfl).2.2.2.2
    rw [disk] at clear
    cases clear
  · have used := none 32769 (by decide)
    rw [first.2.1] at used
    cases used

end Cache

end Fs

end Jos
