import Jos.Fs.Remove

/-! `file_set_size` to a smaller size: what it frees, and what it leaves. -/

set_option autoImplicit false

namespace Jos

open Foundation Function

namespace Fs

open Disk

/-- A file whose slots are zero behind its last block, and whose blocks are used by nothing else
of the file. -/
structure Disk.Tidy (d : Disk) (f : Nat) : Prop where
  stored : d.Stored f
  beyond : ∀ bno, blocksFor (d.fSize f) ≤ bno → d.HasSlot f bno → d.word (d.slotAt f bno) = 0
  used : ∀ block ∈ d.owned f, d.blockIsFree block = false
  once : (d.owned f).Nodup
  apart : ∀ block ∈ d.dataBlocks f, f + fileSize ≤ block * pgSize ∨ block * pgSize + pgSize ≤ f

structure Disk.Cropped (d : Disk) (f : FilePtr) (newsize : BitVec 32) (after : Disk) : Prop where
  free : ∀ block, after.blockIsFree block = true ↔
    d.blockIsFree block = true ∨ block ∈ d.tail f (blocksFor newsize)
  size : after.fSize f = newsize
  indirect : after.fIndirect f = if blocksFor newsize ≤ nDirect then 0 else d.fIndirect f
  slots : ∀ bno, d.HasSlot f bno → after.word (d.slotAt f bno) =
    if bno < blocksFor newsize then d.word (d.slotAt f bno) else 0
  frame : ∀ addr, ¬d.Touched f addr → after addr = d addr

structure Disk.Shortened (d : Disk) (f : FilePtr) (newsize : BitVec 32) (after : Disk) : Prop
    extends Disk.Cropped d f newsize after where
  contents : ∀ k < newsize.toNat, after.byteAt f k = d.byteAt f k
  tidy : after.Tidy f

section Shorten

variable {d mid after : Disk} {f : FilePtr} {newsize : BitVec 32} {bno : Nat}

theorem Disk.Trimmed.cropped (trimmed : d.Trimmed f (blocksFor newsize) mid) (tidy : d.Tidy f) :
    d.Cropped f newsize (mid.setWord (fSizeAt f) newsize) := by
  have behind := tidy.stored.behind
  have place : fSizeAt f = f + 128 := rfl
  have indirectAt : fIndirectAt f = f + 176 := rfl
  have length : fileSize = 256 := rfl
  refine ⟨fun block => ?_, word_setWord, ?_, fun bno slot => ?_, fun addr untouched => ?_⟩
  · have ends := bitmapEnd_congr (tidy.stored.held.sNblocks trimmed.frame)
    have low : ∀ addr, addr < mid.bitmapEnd → mid.setWord (fSizeAt f) newsize addr = mid addr :=
      fun addr low => setWord_other (.inl (by omega))
    rw [blockIsFree_congr low, trimmed.free]
  · rw [Disk.fIndirect, word_setWord_other (by omega)]
    exact trimmed.indirect
  · rw [word_setWord_other (tidy.stored.held.slot slot).2.2.1.symm]
    by_cases early : bno < blocksFor newsize
    · rw [if_pos early, trimmed.slots bno (.inl early) slot]
    · rw [if_neg early]
      by_cases late : blocksFor (d.fSize f) ≤ bno
      · rw [trimmed.slots bno (.inr late) slot, tidy.beyond bno late slot]
      · exact trimmed.cleared bno (Nat.not_lt.mp early) (Nat.not_le.mp late) slot
  · have outside : addr < fSizeAt f ∨ fSizeAt f + 4 ≤ addr := by
      by_contra inside
      exact untouched (.inr (.inl (by omega)))
    rw [setWord_other outside, trimmed.frame addr untouched]

section

variable (cropped : d.Cropped f newsize after)

include cropped

theorem Disk.Cropped.slotAt (reached : bno < nDirect ∨ ¬blocksFor newsize ≤ nDirect) :
    after.slotAt f bno = d.slotAt f bno := by
  unfold Disk.slotAt
  by_cases direct : bno < nDirect
  · rw [if_pos direct, if_pos direct]
  · rw [if_neg direct, if_neg direct, cropped.indirect, if_neg (reached.resolve_left direct)]

theorem Disk.Cropped.present (tidy : d.Tidy f)
    (least : blocksFor newsize ≤ blocksFor (d.fSize f)) (left : bno < blocksFor newsize) :
    after.present f bno = d.present f bno ∧
      (d.present f bno = true → after.blockAt f bno = d.blockAt f bno) := by
  have inside := (tidy.stored.held.inside (Nat.lt_of_lt_of_le left least)).1
  have place : bno < nDirect ∨ ¬blocksFor newsize ≤ nDirect :=
    or_iff_not_imp_left.mpr fun direct few => direct (Nat.lt_of_lt_of_le left few)
  have reached : (bno < nDirect ∨ after.fIndirect f ≠ 0) ↔ (bno < nDirect ∨ d.fIndirect f ≠ 0) := by
    refine or_congr_right' fun direct => ?_
    rw [cropped.indirect, if_neg (place.resolve_left direct)]
  have words (reach : bno < nDirect ∨ d.fIndirect f ≠ 0) :
      after.word (after.slotAt f bno) = d.word (d.slotAt f bno) := by
    rw [cropped.slotAt place, cropped.slots bno ⟨inside, reach⟩, if_pos left]
  refine ⟨Bool.eq_iff_iff.mpr ?_, fun there => ?_⟩
  · rw [present_iff, present_iff, reached]
    exact and_congr_right fun reach => by rw [words reach]
  · rw [Disk.blockAt, Disk.blockAt, words (present_iff.mp there).1]

theorem Disk.Cropped.dataBlocks (tidy : d.Tidy f)
    (least : blocksFor newsize ≤ blocksFor (d.fSize f)) : after.dataBlocks f =
      ((List.range (blocksFor newsize)).filter (d.present f)).map (d.blockAt f) := by
  rw [Disk.dataBlocks, cropped.size, List.filter_congr fun bno left =>
    (cropped.present tidy least (List.mem_range.mp left)).1]
  refine List.map_congr_left fun bno member => ?_
  obtain ⟨left, there⟩ := List.mem_filter.mp member
  exact (cropped.present tidy least (List.mem_range.mp left)).2 there

/-- The blocks that the file owned are the ones that it has left, and the ones that are free. -/
theorem Disk.Cropped.owned (tidy : d.Tidy f) (least : blocksFor newsize ≤ blocksFor (d.fSize f)) :
    (d.owned f).Perm (after.owned f ++ d.tail f (blocksFor newsize)) := by
  have parts : d.dataBlocks f = after.dataBlocks f ++
      ((List.range' (blocksFor newsize) (blocksFor (d.fSize f) - blocksFor newsize)).filter
        (d.present f)).map (d.blockAt f) := by
    have ranges : List.range (blocksFor (d.fSize f)) = List.range (blocksFor newsize) ++
        List.range' (blocksFor newsize) (blocksFor (d.fSize f) - blocksFor newsize) := by
      have append := @List.range'_append_1 0 (blocksFor newsize)
        (blocksFor (d.fSize f) - blocksFor newsize)
      rw [Nat.zero_add, Nat.add_sub_cancel' least] at append
      rw [List.range_eq_range', List.range_eq_range', append]
    rw [cropped.dataBlocks tidy least, ← List.map_append, ← List.filter_append, ← ranges]
    rfl
  rw [Disk.owned, Disk.owned, Disk.tail, parts, cropped.indirect]
  by_cases few : blocksFor newsize ≤ nDirect
  · rw [if_pos few, if_pos rfl, List.append_nil, List.append_assoc]
    by_cases none : d.fIndirect f = 0
    · rw [if_pos none, if_neg fun both => both.2 none]
    · rw [if_neg none, if_pos ⟨few, none⟩]
  · have none : ¬(blocksFor newsize ≤ nDirect ∧ d.fIndirect f ≠ 0) := fun both => few both.1
    rw [if_neg few, if_neg none, List.append_nil, List.append_assoc, List.append_assoc]
    exact List.perm_append_comm.append_left _

end

/-- The data of a file is not what `file_set_size` stores to. -/
theorem Disk.Tidy.untouched (tidy : d.Tidy f) (inside : bno < blocksFor (d.fSize f))
    (there : d.present f bno = true) {off : Nat} (small : off < pgSize) :
    ¬d.Touched f (d.blockAt f bno * pgSize + off) := by
  have member : d.blockAt f bno ∈ d.dataBlocks f := mem_dataBlocks.mpr ⟨bno, inside, there, rfl⟩
  have behind := (tidy.stored.blocks _ (List.mem_append_left _ member)).2
  have apart := tidy.apart _ member
  have length : fileSize = 256 := rfl
  rw [length, pgSize_eq] at apart
  rw [pgSize_eq] at behind small ⊢
  rintro (low | record | ⟨present, first, last⟩)
  · omega
  · omega
  · have once := tidy.once
    rw [Disk.owned, if_neg present] at once
    have differ : d.blockAt f bno ≠ (d.fIndirect f).toNat := fun same =>
      (List.nodup_append.mp once).2.2 _ member _ List.mem_cons_self same
    rw [pgSize_eq] at first last
    omega

theorem Disk.Cropped.contents (cropped : d.Cropped f newsize after) (tidy : d.Tidy f)
    (legal : newsize.toNat ≤ maxFileSize) (least : blocksFor newsize ≤ blocksFor (d.fSize f))
    {k : Nat} (inside : k < newsize.toNat) : after.byteAt f k = d.byteAt f k := by
  have left : k / pgSize < blocksFor newsize := by
    rw [blocksFor_eq legal, pgSize_eq]
    omega
  obtain ⟨same, block⟩ := cropped.present tidy least left
  unfold Disk.byteAt
  rw [same]
  by_cases there : d.present f (k / pgSize) = true
  · have data := tidy.untouched (Nat.lt_of_lt_of_le left least) there
      (Nat.mod_lt k (by decide : 0 < pgSize))
    rw [if_pos there, if_pos there, Disk.contents, Disk.contents, block there,
      cropped.frame _ data]
  · rw [if_neg there, if_neg there]

theorem Disk.Cropped.tidy (cropped : d.Cropped f newsize after) (tidy : d.Tidy f)
    (legal : newsize.toNat ≤ maxFileSize) (least : blocksFor newsize ≤ blocksFor (d.fSize f)) :
    after.Tidy f := by
  have count := tidy.stored.held.sNblocks cropped.frame
  have ends := bitmapEnd_congr count
  have perm := cropped.owned tidy least
  have once := perm.nodup_iff.mp tidy.once
  have were (block : Nat) (member : block ∈ after.owned f) : block ∈ d.owned f :=
    perm.mem_iff.mpr (List.mem_append_left _ member)
  refine ⟨⟨?_, ?_, fun block member => ?_, fun there => ?_⟩, fun bno late slot => ?_,
    fun block member => ?_, (List.nodup_append.mp once).1, fun block member => ?_⟩
  · rw [cropped.size]
    exact legal
  · rw [ends]
    exact tidy.stored.behind
  · obtain ⟨onDisk, behind⟩ := tidy.stored.blocks block (were block member)
    rw [ends, Disk.OnDisk, count]
    exact ⟨onDisk, behind⟩
  · have more : ¬blocksFor newsize ≤ nDirect := fun few =>
      there (cropped.indirect.trans (if_pos few))
    rw [cropped.indirect, if_neg more] at there ⊢
    exact tidy.stored.outside there
  · rw [cropped.size] at late
    have reached : bno < nDirect ∨ ¬blocksFor newsize ≤ nDirect :=
      slot.2.imp_right fun there few => there (cropped.indirect.trans (if_pos few))
    have slot' : d.HasSlot f bno := by
      refine ⟨slot.1, or_iff_not_imp_left.mpr fun direct => ?_⟩
      have there := slot.2.resolve_left direct
      rwa [cropped.indirect, if_neg (reached.resolve_left direct)] at there
    rw [cropped.slotAt reached, cropped.slots bno slot', if_neg (Nat.not_lt.mpr late)]
  · rw [Bool.eq_false_iff]
    intro free
    rcases (cropped.free block).mp free with before | gone
    · rw [tidy.used block (were block member)] at before
      cases before
    · exact (List.nodup_append.mp once).2.2 _ member _ gone rfl
  · rw [cropped.dataBlocks tidy least] at member
    refine tidy.apart block (mem_dataBlocks.mpr ?_)
    obtain ⟨bno, filtered, same⟩ := List.mem_map.mp member
    obtain ⟨left, there⟩ := List.mem_filter.mp filtered
    exact ⟨bno, Nat.lt_of_lt_of_le (List.mem_range.mp left) least, there, same⟩

/-- `file_set_size` to a smaller size frees the blocks behind it and clears their slots; the
first bytes are as they were. -/
theorem fileSetSize_shortens (tidy : d.Tidy f) (smaller : newsize.toNat < (d.fSize f).toNat) :
    ∃ after, fileSetSize f newsize d = some (0, after) ∧ d.Shortened f newsize after := by
  have bound : (d.fSize f).toNat ≤ (10 + 1024) * 4096 := tidy.stored.legal
  have legal : newsize.toNat ≤ maxFileSize := Nat.le_trans smaller.le tidy.stored.legal
  have least : blocksFor newsize ≤ blocksFor (d.fSize f) := by
    rw [blocksFor_eq legal, blocksFor_eq tidy.stored.legal]
    omega
  have less : newsize.slt (d.fSize f) = true := by
    rw [BitVec.slt_eq_decide, decide_eq_true_eq, BitVec.toInt_eq_toNat_of_lt (by omega),
      BitVec.toInt_eq_toNat_of_lt (by omega)]
    exact Int.ofNat_lt.mpr smaller
  obtain ⟨mid, ran, trimmed⟩ := tidy.stored.held.fileTruncateBlocks_trims least
  have cropped := trimmed.cropped tidy
  refine ⟨_, ?_, cropped, fun k inside => cropped.contents tidy legal least inside,
    cropped.tidy tidy legal least⟩
  rw [fileSetSize, if_pos less, ran]
  rfl

end Shorten

theorem nestedDisk_tidy : nestedDisk.Tidy (4 * pgSize) := by
  have owned : nestedDisk.owned (4 * pgSize) = [5] := by decide +kernel
  have data : nestedDisk.dataBlocks (4 * pgSize) = [5] := by decide +kernel
  have single : nestedDisk.fIndirect (4 * pgSize) = 0 := by decide +kernel
  refine ⟨⟨by decide +kernel, by decide +kernel, fun block member => ?_,
    fun there => absurd single there⟩, fun bno late slot => ?_, fun block member => ?_, ?_, fun block member => ?_⟩
  · rw [owned] at member
    rw [List.mem_singleton.mp member]
    exact ⟨⟨by decide, by decide +kernel⟩, by decide +kernel⟩
  · have few : bno < 10 := slot.2.resolve_right fun there => there single
    have one : blocksFor (nestedDisk.fSize (4 * pgSize)) = 1 := by decide +kernel
    rw [one] at late
    have all : ∀ bno < 10, 1 ≤ bno →
        nestedDisk.word (nestedDisk.slotAt (4 * pgSize) bno) = 0 := by decide +kernel
    exact all bno few late
  · rw [owned] at member
    rw [List.mem_singleton.mp member]
    decide +kernel
  · rw [owned]
    exact List.nodup_singleton 5
  · rw [data] at member
    rw [List.mem_singleton.mp member]
    exact .inl (by decide)

theorem nestedDisk_shortens : ∃ after, fileSetSize (4 * pgSize) 0 nestedDisk = some (0, after) ∧
    nestedDisk.Shortened (4 * pgSize) 0 after :=
  fileSetSize_shortens nestedDisk_tidy (by decide +kernel)

end Fs

end Jos
