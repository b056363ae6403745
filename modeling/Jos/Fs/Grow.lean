import Jos.Fs.Remove

/-! How `dir_alloc_file` makes a directory longer. -/

set_option autoImplicit false

namespace Jos

open Foundation Function

namespace Fs

open Disk

/-- The block that `alloc_block` takes when it has taken some already. -/
def Disk.nextFree (d : Disk) (taken : List Nat) : Option Nat :=
  (List.range d.sNblocks).find? fun block =>
    decide (2 ≤ block) && (d.blockIsFree block && decide (block ∉ taken))

structure Disk.Takes (d d' : Disk) (taken : List Nat) : Prop where
  sNblocks : d'.sNblocks = d.sNblocks
  were : ∀ block ∈ taken, block < d.sNblocks ∧ d.blockIsFree block = true
  free : ∀ block, d'.blockIsFree block = (d.blockIsFree block && decide (block ∉ taken))

section Take

variable {d d' : Disk} {block : Nat} {taken : List Nat}

theorem clear_bit (word : BitVec 32) {bit other : Nat} (inside : other < 32) :
    (word &&& ~~~(1#32 <<< bit)).getLsbD other = (word.getLsbD other && decide (other ≠ bit)) := by
  have one : (1#32 <<< bit).getLsbD other = decide (other = bit) := by
    have set := @set_bit 0#32 bit other inside
    rw [BitVec.zero_or, BitVec.getLsbD_zero, Bool.false_or] at set
    exact set
  rw [BitVec.getLsbD_and, BitVec.getLsbD_not, one, decide_eq_true inside, Bool.true_and,
    ← decide_not]

theorem Disk.Takes.nextFree (takes : d.Takes d' taken) : d'.nextFree [] = d.nextFree taken := by
  unfold Disk.nextFree
  rw [takes.sNblocks]
  refine List.find?_congr fun block _ => ?_
  rw [takes.free block]
  simp

theorem Disk.Takes.trans {d'' : Disk} {more : List Nat} (takes : d.Takes d' taken)
    (takes' : d'.Takes d'' more) : d.Takes d'' (taken ++ more) where
  sNblocks := takes'.sNblocks.trans takes.sNblocks
  were block member := by
    rcases List.mem_append.mp member with first | second
    · exact takes.were block first
    · obtain ⟨inside, free⟩ := takes'.were block second
      rw [takes.sNblocks] at inside
      rw [takes.free, Bool.and_eq_true] at free
      exact ⟨inside, free.1⟩
  free block := by
    rw [takes'.free, takes.free, Bool.and_assoc, ← Bool.decide_and]
    congr 2
    rw [List.mem_append, not_or]

theorem takes_nil (same : ∀ addr, addr < d.bitmapEnd → (super + 4 ≤ addr ∧ addr < super + 8) ∨
    bitmap ≤ addr → d' addr = d addr) : d.Takes d' [] := by
  have start := bitmapEnd_le d
  have first : bitmap = 8192 := rfl
  have second : super = 4096 := rfl
  have count : d'.sNblocks = d.sNblocks := by
    rw [Disk.sNblocks, word_congr fun k low high => same k (by omega) (.inl (by omega))]
    rfl
  refine ⟨count, fun _ member => absurd member List.not_mem_nil, fun block => ?_⟩
  rw [decide_eq_true List.not_mem_nil, Bool.and_true]
  unfold Disk.blockIsFree
  rw [count]
  by_cases inside : block < d.sNblocks
  · have word := bitmap_word inside
    rw [word_congr fun k low high => same k (by omega) (.inr (by omega))]
  · rw [decide_eq_false inside, Bool.false_and, Bool.false_and]

theorem setWord_takes {addr : Nat} {value : BitVec 32} (high : super + 8 ≤ addr)
    (apart : addr + 4 ≤ bitmap ∨ d.bitmapEnd ≤ addr) : d.Takes (d.setWord addr value) [] :=
  takes_nil fun k low place => setWord_other (by omega)

/-- `alloc_block` takes one block, and stores to the bitmap alone. -/
theorem allocBlock_takes (ran : d.allocBlock = some (block, d')) :
    d.nextFree [] = some block ∧ d.Takes d' [block] ∧
      ∀ addr, addr < bitmap ∨ d.bitmapEnd ≤ addr → d' addr = d addr := by
  constructor
  · obtain ⟨found, search, equal⟩ := Option.map_eq_some_iff.mp ran
    cases equal
    rw [← search]
    refine List.find?_congr fun block _ => ?_
    simp
  · obtain ⟨inside, free, rfl⟩ := allocBlock_eq ran
    have word := bitmap_word inside
    have kept : ∀ addr, addr < bitmap ∨ d.bitmapEnd ≤ addr →
        d.setWord (bitmap + 4 * (block / 32))
          (d.word (bitmap + 4 * (block / 32)) &&& ~~~(1#32 <<< (block % 32))) addr = d addr :=
      fun addr outside => setWord_other (by omega)
    have count := sNblocks_congr fun addr low => kept addr (.inl low)
    refine ⟨⟨count, fun other member => ?_, fun other => ?_⟩, kept⟩
    · rw [List.mem_singleton.mp member]
      exact ⟨inside, free⟩
    · unfold Disk.blockIsFree
      rw [count]
      by_cases below : other < d.sNblocks
      · rw [decide_eq_true below, Bool.true_and, Bool.true_and]
        by_cases near : other / 32 = block / 32
        · rw [near, word_setWord, clear_bit _ (Nat.mod_lt _ (by decide))]
          have bits : other % 32 ≠ block % 32 ↔ other ∉ [block] := by
            rw [List.mem_singleton]
            omega
          rw [decide_eq_decide.mpr bits]
        · have differ : other ∉ [block] := fun same => near (by rw [List.mem_singleton.mp same])
          rw [word_setWord_other (by omega), decide_eq_true differ, Bool.and_true]
      · rw [decide_eq_false below, Bool.false_and, Bool.false_and, Bool.false_and]

end Take

section Bare

variable {d : Disk} {block dir g : Nat} {path : List Path}

def Disk.Reserved (d : Disk) : Prop :=
  ∀ block, d.blockIsFree block = true → d.bitmapEnd ≤ block * pgSize

def Disk.Bare (d : Disk) (block : Nat) : Prop :=
  d.bitmapEnd ≤ block * pgSize ∧ ∀ path dir, d.InTree path dir → d.fType dir = ftypeDir →
    block ∉ d.dataBlocks dir

theorem Disk.WellFormed.bare_free (wellFormed : d.WellFormed) (reserved : d.Reserved)
    (free : d.blockIsFree block = true) : d.Bare block := by
  refine ⟨reserved block free, fun path dir there _ member => ?_⟩
  have used := (wellFormed.blocks path dir there block (mem_owned member)).2.2
  rw [free] at used
  cases used

theorem Disk.WellFormed.bare_indirect (wellFormed : d.WellFormed) (there : d.InTree path g)
    (filled : d.fIndirect g ≠ 0) : d.Bare (d.fIndirect g).toNat := by
  have mine := mem_owned_indirect filled
  refine ⟨(wellFormed.blocks path g there _ mine).2.1, fun path' dir there' _ member => ?_⟩
  have same := wellFormed.apart _ _ _ _ _ there' there (mem_owned member) mine
  subst same
  have once := wellFormed.once _ _ there
  rw [Disk.owned, if_neg filled] at once
  exact (List.nodup_append.mp once).2.2 _ member _ List.mem_cons_self rfl

/-- The record of a file is in the superblock or among the entries of a directory. -/
theorem Disk.Bare.record (bare : d.Bare block) (wellFormed : d.WellFormed) (there : d.InTree path g) :
    g + 256 ≤ block * 4096 ∨ block * 4096 + 4096 ≤ g := by
  have behind := bare.1
  have start := bitmapEnd_le d
  have first : bitmap = 8192 := rfl
  have root : (4104 : Nat) = sRoot := rfl
  rw [pgSize_eq] at behind
  cases there with
  | root => omega
  | entry there directory member =>
    obtain ⟨block', inside, j, few, place⟩ := wellFormed.entry there directory member
    have differ : block' ≠ block := by
      rintro rfl
      exact bare.2 _ _ there directory inside
    omega

end Bare

/-- What is taken for the next block of a directory of `n` blocks, where the bytes at its pointer
are zero: the block, and one for the indirect pointers if there is none. -/
inductive Disk.Appends (d : Disk) (dir : FilePtr) (n block : Nat) : List Nat → Prop where
  | reached : (n < nDirect ∨ d.fIndirect dir ≠ 0) → d.word (d.slotAt dir n) = 0 →
      d.nextFree [] = some block → Appends d dir n block [block]
  | indirect {first : Nat} : nDirect ≤ n → d.fIndirect dir = 0 → d.nextFree [] = some first →
      d.word (first * pgSize + 4 * (n - nDirect)) = 0 → d.nextFree [first] = some block →
      Appends d dir n block [first, block]

/-- A directory of `n` blocks has got another one. -/
structure Disk.Extends (d d' : Disk) (dir n block : Nat) (taken : List Nat) : Prop where
  frame : ∀ addr, (addr < bitmap ∨ d.bitmapEnd ≤ addr) →
    (addr < fSizeAt dir ∨ fSizeAt dir + 4 ≤ addr) →
    (addr < fIndirectAt dir ∨ fIndirectAt dir + 4 ≤ addr) →
    (addr < d'.slotAt dir n ∨ d'.slotAt dir n + 4 ≤ addr) → d' addr = d addr
  takes : d.Takes d' taken
  size : d'.fSize dir = d.fSize dir + BitVec.ofNat 32 pgSize
  inside : n < nDirect + nIndirect
  last : d'.blockAt dir n = block
  indirect : (n < nDirect ∨ d.fIndirect dir ≠ 0) ∧ d'.fIndirect dir = d.fIndirect dir ∨
    nDirect ≤ n ∧ d.fIndirect dir = 0 ∧ ∃ first, taken = [first, block] ∧ first ≠ block ∧
      (d'.fIndirect dir).toNat = first

def Disk.Stale (d d' : Disk) (dir : FilePtr) : Prop :=
  ∃ taken, d.Takes d' taken ∧ ∀ block ∈ taken, block = (d'.fIndirect dir).toNat

section Extend

variable {d d' : Disk} {dir f block n blk : Nat} {path : List Path}

theorem fileBlockWalk_slot {slot : Nat} (ran : fileBlockWalk f n true d = done slot d') :
    n < nDirect + nIndirect ∧
      ((n < nDirect ∨ d.fIndirect f ≠ 0) ∧ d' = d ∧ slot = d.slotAt f n ∨
        nDirect ≤ n ∧ d.fIndirect f = 0 ∧ ∃ first middle, d.allocBlock = some (first, middle) ∧
          d' = middle.setWord (fIndirectAt f) (BitVec.ofNat 32 first) ∧
          slot = first * pgSize + 4 * (n - nDirect)) := by
  unfold Disk.fileBlockWalk at ran
  split at ran
  case isTrue => cases ran
  case isFalse inside =>
    refine ⟨not_le.mp inside, ?_⟩
    split at ran
    case isTrue => cases ran
    case isFalse =>
      split at ran
      case isTrue direct =>
        cases ran
        exact .inl ⟨.inl direct, rfl, (if_pos direct).symm⟩
      case isFalse far =>
        split at ran
        case isTrue there =>
          obtain ⟨blk, place, ran⟩ := Option.bind_eq_some_iff.mp ran
          cases ran
          refine .inl ⟨.inr there, rfl, ?_⟩
          rw [Disk.slotAt, if_neg far, diskaddr_eq place]
        case isFalse absent =>
          rw [if_pos rfl] at ran
          cases found : d.allocBlock with
          | none =>
            rw [found] at ran
            cases ran
          | some both =>
            obtain ⟨first, middle⟩ := both
            rw [found] at ran
            obtain ⟨blk, place, ran⟩ := Option.bind_eq_some_iff.mp ran
            cases ran
            refine .inr ⟨not_lt.mp far, not_not.mp absent, first, middle, rfl, rfl, ?_⟩
            rw [diskaddr_eq place]

theorem fileGetBlock_done (ran : fileGetBlock f n d = done blk d') :
    ∃ slot middle, fileBlockWalk f n true d = done slot middle ∧
      (middle.word slot ≠ 0 ∧ d' = middle ∨
        middle.word slot = 0 ∧ ∃ block after, middle.allocBlock = some (block, after) ∧
          d' = after.setWord slot (BitVec.ofNat 32 block) ∧ blk = block * pgSize) := by
  unfold Disk.fileGetBlock at ran
  split at ran
  case isTrue => cases ran
  case isFalse =>
    obtain ⟨⟨slot, middle⟩, walked, ran⟩ := Option.bind_eq_some_iff.mp ran
    cases slot with
    | error r => cases ran
    | ok slot =>
      refine ⟨slot, middle, walked, ?_⟩
      dsimp only at ran
      split at ran
      case isTrue filled =>
        obtain ⟨blk, -, ran⟩ := Option.bind_eq_some_iff.mp ran
        cases ran
        exact .inl ⟨filled, rfl⟩
      case isFalse hole =>
        cases found : middle.allocBlock with
        | none =>
          rw [found] at ran
          cases ran
        | some both =>
          obtain ⟨block, after⟩ := both
          rw [found] at ran
          obtain ⟨blk, place, ran⟩ := Option.bind_eq_some_iff.mp ran
          cases ran
          exact .inr ⟨not_not.mp hole, block, after, rfl, rfl, diskaddr_eq place⟩

theorem Disk.Placed.field (placed : d.Placed f) {field : Nat} (low : f + 128 ≤ field)
    (high : field + 4 ≤ f + 256) : super + 8 ≤ field ∧ (field + 4 ≤ bitmap ∨ d.bitmapEnd ≤ field) := by
  refine ⟨placed.above low, ?_⟩
  have first : bitmap = 8192 := rfl
  rcases placed with rfl | behind
  · have root : (4104 : Nat) = sRoot := rfl
    rw [← root] at high
    omega
  · omega

theorem Disk.WellFormed.slotApart (wellFormed : d.WellFormed) (there : d.InTree path dir)
    (slot : d.HasSlot dir n) :
    super + 8 ≤ d.slotAt dir n ∧ (d.slotAt dir n + 4 ≤ bitmap ∨ d.bitmapEnd ≤ d.slotAt dir n) ∧
      (d.slotAt dir n + 4 ≤ fSizeAt dir ∨ fSizeAt dir + 4 ≤ d.slotAt dir n) ∧
      (d.slotAt dir n + 4 ≤ fIndirectAt dir ∨ fIndirectAt dir + 4 ≤ d.slotAt dir n) := by
  have sizeAt : fSizeAt dir = dir + 128 := rfl
  have indirectAt : fIndirectAt dir = dir + 176 := rfl
  rw [sizeAt, indirectAt]
  rcases slotAt_place slot with ⟨few, place⟩ | ⟨low, high, filled, place⟩
  · rw [place]
    have field := (wellFormed.solid.placed _ _ there).field
      (show dir + 128 ≤ dir + 136 + 4 * n by omega) (by omega)
    exact ⟨field.1, field.2, by omega, by omega⟩
  · have bare := wellFormed.bare_indirect there filled
    have record := bare.record wellFormed there
    have behind := bare.1
    have start := bitmapEnd_le d
    have first : bitmap = 8192 := rfl
    have second : super = 4096 := rfl
    rw [pgSize_eq] at behind
    rw [place]
    omega

theorem toNat_block (inside : block < d.sNblocks) : (BitVec.ofNat 32 block).toNat = block := by
  have most : d.sNblocks < 2 ^ 32 := BitVec.isLt _
  rw [BitVec.toNat_ofNat, Nat.mod_eq_of_lt (Nat.lt_trans inside most)]

theorem extends_reached {middle : Disk} {size : BitVec 32} (wellFormed : d.WellFormed)
    (there : d.InTree path dir) (inside : n < nDirect + nIndirect)
    (reached : n < nDirect ∨ d.fIndirect dir ≠ 0)
    (size_eq : size = d.fSize dir + BitVec.ofNat 32 pgSize)
    (alloc : allocBlock (d.setWord (fSizeAt dir) size) = some (block, middle)) :
    d.nextFree [] = some block ∧
      d.Extends (middle.setWord (d.slotAt dir n) (BitVec.ofNat 32 block)) dir n block [block] := by
  have sizeAt : fSizeAt dir = dir + 128 := rfl
  have indirectAt : fIndirectAt dir = dir + 176 := rfl
  have placed := wellFormed.solid.placed _ _ there
  have sizeField := placed.field (show dir + 128 ≤ fSizeAt dir by omega) (by omega)
  have indirectField := placed.field (show dir + 128 ≤ fIndirectAt dir by omega) (by omega)
  obtain ⟨high, outside, offSize, offIndirect⟩ := wellFormed.slotApart there ⟨inside, reached⟩
  have first : d.Takes (d.setWord (fSizeAt dir) size) [] := setWord_takes sizeField.1 sizeField.2
  obtain ⟨next, second, frame⟩ := allocBlock_takes alloc
  rw [bitmapEnd_congr first.sNblocks] at frame
  rw [first.nextFree] at next
  have third : middle.Takes (middle.setWord (d.slotAt dir n) (BitVec.ofNat 32 block)) [] :=
    setWord_takes high (by rw [bitmapEnd_congr (first.trans second).sNblocks]; exact outside)
  have takes := (first.trans second).trans third
  have indirect : Disk.fIndirect (middle.setWord (d.slotAt dir n) (BitVec.ofNat 32 block)) dir =
      d.fIndirect dir := by
    unfold Disk.fIndirect
    rw [word_setWord_other (by omega), word_congr fun k low high' => frame k (by omega),
      word_setWord_other (by omega)]
  have slot : Disk.slotAt (middle.setWord (d.slotAt dir n) (BitVec.ofNat 32 block)) dir n =
      d.slotAt dir n := by
    rw [Disk.slotAt, indirect]
    rfl
  refine ⟨next, fun addr off offSize offIndirect offSlot => ?_, takes, ?_, inside, ?_,
    .inl ⟨reached, indirect⟩⟩
  · rw [slot] at offSlot
    rw [setWord_other offSlot, frame addr off, setWord_other offSize]
  · unfold Disk.fSize
    rw [word_setWord_other (by omega), word_congr fun k low high' => frame k (by omega), word_setWord,
      size_eq]
    rfl
  · rw [Disk.blockAt, slot, word_setWord]
    exact toNat_block (takes.were block List.mem_cons_self).1

theorem indirect_taken {middle : Disk} {size : BitVec 32} {pointers : Nat}
    (wellFormed : d.WellFormed) (there : d.InTree path dir)
    (alloc : allocBlock (d.setWord (fSizeAt dir) size) = some (pointers, middle))
    (stored : d' = middle.setWord (fIndirectAt dir) (BitVec.ofNat 32 pointers)) :
    d.nextFree [] = some pointers ∧ d.Takes d' [pointers] ∧
      (∀ addr, (addr < bitmap ∨ d.bitmapEnd ≤ addr) →
        (addr < fSizeAt dir ∨ fSizeAt dir + 4 ≤ addr) →
        (addr < fIndirectAt dir ∨ fIndirectAt dir + 4 ≤ addr) → d' addr = d addr) ∧
      d'.fSize dir = size ∧ (d'.fIndirect dir).toNat = pointers := by
  have sizeAt : fSizeAt dir = dir + 128 := rfl
  have indirectAt : fIndirectAt dir = dir + 176 := rfl
  have placed := wellFormed.solid.placed _ _ there
  have sizeField := placed.field (show dir + 128 ≤ fSizeAt dir by omega) (by omega)
  have indirectField := placed.field (show dir + 128 ≤ fIndirectAt dir by omega) (by omega)
  have first : d.Takes (d.setWord (fSizeAt dir) size) [] := setWord_takes sizeField.1 sizeField.2
  obtain ⟨next, second, frame⟩ := allocBlock_takes alloc
  have two := first.trans second
  rw [bitmapEnd_congr first.sNblocks] at frame
  rw [first.nextFree] at next
  have third : middle.Takes d' [] := by
    rw [stored]
    exact setWord_takes indirectField.1 (by rw [bitmapEnd_congr two.sNblocks]; exact indirectField.2)
  have takes := two.trans third
  refine ⟨next, takes, fun addr off offSize offIndirect => ?_, ?_, ?_⟩
  · rw [stored, setWord_other offIndirect, frame addr off, setWord_other offSize]
  · rw [stored]
    unfold Disk.fSize
    rw [word_setWord_other (by omega), word_congr fun k low high => frame k (by omega), word_setWord]
  · rw [stored, Disk.fIndirect, word_setWord]
    exact toNat_block (takes.were pointers List.mem_cons_self).1

theorem extends_indirect {middle last : Disk} {pointers : Nat} (wellFormed : d.WellFormed)
    (reserved : d.Reserved) (there : d.InTree path dir) (inside : n < nDirect + nIndirect)
    (far : nDirect ≤ n) (absent : d.fIndirect dir = 0) (taken : d.Takes middle [pointers])
    (frame : ∀ addr, (addr < bitmap ∨ d.bitmapEnd ≤ addr) →
      (addr < fSizeAt dir ∨ fSizeAt dir + 4 ≤ addr) →
      (addr < fIndirectAt dir ∨ fIndirectAt dir + 4 ≤ addr) → middle addr = d addr)
    (size : middle.fSize dir = d.fSize dir + BitVec.ofNat 32 pgSize)
    (number : (middle.fIndirect dir).toNat = pointers)
    (alloc : middle.allocBlock = some (block, last)) :
    d.nextFree [pointers] = some block ∧
      d.Extends (last.setWord (pointers * pgSize + 4 * (n - nDirect)) (BitVec.ofNat 32 block))
        dir n block [pointers, block] := by
  have sizeAt : fSizeAt dir = dir + 128 := rfl
  have indirectAt : fIndirectAt dir = dir + 176 := rfl
  have slots : nDirect + nIndirect = 1034 := rfl
  have start := bitmapEnd_le d
  have low : bitmap = 8192 := rfl
  have root : super = 4096 := rfl
  have placed := wellFormed.solid.placed _ _ there
  have sizeField := placed.field (show dir + 128 ≤ fSizeAt dir by omega) (by omega)
  have indirectField := placed.field (show dir + 128 ≤ fIndirectAt dir by omega) (by omega)
  obtain ⟨next, second, frame'⟩ := allocBlock_takes alloc
  have two := taken.trans second
  rw [bitmapEnd_congr taken.sNblocks] at frame'
  rw [taken.nextFree] at next
  have bare := wellFormed.bare_free reserved (taken.were pointers List.mem_cons_self).2
  have behind := bare.1
  have record := bare.record wellFormed there
  rw [pgSize_eq] at behind
  obtain ⟨slot, place⟩ : ∃ slot, pointers * pgSize + 4 * (n - nDirect) = slot := ⟨_, rfl⟩
  have address : slot = pointers * 4096 + 4 * (n - 10) := place.symm
  rw [place]
  have third : last.Takes (last.setWord slot (BitVec.ofNat 32 block)) [] :=
    setWord_takes (by omega) (by rw [bitmapEnd_congr two.sNblocks]; omega)
  have takes := two.trans third
  have indirect : Disk.fIndirect (last.setWord slot (BitVec.ofNat 32 block)) dir =
      middle.fIndirect dir := by
    unfold Disk.fIndirect
    rw [word_setWord_other (by omega), word_congr fun k low high => frame' k (by omega)]
  have slotAt : Disk.slotAt (last.setWord slot (BitVec.ofNat 32 block)) dir n = slot := by
    rw [Disk.slotAt, if_neg (not_lt.mpr far), indirect, number, place]
  have differ : pointers ≠ block := by
    rintro rfl
    have free := (second.were pointers List.mem_cons_self).2
    rw [taken.free] at free
    simp at free
  refine ⟨next, fun addr off offSize offIndirect offSlot => ?_, takes, ?_, inside, ?_,
    .inr ⟨far, absent, pointers, rfl, differ, by rw [indirect, number]⟩⟩
  · rw [slotAt] at offSlot
    rw [setWord_other offSlot, frame' addr off, frame addr off offSize offIndirect]
  · rw [← size]
    unfold Disk.fSize
    rw [word_setWord_other (by omega), word_congr fun k low high => frame' k (by omega)]
  · rw [Disk.blockAt, slotAt, word_setWord]
    exact toNat_block (takes.were block (by simp)).1

theorem fileAt_first (block : Nat) : fileAt (block * pgSize) 0 = block * 4096 := by
  rw [fileAt, Nat.mul_zero, Nat.add_zero, pgSize_eq]

/-- A file is made in an empty entry of a directory, or at the start of a block that is
appended to it; or the block is one that stale bytes point to. -/
theorem dirAllocFile_cases (wellFormed : d.WellFormed) (reserved : d.Reserved)
    (there : d.InTree path dir) (directory : d.fType dir = ftypeDir)
    (ran : dirAllocFile dir d = done f d') :
    ((d.entries dir).find? (fun e => d e = 0) = some f ∧ d' = d) ∨
      (d.entries dir).find? (fun e => d e = 0) = none ∧
        ((∃ block taken, d.Appends dir (blocksOf (d.fSize dir)) block taken ∧
            d.Extends d' dir (blocksOf (d.fSize dir)) block taken ∧ f = block * 4096) ∨
          (∀ block taken, ¬d.Appends dir (blocksOf (d.fSize dir)) block taken) ∧ d.Stale d' dir) := by
  obtain ⟨n, whole⟩ := wellFormed.dirs _ _ there directory
  have found := whole.dirSearch (fun d f => d f = 0) (Nat.le_of_eq (Nat.zero_add n))
  rw [Disk.dirAllocFile, if_pos whole.wholeBlocks] at ran
  dsimp only at ran
  rw [Disk.entries, whole.blocksOf] at *
  rw [found] at ran
  obtain ⟨entry, search⟩ : ∃ entry, (d.entriesFrom dir 0 n).find? (fun f => d f = 0) = entry :=
    ⟨_, rfl⟩
  rw [search] at ran ⊢
  cases entry with
  | some e =>
    cases ran
    exact .inl ⟨rfl, rfl⟩
  | none =>
    refine .inr ⟨rfl, ?_⟩
    obtain ⟨size, size_eq⟩ : ∃ size, size = d.fSize dir + BitVec.ofNat 32 pgSize := ⟨_, rfl⟩
    change andThen (fileGetBlock dir n
      (d.setWord (fSizeAt dir) (d.fSize dir + BitVec.ofNat 32 pgSize))) _ = _ at ran
    rw [← size_eq] at ran
    obtain ⟨⟨got, middle⟩, ran', ran⟩ := Option.bind_eq_some_iff.mp ran
    cases got with
    | error r => cases ran
    | ok blk =>
      cases ran
      obtain ⟨slot, middle, walked, outcome⟩ := fileGetBlock_done ran'
      obtain ⟨inside, reached⟩ := fileBlockWalk_slot walked
      have sizeAt : fSizeAt dir = dir + 128 := rfl
      have indirectAt : fIndirectAt dir = dir + 176 := rfl
      have sizeField := (wellFormed.solid.placed _ _ there).field
        (show dir + 128 ≤ fSizeAt dir by omega) (by omega)
      have indirect : Disk.fIndirect (d.setWord (fSizeAt dir) size) dir = d.fIndirect dir :=
        word_setWord_other (by omega)
      have slotAt : Disk.slotAt (d.setWord (fSizeAt dir) size) dir n = d.slotAt dir n := by
        rw [Disk.slotAt, indirect]
        rfl
      rw [indirect, slotAt] at reached
      rcases reached with ⟨reached, rfl, rfl⟩ | ⟨far, absent, pointers, half, alloc, stored, rfl⟩
      · have apart := (wellFormed.slotApart there ⟨inside, reached⟩).2.2.1
        rw [word_setWord_other (by omega)] at outcome
        rcases outcome with ⟨filled, rfl⟩ | ⟨hole, block, after, alloc, rfl, rfl⟩
        · refine .inr ⟨fun block taken appends => ?_, ?_⟩
          · cases appends with
            | reached _ null _ => exact filled null
            | indirect far absent _ _ _ =>
              exact reached.elim (not_lt.mpr far) fun there => there absent
          · have takes : d.Takes (d.setWord (fSizeAt dir) size) [] :=
              setWord_takes sizeField.1 sizeField.2
            exact ⟨[], takes, fun _ member => absurd member List.not_mem_nil⟩
        · obtain ⟨next, extends'⟩ := extends_reached wellFormed there inside reached size_eq alloc
          exact .inl ⟨block, [block], .reached reached hole next, extends', fileAt_first block⟩
      · obtain ⟨next, takes, frame, sized, number⟩ := indirect_taken wellFormed there alloc stored
        have bare := wellFormed.bare_free reserved (takes.were pointers List.mem_cons_self).2
        have behind := bare.1
        have record := bare.record wellFormed there
        have slots : nDirect + nIndirect = 1034 := rfl
        have ten : nDirect = 10 := rfl
        have same : middle.word (pointers * pgSize + 4 * (n - nDirect)) =
            d.word (pointers * pgSize + 4 * (n - nDirect)) := by
          rw [pgSize_eq] at behind ⊢
          exact word_congr fun k low high => frame k (by omega) (by omega) (by omega)
        rw [same] at outcome
        rcases outcome with ⟨filled, rfl⟩ | ⟨hole, block, after, alloc', rfl, rfl⟩
        · refine .inr ⟨fun block taken appends => ?_, [pointers], takes, fun block member => ?_⟩
          · cases appends with
            | reached near _ _ => exact near.elim (not_lt.mpr far) fun there => there absent
            | indirect _ _ next' null _ =>
              rw [next] at next'
              cases next'
              exact filled null
          · rw [List.mem_singleton.mp member, number]
        · obtain ⟨next', extends'⟩ := extends_indirect wellFormed reserved there inside far absent
            takes frame (sized.trans size_eq) number alloc'
          exact .inl ⟨block, _, .indirect far absent next hole next', extends', fileAt_first block⟩

end Extend

structure Disk.Longer (d d' : Disk) (path : List Path) (dir n block : Nat) (taken : List Nat) :
    Prop where
  wellFormed : d.WellFormed
  reserved : d.Reserved
  there : d.InTree path dir
  whole : d.Whole dir (n * pgSize)
  member : block ∈ taken
  grown : d.Extends d' dir n block taken

section Longer

variable {d d' : Disk} {dir block n bno addr : Nat} {path : List Path} {taken : List Nat}

section

variable (longer : d.Longer d' path dir n block taken)

include longer

theorem Disk.Longer.bare : d.Bare block :=
  longer.wellFormed.bare_free longer.reserved (longer.grown.takes.were block longer.member).2

theorem Disk.Longer.slot : n < 10 ∧ d'.slotAt dir n = dir + 136 + 4 * n ∨
      10 ≤ n ∧ d'.fIndirect dir ≠ 0 ∧ ∃ pointers, (d'.fIndirect dir).toNat = pointers ∧
        d'.slotAt dir n = pointers * 4096 + 4 * (n - 10) ∧ d.Bare pointers ∧ pointers ≠ block ∧
        pointers < d.sNblocks := by
  have ten : nDirect = 10 := rfl
  have free := (longer.grown.takes.were block longer.member).2
  by_cases direct : n < 10
  · exact .inl ⟨direct, if_pos direct⟩
  · refine .inr ⟨not_lt.mp direct, ?_⟩
    have place : d'.slotAt dir n = (d'.fIndirect dir).toNat * 4096 + 4 * (n - 10) := if_neg direct
    rcases longer.grown.indirect with ⟨near, same⟩ | ⟨-, -, first, rfl, differ, number⟩
    · have filled := near.resolve_left direct
      have mine := mem_owned_indirect filled
      have facts := longer.wellFormed.blocks _ _ longer.there _ mine
      rw [same] at place ⊢
      refine ⟨filled, _, rfl, place, longer.wellFormed.bare_indirect longer.there filled, ?_, facts.1.2⟩
      intro same
      rw [same, free] at facts
      cases facts.2.2
    · have were := longer.grown.takes.were first List.mem_cons_self
      have bare := longer.wellFormed.bare_free longer.reserved were.2
      have behind := bare.1
      have start := bitmapEnd_le d
      have low : bitmap = 8192 := rfl
      rw [pgSize_eq] at behind
      refine ⟨fun null => ?_, first, number, by rw [place, number], bare, differ, were.1⟩
      rw [null] at number
      have zero : (0 : BitVec 32).toNat = 0 := rfl
      omega

theorem Disk.Longer.appended (low : block * 4096 ≤ addr)
    (high : addr < block * 4096 + 4096) : d' addr = d addr := by
  have sizeAt : fSizeAt dir = dir + 128 := rfl
  have indirectAt : fIndirectAt dir = dir + 176 := rfl
  have record := longer.bare.record longer.wellFormed longer.there
  have behind := longer.bare.1
  rw [pgSize_eq] at behind
  refine longer.grown.frame addr (.inr (by omega)) (by omega) (by omega) ?_
  rcases longer.slot with ⟨few, place⟩ | ⟨many, -, pointers, -, place, -, differ, -⟩
  · omega
  · have legal := longer.grown.inside
    have slots : nDirect + nIndirect = 1034 := rfl
    omega

theorem Disk.Longer.fType : d'.fType dir = d.fType dir := by
  have sizeAt : fSizeAt dir = dir + 128 := rfl
  have indirectAt : fIndirectAt dir = dir + 176 := rfl
  have typeAt : fTypeAt dir = dir + 132 := rfl
  have field := (longer.wellFormed.solid.placed _ _ longer.there).field
    (show dir + 128 ≤ fTypeAt dir by omega) (by omega)
  unfold Disk.fType
  refine word_congr fun k low high => longer.grown.frame k (by omega) (by omega) (by omega) ?_
  rcases longer.slot with ⟨few, place⟩ | ⟨many, -, pointers, -, place, bare, -, -⟩
  · omega
  · have record := bare.record longer.wellFormed longer.there
    have legal := longer.grown.inside
    have slots : nDirect + nIndirect = 1034 := rfl
    omega

theorem Disk.Longer.old (below : bno < n) : d'.blockAt dir bno = d.blockAt dir bno := by
  have sizeAt : fSizeAt dir = dir + 128 := rfl
  have indirectAt : fIndirectAt dir = dir + 176 := rfl
  have legal := longer.grown.inside
  have slots : nDirect + nIndirect = 1034 := rfl
  have ten : nDirect = 10 := rfl
  unfold Disk.blockAt
  by_cases direct : bno < 10
  · have here : d.slotAt dir bno = dir + 136 + 4 * bno := if_pos direct
    have here' : d'.slotAt dir bno = dir + 136 + 4 * bno := if_pos direct
    have field := (longer.wellFormed.solid.placed _ _ longer.there).field
      (show dir + 128 ≤ dir + 136 + 4 * bno by omega) (by omega)
    rw [here, here']
    refine congrArg _ (word_congr fun k low high =>
      longer.grown.frame k (by omega) (by omega) (by omega) ?_)
    rcases longer.slot with ⟨few, place⟩ | ⟨many, -, pointers, -, place, bare, -, -⟩
    · omega
    · have record := bare.record longer.wellFormed longer.there
      omega
  · have beyond : nDirect * pgSize < n * pgSize := Nat.mul_lt_mul_of_pos_right (by omega) (by decide)
    have filled : d.fIndirect dir ≠ 0 := fun null =>
      (longer.whole.indirect beyond).1 (by rw [null]; rfl)
    have kept : d'.fIndirect dir = d.fIndirect dir := by
      rcases longer.grown.indirect with ⟨-, same⟩ | ⟨-, absent, -⟩
      · exact same
      · exact absurd absent filled
    have bare := longer.wellFormed.bare_indirect longer.there filled
    have record := bare.record longer.wellFormed longer.there
    have behind := bare.1
    rw [pgSize_eq] at behind
    have same : d'.slotAt dir bno = d.slotAt dir bno := by
      unfold Disk.slotAt
      rw [kept]
    have last : d'.slotAt dir n = d.slotAt dir n := by
      unfold Disk.slotAt
      rw [kept]
    obtain ⟨pointers, number⟩ : ∃ pointers, (d.fIndirect dir).toNat = pointers := ⟨_, rfl⟩
    have here : d.slotAt dir bno = pointers * 4096 + 4 * (bno - 10) := by
      rw [← number]
      exact if_neg direct
    have ends : d.slotAt dir n = pointers * 4096 + 4 * (n - 10) := by
      rw [← number]
      exact if_neg (by omega)
    rw [number] at record behind
    rw [same]
    refine congrArg _ (word_congr fun k low high =>
      longer.grown.frame k (.inr (by omega)) (by omega) (by omega) ?_)
    rw [last]
    omega

theorem Disk.Longer.wholeAfter : d'.Whole dir ((n + 1) * pgSize) where
  length := by
    rw [longer.grown.size, longer.whole.length, Nat.add_mul, Nat.one_mul, BitVec.ofNat_add]
  legal := by
    have most : maxFileSize = (nDirect + nIndirect) * pgSize := rfl
    rw [most]
    exact Nat.mul_le_mul_right pgSize longer.grown.inside
  indirect beyond := by
    have many : nDirect < n + 1 := Nat.lt_of_mul_lt_mul_right beyond
    have ten : nDirect = 10 := rfl
    rcases longer.slot with ⟨few, -⟩ | ⟨-, filled, pointers, number, -, -, -, inside⟩
    · omega
    · refine ⟨fun null => filled (BitVec.eq_of_toNat_eq null), ?_⟩
      rw [longer.grown.takes.sNblocks, number]
      exact inside
  blocks bno here := by
    have below : bno < n + 1 := Nat.lt_of_mul_lt_mul_right here
    unfold Disk.OnDisk
    rw [longer.grown.takes.sNblocks]
    rcases Nat.lt_succ_iff_lt_or_eq.mp below with before | rfl
    · rw [longer.old before]
      exact longer.whole.blocks bno (Nat.mul_lt_mul_of_pos_right before (by decide))
    · have behind := longer.bare.1
      have start := bitmapEnd_le d
      have low : bitmap = 8192 := rfl
      rw [pgSize_eq] at behind
      rw [longer.grown.last]
      exact ⟨by omega, (longer.grown.takes.were block longer.member).1⟩

theorem Disk.Longer.entries :
    d'.entries dir = d.entries dir ++ (List.range blkFiles).map (fileAt (block * pgSize)) := by
  have same : d'.entriesFrom dir 0 n = d.entriesFrom dir 0 n := by
    unfold Disk.entriesFrom
    refine List.flatMap_congr fun bno member => ?_
    have below : bno < n := by
      have range := List.mem_range'_1.mp member
      omega
    rw [longer.old below]
  have split : d'.entriesFrom dir 0 (n + 1) =
      d'.entriesFrom dir 0 n ++ (List.range blkFiles).map (fileAt (d'.blockAt dir n * pgSize)) := by
    unfold Disk.entriesFrom
    rw [List.range'_concat, List.flatMap_append, List.flatMap_singleton, Nat.zero_add, Nat.one_mul]
  rw [Disk.entries, Disk.entries, longer.wholeAfter.blocksOf, longer.whole.blocksOf, split, same,
    longer.grown.last]

end

end Longer

end Fs

end Jos
