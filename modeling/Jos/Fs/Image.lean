import Jos.Fs.Entries

/-! The image that fsformat leaves: where its files and directories are. -/

set_option autoImplicit false

namespace Jos

open Foundation Function

namespace Fs

open Disk

namespace Fsformat

/-- The blocks that `finishdir` allocates for `n` entries. -/
def dirBlocks (n : Nat) : Nat := blocks (n * fileSize)

/-- The size that `finishdir` gives to a directory: an empty one is a block long too. -/
def dirSize (n : Nat) : Nat := max 1 (dirBlocks n) * pgSize

section Sizes

variable {n : Nat}

theorem dirBlocks_le (room : n ≤ maxDirEnts) : dirBlocks n ≤ 8 := by
  have most : maxDirEnts = 128 := rfl
  have size : fileSize = 256 := rfl
  rw [dirBlocks, blocks, size]
  omega

theorem blocks_dirSize (n : Nat) : blocks (dirSize n) = max 1 (dirBlocks n) := by
  rw [blocks, dirSize, pgSize_eq]
  omega

theorem dirSize_small (room : n ≤ maxDirEnts) : dirSize n < maxFileSize := by
  have few := dirBlocks_le room
  have most : maxFileSize = 1034 * 4096 := rfl
  rw [dirSize, pgSize_eq, most]
  omega

theorem dirSize_few (room : n ≤ maxDirEnts) : blocks (dirSize n) < nDirect := by
  have few := dirBlocks_le room
  have ten : nDirect = 10 := rfl
  rw [blocks_dirSize]
  omega

theorem total_dirSize (room : n ≤ maxDirEnts) : total (dirSize n) = max 1 (dirBlocks n) := by
  rw [total, if_neg (not_le.mpr (dirSize_few room)), blocks_dirSize, Nat.add_zero]

theorem entries_fit (n : Nat) : n * fileSize ≤ dirBlocks n * pgSize := by
  rw [dirBlocks, blocks, pgSize_eq]
  omega

theorem roundup_dirSize (n : Nat) :
    BitVec.ofInt 32 (roundupInt (n * fileSize : Nat)) = BitVec.ofNat 32 (dirSize n) := by
  have size : fileSize = 256 := rfl
  rcases Nat.eq_zero_or_pos n with rfl | positive
  · decide
  · have some : 0 < n * fileSize := Nat.mul_pos positive (by decide)
    have least : max 1 (dirBlocks n) = blocks (n * fileSize) := by
      rw [dirBlocks, blocks]
      omega
    rw [roundupInt_ofNat some, dirSize, least]
    exact BitVec.ofInt_natCast _ _

end Sizes

/-- What `finishdir` does: the entries are copied to the disk, and the file of the directory
gets its size and pointers. -/
structure Closed (nblocks : Nat) (dir : Dir) (pos : Nat) (s after : Format) : Prop where
  diskpos : after.diskpos = (pos + dirBlocks dir.n) * pgSize
  fits : pos + dirBlocks dir.n < nblocks
  described : Described after.mem dir.f pos (dirSize dir.n)
  unused : Unused s.mem dir.f after.mem dir.f (dirSize dir.n)
  copied : ∀ k < dir.n * fileSize, after.mem (pos * pgSize + k) = s.mem (dir.ents + k)
  empty : ∀ k, pos * pgSize + dir.n * fileSize ≤ k → k < (pos + dirBlocks dir.n) * pgSize →
    after.mem k = 0
  other : ∀ k, k < dir.f + 128 ∨ dir.f + 180 ≤ k ∨ (dir.f + 132 ≤ k ∧ k < dir.f + 136) →
    k < pos * pgSize ∨ (pos + dirBlocks dir.n) * pgSize ≤ k → after.mem k = s.mem k

theorem finishdir_spec {nblocks pos : Nat} {dir : Dir} {s after : Format} (room : dir.n ≤ maxDirEnts)
    (diskpos : s.diskpos = pos * pgSize)
    (apart : nblocks * pgSize ≤ dir.f ∨ 180 + dir.f ≤ pos * pgSize)
    (clean : ∀ k, pos * pgSize ≤ k → k < nblocks * pgSize → s.mem k = 0)
    (ran : finishdir nblocks dir s = some after) : Closed nblocks dir pos s after := by
  obtain ⟨⟨addr, s1⟩, alloced, ran⟩ := Option.bind_eq_some_iff.mp ran
  have few := dirSize_few room
  have most : maxDirEnts = 128 := rfl
  have size256 : fileSize = 256 := rfl
  have bytes : dir.n * fileSize < 2 ^ 31 := by
    rw [size256]
    omega
  obtain ⟨rfl, rfl, fits⟩ := alloc_eq bytes diskpos alloced
  dsimp only at ran
  rw [blockof, Nat.mul_div_cancel _ (by decide : 0 < pgSize), roundup_dirSize] at ran
  obtain ⟨mem, moved⟩ : ∃ mem : Disk, memmove s.mem (pos * pgSize) s.mem dir.ents (dir.n * fileSize) = mem :=
    ⟨_, rfl⟩
  rw [moved] at ran
  have enough := entries_fit dir.n
  obtain ⟨f, file⟩ : ∃ f : Nat, dir.f = f := ⟨_, rfl⟩
  obtain ⟨c, count⟩ : ∃ c, dirBlocks dir.n = c := ⟨_, rfl⟩
  have fits : pos + c < nblocks := by rw [← count]; exact fits
  rw [count] at enough
  obtain ⟨start, first⟩ : ∃ start, pos * pgSize = start := ⟨_, rfl⟩
  have next : (pos + c) * pgSize = start + c * pgSize := by rw [Nat.add_mul, first]
  have last : (pos + c) * pgSize ≤ nblocks * pgSize := Nat.mul_le_mul_right pgSize (Nat.le_of_lt fits)
  have same : total (dirSize dir.n) = blocks (dirSize dir.n) := by
    rw [total, if_neg (not_le.mpr few), Nat.add_zero]
  have apart : nblocks * pgSize ≤ f ∨ 180 + f ≤ start := by rw [← file, ← first]; exact apart
  have before : ∀ k, k < start ∨ start + dir.n * fileSize ≤ k → mem k = s.mem k := by
    intro k outside
    rw [← moved, memmove_other (by rw [first]; exact outside)]
  rw [file] at ran
  have spec := finishfile_few (dirSize_small room) few ran
  have other : ∀ k, k < f + 128 ∨ f + 180 ≤ k ∨ (f + 132 ≤ k ∧ k < f + 136) →
      after.mem k = mem k := by
    intro k outside
    refine spec.other k outside ?_
    rw [same]
    omega
  constructor
  · rw [spec.same few]
    rfl
  · rw [count]
    exact fits
  · rw [file]
    exact spec.described
  · rw [file]
    have word : ∀ field, field + 4 ≤ 180 → mem.word (f + field) = s.mem.word (f + field) := by
      intro field low
      refine word_congr fun k lower upper => before k ?_
      omega
    refine ⟨fun i low outside => ?_, fun _ => ?_⟩
    · rw [spec.unused.direct i low outside, Disk.fDirect, Disk.fDirect, fDirectAt, Nat.add_assoc]
      have ten : nDirect = 10 := rfl
      exact word (136 + 4 * i) (by omega)
    · rw [spec.unused.indirect few]
      exact word 176 (by decide)
  · intro k inside
    rw [first, other _ (by omega), ← moved, first, memmove_here inside]
  · intro k low high
    rw [count, next] at high
    rw [first] at low clean
    rw [other k (by omega), before k (by omega)]
    exact clean k (by omega) (by omega)
  · intro k outside outside'
    rw [file] at outside
    rw [count, next, first] at outside'
    rw [other k outside, before k (by omega)]

/-- The three directories are closed one behind the other, from `starts`. -/
structure Shut (nblocks : Nat) (memory begun : Disk) (dirs : Flag → Dir) (starts : Flag → Nat)
    (entries : List Entry) (s1 s2 s3 s4 : Format) : Prop where
  laid : Laid nblocks memory begun dirs (starts .bin) s1 entries
  files : ∀ flag, (dirs flag).f = dirFile flag
  second : starts .sbin = starts .bin + dirBlocks (dirs .bin).n
  third : starts .root = starts .sbin + dirBlocks (dirs .sbin).n
  bin : Closed nblocks (dirs .bin) (starts .bin) s1 s2
  sbin : Closed nblocks (dirs .sbin) (starts .sbin) s2 s3
  root : Closed nblocks (dirs .root) (starts .root) s3 s4

section Shut

variable {nblocks : Nat} {memory begun : Disk} {dirs : Flag → Dir} {starts : Flag → Nat}
  {entries : List Entry} {s1 s2 s3 s4 : Format}

theorem Laid.shut {pos : Nat} (laid : Laid nblocks memory begun dirs pos s1 entries)
    (files : ∀ flag, (dirs flag).f = dirFile flag) (first : starts .bin = pos)
    (second : starts .sbin = starts .bin + dirBlocks (dirs .bin).n)
    (third : starts .root = starts .sbin + dirBlocks (dirs .sbin).n)
    (bin : finishdir nblocks (dirs .bin) s1 = some s2)
    (sbin : finishdir nblocks (dirs .sbin) s2 = some s3)
    (root : finishdir nblocks (dirs .root) s3 = some s4) :
    Shut nblocks memory begun dirs starts entries s1 s2 s3 s4 := by
  subst first
  have most : nblocks * pgSize ≤ 10240 * 4096 := Nat.mul_le_mul_right pgSize laid.most
  have fileBin : (dirs .bin).f = 0x10000000 := files .bin
  have fileSbin : (dirs .sbin).f = 0x10000100 := files .sbin
  have fileRoot : (dirs .root).f = 4104 := files .root
  have one := finishdir_spec (laid.room .bin) laid.diskpos (.inl (by omega)) laid.clean bin
  have grow : starts .bin * pgSize ≤ starts .sbin * pgSize :=
    Nat.mul_le_mul_right pgSize (by omega)
  have grow' : starts .sbin * pgSize ≤ starts .root * pgSize :=
    Nat.mul_le_mul_right pgSize (by omega)
  have pos2 : s2.diskpos = starts .sbin * pgSize := by
    rw [one.diskpos, second]
  have clean2 : ∀ k, starts .sbin * pgSize ≤ k → k < nblocks * pgSize → s2.mem k = 0 := by
    intro k low high
    have low' := low
    rw [second] at low'
    rw [one.other k (by omega) (.inr low')]
    exact laid.clean k (by omega) high
  have two := finishdir_spec (laid.room .sbin) pos2 (.inl (by omega)) clean2 sbin
  have pos3 : s3.diskpos = starts .root * pgSize := by
    rw [two.diskpos, third]
  have clean3 : ∀ k, starts .root * pgSize ≤ k → k < nblocks * pgSize → s3.mem k = 0 := by
    intro k low high
    have low' := low
    rw [third] at low'
    rw [two.other k (by omega) (.inr low')]
    exact clean2 k (by omega) high
  have low : 3 * 4096 ≤ starts .bin * pgSize := Nat.mul_le_mul_right pgSize laid.low
  have three := finishdir_spec (laid.room .root) pos3 (.inr (by omega)) clean3 root
  exact ⟨laid, files, second, third, one, two, three⟩

variable (shut : Shut nblocks memory begun dirs starts entries s1 s2 s3 s4)

include shut

theorem Shut.bounds : nblocks * pgSize ≤ 0x10000000 ∧ (dirs .bin).f = 0x10000000 ∧
    (dirs .sbin).f = 0x10000100 ∧ (dirs .root).f = 4104 ∧ 12288 ≤ starts .bin * pgSize ∧
    (starts .bin + dirBlocks (dirs .bin).n) * pgSize = starts .sbin * pgSize ∧
    (starts .sbin + dirBlocks (dirs .sbin).n) * pgSize = starts .root * pgSize ∧
    starts .bin * pgSize ≤ starts .sbin * pgSize ∧
    starts .sbin * pgSize ≤ starts .root * pgSize ∧
    starts .root * pgSize ≤ (starts .root + dirBlocks (dirs .root).n) * pgSize ∧
    (starts .root + dirBlocks (dirs .root).n) * pgSize ≤ nblocks * pgSize := by
  have second := shut.second
  have third := shut.third
  have most : nblocks * pgSize ≤ 10240 * 4096 := Nat.mul_le_mul_right pgSize shut.laid.most
  refine ⟨by omega, shut.files .bin, shut.files .sbin, shut.files .root,
    Nat.mul_le_mul_right pgSize shut.laid.low, by rw [second], by rw [third],
    Nat.mul_le_mul_right pgSize (by omega), Nat.mul_le_mul_right pgSize (by omega),
    Nat.mul_le_mul_right pgSize (Nat.le_add_right _ _),
    Nat.mul_le_mul_right pgSize (Nat.le_of_lt shut.root.fits)⟩

theorem Shut.files_kept {k : Nat} (low : 12288 ≤ k) (high : k < starts .bin * pgSize) :
    s4.mem k = s1.mem k := by
  obtain ⟨most, bin, sbin, root, first, next, last, grow, grow', more, fits⟩ := shut.bounds
  rw [shut.root.other k (by omega) (by omega), shut.sbin.other k (by omega) (by omega),
    shut.bin.other k (by omega) (by omega)]

/-- The blocks below 3 stay as they are but for the size and pointers of the root. -/
theorem Shut.header_kept {k : Nat} (low : k < 12288)
    (outside : k < 4232 ∨ 4284 ≤ k ∨ 4236 ≤ k ∧ k < 4240) : s4.mem k = begun k := by
  obtain ⟨most, bin, sbin, root, first, next, last, grow, grow', more, fits⟩ := shut.bounds
  have page : 3 * pgSize = 12288 := rfl
  rw [shut.root.other k (by omega) (by omega), shut.sbin.other k (by omega) (by omega),
    shut.bin.other k (by omega) (by omega), shut.laid.kept k (by omega)]

/-- The arrays stay as they are but for the sizes and pointers of the two directories. -/
theorem Shut.heap_kept {k : Nat} (high : 0x10000000 ≤ k)
    (outside : k < 0x10000080 ∨ 0x10000084 ≤ k ∧ k < 0x10000088 ∨ 0x100000B4 ≤ k ∧ k < 0x10000180 ∨
      0x10000184 ≤ k ∧ k < 0x10000188 ∨ 0x100001B4 ≤ k) :
    s2.mem k = s1.mem k ∧ s3.mem k = s1.mem k := by
  obtain ⟨most, bin, sbin, root, first, next, last, grow, grow', more, fits⟩ := shut.bounds
  have one := shut.bin.other k (by omega) (by omega)
  refine ⟨one, ?_⟩
  rw [shut.sbin.other k (by omega) (by omega), one]

theorem Shut.entry {flag : Flag} {j k : Nat} (low : firstSlot flag ≤ j) (high : j < (dirs flag).n)
    (inside : k < fileSize) : s4.mem (starts flag * pgSize + fileSize * j + k) =
      s1.mem (entsOf flag + fileSize * j + k) := by
  obtain ⟨most, bin, sbin, root, first, next, last, grow, grow', more, fits⟩ := shut.bounds
  have size : fileSize = 256 := rfl
  have within : fileSize * j + k < (dirs flag).n * fileSize := by
    have below : fileSize * (j + 1) ≤ fileSize * (dirs flag).n := Nat.mul_le_mul_left fileSize high
    rw [Nat.mul_succ] at below
    rw [Nat.mul_comm (dirs flag).n]
    omega
  have blocks := entries_fit (dirs flag).n
  have split : (starts flag + dirBlocks (dirs flag).n) * pgSize =
      starts flag * pgSize + dirBlocks (dirs flag).n * pgSize := Nat.add_mul _ _ _
  have ents := shut.laid.ents flag
  rw [Nat.add_assoc, Nat.add_assoc]
  cases flag
  · have place : entsOf .root = 0x10000000 := rfl
    have low : fileSize * 2 ≤ fileSize * j := Nat.mul_le_mul_left fileSize low
    rw [shut.root.copied _ within, ents]
    exact (shut.heap_kept (by omega) (by omega)).2
  · have place : entsOf .bin = 0x20000000 := rfl
    rw [shut.root.other _ (by omega) (by omega), shut.sbin.other _ (by omega) (by omega),
      shut.bin.copied _ within, ents]
  · have place : entsOf .sbin = 0x30000000 := rfl
    rw [shut.root.other _ (by omega) (by omega), shut.sbin.copied _ within, ents]
    exact (shut.heap_kept (by omega) (by omega)).1

theorem Shut.empty {flag : Flag} {k : Nat} (low : starts flag * pgSize + (dirs flag).n * fileSize ≤ k)
    (high : k < (starts flag + dirBlocks (dirs flag).n) * pgSize) : s4.mem k = 0 := by
  obtain ⟨most, bin, sbin, root, first, next, last, grow, grow', more, fits⟩ := shut.bounds
  cases flag
  · exact shut.root.empty k low high
  · rw [shut.root.other k (by omega) (by omega), shut.sbin.other k (by omega) (by omega)]
    exact shut.bin.empty k low high
  · rw [shut.root.other k (by omega) (by omega)]
    exact shut.sbin.empty k low high

theorem Shut.rootFile : Described s4.mem sRoot (starts .root) (dirSize (dirs .root).n) ∧
    Unused begun sRoot s4.mem sRoot (dirSize (dirs .root).n) := by
  obtain ⟨most, bin, sbin, root, first, next, last, grow, grow', more, fits⟩ := shut.bounds
  have page : 3 * pgSize = 12288 := rfl
  have described := shut.root.described
  have unused := shut.root.unused
  have place : sRoot = (dirs .root).f := root.symm
  rw [place]
  refine ⟨described, unused.congr fun field low high => ?_⟩
  refine (word_congr fun k lower upper => ?_).symm
  rw [shut.sbin.other k (by omega) (by omega), shut.bin.other k (by omega) (by omega),
    shut.laid.kept k (by omega)]

theorem Shut.subdir {flag : Flag} {slot : Nat} (place : dirFile flag = entsOf .root + fileSize * slot)
    (inner : slot < 2) :
    Described s4.mem (starts .root * pgSize + fileSize * slot) (starts flag) (dirSize (dirs flag).n) ∧
      Unused begun (dirFile flag) s4.mem (starts .root * pgSize + fileSize * slot)
        (dirSize (dirs flag).n) ∧
      ∀ k < 136, k < 128 ∨ 132 ≤ k →
        s4.mem (starts .root * pgSize + fileSize * slot + k) = begun (dirFile flag + k) := by
  obtain ⟨most, bin, sbin, root, first, next, last, grow, grow', more, fits⟩ := shut.bounds
  have page : 3 * pgSize = 12288 := rfl
  have size : fileSize = 256 := rfl
  have array : entsOf .root = 0x10000000 := rfl
  have enough : 2 * fileSize ≤ (dirs .root).n * fileSize :=
    Nat.mul_le_mul_right fileSize (shut.laid.first .root)
  have copied : ∀ k < fileSize, s4.mem (starts .root * pgSize + fileSize * slot + k) =
      s3.mem (entsOf .root + fileSize * slot + k) := by
    intro k inside
    rw [size] at inside enough ⊢
    rw [Nat.add_assoc, Nat.add_assoc, shut.root.copied _ (by rw [size]; omega), shut.laid.ents]
  have small := dirSize_small (shut.laid.room flag)
  have few := dirSize_few (shut.laid.room flag)
  cases flag
  · have here : dirFile .root = 4104 := rfl
    omega
  · have here : dirFile .bin = 0x10000000 := rfl
    have zero : fileSize * slot = 0 := by omega
    have file : (dirs .bin).f = dirFile .bin := shut.files .bin
    have same : ∀ k < fileSize, s4.mem (starts .root * pgSize + fileSize * slot + k) =
        s2.mem (dirFile .bin + k) := by
      intro k inside
      rw [copied k inside, zero, array, here]
      exact shut.sbin.other _ (by omega) (by omega)
    have described := shut.bin.described
    have unused := shut.bin.unused
    rw [file] at described unused
    refine ⟨described.move small same fun many => absurd many (not_le.mpr few),
      (unused.congr fun field low high => ?_).move same, fun k inside apart => ?_⟩
    · refine (word_congr fun k lower upper => ?_).symm
      exact shut.laid.kept k (by omega)
    · rw [same k (by omega), shut.bin.other _ (by omega) (by omega)]
      exact shut.laid.kept _ (by omega)
  · have here : dirFile .sbin = 0x10000100 := rfl
    have file : (dirs .sbin).f = dirFile .sbin := shut.files .sbin
    have same : ∀ k < fileSize, s4.mem (starts .root * pgSize + fileSize * slot + k) =
        s3.mem (dirFile .sbin + k) := by
      intro k inside
      rw [copied k inside, place]
    have described := shut.sbin.described
    have unused := shut.sbin.unused
    rw [file] at described unused
    refine ⟨described.move small same fun many => absurd many (not_le.mpr few),
      (unused.congr fun field low high => ?_).move same, fun k inside apart => ?_⟩
    · refine (word_congr fun k lower upper => ?_).symm
      rw [shut.bin.other k (by omega) (by omega)]
      exact shut.laid.kept k (by omega)
    · rw [same k (by omega), shut.sbin.other _ (by omega) (by omega),
        shut.bin.other _ (by omega) (by omega)]
      exact shut.laid.kept _ (by omega)

omit shut

end Shut

section Bitmap

variable {mem : Disk} {count : Nat}

/-- The loop of `finishdisk` up to a block. -/
def clearBits (count : Nat) (mem : Disk) : Disk :=
  (List.range count).foldl (fun mem i =>
    mem.setWord (bitmap + 4 * (i / 32)) (mem.word (bitmap + 4 * (i / 32)) &&& ~~~(1#32 <<< (i % 32)))) mem

theorem clearBits_succ : clearBits (count + 1) mem =
    (clearBits count mem).setWord (bitmap + 4 * (count / 32))
      ((clearBits count mem).word (bitmap + 4 * (count / 32)) &&& ~~~(1#32 <<< (count % 32))) := by
  rw [clearBits, List.range_succ, List.foldl_append]
  rfl

theorem clearBits_other {k : Nat} (outside : k < bitmap ∨ bitmap + 4 * ((count + 31) / 32) ≤ k) :
    clearBits count mem k = mem k := by
  induction count with
  | zero => rfl
  | succ count ih => rw [clearBits_succ, setWord_other (by omega), ih (by omega)]

theorem clearBits_bit (b : Nat) :
    ((clearBits count mem).word (bitmap + 4 * (b / 32))).getLsbD (b % 32) =
      ((mem.word (bitmap + 4 * (b / 32))).getLsbD (b % 32) && decide (count ≤ b)) := by
  induction count with
  | zero => simp [clearBits]
  | succ count ih =>
    have inside : b % 32 < 32 := Nat.mod_lt _ (by decide)
    rw [clearBits_succ]
    by_cases same : b / 32 = count / 32
    · rw [same] at ih ⊢
      rw [word_setWord, BitVec.getLsbD_and, ih]
      by_cases bit : b % 32 = count % 32
      · have equal : b = count := by omega
        subst equal
        simp [inside]
      · have order : decide (count ≤ b) = decide (count + 1 ≤ b) := by
          congr 1
          apply propext
          omega
        have kept : (~~~(1#32 <<< (count % 32))).getLsbD (b % 32) = true := by
          simp [inside]
          omega
        rw [kept, order, Bool.and_true]
    · have order : decide (count ≤ b) = decide (count + 1 ≤ b) := by
        congr 1
        apply propext
        omega
      rw [word_setWord_other (by omega), ih, order]

theorem ones_bit {addr i : Nat} (ones : ∀ k, addr ≤ k → k < addr + 4 → mem k = 0xFF) (inside : i < 32) :
    (mem.word addr).getLsbD i = true := by
  have word : mem.word addr = BitVec.allOnes 32 := by
    rw [Disk.word, ones (addr + 3) (by omega) (by omega), ones (addr + 2) (by omega) (by omega),
      ones (addr + 1) (by omega) (by omega), ones addr (by omega) (by omega)]
    decide
  rw [word, BitVec.getLsbD_allOnes]
  exact decide_eq_true inside

end Bitmap

def filesOf (args : List Argument) : List Entry := layout (assigned args .root) firstSlot 3

def countOf (args : List Argument) (flag : Flag) : Nat :=
  firstSlot flag + ((assigned args .root).filter fun a => a.1 = flag).length

def dirStart (args : List Argument) : Flag → Nat
  | .bin => layoutEnd (assigned args .root) 3
  | .sbin => layoutEnd (assigned args .root) 3 + dirBlocks (countOf args .bin)
  | .root =>
    layoutEnd (assigned args .root) 3 + dirBlocks (countOf args .bin) + dirBlocks (countOf args .sbin)

def imageEnd (args : List Argument) : Nat := dirStart args .root + dirBlocks (countOf args .root)

def entryAt (args : List Argument) (flag : Flag) (j : Nat) : Nat :=
  dirStart args flag * pgSize + fileSize * j

def fileOf (args : List Argument) : Flag → Nat
  | .root => sRoot
  | .bin => entryAt args .root 0
  | .sbin => entryAt args .root 1

theorem layout_files (l : List (Flag × Argument)) (slots : Flag → Nat) (pos : Nat) :
    (layout l slots pos).map (fun e => (e.dir, e.file)) = l := by
  induction l generalizing slots pos with
  | nil => rfl
  | cons a rest ih => rw [layout, List.map_cons, ih]

theorem layout_count (l : List (Flag × Argument)) (slots : Flag → Nat) (pos : Nat) (flag : Flag) :
    ((layout l slots pos).filter fun e => e.dir = flag).length =
      (l.filter fun a => a.1 = flag).length := by
  have files := layout_files l slots pos
  conv_rhs => rw [← files, List.filter_map, List.length_map]
  rfl

/-- The image: the directories and files are where the arguments put them. -/
structure Image (nblocks : Nat) (memory : Disk) (args : List Argument) (d : Disk) : Prop where
  count : d.sNblocks = nblocks
  most : nblocks ≤ 10240
  fits : imageEnd args < nblocks
  room : ∀ flag, countOf args flag ≤ maxDirEnts
  bits : ∀ b < nblocks, d.blockIsFree b = decide (imageEnd args ≤ b)
  type : ∀ flag, d.fType (fileOf args flag) = ftypeDir
  dirs : ∀ flag, Described d (fileOf args flag) (dirStart args flag) (dirSize (countOf args flag))
  name : ∀ flag, flag ≠ .root → ∀ k ≤ (dirName flag).length,
    d (fileOf args flag + k) = (dirName flag).getD k 0
  unused : ∀ flag, flag ≠ .root →
    Unused memory (dirFile flag) d (fileOf args flag) (dirSize (countOf args flag))
  unusedRoot : Unused (fun _ => 0) sRoot d sRoot (dirSize (countOf args .root))
  files : ∀ e ∈ filesOf args, e.Stored memory d (entryAt args e.dir e.slot)
  empty : ∀ flag k, entryAt args flag (countOf args flag) ≤ k →
    k < (dirStart args flag + dirBlocks (countOf args flag)) * pgSize → d k = 0
  bounds : ∀ e ∈ filesOf args, 3 ≤ e.start ∧ e.stop ≤ dirStart args .bin
  low : 3 ≤ dirStart args .bin
  order : (filesOf args).Pairwise fun a b => a.stop ≤ b.start
  slots : ∀ flag j, (∃ e ∈ filesOf args, e.dir = flag ∧ e.slot = j) ↔
    firstSlot flag ≤ j ∧ j < countOf args flag
  distinct : ∀ a ∈ filesOf args, ∀ b ∈ filesOf args, a.dir = b.dir → a.slot = b.slot → a = b

theorem image {nblocks : Nat} {memory : Disk} {args : List Argument} {d : Disk}
    (short : ∀ a ∈ assigned args .root, (lastName a.2.name).length < maxNameLen)
    (ran : main nblocks args memory = some d) : Image nblocks memory args d := by
  obtain ⟨dirs, dirs', s, s1, s2, s3, s4, begun, laid, files, first, added, bin, sbin, root, rfl⟩ :=
    begins ran
  obtain ⟨laid, files'⟩ := laid.addArguments short added
  have first : (fun a => (dirs a).n) = firstSlot := funext first
  rw [first, List.nil_append] at laid
  have counts : ∀ flag, (dirs' flag).n = countOf args flag := by
    intro flag
    have slots := congrArg List.length (laid.slots flag)
    rw [List.length_map, List.length_range', layout_count] at slots
    have least := laid.first flag
    rw [countOf]
    omega
  have shut : Shut nblocks memory s.mem dirs' (dirStart args) (filesOf args) s1 s2 s3 s4 :=
    laid.shut (fun flag => (files' flag).trans (files flag)) rfl (by rw [counts]; rfl)
      (by rw [counts]; rfl) bin sbin root
  obtain ⟨most, -, -, -, above, -, -, grow, grow', more, fits⟩ := shut.bounds
  have fits : imageEnd args < nblocks := by
    have last := shut.root.fits
    rw [counts] at last
    exact last
  have few := laid.most
  have ended : blockof s4.diskpos = imageEnd args := by
    rw [shut.root.diskpos, blockof, Nat.mul_div_cancel _ (by decide : 0 < pgSize), counts]
    rfl
  have size : fileSize = 256 := rfl
  have place : bitmap = 8192 := rfl
  obtain ⟨d, last⟩ : ∃ d, finishdisk s4 = d := ⟨_, rfl⟩
  have cleared : clearBits (imageEnd args) s4.mem = d := by
    rw [← last, ← ended]
    rfl
  rw [last]
  have kept : ∀ k, k < 8192 ∨ 12288 ≤ k → d k = s4.mem k := by
    intro k outside
    rw [← cleared, clearBits_other (by omega)]
  have header : ∀ k, k < 4232 ∨ 4284 ≤ k ∧ k < 8192 ∨ 4236 ≤ k ∧ k < 4240 → d k = s.mem k := by
    intro k outside
    rw [kept k (by omega), shut.header_kept (by omega) (by omega)]
  have start : ∀ flag, 12288 ≤ dirStart args flag * pgSize := by
    intro flag
    cases flag
    · exact Nat.le_trans above (Nat.le_trans grow grow')
    · exact above
    · exact Nat.le_trans above grow
  have rootBytes : ∀ k < fileSize, d (sRoot + k) = s4.mem (sRoot + k) := by
    intro k inside
    have root : sRoot = 4104 := rfl
    exact kept _ (.inl (by rw [root]; omega))
  have entryBytes : ∀ flag j, ∀ k < fileSize,
      d (entryAt args flag j + k) = s4.mem (entryAt args flag j + k) := by
    intro flag j k _
    have low := start flag
    exact kept _ (.inr (by rw [entryAt]; omega))
  have inner : ∀ flag, flag ≠ .root → Described d (fileOf args flag) (dirStart args flag)
        (dirSize (countOf args flag)) ∧
      Unused memory (dirFile flag) d (fileOf args flag) (dirSize (countOf args flag)) ∧
      ∀ k < 136, k < 128 ∨ 132 ≤ k → d (fileOf args flag + k) = s.mem (dirFile flag + k) := by
    intro flag differ
    obtain ⟨slot, two, here, there⟩ : ∃ slot, slot < 2 ∧ dirFile flag = entsOf .root + fileSize * slot ∧
        fileOf args flag = entryAt args .root slot := by
      cases flag
      · exact absurd rfl differ
      · exact ⟨0, by decide, rfl, rfl⟩
      · exact ⟨1, by decide, rfl, rfl⟩
    obtain ⟨described, unused, bytes⟩ := shut.subdir here two
    have few := dirSize_few (shut.laid.room flag)
    have moved := described.move (dirSize_small (shut.laid.room flag)) (entryBytes .root slot)
      fun many => absurd many (not_le.mpr few)
    have unused := unused.move (entryBytes .root slot)
    rw [counts] at moved unused
    rw [there]
    refine ⟨moved, unused.congr fun field low high => ?_, fun k inside apart => ?_⟩
    · exact (begun.pointer flag differ field low high).symm
    · rw [entryBytes .root slot k (by omega)]
      exact bytes k inside apart
  constructor
  · rw [← begun.count]
    exact congrArg BitVec.toNat (word_congr fun k lower upper => header k (by
      have super' : super = 4096 := rfl
      omega))
  · exact few
  · exact fits
  · intro flag
    rw [← counts]
    exact laid.room flag
  · intro b inside
    have bytes : ∀ k, bitmap + 4 * (b / 32) ≤ k → k < bitmap + 4 * (b / 32) + 4 → s4.mem k = 0xFF := by
      intro k lower upper
      obtain ⟨j, rfl⟩ : ∃ j, k = bitmap + j := ⟨k - bitmap, by omega⟩
      rw [shut.header_kept (by omega) (by omega)]
      exact begun.bits j (by rw [pgSize_eq]; omega)
    have ones := ones_bit bytes (Nat.mod_lt b (by decide : 0 < 32))
    have count : d.sNblocks = nblocks := by
      rw [← begun.count]
      exact congrArg BitVec.toNat (word_congr fun k lower upper => header k (by
        have super' : super = 4096 := rfl
        omega))
    rw [Disk.blockIsFree, count, decide_eq_true inside, Bool.true_and, ← cleared, clearBits_bit, ones,
      Bool.true_and]
  · intro flag
    rw [← begun.type flag]
    by_cases root : flag = .root
    · subst root
      have place : fTypeAt sRoot = 4236 := rfl
      refine word_congr fun k lower upper => header k ?_
      have lower : 4236 ≤ k := lower
      have upper : k < 4236 + 4 := upper
      omega
    · refine word_move fun k low => ?_
      rw [fTypeAt, fTypeAt, Nat.add_assoc, Nat.add_assoc]
      exact (inner flag root).2.2 (132 + k) (by omega) (by omega)
  · intro flag
    by_cases root : flag = .root
    · subst root
      have few := dirSize_few (laid.room .root)
      have moved := shut.rootFile.1.move (dirSize_small (laid.room .root)) rootBytes
        fun many => absurd many (not_le.mpr few)
      rw [counts] at moved
      exact moved
    · exact (inner flag root).1
  · intro flag differ k inside
    have few : (dirName flag).length ≤ 4 := by cases flag <;> decide
    rw [(inner flag differ).2.2 k (by omega) (by omega)]
    exact begun.name flag differ k inside
  · exact fun flag differ => (inner flag differ).2.1
  · have unused := shut.rootFile.2.move rootBytes
    rw [counts] at unused
    refine unused.congr fun field low high => ?_
    rw [begun.rootPointer field low high]
    exact word_zero fun _ _ _ => rfl
  · intro e member
    have bounds := laid.bounds e member
    have slot := laid.slot_iff.mp ⟨e, member, rfl, rfl⟩
    have first : 3 * pgSize ≤ e.start * pgSize := Nat.mul_le_mul_right pgSize bounds.1
    have stop : e.stop * pgSize ≤ dirStart args .bin * pgSize :=
      Nat.mul_le_mul_right pgSize bounds.2
    have three : 3 * pgSize = 12288 := rfl
    refine (laid.stored e member).move (fun k inside => ?_) fun k low high => ?_
    · rw [entryBytes e.dir e.slot k inside]
      exact shut.entry slot.1 slot.2 inside
    · rw [kept k (.inr (by omega)), shut.files_kept (by omega) (by omega)]
  · intro flag k low high
    have low' := start flag
    rw [entryAt, Nat.mul_comm fileSize] at low
    rw [kept k (.inr (by omega))]
    rw [← counts] at low high
    exact shut.empty low high
  · exact laid.bounds
  · exact laid.low
  · exact laid.order
  · intro flag j
    rw [← counts]
    exact laid.slot_iff
  · exact fun a left b right => laid.slot_inj left right

end Fsformat

end Fs

end Jos
