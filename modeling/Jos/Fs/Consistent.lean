import Jos.Fs.Image

/-! When the image of fsformat is a consistent file system. -/

set_option autoImplicit false

namespace Jos

open Foundation Function

namespace Fs

open Disk

namespace Fsformat

/-- The blocks that a file owns: those of its bytes, and with ten of them or more the
indirect block. -/
def fileBlocks (d : Disk) (f : FilePtr) : List Nat :=
  (List.range (blocks (d.fSize f).toNat)).map (d.blockAt f) ++
    if nDirect ≤ blocks (d.fSize f).toNat then [(d.fIndirect f).toNat] else []

/-- The `j`th entry of a directory. -/
def entryOf (d : Disk) (dir : FilePtr) (j : Nat) : Nat :=
  fileAt (d.blockAt dir (j / blkFiles) * pgSize) (j % blkFiles)

def dirOf (d : Disk) : Flag → Nat
  | .root => sRoot
  | .bin => entryOf d sRoot 0
  | .sbin => entryOf d sRoot 1

/-- The files and directories of an image whose directories have `n` entries. -/
def IsFile (d : Disk) (n : Flag → Nat) (f : Nat) : Prop :=
  f = sRoot ∨ ∃ flag j, j < n flag ∧ f = entryOf d (dirOf d flag) j

def Own (d : Disk) (f : FilePtr) (pointer : BitVec 32) : Prop :=
  pointer = 0 ∨ pointer.toNat ∈ fileBlocks d f

structure Consistent (d : Disk) (n : Flag → Nat) : Prop where
  range : ∀ f, IsFile d n f → ∀ b ∈ fileBlocks d f, 3 ≤ b ∧ b < d.sNblocks
  nodup : ∀ f, IsFile d n f → (fileBlocks d f).Nodup
  disjoint : ∀ f g, IsFile d n f → IsFile d n g → f ≠ g → ∀ b ∈ fileBlocks d f, b ∉ fileBlocks d g
  direct : ∀ f, IsFile d n f → ∀ i < nDirect, blocks (d.fSize f).toNat ≤ i → Own d f (d.fDirect f i)
  indirect : ∀ f, IsFile d n f → blocks (d.fSize f).toNat ≤ nDirect → Own d f (d.fIndirect f)
  table : ∀ f, IsFile d n f → nDirect ≤ blocks (d.fSize f).toNat →
    ∀ i, blocks (d.fSize f).toNat ≤ i → i < nDirect + nIndirect → Own d f (d.word (d.slotAt f i))
  empty : ∀ flag j, n flag ≤ j → j < blkFiles * blocks (d.fSize (dirOf d flag)).toNat →
    d (entryOf d (dirOf d flag) j) = 0
  bitmap : ∃ last, (∃ f, IsFile d n f ∧ last ∈ fileBlocks d f) ∧
    (∀ f, IsFile d n f → ∀ b ∈ fileBlocks d f, b ≤ last) ∧
      ∀ b < d.sNblocks, d.blockIsFree b = false ↔ b ≤ last

inductive Run (args : List Argument) : Nat → Nat → Nat → Prop where
  | file {e : Entry} : e ∈ filesOf args → Run args (entryAt args e.dir e.slot) e.start e.size
  | dir (flag : Flag) :
      Run args (fileOf args flag) (dirStart args flag) (dirSize (countOf args flag))

section Described

variable {d : Disk} {f start size : Nat}

section

variable (described : Described d f start size)

include described

theorem Described.blockAt (low : start + total size < 2 ^ 31) {i : Nat} (inside : i < blocks size) :
    d.blockAt f i = start + i := by
  have grow : blocks size ≤ total size := Nat.le_add_right _ _
  rw [Disk.blockAt, Disk.slotAt]
  split
  · rename_i direct
    have pointer : d.word (fDirectAt f i) = BitVec.ofNat 32 (start + i) :=
      described.direct i direct inside
    rw [pointer, toNat_ofNat32 (by omega)]
  · rename_i indirect
    rw [described.indirect (by omega), toNat_ofNat32 (by omega),
      described.table i (not_lt.mp indirect) inside, toNat_ofNat32 (by omega)]

theorem Described.sizeNat (small : size < maxFileSize) : (d.fSize f).toNat = size := by
  rw [described.length, toNat_ofNat32 (Nat.lt_trans small (by decide))]

theorem Described.fileBlocks (small : size < maxFileSize)
    (low : start + total size < 2 ^ 31) : fileBlocks d f = List.range' start (total size) := by
  have data : (List.range (blocks size)).map (d.blockAt f) = List.range' start (blocks size) := by
    rw [List.range'_eq_map_range]
    exact List.map_congr_left fun i member =>
      described.blockAt low (List.mem_range.mp member)
  rw [Fsformat.fileBlocks, described.sizeNat small, data, total]
  split
  · rename_i many
    have whole : total size = blocks size + 1 := by rw [total, if_pos many]
    rw [described.indirect many, toNat_ofNat32 (by omega), List.range'_1_concat]
  · rw [List.append_nil, Nat.add_zero]

theorem Described.mem_fileBlocks (small : size < maxFileSize)
    (low : start + total size < 2 ^ 31) {b : Nat} :
    b ∈ Fsformat.fileBlocks d f ↔ start ≤ b ∧ b < start + total size := by
  rw [described.fileBlocks small low, List.mem_range'_1]

theorem Described.entryOf
    (low : start + total size < 2 ^ 31) {j : Nat} (inside : j < blkFiles * blocks size) :
    entryOf d f j = start * pgSize + fileSize * j := by
  have count : blkFiles = 16 := rfl
  have bytes : fileSize = 256 := rfl
  have block : j / 16 < blocks size := by
    rw [count] at inside
    omega
  have place : (start + j / 16) * 4096 + 256 * (j % 16) = start * 4096 + 256 * j := by omega
  rw [Fsformat.entryOf, count, described.blockAt low block, fileAt, bytes, pgSize_eq]
  exact place

end

end Described

section Image

variable {nblocks : Nat} {memory d : Disk} {args : List Argument} {f g start size start' size' : Nat}

section

variable (run : Run args f start size)

include run

section

variable (image : Image nblocks memory args d)

include image

/-- Every file has its size and pointers in the image, in blocks behind the bitmap. -/
theorem Run.described :
    Described d f start size ∧ size < maxFileSize ∧ 3 ≤ start ∧ start + total size ≤ imageEnd args := by
  have low := image.low
  have second : dirStart args .sbin = dirStart args .bin + dirBlocks (countOf args .bin) := rfl
  have third : dirStart args .root = dirStart args .sbin + dirBlocks (countOf args .sbin) := rfl
  have last : imageEnd args = dirStart args .root + dirBlocks (countOf args .root) := rfl
  have entries : 1 ≤ dirBlocks (countOf args .root) := by
    have two : 2 ≤ countOf args .root := Nat.le_add_right _ _
    have bytes : fileSize = 256 := rfl
    rw [dirBlocks, blocks, bytes]
    omega
  cases run with
  | file member =>
    rename_i e
    have bounds := image.bounds e member
    have stop : e.stop = e.start + total e.size := rfl
    have stored := image.files e member
    exact ⟨stored.described, stored.small, bounds.1, by omega⟩
  | dir flag =>
    have whole := total_dirSize (image.room flag)
    refine ⟨image.dirs flag, dirSize_small (image.room flag), ?_, ?_⟩
    · cases flag <;> omega
    · rw [whole]
      cases flag <;> omega

theorem Run.small : start + total size < 2 ^ 31 := by
  have bounds := (run.described image).2.2.2
  have fits := image.fits
  have most := image.most
  omega

theorem Run.mem_fileBlocks {b : Nat} : b ∈ fileBlocks d f ↔ start ≤ b ∧ b < start + total size := by
  obtain ⟨described, small, -, -⟩ := run.described image
  exact described.mem_fileBlocks small (run.small image)

theorem Run.blocks_fSize : (d.fSize f).toNat = size := by
  obtain ⟨described, small, -, -⟩ := run.described image
  exact described.sizeNat small

end

end

theorem Image.entryOf (image : Image nblocks memory args d) {flag : Flag} {j : Nat}
    (inside : j < blkFiles * blocks (dirSize (countOf args flag))) :
    entryOf d (fileOf args flag) j = entryAt args flag j := by
  have run : Run args _ _ _ := .dir flag
  exact (run.described image).1.entryOf (run.small image) inside

theorem entry_inside (n : Nat) : n ≤ blkFiles * blocks (dirSize n) := by
  have count : blkFiles = 16 := rfl
  have bytes : fileSize = 256 := rfl
  rw [blocks_dirSize, dirBlocks, blocks, bytes, count]
  omega

theorem Image.dirOf (image : Image nblocks memory args d) (flag : Flag) :
    dirOf d flag = fileOf args flag := by
  have two : 2 ≤ countOf args .root := Nat.le_add_right _ _
  have inside := entry_inside (countOf args .root)
  cases flag
  · rfl
  · have room : 0 < blkFiles * blocks (dirSize (countOf args .root)) := by omega
    have entry : Fsformat.entryOf d (fileOf args .root) 0 = entryAt args .root 0 := image.entryOf room
    exact entry
  · have room : 1 < blkFiles * blocks (dirSize (countOf args .root)) := by omega
    have entry : Fsformat.entryOf d (fileOf args .root) 1 = entryAt args .root 1 := image.entryOf room
    exact entry

theorem Image.isFile (image : Image nblocks memory args d) :
    IsFile d (countOf args) f ↔ ∃ start size, Run args f start size := by
  constructor
  · rintro (rfl | ⟨flag, j, below, rfl⟩)
    · exact ⟨_, _, .dir .root⟩
    · have inside := entry_inside (countOf args flag)
      rw [image.dirOf, image.entryOf (by omega)]
      by_cases first : firstSlot flag ≤ j
      · obtain ⟨e, member, rfl, rfl⟩ := (image.slots flag j).mpr ⟨first, below⟩
        exact ⟨_, _, .file member⟩
      · cases flag
        · have first : ¬2 ≤ j := first
          obtain rfl | rfl : j = 0 ∨ j = 1 := by omega
          · exact ⟨_, _, .dir .bin⟩
          · exact ⟨_, _, .dir .sbin⟩
        · exact absurd (Nat.zero_le j) first
        · exact absurd (Nat.zero_le j) first
  · rintro ⟨start, size, run⟩
    have two : 2 ≤ countOf args .root := Nat.le_add_right _ _
    have root := entry_inside (countOf args .root)
    cases run with
    | file member =>
      rename_i e
      have slot := (image.slots e.dir e.slot).mp ⟨e, member, rfl, rfl⟩
      have inside := entry_inside (countOf args e.dir)
      refine .inr ⟨e.dir, e.slot, slot.2, ?_⟩
      rw [image.dirOf, image.entryOf (by omega)]
    | dir flag =>
      cases flag
      · exact .inl rfl
      · refine .inr ⟨.root, 0, by omega, ?_⟩
        rw [image.dirOf, image.entryOf (by omega)]
        rfl
      · refine .inr ⟨.root, 1, by omega, ?_⟩
        rw [image.dirOf, image.entryOf (by omega)]
        rfl

def Filled (args : List Argument) : Prop := 0 < countOf args .bin ∧ 0 < countOf args .sbin

def Null (start count : Nat) (pointer : BitVec 32) : Prop :=
  pointer = 0 ∨ (start ≤ pointer.toNat ∧ pointer.toNat < start + count)

/-- The pointers that malloc left in an entry at `g` and that its file has no use for. -/
structure CleanAt (memory : Disk) (g start size : Nat) : Prop where
  direct : ∀ i < nDirect, blocks size ≤ i → Null start (total size) (memory.fDirect g i)
  indirect : blocks size < nDirect → Null start (total size) (memory.fIndirect g)

structure CleanHeap (memory : Disk) (args : List Argument) : Prop where
  files : ∀ e ∈ filesOf args, CleanAt memory e.place e.start e.size
  dirs : ∀ flag, flag ≠ .root →
    CleanAt memory (dirFile flag) (dirStart args flag) (dirSize (countOf args flag))

theorem dirBlocks_pos {n : Nat} (some : 0 < n) : 1 ≤ dirBlocks n := by
  have bytes : fileSize = 256 := rfl
  rw [dirBlocks, blocks, bytes]
  omega

section

variable (image : Image nblocks memory args d)

include image

theorem Run.apart (filled : Filled args)
    (left : Run args f start size) (right : Run args g start' size') (differ : f ≠ g) :
    start + total size ≤ start' ∨ start' + total size' ≤ start := by
  have second : dirStart args .sbin = dirStart args .bin + dirBlocks (countOf args .bin) := rfl
  have third : dirStart args .root = dirStart args .sbin + dirBlocks (countOf args .sbin) := rfl
  have whole : ∀ flag, total (dirSize (countOf args flag)) = max 1 (dirBlocks (countOf args flag)) :=
    fun flag => total_dirSize (image.room flag)
  have bin := dirBlocks_pos filled.1
  have sbin := dirBlocks_pos filled.2
  cases left with
  | file member =>
    rename_i e
    have stop := (image.bounds e member).2
    have place : e.stop = e.start + total e.size := rfl
    cases right with
    | file member' =>
      rename_i e'
      have order : ∀ a ∈ filesOf args, ∀ b ∈ filesOf args, a ≠ b →
          a.stop ≤ b.start ∨ b.stop ≤ a.start := by
        intro a left b right other
        have both : (filesOf args).Pairwise fun a b => a.stop ≤ b.start ∨ b.stop ≤ a.start :=
          image.order.imp Or.inl
        have symmetric : Std.Symm fun a b : Entry => a.stop ≤ b.start ∨ b.stop ≤ a.start :=
          ⟨fun _ _ sides => sides.symm⟩
        exact both.forall left right other
      exact order e member e' member' fun same => differ (by rw [same])
    | dir flag =>
      left
      cases flag <;> omega
  | dir flag =>
    cases right with
    | file member' =>
      rename_i e'
      have stop := (image.bounds e' member').2
      have place : e'.stop = e'.start + total e'.size := rfl
      right
      cases flag <;> omega
    | dir flag' =>
      have other : flag ≠ flag' := fun same => differ (by rw [same])
      rw [whole, whole]
      cases flag <;> cases flag' <;> first
        | exact absurd rfl other
        | omega

theorem Run.clean (clean : CleanHeap memory args)
    (run : Run args f start size) : CleanAt d f start size := by
  cases run with
  | file member =>
    rename_i e
    have stored := image.files e member
    have heap := clean.files e member
    refine ⟨fun i low outside => ?_, fun few => ?_⟩
    · rw [stored.unused.direct i low outside]
      exact heap.direct i low outside
    · rw [stored.unused.indirect few]
      exact heap.indirect few
  | dir flag =>
    by_cases root : flag = .root
    · subst root
      refine ⟨fun i low outside => .inl ?_, fun few => .inl ?_⟩
      · refine (image.unusedRoot.direct i low outside).trans ?_
        exact word_zero fun _ _ _ => rfl
      · refine (image.unusedRoot.indirect few).trans ?_
        exact word_zero fun _ _ _ => rfl
    · have unused := image.unused flag root
      have heap := clean.dirs flag root
      refine ⟨fun i low outside => ?_, fun few => ?_⟩
      · rw [unused.direct i low outside]
        exact heap.direct i low outside
      · rw [unused.indirect few]
        exact heap.indirect few

/-- Where no directory is empty and the memory is clean, the image is consistent. -/
theorem Image.consistent (filled : Filled args)
    (clean : CleanHeap memory args) : Consistent d (countOf args) where
  range := by
    intro f file b owned
    obtain ⟨start, size, run⟩ := image.isFile.mp file
    have bounds := (run.described image).2.2
    have place := (run.mem_fileBlocks image).mp owned
    have fits := image.fits
    rw [image.count]
    omega
  nodup := by
    intro f file
    obtain ⟨start, size, run⟩ := image.isFile.mp file
    obtain ⟨described, small, -, -⟩ := run.described image
    rw [described.fileBlocks small (run.small image)]
    exact List.nodup_range'
  disjoint := by
    intro f g left right differ b owned other
    obtain ⟨start, size, run⟩ := image.isFile.mp left
    obtain ⟨start', size', run'⟩ := image.isFile.mp right
    have place := (run.mem_fileBlocks image).mp owned
    have place' := (run'.mem_fileBlocks image).mp other
    have sides := Run.apart image filled run run' differ
    omega
  direct := by
    intro f file i low outside
    obtain ⟨start, size, run⟩ := image.isFile.mp file
    rw [run.blocks_fSize image] at outside
    exact ((run.clean image clean).direct i low outside).imp_right (run.mem_fileBlocks image).mpr
  indirect := by
    intro f file few
    obtain ⟨start, size, run⟩ := image.isFile.mp file
    rw [run.blocks_fSize image] at few
    rcases Nat.lt_or_eq_of_le few with less | equal
    · exact ((run.clean image clean).indirect less).imp_right (run.mem_fileBlocks image).mpr
    · have whole : total size = blocks size + 1 := by rw [total, if_pos (Nat.le_of_eq equal.symm)]
      have small := run.small image
      refine .inr ((run.mem_fileBlocks image).mpr ?_)
      rw [(run.described image).1.indirect (Nat.le_of_eq equal.symm), toNat_ofNat32 (by omega)]
      omega
  table := by
    intro f file many i outside inside
    obtain ⟨start, size, run⟩ := image.isFile.mp file
    rw [run.blocks_fSize image] at many outside
    have described := (run.described image).1
    have small := run.small image
    have grow : blocks size ≤ total size := Nat.le_add_right _ _
    left
    rw [Disk.slotAt, if_neg (not_lt.mpr (Nat.le_trans many outside)), described.indirect many,
      toNat_ofNat32 (by omega)]
    exact described.rest i many outside inside
  empty := by
    intro flag j beyond inside
    rw [image.dirOf, (Run.dir flag).blocks_fSize image] at inside
    rw [image.dirOf, image.entryOf inside]
    have some : 1 ≤ dirBlocks (countOf args flag) := by
      cases flag
      · exact dirBlocks_pos (Nat.lt_of_lt_of_le (by decide) (Nat.le_add_right 2 _))
      · exact dirBlocks_pos filled.1
      · exact dirBlocks_pos filled.2
    have count : blkFiles = 16 := rfl
    have bytes : fileSize = 256 := rfl
    rw [blocks_dirSize, Nat.max_eq_right some, count] at inside
    refine image.empty flag _ ?_ ?_
    · exact Nat.add_le_add_left (Nat.mul_le_mul_left fileSize beyond) _
    · rw [entryAt, Nat.add_mul, bytes, pgSize_eq]
      omega
  bitmap := by
    have root : Run args _ _ _ := .dir .root
    have some := dirBlocks_pos (n := countOf args .root)
      (Nat.lt_of_lt_of_le (by decide) (Nat.le_add_right 2 _))
    have last : imageEnd args = dirStart args .root + dirBlocks (countOf args .root) := rfl
    have whole : total (dirSize (countOf args .root)) = dirBlocks (countOf args .root) := by
      rw [total_dirSize (image.room .root), Nat.max_eq_right some]
    refine ⟨imageEnd args - 1, ⟨sRoot, .inl rfl, (root.mem_fileBlocks image).mpr ?_⟩, ?_, ?_⟩
    · rw [whole]
      omega
    · intro f file b owned
      obtain ⟨start, size, run⟩ := image.isFile.mp file
      have bounds := (run.described image).2.2
      have place := (run.mem_fileBlocks image).mp owned
      omega
    · intro b inside
      rw [image.count] at inside
      rw [image.bits b inside, decide_eq_false_iff_not]
      omega

theorem Image.filled (consistent : Consistent d (countOf args)) : Filled args := by
  have whole : ∀ flag, 1 ≤ total (dirSize (countOf args flag)) := by
    intro flag
    rw [total_dirSize (image.room flag)]
    exact Nat.le_max_left _ _
  have share : ∀ a b, fileOf args a ≠ fileOf args b → dirStart args a ≠ dirStart args b := by
    intro a b differ same
    have left := whole a
    have right := whole b
    have owned := ((Run.dir a).mem_fileBlocks image (b := dirStart args a)).mpr (by omega)
    have other := ((Run.dir b).mem_fileBlocks image (b := dirStart args a)).mpr (by omega)
    exact consistent.disjoint _ _ (image.isFile.mpr ⟨_, _, .dir a⟩) (image.isFile.mpr ⟨_, _, .dir b⟩)
      differ _ owned other
  have low : 3 * 4096 ≤ dirStart args .root * pgSize :=
    Nat.mul_le_mul_right pgSize ((Run.dir .root).described image).2.2.1
  have root : fileOf args .root = 4104 := rfl
  have bin : fileOf args .bin = dirStart args .root * pgSize + 0 := rfl
  have sbin : fileOf args .sbin = dirStart args .root * pgSize + 256 := rfl
  constructor
  · refine Nat.pos_of_ne_zero fun none => share .bin .sbin (by omega) ?_
    change _ = dirStart args .bin + dirBlocks (countOf args .bin)
    rw [none]
    rfl
  · refine Nat.pos_of_ne_zero fun none => share .sbin .root (by omega) ?_
    change _ = dirStart args .sbin + dirBlocks (countOf args .sbin)
    rw [none]
    rfl

theorem Image.cleanHeap (consistent : Consistent d (countOf args)) : CleanHeap memory args := by
  have clean : ∀ f start size g, Run args f start size → Unused memory g d f size →
      CleanAt memory g start size := by
    intro f start size g run unused
    have file := image.isFile.mpr ⟨_, _, run⟩
    have length := run.blocks_fSize image
    refine ⟨fun i low outside => ?_, fun few => ?_⟩
    · rw [← unused.direct i low outside]
      exact (consistent.direct f file i low (by rw [length]; exact outside)).imp_right
        (run.mem_fileBlocks image).mp
    · rw [← unused.indirect few]
      exact (consistent.indirect f file (by rw [length]; exact Nat.le_of_lt few)).imp_right
        (run.mem_fileBlocks image).mp
  exact ⟨fun e member => clean _ _ _ _ (.file member) (image.files e member).unused,
    fun flag differ => clean _ _ _ _ (.dir flag) (image.unused flag differ)⟩

end

/-- The image of fsformat is consistent if and only if no directory is empty and the memory
from malloc holds no foreign pointers. -/
theorem image_consistent
    (short : ∀ a ∈ assigned args .root, (lastName a.2.name).length < maxNameLen)
    (ran : main nblocks args memory = some d) :
    Consistent d (countOf args) ↔ Filled args ∧ CleanHeap memory args := by
  have image := image short ran
  exact ⟨fun consistent => ⟨image.filled consistent, image.cleanHeap consistent⟩,
    fun ⟨filled, clean⟩ => image.consistent filled clean⟩

end Image

def fileA : Argument := ⟨[letter 'a'], [1], by decide, by decide⟩

def dashB : Argument := ⟨optionBin, [], by decide, by decide⟩

def dashSb : Argument := ⟨optionSbin, [], by decide, by decide⟩

/-- The arguments -b a -sb a. -/
theorem image_consistent_a : ∃ d, main 16 [dashB, fileA, dashSb, fileA] (fun _ => 0) = some d ∧
    (Consistent d (countOf [dashB, fileA, dashSb, fileA]) ↔
      Filled [dashB, fileA, dashSb, fileA] ∧ CleanHeap (fun _ => 0) [dashB, fileA, dashSb, fileA]) := by
  have runs : (main 16 [dashB, fileA, dashSb, fileA] fun _ => 0).isSome = true := by decide +kernel
  obtain ⟨d, ran⟩ := Option.isSome_iff_exists.mp runs
  exact ⟨d, ran, image_consistent (by decide +kernel) ran⟩

/-- With the argument a alone, "bin", "sbin" and the root have their first block in common. -/
theorem image_overlaps : ¬∀ (nblocks : Nat) (args : List Argument) (memory : Bytes) (d : Disk),
    (∀ a ∈ assigned args .root, (lastName a.2.name).length < maxNameLen) →
      main nblocks args memory = some d → Consistent d (countOf args) := by
  intro consistent
  have runs : (main 16 [fileA] fun _ => 0).isSome = true := by decide +kernel
  obtain ⟨d, ran⟩ := Option.isSome_iff_exists.mp runs
  have short : ∀ a ∈ assigned [fileA] .root, (lastName a.2.name).length < maxNameLen := by
    decide +kernel
  have filled := (image short ran).filled (consistent 16 [fileA] _ d short ran)
  exact absurd filled.1 (by decide +kernel)

end Fsformat

end Fs

end Jos
