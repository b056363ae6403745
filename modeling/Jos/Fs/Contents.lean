import Jos.Foundation.Splice
import Jos.Fs.Uses

/-! What files hold, as arrays of bytes, while they are read and written. -/

set_option autoImplicit false

namespace Jos

open Foundation Function

namespace Fs

open Disk

/-- A disk as fsformat leaves it: free blocks hold zeros, and so do files behind their ends, where
they have no slots. -/
structure Disk.Neat (d : Disk) : Prop where
  owns : d.Owns
  free : ∀ block, d.blockIsFree block = true → d.Zeros block
  slots : ∀ f, d.Live f → d.fType f ≠ ftypeDir → ∀ bno, blocksFor (d.fSize f) ≤ bno →
    bno < nDirect + nIndirect → d.present f bno = false
  tails : ∀ f, d.Live f → d.fType f ≠ ftypeDir → ∀ k, (d.fSize f).toNat ≤ k → k < maxFileSize →
    d.byteAt f k = 0

/-- What may be stored to for a file that is no directory: not its name. -/
def Disk.Own (d : Disk) (f addr : Nat) : Prop :=
  (bitmap ≤ addr ∧ addr < d.bitmapEnd) ∨ (f + 128 ≤ addr ∧ addr < f + 256) ∨
    ∃ block ∈ d.owned f, block * 4096 ≤ addr ∧ addr < block * 4096 + 4096

/-- The other files are as before. In the directory that `f` is in, its fields may change. -/
structure Disk.Leaves (d d' : Disk) (f : Nat) : Prop where
  live : ∀ g, d'.Live g ↔ d.Live g
  type : ∀ g, d.Live g → d'.fType g = d.fType g
  keeps : ∀ g, d.Live g → g ≠ f → d.KeepsFile d' g
  data : ∀ g, d.Live g → g ≠ f → ∀ block ∈ d.dataBlocks g, ∀ addr, block * 4096 ≤ addr →
    addr < block * 4096 + 4096 → addr < f + 128 ∨ f + 256 ≤ addr → d' addr = d addr
  name : ∀ g : Nat, d.Live g → ∀ k < maxNameLen, d' (g + k) = d (g + k)

section Leaves

variable {d mid d' : Disk} {f g block bno addr k : Nat}

theorem Disk.KeepsFile.trans (first : d.KeepsFile mid g) (second : mid.KeepsFile d' g) :
    d.KeepsFile d' g where
  size := second.size.trans first.size
  type := second.type.trans first.type
  indirect := second.indirect.trans first.indirect
  slots bno slot := by
    have words := second.slots bno ⟨slot.1, by rw [first.indirect]; exact slot.2⟩
    rw [first.slotAt] at words
    exact words.trans (first.slots bno slot)

theorem Disk.Leaves.refl (d : Disk) (f : FilePtr) : d.Leaves d f :=
  ⟨fun _ => Iff.rfl, fun _ _ => rfl, fun _ _ _ => ⟨rfl, rfl, rfl, fun _ _ => rfl⟩,
    fun _ _ _ _ _ _ _ _ _ => rfl, fun _ _ _ _ => rfl⟩

section

variable (owns : d.Owns)

include owns

theorem Disk.Leaves.trans (first : d.Leaves mid f) (second : mid.Leaves d' f) : d.Leaves d' f where
  live g := (second.live g).trans (first.live g)
  type g there := (second.type g ((first.live g).mpr there)).trans (first.type g there)
  keeps g there differ :=
    (first.keeps g there differ).trans (second.keeps g ((first.live g).mpr there) differ)
  data g there differ block inside addr low high off := by
    have keeps := first.keeps g there differ
    have same := keeps.blocks.dataBlocks keeps.size (blocksOf_le (owns.legal g there)).2.2
    exact (second.data g ((first.live g).mpr there) differ block (by rw [same]; exact inside) addr low
      high off).trans (first.data g there differ block inside addr low high off)
  name g there k small :=
    (second.name g ((first.live g).mpr there) k small).trans (first.name g there k small)

theorem Disk.Owns.own_within (there : d.Live f) (regular : d.fType f ≠ ftypeDir)
    (own : d.Own f addr) : d.Within f addr := by
  rcases own with inside | inside | ⟨block, mine, low, high⟩
  · exact .inl inside
  · exact .inr (.inl (by omega))
  · exact .inr (.inr ⟨block, there, mine, owns.plain there mine fun directory =>
      absurd directory regular, low, high⟩)

theorem Disk.Owns.leaves (there : d.Live f) (regular : d.fType f ≠ ftypeDir)
    (live : ∀ g, d'.Live g ↔ d.Live g) (type : ∀ g, d.Live g → d'.fType g = d.fType g)
    (frame : ∀ addr, ¬d.Own f addr → d' addr = d addr) : d.Leaves d' f where
  live := live
  type := type
  keeps := (owns.kept there.spot fun addr outside =>
    frame addr fun own => outside (owns.own_within there regular own)).1
  data g alive differ block inside addr low high off := frame addr <| by
    have behind := owns.low alive (mem_owned inside)
    rintro (own | own | ⟨block', mine, low', high'⟩)
    · omega
    · omega
    · have other : block' ≠ block := fun same =>
        differ (owns.apart g f block alive there (mem_owned inside) (same ▸ mine))
      omega
  name g alive k small := frame (g + k) <| by
    have limit : maxNameLen = 128 := rfl
    have first : bitmap = 8192 := rfl
    rintro (own | own | ⟨block, mine, low, high⟩)
    · rcases owns.place alive.spot with rfl | ⟨-, -, -, block, -, behind, least, j, few, place⟩
      · omega
      · omega
    · by_cases same : g = f
      · omega
      · have records := owns.records there.spot alive.spot same
        omega
    · have record := owns.record (owns.plain there mine fun directory => absurd directory regular)
        alive.spot
      omega

theorem Disk.Owns.plain_free (free : d.blockIsFree block = true) : d.Plain block := by
  refine ⟨owns.reserved block free, fun dir there _ inside => ?_⟩
  have used := (owns.blocks dir there block (mem_owned inside)).2.2
  rw [free] at used
  cases used

theorem Disk.Owns.free_apart (there : d.Live f) (free : d.blockIsFree block = true)
    (low : block * 4096 ≤ addr) (high : addr < block * 4096 + 4096) : ¬d.Own f addr := by
  have plain := owns.plain_free free
  have behind := plain.1
  rintro (own | own | ⟨block', mine, low', high'⟩)
  · omega
  · have record := owns.record plain there.spot
    omega
  · have other : block' ≠ block := by
      rintro rfl
      have used := (owns.blocks f there block' mine).2.2
      rw [free] at used
      cases used
    omega

theorem Disk.Owns.data_meta (there : d.Live f) (regular : d.fType f ≠ ftypeDir)
    (inside : block ∈ d.dataBlocks f) (low : block * 4096 ≤ addr) (high : addr < block * 4096 + 4096) :
    ¬(bitmap ≤ addr ∧ addr < d.bitmapEnd) ∧ ¬d.Meta f addr := by
  have behind := owns.low there (mem_owned inside)
  refine ⟨by omega, ?_⟩
  rintro (record | ⟨filled, low', high'⟩)
  · have apart := owns.record (owns.plain there (mem_owned inside) fun directory =>
      absurd directory regular) there.spot
    omega
  · have differ : block ≠ (d.fIndirect f).toNat := by
      rintro rfl
      have once := owns.once f there
      rw [Disk.owned, if_neg filled] at once
      exact (List.nodup_append.mp once).2.2 _ inside _ List.mem_cons_self rfl
    omega

end

end Leaves

section Neat

variable {d mid d' : Disk} {f g block bno addr k : Nat}

theorem Disk.Neat.inside (neat : d.Neat) (there : d.Live f) (regular : d.fType f ≠ ftypeDir)
    (few : bno < nDirect + nIndirect) (filled : d.present f bno = true) :
    bno < blocksFor (d.fSize f) ∧ d.blockAt f bno ∈ d.dataBlocks f := by
  have below : bno < blocksFor (d.fSize f) := by
    by_contra high
    rw [neat.slots f there regular bno (not_lt.mp high) few] at filled
    cases filled
  exact ⟨below, mem_dataBlocks.mpr ⟨bno, below, filled, rfl⟩⟩

theorem div_block (small : k < maxFileSize) : k / pgSize < nDirect + nIndirect := by
  have bound : k < (10 + 1024) * 4096 := small
  have count : nDirect + nIndirect = 10 + 1024 := rfl
  rw [count, pgSize_eq]
  omega

theorem byteAt_congr (present : d'.present f (k / pgSize) = d.present f (k / pgSize))
    (same : d.present f (k / pgSize) = true → d'.blockAt f (k / pgSize) = d.blockAt f (k / pgSize) ∧
      d' (d.blockAt f (k / pgSize) * pgSize + k % pgSize) =
        d (d.blockAt f (k / pgSize) * pgSize + k % pgSize)) : d'.byteAt f k = d.byteAt f k := by
  unfold Disk.byteAt
  rw [present]
  split
  · rename_i filled
    obtain ⟨block, byte⟩ := same filled
    rw [Disk.contents, block, byte]
    rfl
  · rfl

theorem place_bounds : block * 4096 ≤ block * pgSize + k % pgSize ∧
    block * pgSize + k % pgSize < block * 4096 + 4096 := by
  have page := pgSize_eq
  rw [page]
  have rest : k % 4096 < 4096 := Nat.mod_lt _ (by decide)
  omega

theorem Disk.Neat.byteAt_other (neat : d.Neat) (leaves : d.Leaves d' f) (there : d.Live f)
    (alive : d.Live g) (regular : d.fType g ≠ ftypeDir) (differ : g ≠ f) (small : k < maxFileSize) :
    d'.byteAt g k = d.byteAt g k := by
  have keeps := leaves.keeps g alive differ
  have few := div_block small
  refine byteAt_congr (keeps.present few) fun filled => ?_
  have inside := (neat.inside alive regular few filled).2
  have bounds := @place_bounds (d.blockAt g (k / pgSize)) k
  have record := neat.owns.record (neat.owns.plain alive (mem_owned inside) fun directory =>
    absurd directory regular) there.spot
  exact ⟨keeps.blockAt ⟨few, (present_iff.mp filled).1⟩,
    leaves.data g alive differ _ inside _ bounds.1 bounds.2 (by omega)⟩

theorem Disk.Neat.byteAt_own (neat : d.Neat) (there : d.Live f) (regular : d.fType f ≠ ftypeDir)
    (small : k < maxFileSize) (present : d'.present f (k / pgSize) = d.present f (k / pgSize))
    (same : d.present f (k / pgSize) = true → d'.blockAt f (k / pgSize) = d.blockAt f (k / pgSize))
    (frame : ∀ addr, ¬(bitmap ≤ addr ∧ addr < d.bitmapEnd) → ¬d.Meta f addr → d' addr = d addr) :
    d'.byteAt f k = d.byteAt f k := by
  refine byteAt_congr present fun filled => ⟨same filled, ?_⟩
  have inside := (neat.inside there regular (div_block small) filled).2
  have bounds := @place_bounds (d.blockAt f (k / pgSize)) k
  have off := neat.owns.data_meta there regular inside bounds.1 bounds.2
  exact frame _ off.1 off.2

theorem Disk.Neat.change (neat : d.Neat) (there : d.Live f) (regular : d.fType f ≠ ftypeDir)
    (owns : d'.Owns) (leaves : d.Leaves d' f)
    (free : ∀ block, d'.blockIsFree block = true → d.blockIsFree block = true)
    (frame : ∀ addr, ¬d.Own f addr → d' addr = d addr)
    (slots : ∀ bno, blocksFor (d'.fSize f) ≤ bno → bno < nDirect + nIndirect →
      d'.present f bno = false)
    (tails : ∀ k, (d'.fSize f).toNat ≤ k → k < maxFileSize → d'.byteAt f k = 0) : d'.Neat where
  owns := owns
  free block still k small := by
    have old := free block still
    have page := pgSize_eq
    have place : block * pgSize = block * 4096 := by rw [page]
    rw [frame _ (neat.owns.free_apart there old (by omega) (by omega))]
    exact neat.free block old k small
  slots g alive regular' bno high few := by
    by_cases same : g = f
    · subst same
      exact slots bno high few
    · have old := (leaves.live g).mp alive
      have keeps := leaves.keeps g old same
      rw [keeps.size] at high
      rw [keeps.type] at regular'
      rw [keeps.present few]
      exact neat.slots g old regular' bno high few
  tails g alive regular' k high small := by
    by_cases same : g = f
    · subst same
      exact tails k high small
    · have old := (leaves.live g).mp alive
      have keeps := leaves.keeps g old same
      rw [keeps.size] at high
      rw [keeps.type] at regular'
      rw [neat.byteAt_other leaves there old regular' same small]
      exact neat.tails g old regular' k high small

structure Disk.Wrote (d d' : Disk) (f : Nat) (bytes : Nat → BitVec 8) : Prop where
  neat : d'.Neat
  leaves : d.Leaves d' f
  size : d'.fSize f = d.fSize f
  bytes : ∀ k < maxFileSize, d'.byteAt f k = bytes k

theorem Disk.Neat.refl (neat : d.Neat) : d.Wrote d f (d.byteAt f) :=
  ⟨neat, .refl d f, rfl, fun _ _ => rfl⟩

theorem Disk.Wrote.trans {bytes bytes' : Nat → BitVec 8} (neat : d.Neat)
    (first : d.Wrote mid f bytes) (second : mid.Wrote d' f bytes') : d.Wrote d' f bytes' where
  neat := second.neat
  leaves := first.leaves.trans neat.owns second.leaves
  size := second.size.trans first.size
  bytes := second.bytes

theorem Disk.Wrote.congr {bytes bytes' : Nat → BitVec 8} (wrote : d.Wrote d' f bytes)
    (same : ∀ k < maxFileSize, bytes k = bytes' k) : d.Wrote d' f bytes' :=
  ⟨wrote.neat, wrote.leaves, wrote.size, fun k small => (wrote.bytes k small).trans (same k small)⟩

theorem Disk.Neat.silent (neat : d.Neat) (there : d.Live f) (regular : d.fType f ≠ ftypeDir)
    (owns : d'.Owns) (similar : d.Similar d')
    (free : ∀ block, d'.blockIsFree block = true → d.blockIsFree block = true)
    (frame : ∀ addr, ¬d.Own f addr → d' addr = d addr)
    (slots : ∀ bno, blocksFor (d.fSize f) ≤ bno → bno < nDirect + nIndirect →
      d'.present f bno = d.present f bno)
    (bytes : ∀ k < maxFileSize, d'.byteAt f k = d.byteAt f k) : d.Wrote d' f (d.byteAt f) := by
  have size := similar.size f there
  have leaves := neat.owns.leaves there regular similar.live similar.type frame
  refine ⟨neat.change there regular owns leaves free frame (fun bno high few => ?_)
    fun k high small => ?_, leaves, size, bytes⟩
  · rw [size] at high
    rw [slots bno high few]
    exact neat.slots f there regular bno high few
  · rw [size] at high
    rw [bytes k small]
    exact neat.tails f there regular k high small

theorem Disk.Neat.allocBlock (neat : d.Neat) (there : d.Live f) (regular : d.fType f ≠ ftypeDir)
    (ran : d.allocBlock = some (block, d')) :
    d.Wrote d' f (d.byteAt f) ∧ d.KeepsFile d' f ∧ d'.Loose block ∧ d'.Zeros block := by
  obtain ⟨owns, similar, keeps, loose, count, frame⟩ := neat.owns.allocBlock ran
  obtain ⟨-, takes, -⟩ := allocBlock_takes ran
  have page := pgSize_eq
  have were := (takes.were block List.mem_cons_self).2
  have behind : d.bitmapEnd ≤ block * 4096 := neat.owns.reserved block were
  have outside (addr : Nat) (off : ¬(bitmap ≤ addr ∧ addr < d.bitmapEnd)) : d' addr = d addr :=
    frame addr (by omega)
  refine ⟨neat.silent there regular owns similar (fun other still => ?_)
      (fun addr off => outside addr fun inside => off (.inl inside))
      (fun bno _ few => (keeps f there).present few) fun k small => ?_,
    keeps f there, loose, fun k small => ?_⟩
  · rw [takes.free, Bool.and_eq_true] at still
    exact still.1
  · exact neat.byteAt_own there regular small ((keeps f there).present (div_block small))
      (fun filled => (keeps f there).blockAt ⟨div_block small, (present_iff.mp filled).1⟩)
      fun addr off _ => outside addr off
  · have place : block * pgSize = block * 4096 := by rw [page]
    rw [outside _ (by omega)]
    exact neat.free block were k small

theorem Disk.Neat.fillIndirect (neat : d.Neat) (there : d.Live f) (regular : d.fType f ≠ ftypeDir)
    (absent : d.fIndirect f = 0) (loose : d.Loose block) (zeros : d.Zeros block) :
    d.Wrote (d.setWord (fIndirectAt f) (BitVec.ofNat 32 block)) f (d.byteAt f) := by
  obtain ⟨owns, similar, -, present⟩ :=
    neat.owns.fillIndirect there absent loose fun k few => zeros.words few
  have behind := (neat.owns.storedFile there regular).behind
  have indirectAt : fIndirectAt f = f + 176 := rfl
  have frame (addr : Nat) (off : ¬(f + 128 ≤ addr ∧ addr < f + 256)) :
      d.setWord (fIndirectAt f) (BitVec.ofNat 32 block) addr = d addr := setWord_other (by omega)
  refine neat.silent there regular owns similar (fun other still => ?_)
    (fun addr off => frame addr fun inside => off (.inr (.inl inside)))
    (fun bno _ few => present bno few) fun k small => ?_
  · rwa [blockIsFree_congr fun addr low => frame addr (by omega)] at still
  · refine neat.byteAt_own there regular small (present _ (div_block small)) (fun filled => ?_)
      fun addr _ off => frame addr fun inside => off (.inl inside)
    have direct := (present_iff.mp filled).1.resolve_right fun other => other absent
    have place : fDirectAt f (k / pgSize) = f + 136 + 4 * (k / pgSize) := rfl
    have ten : nDirect = 10 := rfl
    unfold Disk.blockAt Disk.slotAt
    rw [if_pos direct, if_pos direct, word_setWord_other (by omega)]

theorem Disk.Neat.fillSlot (neat : d.Neat) (there : d.Live f) (regular : d.fType f ≠ ftypeDir)
    (slot : d.HasSlot f bno) (empty : d.present f bno = false) (low : bno < blocksFor (d.fSize f))
    (loose : d.Loose block) (zeros : d.Zeros block) :
    d.Wrote (d.setWord (d.slotAt f bno) (BitVec.ofNat 32 block)) f (d.byteAt f) ∧
      present (d.setWord (d.slotAt f bno) (BitVec.ofNat 32 block)) f bno = true ∧
      blockAt (d.setWord (d.slotAt f bno) (BitVec.ofNat 32 block)) f bno = block := by
  obtain ⟨owns, similar⟩ := neat.owns.fillSlot there slot empty loose fun directory =>
    absurd directory regular
  have filled := neat.owns.filled there slot loose.onDisk
  have behind := (neat.owns.storedFile there regular).behind
  have record := neat.owns.record loose.plain there.spot
  have frame (addr : Nat) (off : ¬d.Meta f addr) :
      d.setWord (d.slotAt f bno) (BitVec.ofNat 32 block) addr = d addr := by
    refine setWord_other ?_
    by_contra here
    refine off ?_
    rcases slotAt_place slot with ⟨few, place⟩ | ⟨many, few, there', place⟩
    · exact .inl (by omega)
    · exact .inr ⟨there', by omega⟩
  have off_block (addr : Nat) (low : block * 4096 ≤ addr) (high : addr < block * 4096 + 4096) :
      ¬d.Meta f addr := by
    rintro (inside | ⟨there', low', high'⟩)
    · omega
    · have differ : block ≠ (d.fIndirect f).toNat := fun same =>
        loose.unowned f there (same ▸ mem_owned_indirect there')
      omega
  refine ⟨neat.silent there regular owns similar (fun other still => ?_) (fun addr off => frame addr ?_)
    (fun k high few => (filled.other k few (by omega)).1) fun k small => ?_, filled.last⟩
  · rwa [blockIsFree_congr fun addr low => frame addr ?_] at still
    rintro (inside | ⟨there', low', high'⟩)
    · omega
    · have behind' := neat.owns.low there (mem_owned_indirect there')
      omega
  · rintro (inside | ⟨there', low', high'⟩)
    · exact off (.inr (.inl inside))
    · exact off (.inr (.inr ⟨_, mem_owned_indirect there', low', high'⟩))
  · by_cases here : k / pgSize = bno
    · have page := pgSize_eq
      have place : block * pgSize = block * 4096 := by rw [page]
      have rest : k % pgSize < pgSize := Nat.mod_lt _ (by decide)
      unfold Disk.byteAt
      rw [here, filled.last.1, if_pos rfl, empty, if_neg Bool.false_ne_true, Disk.contents, here,
        filled.last.2, frame _ (off_block _ (by omega) (by omega))]
      exact zeros _ rest
    · exact neat.byteAt_own there regular small (filled.other _ (div_block small) here).1
        (filled.other _ (div_block small) here).2 fun addr _ off => frame addr off

theorem Disk.Neat.clear (neat : d.Neat) (regular : d.fType f ≠ ftypeDir) : d.Clear f bno where
  indirect _ _ block next := by
    have free := List.find?_some next
    simp only [Bool.and_eq_true] at free
    exact neat.free block free.2.1
  entries directory := absurd directory regular

/-- `file_get_block`, within a file: a hole gets a block of zeros. -/
theorem Disk.Neat.fileGetBlock {blk : Nat} (neat : d.Neat) (there : d.Live f)
    (regular : d.fType f ≠ ftypeDir) (low : bno < blocksFor (d.fSize f))
    (ran : fileGetBlock f bno d = done blk d') :
    d.Wrote d' f (d.byteAt f) ∧ d'.present f bno = true ∧ blk = d'.blockAt f bno * pgSize := by
  obtain ⟨slot, middle, walk, result⟩ := fileGetBlock_done ran
  obtain ⟨-, -, reached, rfl, -⟩ := neat.owns.walked there (neat.clear regular) walk
  have first : d.Wrote middle f (d.byteAt f) := by
    obtain ⟨-, ⟨-, rfl, -⟩ | ⟨-, absent, block, after, taken, rfl, -⟩⟩ := fileBlockWalk_slot walk
    · exact neat.refl
    · obtain ⟨wrote, keeps, loose, zeros⟩ := neat.allocBlock there regular taken
      have filled := wrote.neat.fillIndirect ((wrote.leaves.live f).mpr there)
        (by rw [keeps.type]; exact regular) (keeps.indirect.trans absent) loose zeros
      exact (wrote.trans neat filled).congr wrote.bytes
  have there₁ := (first.leaves.live f).mpr there
  have regular₁ : middle.fType f ≠ ftypeDir := by
    rw [first.leaves.type f there]
    exact regular
  rcases result with ⟨filled, rfl⟩ | ⟨hole, block, after, taken, rfl, rfl⟩
  · exact ⟨first, present_iff.mpr ⟨reached.2, filled⟩, fileGetBlock_filled walk filled ran⟩
  · obtain ⟨wrote, keeps, loose, zeros⟩ := first.neat.allocBlock there₁ regular₁ taken
    have empty : middle.present f bno = false := by
      rw [← Bool.not_eq_true, present_iff]
      exact fun filled => filled.2 hole
    have slot : after.HasSlot f bno := ⟨reached.1, by rw [keeps.indirect]; exact reached.2⟩
    have stored := wrote.neat.fillSlot ((wrote.leaves.live f).mpr there₁)
      (by rw [keeps.type]; exact regular₁) slot ((keeps.present reached.1).trans empty)
      (by rw [wrote.size, first.size]; exact low) loose zeros
    rw [keeps.slotAt] at stored
    have both := ((wrote.trans first.neat stored.1).congr wrote.bytes)
    refine ⟨(first.trans neat both).congr first.bytes, stored.2.1, ?_⟩
    rw [stored.2.2]

theorem Disk.Neat.store {p bn base : Nat} {src : Bytes} (neat : d.Neat) (there : d.Live f)
    (regular : d.fType f ≠ ftypeDir) (filled : d.present f (p / 4096) = true)
    (block_eq : d.blockAt f (p / 4096) = block) (here : p < (d.fSize f).toNat)
    (inside : p + bn ≤ (d.fSize f).toNat) (fits : p % 4096 + bn ≤ 4096) :
    d.Wrote (memmove d (block * 4096 + p % 4096) src base bn) f
      (fun k => if p ≤ k ∧ k < p + bn then src (base + (k - p)) else d.byteAt f k) := by
  have legal := neat.owns.legal f there
  have page := pgSize_eq
  have few : p / 4096 < nDirect + nIndirect := by
    have below := @div_block p (Nat.lt_of_lt_of_le here legal)
    rwa [page] at below
  obtain ⟨low, member⟩ := neat.inside there regular few filled
  rw [block_eq] at member
  have once := (owned_nodup.mp (neat.owns.once f there)).1
  have behind := (neat.owns.low there (mem_owned member)).1
  have outside (addr : Nat) (off : addr < block * 4096 + p % 4096 ∨
      block * 4096 + p % 4096 + bn ≤ addr) :
      memmove d (block * 4096 + p % 4096) src base bn addr = d addr :=
    if_neg (by omega)
  have ends : block * 4096 + p % 4096 + bn ≤ block * 4096 + 4096 := by
    rw [Nat.add_assoc]
    exact Nat.add_le_add_left fits _
  obtain ⟨owns, similar, keeps⟩ := @Disk.Owns.storeData d
    (memmove d (block * 4096 + p % 4096) src base bn) f block neat.owns there regular member
    fun addr off => outside addr
      (off.imp (fun low => Nat.lt_add_right _ low) fun high => Nat.le_trans ends high)
  have frame (addr : Nat) (off : ¬d.Own f addr) :
      memmove d (block * 4096 + p % 4096) src base bn addr = d addr := by
    refine outside addr ?_
    by_contra within
    obtain ⟨low, high⟩ := not_or.mp within
    exact off (.inr (.inr ⟨block, mem_owned member, Nat.le_trans (Nat.le_add_right _ _) (not_lt.mp low),
      Nat.lt_of_lt_of_le (not_le.mp high) ends⟩))
  have size := similar.size f there
  have leaves := neat.owns.leaves there regular similar.live similar.type frame
  have bytes (k : Nat) (small : k < maxFileSize) :
      byteAt (memmove d (block * 4096 + p % 4096) src base bn) f k =
        if p ≤ k ∧ k < p + bn then src (base + (k - p)) else d.byteAt f k := by
    have present := (keeps f there).present (div_block small)
    have blockAt (filled : d.present f (k / pgSize) = true) :=
      (keeps f there).blockAt ⟨div_block small, (present_iff.mp filled).1⟩
    split
    · have same : k / pgSize = p / 4096 := by
        rw [page]
        omega
      rw [same] at present blockAt
      have distance : block * 4096 + k % 4096 -
          (block * 4096 + p % 4096) = k - p := by omega
      unfold Disk.byteAt Disk.contents
      rw [same, present, if_pos filled, blockAt filled, block_eq, page, memmove, if_pos (by omega), distance]
    · rename_i apart
      refine byteAt_congr present fun there' => ⟨blockAt there', outside _ ?_⟩
      have low' := (neat.inside there regular (div_block small) there').1
      rw [page] at there' low' ⊢
      by_cases same : k / 4096 = p / 4096
      · rw [same, block_eq]
        omega
      · have other : d.blockAt f (k / 4096) ≠ block := fun equal =>
          same (once _ low' _ low there' filled (equal.trans block_eq.symm))
        generalize d.blockAt f (k / 4096) = block' at other
        omega
  refine ⟨neat.change there regular owns leaves (fun other still => ?_) frame
    (fun bno high few => ?_) fun k high small => ?_, leaves, size, bytes⟩
  · rwa [blockIsFree_congr fun addr low => outside addr (by omega)] at still
  · rw [size] at high
    rw [(keeps f there).present few]
    exact neat.slots f there regular bno high few
  · rw [size] at high
    rw [bytes k small, if_neg (by omega)]
    exact neat.tails f there regular k high small

theorem Disk.Neat.grow {newsize : BitVec 32} (neat : d.Neat) (there : d.Live f)
    (regular : d.fType f ≠ ftypeDir) (legal : newsize.toNat ≤ maxFileSize)
    (longer : (d.fSize f).toNat ≤ newsize.toNat) :
    Neat (d.setWord (fSizeAt f) newsize) ∧ d.Leaves (d.setWord (fSizeAt f) newsize) f ∧
      ∀ k < maxFileSize, byteAt (d.setWord (fSizeAt f) newsize) f k = d.byteAt f k := by
  have old := neat.owns.legal f there
  have few := (blocksOf_le legal).2.2
  obtain ⟨owns, live, types, -, -⟩ := neat.owns.growSize there legal longer
    (fun k high low => neat.slots f there regular k high (by omega)) fun directory =>
      absurd directory regular
  have sizeAt : fSizeAt f = f + 128 := rfl
  have behind := (neat.owns.storedFile there regular).behind
  have frame (addr : Nat) (off : ¬(f + 128 ≤ addr ∧ addr < f + 256)) :
      d.setWord (fSizeAt f) newsize addr = d addr := setWord_other (by omega)
  have indirectAt : fIndirectAt f = f + 176 := rfl
  have indirect : fIndirect (d.setWord (fSizeAt f) newsize) f = d.fIndirect f :=
    word_setWord_other (by omega)
  have slotAt (k : Nat) : slotAt (d.setWord (fSizeAt f) newsize) f k = d.slotAt f k :=
    slotAt_congr indirect
  have words (k : Nat) (slot : d.HasSlot f k) :
      word (d.setWord (fSizeAt f) newsize) (d.slotAt f k) = d.word (d.slotAt f k) := by
    have place := (neat.owns.slot there slot).2.2.1
    exact word_setWord_other (by omega)
  have present (k : Nat) (few : k < nDirect + nIndirect) :
      present (d.setWord (fSizeAt f) newsize) f k = d.present f k := by
    refine Bool.eq_iff_iff.mpr ?_
    rw [present_iff, present_iff, slotAt, indirect]
    exact and_congr_right fun reached => by rw [words k ⟨few, reached⟩]
  have bytes (k : Nat) (small : k < maxFileSize) :
      byteAt (d.setWord (fSizeAt f) newsize) f k = d.byteAt f k := by
    refine neat.byteAt_own there regular small (present _ (div_block small)) (fun filled => ?_)
      fun addr _ off => frame addr fun inside => off (.inl inside)
    rw [Disk.blockAt, slotAt, words _ ⟨div_block small, (present_iff.mp filled).1⟩]
    rfl
  have size : fSize (d.setWord (fSizeAt f) newsize) f = newsize := word_setWord
  have leaves := neat.owns.leaves there regular live types fun addr off =>
    frame addr fun inside => off (.inr (.inl inside))
  refine ⟨neat.change there regular owns leaves (fun other still => ?_)
    (fun addr off => frame addr fun inside => off (.inr (.inl inside))) (fun bno high few => ?_)
    fun k high small => ?_, leaves, bytes⟩
  · rwa [blockIsFree_congr fun addr low => frame addr (by omega)] at still
  · rw [size, blocksFor_eq legal] at high
    rw [present bno few]
    exact neat.slots f there regular bno (by rw [blocksFor_eq old]; omega) few
  · rw [size] at high
    rw [bytes k small]
    exact neat.tails f there regular k (by omega) small

end Neat

section Loops

variable {d d' : Disk} {f start total p base left : Nat} {count : BitVec 64} {offset : BitVec 32}
  {buf buf' : Bytes} {r : Int}

theorem count_toInt (few : count.toNat < 2 ^ 31) : (count.setWidth 32).toInt = count.toNat := by
  rw [BitVec.toInt_eq_toNat_of_lt (by rw [BitVec.toNat_setWidth]; omega), BitVec.toNat_setWidth,
    Nat.mod_eq_of_lt (by omega)]

theorem Disk.Neat.round {got : Except Int Nat} {mid : Disk} (neat : d.Neat) (there : d.Live f)
    (regular : d.fType f ≠ ftypeDir) (sum : start + count.toNat = total) (more : p < total)
    (ends : total ≤ (d.fSize f).toNat)
    (ran : Disk.fileGetBlock f (blocksOf (BitVec.ofNat 32 p)) d = some (got, mid)) :
    (∃ code < 0, got = .error code) ∨ ∃ block bn, got = .ok (block * 4096) ∧
      d.Wrote mid f (d.byteAt f) ∧ mid.present f (p / 4096) = true ∧
      mid.blockAt f (p / 4096) = block ∧ within (block * 4096) (BitVec.ofNat 32 p) =
        block * 4096 + p % 4096 ∧
      chunk (BitVec.ofNat 32 p) (BitVec.ofNat 32 start) count = bn ∧ 0 < bn ∧ p + bn ≤ total ∧
      p % 4096 + bn ≤ 4096 := by
  have legal := neat.owns.legal f there
  have bound : (d.fSize f).toNat ≤ 4235264 := legal
  have here : p < 2 ^ 31 := by omega
  have small : start < 2 ^ 31 := by omega
  cases got with
  | error code => exact .inl ⟨code, negative_error (fileGetBlock_error ran), rfl⟩
  | ok blk =>
    have number := blocksOf_ofNat here
    rw [number] at ran
    obtain ⟨wrote, filled, rfl⟩ := neat.fileGetBlock there regular
      (by rw [blocksFor_eq legal]; omega) ran
    have bn := chunk_total small here sum (by omega) more.le
    have rest : p % 4096 < 4096 := Nat.mod_lt _ (by decide)
    refine .inr ⟨_, _, rfl, wrote, filled, rfl, within_ofNat here, rfl, ?_⟩
    rw [bn]
    omega

/-- The loop of `file_write`, within the file. -/
theorem Disk.Neat.writeFrom (neat : d.Neat) (there : d.Live f) (regular : d.fType f ≠ ftypeDir)
    (sum : start + count.toNat = total) (inside : p ≤ total) (ends : total ≤ (d.fSize f).toNat)
    (ran : writeFrom f buf (BitVec.ofNat 32 start) count left (BitVec.ofNat 32 p) base d = some (r, d'))
    (succeeds : 0 ≤ r) : r = count.toNat ∧
      d.Wrote d' f fun k => if p ≤ k ∧ k < total then buf (base + (k - p)) else d.byteAt f k := by
  have bound : (d.fSize f).toNat ≤ 4235264 := neat.owns.legal f there
  induction left generalizing p base d with
  | zero => cases ran
  | succ left ih =>
    rw [Disk.writeFrom, before_total (by omega) (by omega) sum (by omega)] at ran
    by_cases more : p < total
    · rw [decide_eq_true more, if_pos rfl] at ran
      obtain ⟨⟨got, mid⟩, block, ran⟩ := Option.bind_eq_some_iff.mp ran
      rcases neat.round there regular sum more ends block with ⟨code, negative, rfl⟩ |
        ⟨blk, bn, rfl, wrote, filled, block_eq, place, chunk_eq, moves, few, fits⟩
      · cases ran
        exact absurd succeeds (not_le.mpr negative)
      · have there₁ := (wrote.leaves.live f).mpr there
        have regular₁ : mid.fType f ≠ ftypeDir := by
          rw [wrote.leaves.type f there]
          exact regular
        have stored := @Disk.Neat.store mid f blk p bn base buf wrote.neat there₁ regular₁ filled
          block_eq (by rw [wrote.size]; omega) (by rw [wrote.size]; omega) fits
        dsimp only at ran
        rw [place, chunk_eq, ← BitVec.ofNat_add] at ran
        have size := stored.size.trans wrote.size
        obtain ⟨all, rest⟩ := ih stored.neat ((stored.leaves.live f).mpr there₁)
          (by rw [stored.leaves.type f there₁]; exact regular₁) few (by rw [size]; exact ends) ran
          (by rw [size]; exact bound)
        refine ⟨all, (wrote.trans neat (stored.trans wrote.neat rest)).congr fun k small => ?_⟩
        rw [stored.bytes k small, wrote.bytes k small]
        by_cases later : p + bn ≤ k ∧ k < total
        · have index : base + bn + (k - (p + bn)) = base + (k - p) := by omega
          rw [if_pos later, if_pos (by omega), index]
        · rw [if_neg later]
          by_cases now : p ≤ k ∧ k < p + bn
          · rw [if_pos now, if_pos (by omega)]
          · rw [if_neg now, if_neg (by omega)]
    · rw [decide_eq_false more, if_neg Bool.false_ne_true] at ran
      cases ran
      exact ⟨count_toInt (by omega), neat.refl.congr fun k _ => (if_neg (by omega)).symm⟩

/-- The loop of `file_read`, within the file. -/
theorem Disk.Neat.readFrom (neat : d.Neat) (there : d.Live f) (regular : d.fType f ≠ ftypeDir)
    (sum : start + count.toNat = total) (inside : p ≤ total) (ends : total ≤ (d.fSize f).toNat)
    (ran : readFrom f (BitVec.ofNat 32 start) count left (BitVec.ofNat 32 p) base buf d =
      some (r, buf', d')) (succeeds : 0 ≤ r) : r = count.toNat ∧ d.Wrote d' f (d.byteAt f) ∧
        ∀ k, buf' k = if base ≤ k ∧ k < base + (total - p) then d.byteAt f (p + (k - base))
          else buf k := by
  have bound : (d.fSize f).toNat ≤ 4235264 := neat.owns.legal f there
  induction left generalizing p base buf d with
  | zero => cases ran
  | succ left ih =>
    rw [Disk.readFrom, before_total (by omega) (by omega) sum (by omega)] at ran
    by_cases more : p < total
    · rw [decide_eq_true more, if_pos rfl] at ran
      obtain ⟨⟨got, mid⟩, block, ran⟩ := Option.bind_eq_some_iff.mp ran
      rcases neat.round there regular sum more ends block with ⟨code, negative, rfl⟩ |
        ⟨blk, bn, rfl, wrote, filled, block_eq, place, chunk_eq, moves, few, fits⟩
      · cases ran
        exact absurd succeeds (not_le.mpr negative)
      · dsimp only at ran
        rw [place, chunk_eq, ← BitVec.ofNat_add] at ran
        obtain ⟨all, rest, read⟩ := ih wrote.neat ((wrote.leaves.live f).mpr there)
          (by rw [wrote.leaves.type f there]; exact regular) few (by rw [wrote.size]; exact ends) ran
          (by rw [wrote.size]; exact bound)
        refine ⟨all, (wrote.trans neat rest).congr wrote.bytes, fun k => ?_⟩
        rw [read k]
        by_cases later : base + bn ≤ k ∧ k < base + bn + (total - (p + bn))
        · have index : p + bn + (k - (base + bn)) = p + (k - base) := by omega
          have small : p + (k - base) < maxFileSize := by
            change _ < 4235264
            omega
          rw [if_pos later, if_pos (by omega), index, wrote.bytes _ small]
        · rw [if_neg later, memmove]
          by_cases now : base ≤ k ∧ k < base + bn
          · have small : p + (k - base) < maxFileSize := by
              change _ < 4235264
              omega
            have same : (p + (k - base)) / 4096 = p / 4096 := by omega
            have offset : (p + (k - base)) % 4096 = p % 4096 + (k - base) := by omega
            have page := pgSize_eq
            rw [if_pos now, if_pos (by omega), ← wrote.bytes _ small, Disk.byteAt, page, same, filled,
              if_pos rfl, Disk.contents, page, same, offset, block_eq, Nat.add_assoc]
          · rw [if_neg now, if_neg (by omega)]
    · rw [decide_eq_false more, if_neg Bool.false_ne_true] at ran
      cases ran
      exact ⟨count_toInt (by omega), neat.refl, fun k => (if_neg (by omega)).symm⟩

/-- `file_write`, which grows the file first where it has to. -/
theorem Disk.Neat.fileWrite (neat : d.Neat) (there : d.Live f) (regular : d.fType f ≠ ftypeDir)
    (positive : 0 ≤ offset.toInt) (fits : offset.toNat + count.toNat ≤ maxFileSize)
    (ran : fileWrite f buf count.toNat offset d = some (r, d')) (succeeds : 0 ≤ r) :
    r = count.toNat ∧ d'.Neat ∧ d.Leaves d' f ∧
      (d'.fSize f).toNat = max (d.fSize f).toNat (offset.toNat + count.toNat) ∧
      ∀ k < maxFileSize, d'.byteAt f k = if offset.toNat ≤ k ∧ k < offset.toNat + count.toNat
        then buf (k - offset.toNat) else d.byteAt f k := by
  have legal := neat.owns.legal f there
  obtain ⟨newsize, longer⟩ := written_ends legal positive fits
  have same : offset = BitVec.ofNat 32 offset.toNat := by rw [BitVec.ofNat_toNat, BitVec.setWidth_eq]
  -- The loop, on a disk on which the file is long enough.
  have loop (mid : Disk) (neat : mid.Neat) (there : mid.Live f) (regular : mid.fType f ≠ ftypeDir)
      (ends : offset.toNat + count.toNat ≤ (mid.fSize f).toNat)
      (ran : Disk.writeFrom f buf offset count (count.toNat + 1) offset 0 mid = some (r, d')) :
      r = count.toNat ∧ mid.Wrote d' f fun k =>
        if offset.toNat ≤ k ∧ k < offset.toNat + count.toNat then buf (0 + (k - offset.toNat))
        else mid.byteAt f k := by
    rw [same] at ran
    exact neat.writeFrom there regular rfl (Nat.le_add_right _ _) ends ran succeeds
  unfold Disk.fileWrite at ran
  simp only [BitVec.ofNat_toNat, BitVec.setWidth_eq] at ran
  rw [longer] at ran
  by_cases more : (d.fSize f).toNat < offset.toNat + count.toNat
  · have less : ¬((offset.signExtend 64 + count).setWidth 32).slt (d.fSize f) = true := by
      rw [slt_sizes legal (by rw [newsize]; exact fits), newsize]
      omega
    rw [decide_eq_true more, if_pos rfl, fileSetSize, if_neg less] at ran
    obtain ⟨grown, leaves, bytes⟩ := neat.grow there regular (by rw [newsize]; exact fits)
      (by rw [newsize]; exact more.le)
    have size : fSize (d.setWord (fSizeAt f) ((offset.signExtend 64 + count).setWidth 32)) f =
        (offset.signExtend 64 + count).setWidth 32 := word_setWord
    obtain ⟨all, wrote⟩ := loop _ grown ((leaves.live f).mpr there)
      (by rw [leaves.type f there]; exact regular) (by rw [size, newsize]) ran
    refine ⟨all, wrote.neat, leaves.trans neat.owns wrote.leaves, ?_, fun k small => ?_⟩
    · rw [wrote.size, size, newsize, Nat.max_eq_right more.le]
    · rw [wrote.bytes k small, bytes k small, Nat.zero_add]
  · rw [decide_eq_false more, if_neg Bool.false_ne_true] at ran
    obtain ⟨all, wrote⟩ := loop d neat there regular (not_lt.mp more) ran
    refine ⟨all, wrote.neat, wrote.leaves, ?_, fun k small => ?_⟩
    · rw [wrote.size, Nat.max_eq_left (not_lt.mp more)]
    · rw [wrote.bytes k small, Nat.zero_add]

/-- `file_read`, which stops at the end of the file. -/
theorem Disk.Neat.fileRead (neat : d.Neat) (there : d.Live f) (regular : d.fType f ≠ ftypeDir)
    (positive : 0 ≤ offset.toInt) (ran : fileRead f buf count.toNat offset d = some (r, buf', d'))
    (succeeds : 0 ≤ r) : r = min count.toNat ((d.fSize f).toNat - offset.toNat) ∧
      d.Wrote d' f (d.byteAt f) ∧
      ∀ k, buf' k = if k < min count.toNat ((d.fSize f).toNat - offset.toNat)
        then d.byteAt f (offset.toNat + k) else buf k := by
  have legal := neat.owns.legal f there
  have bound : (d.fSize f).toNat ≤ 4235264 := legal
  have value : (d.fSize f).toInt = (d.fSize f).toNat := BitVec.toInt_eq_toNat_of_lt (by omega)
  have start : offset.toInt = offset.toNat :=
    BitVec.toInt_eq_toNat_of_lt (by have := (extend_positive positive).1; omega)
  unfold Disk.fileRead at ran
  simp only [BitVec.ofNat_toNat, BitVec.setWidth_eq] at ran
  by_cases past : (d.fSize f).sle offset = true
  · rw [if_pos past] at ran
    cases ran
    rw [BitVec.sle_eq_decide, decide_eq_true_eq] at past
    have none : (d.fSize f).toNat - offset.toNat = 0 := by omega
    rw [none, Nat.min_zero]
    exact ⟨rfl, neat.refl, fun k => (if_neg (Nat.not_lt_zero k)).symm⟩
  · rw [if_neg past] at ran
    have inside : offset.toNat < (d.fSize f).toNat := by
      rw [BitVec.sle_eq_decide, decide_eq_true_eq] at past
      omega
    have cut := @clipped_inside f offset count d legal inside.le
    change Disk.readFrom f offset (clipped d f count offset) ((clipped d f count offset).toNat + 1)
      offset 0 buf d = _ at ran
    have same : offset = BitVec.ofNat 32 offset.toNat := by
      rw [BitVec.ofNat_toNat, BitVec.setWidth_eq]
    rw [← cut]
    generalize clipped d f count offset = moved at *
    rw [same] at ran
    obtain ⟨all, wrote, read⟩ := neat.readFrom there regular rfl (Nat.le_add_right _ _) (by omega) ran
      succeeds
    refine ⟨all, wrote, fun k => ?_⟩
    rw [read k]
    simp only [Nat.zero_le, true_and, Nat.zero_add, Nat.sub_zero, Nat.add_sub_cancel_left]

end Loops

end Fs

end Jos
