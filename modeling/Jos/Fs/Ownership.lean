import Jos.Fs.Create
import Jos.Fs.Transfer

/-! Which file owns which block, in a tree whose directories may have holes. -/

set_option autoImplicit false

namespace Jos

open Foundation Function

namespace Fs

open Disk

def Disk.InDir (d : Disk) (dir f : FilePtr) : Prop :=
  ∃ bno < blocksOf (d.fSize dir), d.present dir bno = true ∧
    ∃ j < blkFiles, f = fileAt (d.blockAt dir bno * pgSize) j

inductive Disk.Live (d : Disk) : FilePtr → Prop where
  | root : Live d sRoot
  | entry {dir f : FilePtr} :
      Live d dir → d.fType dir = ftypeDir → d.InDir dir f → d f ≠ 0 → Live d f

/-- The blocks of the files are in use, and each has one place in one file. -/
structure Disk.Owns (d : Disk) : Prop where
  reserved : d.Reserved
  root : d.fType sRoot = ftypeDir
  legal : ∀ f, d.Live f → (d.fSize f).toNat ≤ maxFileSize
  blocks : ∀ f, d.Live f → ∀ block ∈ d.owned f,
    d.OnDisk block ∧ d.bitmapEnd ≤ block * pgSize ∧ d.blockIsFree block = false
  once : ∀ f, d.Live f → (d.owned f).Nodup
  apart : ∀ f g block, d.Live f → d.Live g → block ∈ d.owned f → block ∈ d.owned g → f = g

def Disk.Spot (d : Disk) (f : FilePtr) : Prop :=
  f = sRoot ∨ ∃ dir, d.Live dir ∧ d.fType dir = ftypeDir ∧ d.InDir dir f

/-- A block behind the bitmap in which there are no entries of a directory. -/
def Disk.Plain (d : Disk) (block : Nat) : Prop :=
  d.bitmapEnd ≤ block * 4096 ∧
    ∀ dir, d.Live dir → d.fType dir = ftypeDir → block ∉ d.dataBlocks dir

def Disk.Meta (d : Disk) (f addr : Nat) : Prop :=
  (f + 128 ≤ addr ∧ addr < f + 256) ∨
    (d.fIndirect f ≠ 0 ∧ (d.fIndirect f).toNat * 4096 ≤ addr ∧
      addr < (d.fIndirect f).toNat * 4096 + 4096)

/-- What may be stored to for a file: the bitmap, its record, and its blocks without entries. -/
def Disk.Within (d : Disk) (f addr : Nat) : Prop :=
  (bitmap ≤ addr ∧ addr < d.bitmapEnd) ∨ (f ≤ addr ∧ addr < f + 256) ∨
    ∃ block, d.Live f ∧ block ∈ d.owned f ∧ d.Plain block ∧
      block * 4096 ≤ addr ∧ addr < block * 4096 + 4096

section Places

variable {d d' : Disk} {f g e dir block addr : Nat}

theorem blocksOf_le {size : BitVec 32} (legal : size.toNat ≤ maxFileSize) :
    blocksOf size = size.toNat / 4096 ∧ blocksOf size ≤ blocksFor size ∧
      blocksFor size ≤ nDirect + nIndirect := by
  have legal' : size.toNat ≤ (10 + 1024) * 4096 := legal
  have count : nDirect + nIndirect = 10 + 1024 := rfl
  have blocks := @blocksOf_ofNat size.toNat (by omega)
  rw [BitVec.ofNat_toNat, BitVec.setWidth_eq] at blocks
  rw [blocksFor_eq legal, blocks, count]
  omega

theorem Disk.Owns.entry (owns : d.Owns) (there : d.Live dir) (member : d.InDir dir e) :
    ∃ block ∈ d.dataBlocks dir, ∃ j < 16, e = block * 4096 + 256 * j := by
  obtain ⟨bno, inside, filled, j, few, place⟩ := member
  have less := (blocksOf_le (owns.legal dir there)).2.1
  exact ⟨d.blockAt dir bno, mem_dataBlocks.mpr ⟨bno, by omega, filled, rfl⟩, j, few, place⟩

theorem Disk.Owns.low (owns : d.Owns) (there : d.Live f) (mine : block ∈ d.owned f) :
    d.bitmapEnd ≤ block * 4096 ∧ 8192 ≤ d.bitmapEnd :=
  ⟨(owns.blocks f there block mine).2.1, bitmapEnd_le d⟩

theorem Disk.Live.spot (there : d.Live f) : d.Spot f := by
  cases there with
  | root => exact .inl rfl
  | entry parent directory member => exact .inr ⟨_, parent, directory, member⟩

section

variable (owns : d.Owns)

include owns

theorem Disk.Owns.place (spot : d.Spot f) : f = 4104 ∨
    ∃ dir, d.Live dir ∧ d.fType dir = ftypeDir ∧ ∃ block ∈ d.dataBlocks dir,
      d.bitmapEnd ≤ block * 4096 ∧ 8192 ≤ d.bitmapEnd ∧ ∃ j < 16, f = block * 4096 + 256 * j := by
  rcases spot with rfl | ⟨dir, parent, directory, member⟩
  · exact .inl rfl
  · obtain ⟨block, inside, j, few, place⟩ := owns.entry parent member
    have low := owns.low parent (mem_owned inside)
    exact .inr ⟨dir, parent, directory, block, inside, low.1, low.2, j, few, place⟩

theorem Disk.Owns.records (spot : d.Spot f) (spot' : d.Spot g) (differ : g ≠ f) :
    g + 256 ≤ f ∨ f + 256 ≤ g := by
  rcases owns.place spot with rfl | ⟨-, -, -, block, -, low, least, j, few, place⟩
  · rcases owns.place spot' with rfl | ⟨-, -, -, block, -, low, least, j, few, place⟩
    · exact absurd rfl differ
    · omega
  · rcases owns.place spot' with rfl | ⟨-, -, -, block', -, low', -, j', few', place'⟩
    · omega
    · omega

theorem Disk.Owns.record (plain : d.Plain block) (spot : d.Spot g) :
    g + 256 ≤ block * 4096 ∨ block * 4096 + 4096 ≤ g := by
  have behind := plain.1
  have least := bitmapEnd_le d
  have first : bitmap = 8192 := rfl
  rcases owns.place spot with rfl | ⟨dir, parent, directory, block', inside, -, -, j, few, place⟩
  · omega
  · have differ : block' ≠ block := fun same => plain.2 dir parent directory (same ▸ inside)
    omega

theorem Disk.Owns.plain (there : d.Live f) (mine : block ∈ d.owned f)
    (bare : d.fType f = ftypeDir → block ∉ d.dataBlocks f) : d.Plain block := by
  refine ⟨(owns.low there mine).1, fun dir parent directory inside => ?_⟩
  have same := owns.apart dir f block parent there (mem_owned inside) mine
  subst same
  exact bare directory inside

theorem Disk.Owns.plain_indirect (there : d.Live f) (filled : d.fIndirect f ≠ 0) :
    d.Plain (d.fIndirect f).toNat := by
  refine owns.plain there (mem_owned_indirect filled) fun _ member => ?_
  have once := owns.once f there
  rw [Disk.owned, if_neg filled] at once
  exact (List.nodup_append.mp once).2.2 _ member _ List.mem_cons_self rfl

theorem Disk.Owns.meta_bitmap (there : d.Live g) (inside : d.Meta g addr) :
    4104 + 128 ≤ addr ∧ ¬(bitmap ≤ addr ∧ addr < d.bitmapEnd) := by
  have first : bitmap = 8192 := rfl
  rcases inside with inside | ⟨filled, inside⟩
  · rcases owns.place there.spot with rfl | ⟨-, -, -, block, -, low, least, j, few, place⟩
    · omega
    · omega
  · have low := owns.low there (mem_owned_indirect filled)
    omega

theorem Disk.Owns.meta_within (spot : d.Spot f) (there : d.Live g)
    (differ : g ≠ f) (inside : d.Meta g addr) : ¬d.Within f addr := by
  have off := (owns.meta_bitmap there inside).2
  rintro (within | within | ⟨block, alive, mine, plain, within⟩)
  · exact off within
  · rcases inside with inside | ⟨filled, inside⟩
    · have records := owns.records spot there.spot differ
      omega
    · have record := owns.record (owns.plain_indirect there filled) spot
      omega
  · rcases inside with inside | ⟨filled, inside⟩
    · have record := owns.record plain there.spot
      omega
    · have blocks : block ≠ (d.fIndirect g).toNat := by
        rintro rfl
        exact differ (owns.apart g f _ there alive (mem_owned_indirect filled) mine)
      omega

theorem Disk.Owns.entry_within (spot : d.Spot f) (there : d.Live g)
    (directory : d.fType g = ftypeDir) (member : d.InDir g e) (differ : e ≠ f) :
    ¬d.Within f e := by
  have spot' : d.Spot e := .inr ⟨g, there, directory, member⟩
  have records := owns.records spot spot' differ
  obtain ⟨block, inside, j, few, place⟩ := owns.entry there member
  have low := owns.low there (mem_owned inside)
  rintro (within | within | ⟨block', -, -, plain, within⟩)
  · omega
  · omega
  · have record := owns.record plain spot'
    omega

end

theorem keepsFile_of (same : ∀ addr, d.Meta g addr → d' addr = d addr) : d.KeepsFile d' g := by
  obtain ⟨size, type, indirect, direct⟩ :=
    @fields_congr d d' g fun addr low high => same addr (.inl ⟨low, high⟩)
  refine ⟨size, type, indirect, fun bno slot => word_congr fun addr low high => same addr ?_⟩
  rcases slotAt_place slot with ⟨few, place⟩ | ⟨many, few, filled, place⟩
  · exact .inl (by omega)
  · exact .inr ⟨filled, by omega⟩

theorem Disk.Owns.kept (owns : d.Owns) (spot : d.Spot f)
    (frame : ∀ addr, ¬d.Within f addr → d' addr = d addr) :
    (∀ g, d.Live g → g ≠ f → d.KeepsFile d' g) ∧
      (∀ g, d.Live g → d.fType g = ftypeDir → ∀ e, d.InDir g e → e ≠ f → d' e = d e) ∧
        d'.sNblocks = d.sNblocks := by
  refine ⟨fun g there differ => keepsFile_of fun addr inside =>
      frame addr (owns.meta_within spot there differ inside),
    fun g there directory e member differ =>
      frame e (owns.entry_within spot there directory member differ), ?_⟩
  have first : super = 4096 := rfl
  have second : bitmap = 8192 := rfl
  have least := bitmapEnd_le d
  rw [Disk.sNblocks, word_congr fun k low high => frame k ?_]
  · rfl
  · rintro (within | within | ⟨block, alive, mine, plain, within⟩)
    · omega
    · rcases owns.place spot with rfl | ⟨-, -, -, block, -, behind, -, j, few, place⟩
      · omega
      · omega
    · have behind := plain.1
      omega

end Places

section Change

variable {d d' : Disk} {f g e : Nat}

/-- The first `n` blocks of a file are the same. -/
structure Disk.SameBlocks (d d' : Disk) (f n : Nat) : Prop where
  present : ∀ k < n, d'.present f k = d.present f k
  blockAt : ∀ k < n, d.present f k = true → d'.blockAt f k = d.blockAt f k

theorem Disk.KeepsFile.blocks (keeps : d.KeepsFile d' g) :
    d.SameBlocks d' g (nDirect + nIndirect) where
  present _ few := keeps.present few
  blockAt _ few filled := keeps.blockAt ⟨few, (present_iff.mp filled).1⟩

theorem Disk.SameBlocks.dataBlocks {n : Nat} (same : d.SameBlocks d' f n)
    (size : d'.fSize f = d.fSize f) (few : blocksFor (d.fSize f) ≤ n) :
    d'.dataBlocks f = d.dataBlocks f := by
  rw [Disk.dataBlocks, size, List.filter_congr fun k low =>
    same.present k (Nat.lt_of_lt_of_le (List.mem_range.mp low) few)]
  refine List.map_congr_left fun k member => ?_
  obtain ⟨low, filled⟩ := List.mem_filter.mp member
  exact same.blockAt k (Nat.lt_of_lt_of_le (List.mem_range.mp low) few) filled

theorem Disk.SameBlocks.inDir {n : Nat} (same : d.SameBlocks d' f n)
    (size : d'.fSize f = d.fSize f) (few : blocksOf (d.fSize f) ≤ n) :
    d'.InDir f e ↔ d.InDir f e := by
  unfold Disk.InDir
  rw [size]
  refine exists_congr fun k => and_congr_right fun low => ?_
  rw [same.present k (by omega)]
  exact and_congr_right fun filled => by rw [same.blockAt k (by omega) filled]

theorem Disk.KeepsFile.owned (keeps : d.KeepsFile d' g) (legal : (d.fSize g).toNat ≤ maxFileSize) :
    d'.owned g = d.owned g := by
  rw [Disk.owned, keeps.blocks.dataBlocks keeps.size (blocksOf_le legal).2.2, keeps.indirect]
  rfl

theorem Disk.KeepsFile.inDir (keeps : d.KeepsFile d' g) (legal : (d.fSize g).toNat ≤ maxFileSize) :
    d'.InDir g e ↔ d.InDir g e := by
  have few := (blocksOf_le legal).2
  exact keeps.blocks.inDir keeps.size (by omega)

/-- Where the other files are kept, no file comes to life but the one that was stored to. -/
theorem live_or (legal : ∀ g, d.Live g → (d.fSize g).toNat ≤ maxFileSize)
    (kept : ∀ g, d.Live g → g ≠ f → d.KeepsFile d' g)
    (names : ∀ g, d.Live g → d.fType g = ftypeDir → ∀ e, d.InDir g e → e ≠ f → d' e = d e)
    (own : d'.fType f = ftypeDir → ∀ e, d'.InDir f e → d' e ≠ 0 → d.Live e ∨ e = f)
    (there : d'.Live g) : d.Live g ∨ g = f := by
  induction there with
  | root => exact .inl .root
  | @entry dir e _ directory member used ih =>
    by_cases here : dir = f
    · subst here
      exact own directory e member used
    · by_cases new : e = f
      · exact .inr new
      · have there := ih.resolve_right here
        have keeps := kept dir there here
        rw [keeps.type] at directory
        have member := (keeps.inDir (legal dir there)).mp member
        rw [names dir there directory e member new] at used
        exact .inl (.entry there directory member used)

theorem live_iff (legal : ∀ g, d.Live g → (d.fSize g).toNat ≤ maxFileSize) (there : d.Live f)
    (kept : ∀ g, d.Live g → g ≠ f → d.KeepsFile d' g)
    (names : ∀ g, d.Live g → d.fType g = ftypeDir → ∀ e, d.InDir g e → d' e = d e)
    (type : d'.fType f = d.fType f)
    (named : d.fType f = ftypeDir → ∀ e, d'.InDir f e ∧ d' e ≠ 0 ↔ d.InDir f e ∧ d e ≠ 0) :
    d'.Live g ↔ d.Live g := by
  refine ⟨fun there' => ?_, fun there' => ?_⟩
  · refine (live_or legal kept (fun g there directory e member _ => names g there directory e member)
      (fun directory e member used => ?_) there').elim id fun same => same ▸ there
    rw [type] at directory
    obtain ⟨member, used⟩ := (named directory e).mp ⟨member, used⟩
    exact .inl (.entry there directory member used)
  · induction there' with
    | root => exact .root
    | @entry dir e parent directory member used ih =>
      by_cases here : dir = f
      · subst here
        obtain ⟨member, used⟩ := (named directory e).mpr ⟨member, used⟩
        exact .entry ih (type.trans directory) member used
      · have keeps := kept dir parent here
        refine .entry ih (keeps.type.trans directory)
          ((keeps.inDir (legal dir parent)).mpr member) ?_
        rw [names dir parent directory e member]
        exact used

/-- A block that no file owns, or only `f` does. -/
def Disk.Unowned (d : Disk) (f block : Nat) : Prop :=
  ∀ g, d.Live g → g ≠ f → block ∉ d.owned g

theorem Disk.Owns.change (owns : d.Owns) (live : ∀ g, d'.Live g → d.Live g ∨ g = f)
    (kept : ∀ g, d.Live g → g ≠ f → d.KeepsFile d' g) (count : d'.sNblocks = d.sNblocks)
    (root : d'.fType sRoot = ftypeDir) (reserved : d'.Reserved)
    (used : ∀ g, d.Live g → g ≠ f → ∀ block ∈ d.owned g, d'.blockIsFree block = false)
    (legal : d'.Live f → (d'.fSize f).toNat ≤ maxFileSize)
    (mine : d'.Live f → ∀ block ∈ d'.owned f, (d.OnDisk block ∧ d.bitmapEnd ≤ block * pgSize ∧
      d'.blockIsFree block = false) ∧ d.Unowned f block)
    (once : d'.Live f → (d'.owned f).Nodup) : d'.Owns := by
  have ends := bitmapEnd_congr count
  have other (g : FilePtr) (there : d'.Live g) (differ : g ≠ f) :
      d.Live g ∧ d'.fSize g = d.fSize g ∧ d'.owned g = d.owned g := by
    have old := (live g there).resolve_right differ
    exact ⟨old, (kept g old differ).size, (kept g old differ).owned (owns.legal g old)⟩
  refine ⟨reserved, root, fun g there => ?_, fun g there block member => ?_, fun g there => ?_,
    fun g h block there there' member member' => ?_⟩
  · by_cases same : g = f
    · subst same
      exact legal there
    · obtain ⟨old, size, -⟩ := other g there same
      rw [size]
      exact owns.legal g old
  · rw [Disk.OnDisk, count, ends]
    by_cases same : g = f
    · subst same
      exact (mine there block member).1
    · obtain ⟨old, -, owned⟩ := other g there same
      rw [owned] at member
      obtain ⟨onDisk, behind, -⟩ := owns.blocks g old block member
      exact ⟨onDisk, behind, used g old same block member⟩
  · by_cases same : g = f
    · subst same
      exact once there
    · obtain ⟨old, -, owned⟩ := other g there same
      rw [owned]
      exact owns.once g old
  · by_cases same : g = f
    · by_cases same' : h = f
      · rw [same, same']
      · subst same
        obtain ⟨old, -, owned⟩ := other h there' same'
        rw [owned] at member'
        exact absurd member' ((mine there block member).2 h old same')
    · obtain ⟨old, -, owned⟩ := other g there same
      by_cases same' : h = f
      · subst same'
        rw [owned] at member
        exact absurd member ((mine there' block member').2 g old same)
      · obtain ⟨old', -, owned'⟩ := other h there' same'
        rw [owned] at member
        rw [owned'] at member'
        exact owns.apart g h block old old' member member'

end Change

section Store

variable {d d' : Disk} {f g e block bno addr : Nat} {value : BitVec 32}

theorem Disk.Owns.keep (owns : d.Owns) (kept : ∀ g, d.Live g → d.KeepsFile d' g)
    (names : ∀ g, d.Live g → d.fType g = ftypeDir → ∀ e, d.InDir g e → d' e = d e)
    (count : d'.sNblocks = d.sNblocks) (reserved : d'.Reserved)
    (used : ∀ g, d.Live g → ∀ block ∈ d.owned g, d'.blockIsFree block = false) :
    d'.Owns ∧ ∀ g, d'.Live g ↔ d.Live g := by
  have root := kept sRoot .root
  have legal := owns.legal sRoot .root
  have live : ∀ g, d'.Live g ↔ d.Live g := fun g =>
    live_iff owns.legal .root (fun g there _ => kept g there) names root.type fun directory e => by
      rw [root.inDir legal]
      exact and_congr_right fun member => by rw [names sRoot .root directory e member]
  refine ⟨@Disk.Owns.change d d' sRoot owns (fun g there => .inl ((live g).mp there))
    (fun g there _ => kept g there) count (root.type.trans owns.root) reserved
    (fun g there _ => used g there) (fun _ => ?_) (fun _ block member => ?_) fun _ => ?_, live⟩
  · rw [root.size]
    exact legal
  · rw [root.owned legal] at member
    obtain ⟨onDisk, behind, -⟩ := owns.blocks sRoot .root block member
    exact ⟨⟨onDisk, behind, used sRoot .root block member⟩, fun g there differ other =>
      differ (owns.apart g sRoot block there .root other member)⟩
  · rw [root.owned legal]
    exact owns.once sRoot .root

structure Disk.Loose (d : Disk) (block : Nat) : Prop where
  onDisk : d.OnDisk block
  behind : d.bitmapEnd ≤ block * pgSize
  used : d.blockIsFree block = false
  unowned : ∀ g, d.Live g → block ∉ d.owned g

theorem Disk.Loose.plain (loose : d.Loose block) : d.Plain block :=
  ⟨loose.behind, fun dir there _ inside => loose.unowned dir there (mem_owned inside)⟩

/-- The tree is the same, and so are the sizes and types of its files. -/
structure Disk.Similar (d d' : Disk) : Prop where
  live : ∀ g, d'.Live g ↔ d.Live g
  size : ∀ g, d.Live g → d'.fSize g = d.fSize g
  type : ∀ g, d.Live g → d'.fType g = d.fType g

theorem Disk.Similar.refl (d : Disk) : d.Similar d :=
  ⟨fun _ => Iff.rfl, fun _ _ => rfl, fun _ _ => rfl⟩

theorem Disk.Similar.trans {d'' : Disk} (first : d.Similar d') (second : d'.Similar d'') :
    d.Similar d'' where
  live g := (second.live g).trans (first.live g)
  size g there := (second.size g ((first.live g).mpr there)).trans (first.size g there)
  type g there := (second.type g ((first.live g).mpr there)).trans (first.type g there)

/-- `alloc_block` gives a block that no file has, and changes no file. -/
theorem Disk.Owns.allocBlock (owns : d.Owns) (ran : d.allocBlock = some (block, d')) :
    d'.Owns ∧ d.Similar d' ∧ (∀ g, d.Live g → d.KeepsFile d' g) ∧ d'.Loose block ∧
      d'.sNblocks = d.sNblocks ∧ ∀ addr, addr < bitmap ∨ d.bitmapEnd ≤ addr → d' addr = d addr := by
  obtain ⟨next, takes, frame⟩ := allocBlock_takes ran
  have kept : ∀ g, d.Live g → d.KeepsFile d' g := fun g there =>
    keepsFile_of fun addr inside => frame addr (by
      have off := (owns.meta_bitmap there inside).2
      omega)
  have names : ∀ g, d.Live g → d.fType g = ftypeDir → ∀ e, d.InDir g e → d' e = d e := by
    intro g there _ e member
    obtain ⟨block, inside, j, -, place⟩ := owns.entry there member
    have low := owns.low there (mem_owned inside)
    exact frame e (by omega)
  have used : ∀ other, d.blockIsFree other = false → d'.blockIsFree other = false := fun other busy => by
    rw [takes.free, busy, Bool.false_and]
  obtain ⟨inside, free⟩ := takes.were block List.mem_cons_self
  have ends := bitmapEnd_congr takes.sNblocks
  have reserved : d'.Reserved := fun other still => by
    rw [takes.free, Bool.and_eq_true] at still
    rw [ends]
    exact owns.reserved other still.1
  obtain ⟨owns', live⟩ := owns.keep kept names takes.sNblocks reserved
    fun g there other member => used other (owns.blocks g there other member).2.2
  have behind := owns.reserved block free
  refine ⟨owns', ⟨live, fun g there => (kept g there).size, fun g there => (kept g there).type⟩, kept,
    ⟨⟨?_, ?_⟩, ?_, ?_, fun g there member => ?_⟩, takes.sNblocks, frame⟩
  · rintro rfl
    have least := bitmapEnd_le d
    have first : bitmap = 8192 := rfl
    omega
  · rw [takes.sNblocks]
    exact inside
  · rw [ends]
    exact behind
  · rw [takes.free, decide_eq_false (not_not.mpr List.mem_cons_self), Bool.and_false]
  · have old := (live g).mp there
    rw [(kept g old).owned (owns.legal g old)] at member
    have busy := (owns.blocks g old block member).2.2
    rw [free] at busy
    cases busy

theorem Disk.Owns.slot (owns : d.Owns) (there : d.Live f) (slot : d.HasSlot f bno) :
    (∀ addr, d.slotAt f bno ≤ addr → addr < d.slotAt f bno + 4 → d.Within f addr) ∧
      (d.slotAt f bno + 4 ≤ bitmap ∨ d.bitmapEnd ≤ d.slotAt f bno) ∧
      (f + 136 ≤ d.slotAt f bno ∧ d.slotAt f bno + 4 ≤ f + 176 ∨
        d.slotAt f bno + 4 ≤ f ∨ f + 256 ≤ d.slotAt f bno) ∧
      ∀ other, d.HasSlot f other → other ≠ bno →
        d.slotAt f other + 4 ≤ d.slotAt f bno ∨ d.slotAt f bno + 4 ≤ d.slotAt f other := by
  have first : bitmap = 8192 := rfl
  have record (filled : d.fIndirect f ≠ 0) :=
    owns.record (owns.plain_indirect there filled) there.spot
  have mixed (other : Nat) (slot' : d.HasSlot f other) (differ : other ≠ bno) :
      d.slotAt f other + 4 ≤ d.slotAt f bno ∨ d.slotAt f bno + 4 ≤ d.slotAt f other := by
    rcases slotAt_place slot with ⟨low, place⟩ | ⟨low, high, filled, place⟩
    · rcases slotAt_place slot' with ⟨low', place'⟩ | ⟨low', high', filled', place'⟩
      · omega
      · have apart := record filled'
        omega
    · rcases slotAt_place slot' with ⟨low', place'⟩ | ⟨low', high', filled', place'⟩
      · have apart := record filled
        omega
      · omega
  rcases slotAt_place slot with ⟨low, place⟩ | ⟨low, high, filled, place⟩
  · refine ⟨fun addr begun ended => .inr (.inl (by omega)), ?_, by omega, mixed⟩
    rcases owns.place there.spot with rfl | ⟨-, -, -, block, -, behind, least, j, few, at'⟩
    · omega
    · omega
  · have mine := mem_owned_indirect filled
    have behind := owns.low there mine
    have apart := record filled
    exact ⟨fun addr begun ended => .inr (.inr ⟨_, there, mine, owns.plain_indirect there filled,
      by omega, by omega⟩), by omega, by omega, mixed⟩

theorem Disk.Owns.stored (owns : d.Owns) (there : d.Live f)
    (inside : ∀ k, addr ≤ k → k < addr + 4 → d.Within f k) (name : addr + 4 ≤ f ∨ f < addr)
    (off : addr + 4 ≤ bitmap ∨ d.bitmapEnd ≤ addr) :
    (∀ g, d.Live g → g ≠ f → d.KeepsFile (d.setWord addr value) g) ∧
      (∀ g, d.Live g → d.fType g = ftypeDir → ∀ e, d.InDir g e → d.setWord addr value e = d e) ∧
        sNblocks (d.setWord addr value) = d.sNblocks ∧
          ∀ block, blockIsFree (d.setWord addr value) block = d.blockIsFree block := by
  have frame : ∀ k, ¬d.Within f k → d.setWord addr value k = d k := fun k outside =>
    setWord_other (by
      by_contra here
      exact outside (inside k (by omega) (by omega)))
  obtain ⟨kept, names, count⟩ := owns.kept there.spot frame
  refine ⟨kept, fun g alive directory e member => ?_, count, fun block => ?_⟩
  · by_cases same : e = f
    · rw [same]
      exact setWord_other (by omega)
    · exact names g alive directory e member same
  · unfold Disk.blockIsFree
    rw [count]
    by_cases here : block < d.sNblocks
    · have word := bitmap_word here
      rw [word_setWord_other (by omega)]
    · rw [decide_eq_false here, Bool.false_and, Bool.false_and]

theorem owned_nodup : (d.owned f).Nodup ↔
    (∀ i < blocksFor (d.fSize f), ∀ j < blocksFor (d.fSize f), d.present f i = true →
      d.present f j = true → d.blockAt f i = d.blockAt f j → i = j) ∧
      (d.fIndirect f ≠ 0 → ∀ i < blocksFor (d.fSize f), d.present f i = true →
        d.blockAt f i ≠ (d.fIndirect f).toNat) := by
  have range := (List.nodup_range (n := blocksFor (d.fSize f))).filter (d.present f)
  have data : (d.dataBlocks f).Nodup ↔ ∀ i < blocksFor (d.fSize f), ∀ j < blocksFor (d.fSize f),
      d.present f i = true → d.present f j = true → d.blockAt f i = d.blockAt f j → i = j := by
    rw [Disk.dataBlocks, List.nodup_map_iff_inj_on range]
    simp only [List.mem_filter, List.mem_range, and_imp]
    exact ⟨fun all i low j low' here here' => all i low here j low' here',
      fun all i low here j low' here' => all i low j low' here here'⟩
  rw [Disk.owned, List.nodup_append, data]
  refine and_congr_right fun _ => ?_
  by_cases filled : d.fIndirect f = 0
  · rw [if_pos filled]
    simp [filled]
  · rw [if_neg filled]
    simp only [List.nodup_singleton, List.mem_singleton, true_and, filled, ne_eq, not_false_eq_true,
      forall_const, mem_dataBlocks]
    refine ⟨fun all i low here => all _ ⟨i, low, here, rfl⟩ _ rfl, ?_⟩
    rintro all a ⟨i, low, here, same⟩ b last
    rw [← same, last]
    exact all i low here

theorem Disk.SameBlocks.mem_owned {n : Nat} (same : d.SameBlocks d' f n)
    (few : blocksFor (d'.fSize f) ≤ n)
    (below : ∀ k < blocksFor (d'.fSize f), d.present f k = true → k < blocksFor (d.fSize f))
    (member : block ∈ d'.owned f) :
    (∃ k < blocksFor (d'.fSize f), k < blocksFor (d.fSize f) ∧ d.present f k = true ∧
      d.blockAt f k = block) ∨ d'.fIndirect f ≠ 0 ∧ block = (d'.fIndirect f).toNat := by
  rcases List.mem_append.mp member with member | member
  · obtain ⟨k, low, present, rfl⟩ := mem_dataBlocks.mp member
    rw [same.present k (by omega)] at present
    exact .inl ⟨k, low, below k low present, present, (same.blockAt k (by omega) present).symm⟩
  · refine .inr ?_
    by_cases filled : d'.fIndirect f = 0
    · rw [if_pos filled] at member
      cases member
    · rw [if_neg filled] at member
      exact ⟨filled, List.mem_singleton.mp member⟩

theorem Disk.SameBlocks.nodup {n : Nat} (same : d.SameBlocks d' f n)
    (few : blocksFor (d'.fSize f) ≤ n)
    (below : ∀ k < blocksFor (d'.fSize f), d.present f k = true → k < blocksFor (d.fSize f))
    (indirect : d'.fIndirect f ≠ 0 → d'.fIndirect f = d.fIndirect f) (once : (d.owned f).Nodup) :
    (d'.owned f).Nodup := by
  obtain ⟨data, last⟩ := owned_nodup.mp once
  rw [owned_nodup]
  refine ⟨fun i low k low' present present' equal => ?_, fun there i low present => ?_⟩
  · rw [same.present i (by omega)] at present
    rw [same.present k (by omega)] at present'
    rw [same.blockAt i (by omega) present, same.blockAt k (by omega) present'] at equal
    exact data i (below i low present) k (below k low' present') present present' equal
  · rw [same.present i (by omega)] at present
    have old := indirect there
    rw [old] at there
    rw [same.blockAt i (by omega) present, old]
    exact last there i (below i low present) present

theorem slotAt_congr (same : d'.fIndirect f = d.fIndirect f) : d'.slotAt f bno = d.slotAt f bno := by
  unfold Disk.slotAt
  rw [same]

/-- A slot of a file has been filled, and nothing else of it has changed. -/
structure Disk.Filled (d d' : Disk) (f bno block : Nat) : Prop where
  size : d'.fSize f = d.fSize f
  type : d'.fType f = d.fType f
  indirect : d'.fIndirect f = d.fIndirect f
  last : d'.present f bno = true ∧ d'.blockAt f bno = block
  other : ∀ k, k < nDirect + nIndirect → k ≠ bno → d'.present f k = d.present f k ∧
    (d.present f k = true → d'.blockAt f k = d.blockAt f k)

theorem Disk.Owns.filled (owns : d.Owns) (there : d.Live f) (slot : d.HasSlot f bno)
    (onDisk : d.OnDisk block) :
    d.Filled (d.setWord (d.slotAt f bno) (BitVec.ofNat 32 block)) f bno block := by
  obtain ⟨inside, off, place, mixed⟩ := owns.slot there slot
  have sizeAt : fSizeAt f = f + 128 := rfl
  have typeAt : fTypeAt f = f + 132 := rfl
  have indirectAt : fIndirectAt f = f + 176 := rfl
  have indirect : fIndirect (d.setWord (d.slotAt f bno) (BitVec.ofNat 32 block)) f = d.fIndirect f :=
    word_setWord_other (by omega)
  have slotAt (k : Nat) :
      slotAt (d.setWord (d.slotAt f bno) (BitVec.ofNat 32 block)) f k = d.slotAt f k :=
    slotAt_congr indirect
  have number := toNat_block onDisk.2
  refine ⟨word_setWord_other (by omega), word_setWord_other (by omega), indirect, ⟨?_, ?_⟩,
    fun k few differ => ?_⟩
  · rw [present_iff, slotAt, indirect, word_setWord]
    refine ⟨slot.2, fun zero => onDisk.1 ?_⟩
    rw [zero] at number
    exact number.symm
  · rw [Disk.blockAt, slotAt, word_setWord, number]
  · have words (reached : k < nDirect ∨ d.fIndirect f ≠ 0) :
        word (d.setWord (d.slotAt f bno) (BitVec.ofNat 32 block)) (d.slotAt f k) =
          d.word (d.slotAt f k) := word_setWord_other (mixed k ⟨few, reached⟩ differ)
    refine ⟨Bool.eq_iff_iff.mpr ?_, fun present => ?_⟩
    · rw [present_iff, present_iff, slotAt, indirect]
      exact and_congr_right fun reached => by rw [words reached]
    · rw [Disk.blockAt, slotAt, words (present_iff.mp present).1]
      rfl

theorem Disk.Owns.alter (owns : d.Owns) (there : d.Live f)
    (kept : ∀ g, d.Live g → g ≠ f → d.KeepsFile d' g)
    (names : ∀ g, d.Live g → d.fType g = ftypeDir → ∀ e, d.InDir g e → d' e = d e)
    (count : d'.sNblocks = d.sNblocks) (free : ∀ block, d'.blockIsFree block = d.blockIsFree block)
    (type : d'.fType f = d.fType f)
    (named : d.fType f = ftypeDir → ∀ e, d'.InDir f e ∧ d' e ≠ 0 ↔ d.InDir f e ∧ d e ≠ 0)
    (legal : (d'.fSize f).toNat ≤ maxFileSize)
    (mine : ∀ block ∈ d'.owned f, block ∈ d.owned f ∨ d.Loose block) (once : (d'.owned f).Nodup) :
    d'.Owns ∧ (∀ g, d'.Live g ↔ d.Live g) ∧ ∀ g, d.Live g → d'.fType g = d.fType g := by
  have live : ∀ g, d'.Live g ↔ d.Live g := fun g =>
    live_iff owns.legal there kept names type named
  have types (g : FilePtr) (alive : d.Live g) : d'.fType g = d.fType g := by
    by_cases same : g = f
    · rw [same, type]
    · exact (kept g alive same).type
  refine ⟨owns.change (fun g alive => .inl ((live g).mp alive)) kept count
    ((types sRoot .root).trans owns.root) (fun other still => ?_) (fun g alive _ other member => ?_)
    (fun _ => legal) (fun _ other member => ?_) fun _ => once, live, types⟩
  · rw [free] at still
    rw [bitmapEnd_congr count]
    exact owns.reserved other still
  · rw [free]
    exact (owns.blocks g alive other member).2.2
  · rw [free]
    rcases mine other member with member | loose
    · exact ⟨owns.blocks f there other member, fun g alive differ other' =>
        differ (owns.apart g f other alive there other' member)⟩
    · exact ⟨⟨loose.onDisk, loose.behind, loose.used⟩, fun g alive _ => loose.unowned g alive⟩

theorem Disk.Filled.mem_owned (filled : d.Filled d' f bno block)
    (legal : (d.fSize f).toNat ≤ maxFileSize) {other : Nat} (member : other ∈ d'.owned f) :
    other = block ∨ other ∈ d.owned f := by
  have few := (blocksOf_le legal).2
  rcases List.mem_append.mp member with member | member
  · obtain ⟨k, low, present, rfl⟩ := mem_dataBlocks.mp member
    rw [filled.size] at low
    by_cases same : k = bno
    · rw [same]
      exact .inl filled.last.2
    · obtain ⟨present', block'⟩ := filled.other k (by omega) same
      rw [present'] at present
      rw [block' present]
      exact .inr (Fs.mem_owned (mem_dataBlocks.mpr ⟨k, low, present, rfl⟩))
  · rw [filled.indirect] at member
    exact .inr (List.mem_append_right _ member)

theorem Disk.Filled.nodup (filled : d.Filled d' f bno block)
    (legal : (d.fSize f).toNat ≤ maxFileSize) (once : (d.owned f).Nodup)
    (new : block ∉ d.owned f) : (d'.owned f).Nodup := by
  have few := (blocksOf_le legal).2
  obtain ⟨data, last⟩ := owned_nodup.mp once
  have differs (k : Nat) (low : k < blocksFor (d.fSize f)) (present : d.present f k = true) :
      d.blockAt f k ≠ block :=
    fun same => new (same ▸ Fs.mem_owned (mem_dataBlocks.mpr ⟨k, low, present, rfl⟩))
  rw [owned_nodup, filled.size, filled.indirect]
  refine ⟨fun i low k low' present present' same => ?_, fun there i low present => ?_⟩
  · by_cases first : i = bno
    · by_cases second : k = bno
      · rw [first, second]
      · obtain ⟨was, block'⟩ := filled.other k (by omega) second
        rw [was] at present'
        rw [first, filled.last.2, block' present'] at same
        exact absurd same.symm (differs k low' present')
    · obtain ⟨was, block'⟩ := filled.other i (by omega) first
      rw [was] at present
      rw [block' present] at same
      by_cases second : k = bno
      · rw [second, filled.last.2] at same
        exact absurd same (differs i low present)
      · obtain ⟨was', block''⟩ := filled.other k (by omega) second
        rw [was'] at present'
        rw [block'' present'] at same
        exact data i low k low' present present' same
  · by_cases first : i = bno
    · rw [first, filled.last.2]
      exact fun same => new (same ▸ mem_owned_indirect there)
    · obtain ⟨was, block'⟩ := filled.other i (by omega) first
      rw [was] at present
      rw [block' present]
      exact last there i low present

theorem Disk.Filled.named (filled : d.Filled d' f bno block)
    (legal : (d.fSize f).toNat ≤ maxFileSize) (empty : d.present f bno = false)
    (names : ∀ e, d.InDir f e → d' e = d e)
    (clear : ∀ j < blkFiles, d' (fileAt (block * pgSize) j) = 0) (e : Nat) :
    d'.InDir f e ∧ d' e ≠ 0 ↔ d.InDir f e ∧ d e ≠ 0 := by
  have few := (blocksOf_le legal).2
  refine ⟨fun ⟨⟨k, low, present, j, small, at'⟩, used⟩ => ?_,
    fun ⟨member, used⟩ => ⟨?_, by rw [names e member]; exact used⟩⟩
  · rw [filled.size] at low
    by_cases same : k = bno
    · rw [same, filled.last.2] at at'
      rw [at', clear j small] at used
      exact absurd rfl used
    · obtain ⟨present', block'⟩ := filled.other k (by omega) same
      rw [present'] at present
      rw [block' present] at at'
      have member : d.InDir f e := ⟨k, low, present, j, small, at'⟩
      rw [names e member] at used
      exact ⟨member, used⟩
  · obtain ⟨k, low, present, j, small, at'⟩ := member
    have differ : k ≠ bno := by
      rintro rfl
      rw [empty] at present
      cases present
    obtain ⟨present', block'⟩ := filled.other k (by omega) differ
    exact ⟨k, by rw [filled.size]; exact low, by rw [present']; exact present, j, small, by
      rw [block' present]
      exact at'⟩

theorem Disk.Owns.fillSlot (owns : d.Owns) (there : d.Live f) (slot : d.HasSlot f bno)
    (empty : d.present f bno = false) (loose : d.Loose block)
    (clear : d.fType f = ftypeDir → ∀ j < blkFiles, d (fileAt (block * pgSize) j) = 0) :
    Owns (d.setWord (d.slotAt f bno) (BitVec.ofNat 32 block)) ∧
      d.Similar (d.setWord (d.slotAt f bno) (BitVec.ofNat 32 block)) := by
  obtain ⟨inside, off, place, -⟩ := owns.slot there slot
  have filled := owns.filled there slot loose.onDisk
  obtain ⟨kept, names, count, free⟩ :=
    @Disk.Owns.stored d f _ (BitVec.ofNat 32 block) owns there inside (by omega) off
  have legal := owns.legal f there
  have record := owns.record loose.plain there.spot
  have entry (j : Nat) (small : j < blkFiles) :
      d.setWord (d.slotAt f bno) (BitVec.ofNat 32 block) (fileAt (block * pgSize) j) =
        d (fileAt (block * pgSize) j) := by
    have sixteen : blkFiles = 16 := rfl
    change d.setWord _ _ (block * 4096 + 256 * j) = d (block * 4096 + 256 * j)
    refine setWord_other ?_
    rcases slotAt_place slot with ⟨low, place'⟩ | ⟨low, high, there', place'⟩
    · omega
    · have differ : block ≠ (d.fIndirect f).toNat := fun same =>
        loose.unowned f there (same ▸ mem_owned_indirect there')
      omega
  obtain ⟨owns', live, types⟩ := owns.alter there kept names count free filled.type
    (fun directory => filled.named legal empty (names f there directory) fun j small => by
      rw [entry j small, clear directory j small])
    (by rw [filled.size]; exact legal)
    (fun other member => (filled.mem_owned legal member).symm.imp_right fun same => by
      rw [same]
      exact loose)
    (filled.nodup legal (owns.once f there) (loose.unowned f there))
  refine ⟨owns', live, fun g alive => ?_, types⟩
  by_cases same : g = f
  · rw [same, filled.size]
  · exact (kept g alive same).size

theorem Disk.Owns.fillIndirect (owns : d.Owns) (there : d.Live f) (absent : d.fIndirect f = 0)
    (loose : d.Loose block) (zeros : ∀ k < 1024, d.word (block * 4096 + 4 * k) = 0) :
    Owns (d.setWord (fIndirectAt f) (BitVec.ofNat 32 block)) ∧
      d.Similar (d.setWord (fIndirectAt f) (BitVec.ofNat 32 block)) ∧
      (fIndirect (d.setWord (fIndirectAt f) (BitVec.ofNat 32 block)) f).toNat = block ∧
      ∀ k < nDirect + nIndirect,
        present (d.setWord (fIndirectAt f) (BitVec.ofNat 32 block)) f k = d.present f k := by
  have sizeAt : fSizeAt f = f + 128 := rfl
  have typeAt : fTypeAt f = f + 132 := rfl
  have indirectAt : fIndirectAt f = f + 176 := rfl
  have ten : nDirect = 10 := rfl
  have count' : nDirect + nIndirect = 1034 := rfl
  have first : bitmap = 8192 := rfl
  have off : fIndirectAt f + 4 ≤ bitmap ∨ d.bitmapEnd ≤ fIndirectAt f := by
    rcases owns.place there.spot with rfl | ⟨-, -, -, block, -, behind, least, j, few, at'⟩
    · omega
    · omega
  obtain ⟨kept, names, count, free⟩ := @Disk.Owns.stored d f _ (BitVec.ofNat 32 block) owns there
    (fun k low high => .inr (.inl (by omega))) (.inr (by omega)) off
  have record := owns.record loose.plain there.spot
  have legal := owns.legal f there
  have size : fSize (d.setWord (fIndirectAt f) (BitVec.ofNat 32 block)) f = d.fSize f :=
    word_setWord_other (by omega)
  have type : fType (d.setWord (fIndirectAt f) (BitVec.ofNat 32 block)) f = d.fType f :=
    word_setWord_other (by omega)
  have number := toNat_block loose.onDisk.2
  have indirect : fIndirect (d.setWord (fIndirectAt f) (BitVec.ofNat 32 block)) f =
      BitVec.ofNat 32 block := word_setWord
  have there' : BitVec.ofNat 32 block ≠ 0 := fun zero => loose.onDisk.1 (by
    rw [zero] at number
    exact number.symm)
  have blocks (k : Nat) (few : k < nDirect + nIndirect) :
      present (d.setWord (fIndirectAt f) (BitVec.ofNat 32 block)) f k = d.present f k ∧
        (d.present f k = true →
          blockAt (d.setWord (fIndirectAt f) (BitVec.ofNat 32 block)) f k = d.blockAt f k) := by
    by_cases direct : k < nDirect
    · have place : fDirectAt f k = f + 136 + 4 * k := rfl
      have same : word (d.setWord (fIndirectAt f) (BitVec.ofNat 32 block)) (fDirectAt f k) =
          d.word (fDirectAt f k) := word_setWord_other (by omega)
      unfold Disk.present Disk.blockAt Disk.slotAt
      simp only [direct, if_true, decide_true, Bool.true_or, Bool.true_and, same, implies_true,
        and_self]
    · have none : d.present f k = false := by
        rw [← Bool.not_eq_true, present_iff]
        exact fun filled => filled.1.elim direct fun other => other absent
      have zero : word (d.setWord (fIndirectAt f) (BitVec.ofNat 32 block))
          (block * 4096 + 4 * (k - nDirect)) = 0 := by
        rw [word_setWord_other (by omega)]
        exact zeros (k - nDirect) (by omega)
      refine ⟨?_, fun present => absurd present (by rw [none]; exact Bool.false_ne_true)⟩
      rw [none, ← Bool.not_eq_true, present_iff, Disk.slotAt, if_neg direct, indirect, number]
      exact fun filled => filled.2 zero
  generalize d.setWord (fIndirectAt f) (BitVec.ofNat 32 block) = d' at *
  have same : d.SameBlocks d' f (nDirect + nIndirect) :=
    ⟨fun k few => (blocks k few).1, fun k few => (blocks k few).2⟩
  have few := (blocksOf_le legal).2
  have owned : d'.owned f = d.owned f ++ [block] := by
    rw [Disk.owned, same.dataBlocks size few.2, indirect, if_neg there', number, Disk.owned,
      if_pos absent, List.append_nil]
  obtain ⟨owns', live, types⟩ := owns.alter there kept names count free type
    (fun directory e => by
      rw [same.inDir size (by omega)]
      exact and_congr_right fun member => by rw [names f there directory e member])
    (by rw [size]; exact legal)
    (fun other member => by
      rw [owned, List.mem_append, List.mem_singleton] at member
      exact member.imp_right fun same => by rw [same]; exact loose)
    (by
      rw [owned]
      refine (owns.once f there).append (List.nodup_singleton block) fun other member last => ?_
      rw [List.mem_singleton.mp last] at member
      exact loose.unowned f there member)
  refine ⟨owns', ⟨live, fun g alive => ?_, types⟩, ?_, fun k few => (blocks k few).1⟩
  · by_cases same : g = f
    · rw [same, size]
    · exact (kept g alive same).size
  · rw [indirect, number]

theorem Disk.Owns.growSize (owns : d.Owns) (there : d.Live f) {size : BitVec 32}
    (legal : size.toNat ≤ maxFileSize) (longer : (d.fSize f).toNat ≤ size.toNat)
    (empty : ∀ k, blocksFor (d.fSize f) ≤ k → k < blocksFor size → d.present f k = false)
    (whole : d.fType f = ftypeDir → blocksFor (d.fSize f) ≤ blocksOf (d.fSize f)) :
    Owns (d.setWord (fSizeAt f) size) ∧
      (∀ g, Live (d.setWord (fSizeAt f) size) g ↔ d.Live g) ∧
      (∀ g, d.Live g → fType (d.setWord (fSizeAt f) size) g = d.fType g) ∧
      (∀ g, d.Live g → g ≠ f → fSize (d.setWord (fSizeAt f) size) g = d.fSize g) ∧
      ∀ k, d.HasSlot f k → present (d.setWord (fSizeAt f) size) f k = d.present f k := by
  have sizeAt : fSizeAt f = f + 128 := rfl
  have typeAt : fTypeAt f = f + 132 := rfl
  have indirectAt : fIndirectAt f = f + 176 := rfl
  have first : bitmap = 8192 := rfl
  have off : fSizeAt f + 4 ≤ bitmap ∨ d.bitmapEnd ≤ fSizeAt f := by
    rcases owns.place there.spot with rfl | ⟨-, -, -, block, -, behind, least, j, few, at'⟩
    · omega
    · omega
  obtain ⟨kept, names, count, free⟩ := @Disk.Owns.stored d f _ size owns there
    (fun k low high => .inr (.inl (by omega))) (.inr (by omega)) off
  have old := owns.legal f there
  have few := blocksOf_le old
  have few' := blocksOf_le legal
  have size' : fSize (d.setWord (fSizeAt f) size) f = size := word_setWord
  have type : fType (d.setWord (fSizeAt f) size) f = d.fType f := word_setWord_other (by omega)
  have indirect : fIndirect (d.setWord (fSizeAt f) size) f = d.fIndirect f :=
    word_setWord_other (by omega)
  have words (k : Nat) (slot : d.HasSlot f k) :
      word (d.setWord (fSizeAt f) size) (d.slotAt f k) = d.word (d.slotAt f k) := by
    have place := (owns.slot there slot).2.2.1
    exact word_setWord_other (by omega)
  have same : d.SameBlocks (d.setWord (fSizeAt f) size) f (nDirect + nIndirect) := by
    refine ⟨fun k few => Bool.eq_iff_iff.mpr ?_, fun k few filled => ?_⟩
    · rw [present_iff, present_iff, slotAt_congr indirect, indirect]
      exact and_congr_right fun reached => by rw [words k ⟨few, reached⟩]
    · rw [Disk.blockAt, slotAt_congr indirect, words k ⟨few, (present_iff.mp filled).1⟩]
      rfl
  have below (k : Nat) (low : k < blocksFor size) (filled : d.present f k = true) :
      k < blocksFor (d.fSize f) := by
    by_contra high
    rw [empty k (by omega) low] at filled
    cases filled
  generalize d.setWord (fSizeAt f) size = d' at *
  rw [← size'] at below few'
  obtain ⟨owns', live, types⟩ := owns.alter there kept names count free type
    (fun directory e => by
      have inDir : d'.InDir f e ↔ d.InDir f e := by
        have whole := whole directory
        constructor <;> rintro ⟨k, low, present, j, small, at'⟩
        · rw [same.present k (by omega)] at present
          rw [same.blockAt k (by omega) present] at at'
          have inside := below k (by omega) present
          exact ⟨k, by omega, present, j, small, at'⟩
        · refine ⟨k, ?_, by rw [same.present k (by omega)]; exact present, j, small, by
            rw [same.blockAt k (by omega) present]
            exact at'⟩
          rw [few'.1, size']
          rw [few.1] at low
          omega
      rw [inDir]
      exact and_congr_right fun member => by rw [names f there directory e member])
    (by rw [size']; exact legal)
    (fun other member => .inl (by
      rcases same.mem_owned few'.2.2 below member with ⟨k, -, low, present, rfl⟩ | ⟨filled, rfl⟩
      · exact mem_owned (mem_dataBlocks.mpr ⟨k, low, present, rfl⟩)
      · rw [indirect] at filled ⊢
        exact mem_owned_indirect filled))
    (same.nodup few'.2.2 below (fun _ => indirect) (owns.once f there))
  exact ⟨owns', live, types, fun g alive differ => (kept g alive differ).size,
    fun k slot => same.present k slot.1⟩

/-- Bytes stored to a data block of a file that is no directory change no file's metadata. -/
theorem Disk.Owns.storeData (owns : d.Owns) (there : d.Live f) (regular : d.fType f ≠ ftypeDir)
    (inside : block ∈ d.dataBlocks f)
    (frame : ∀ addr, addr < block * 4096 ∨ block * 4096 + 4096 ≤ addr → d' addr = d addr) :
    d'.Owns ∧ d.Similar d' ∧ ∀ g, d.Live g → d.KeepsFile d' g := by
  have mine := mem_owned inside
  have plain := owns.plain there mine fun directory => absurd directory regular
  have least := bitmapEnd_le d
  have behind := plain.1
  have kept (g : FilePtr) (alive : d.Live g) : d.KeepsFile d' g := by
    have record := owns.record plain alive.spot
    refine keepsFile_of fun addr here => frame addr ?_
    rcases here with here | ⟨filled, here⟩
    · omega
    · have differ : block ≠ (d.fIndirect g).toNat := by
        rintro rfl
        have same := owns.apart g f _ alive there (mem_owned_indirect filled) mine
        subst same
        have once := owns.once g alive
        rw [Disk.owned, if_neg filled] at once
        exact (List.nodup_append.mp once).2.2 _ inside _ List.mem_cons_self rfl
      omega
  have low : ∀ addr, addr < d.bitmapEnd → d' addr = d addr := fun addr low => frame addr (by omega)
  have free := blockIsFree_congr low
  have count := sNblocks_congr fun addr before => low addr (Nat.lt_of_lt_of_le before least)
  obtain ⟨owns', live⟩ := owns.keep kept
    (fun g alive directory e member => by
      obtain ⟨other, inside', j, few, place⟩ := owns.entry alive member
      have differ : other ≠ block := fun same => plain.2 g alive directory (same ▸ inside')
      exact frame e (by omega))
    count
    (fun other still => by
      rw [free] at still
      rw [bitmapEnd_congr count]
      exact owns.reserved other still)
    fun g alive other member => by
      rw [free]
      exact (owns.blocks g alive other member).2.2
  exact ⟨owns', ⟨live, fun g alive => (kept g alive).size, fun g alive => (kept g alive).type⟩, kept⟩

end Store

def Disk.Zeros (d : Disk) (block : Nat) : Prop := ∀ k < pgSize, d (block * pgSize + k) = 0

/-- The blocks that `file_get_block` takes for indirect slots or for a directory hold zeros. -/
structure Disk.Clear (d : Disk) (f : FilePtr) (bno : Nat) : Prop where
  indirect : nDirect ≤ bno → d.fIndirect f = 0 → ∀ block, d.nextFree [] = some block → d.Zeros block
  entries : d.fType f = ftypeDir → d.present f bno = false → ∀ block,
    (if bno < nDirect ∨ d.fIndirect f ≠ 0 then d.nextFree []
      else (d.nextFree []).bind fun first => d.nextFree [first]) = some block → d.Zeros block

section Get

variable {d d' : Disk} {f block bno blk : Nat}

theorem Disk.Zeros.words (zeros : d.Zeros block) (few : bno < 1024) :
    d.word (block * 4096 + 4 * bno) = 0 := by
  have page := pgSize_eq
  refine word_zero fun k low high => ?_
  have zero := zeros (k - block * 4096) (by omega)
  have here : block * 4096 + (k - block * 4096) = k := by omega
  rw [page, here] at zero
  exact zero

theorem Disk.Zeros.entries (zeros : d.Zeros block) {j : Nat} (few : j < blkFiles) :
    d (fileAt (block * pgSize) j) = 0 := by
  have sixteen : blkFiles = 16 := rfl
  have length : fileSize = 256 := rfl
  have page := pgSize_eq
  have zero := zeros (256 * j) (by omega)
  rw [fileAt, length]
  exact zero

/-- What a block holds stays while neither the bitmap nor the record of a file is in it. -/
theorem Disk.Zeros.congr (zeros : d.Zeros block) {d' : Disk} {f : Nat}
    (behind : d.bitmapEnd ≤ block * 4096) (apart : f + 256 ≤ block * 4096 ∨ block * 4096 + 4096 ≤ f)
    (same : ∀ addr, addr < bitmap ∨ d.bitmapEnd ≤ addr → addr < f ∨ f + 256 ≤ addr → d' addr = d addr) :
    d'.Zeros block := by
  intro k small
  have page := pgSize_eq
  have zero := zeros k small
  rw [page] at zero ⊢
  have high : d.bitmapEnd ≤ block * 4096 + k := Nat.le_add_right_of_le behind
  have off : block * 4096 + k < f ∨ f + 256 ≤ block * 4096 + k := by omega
  rw [same _ (.inr high) off]
  exact zero

theorem Disk.Owns.takeIndirect (owns : d.Owns) (there : d.Live f) (absent : d.fIndirect f = 0)
    {middle : Disk} (ran : d.allocBlock = some (block, middle)) (zeros : d.Zeros block)
    (after : d' = middle.setWord (fIndirectAt f) (BitVec.ofNat 32 block)) :
    d'.Owns ∧ d.Similar d' ∧ (d'.fIndirect f).toNat = block ∧ d.Takes d' [block] ∧
      (∀ k < nDirect + nIndirect, d'.present f k = d.present f k) ∧
      ∀ addr, addr < bitmap ∨ d.bitmapEnd ≤ addr → addr < f ∨ f + 256 ≤ addr → d' addr = d addr := by
  obtain ⟨owns', similar, kept, loose, count, frame⟩ := owns.allocBlock ran
  obtain ⟨-, takes, -⟩ := allocBlock_takes ran
  have there' := (similar.live f).mpr there
  have keeps := kept f there
  have indirectAt : fIndirectAt f = f + 176 := rfl
  have first : bitmap = 8192 := rfl
  have second : super = 4096 := rfl
  have ends := bitmapEnd_congr count
  have record := owns'.record loose.plain there'.spot
  have zeros' : middle.Zeros block := zeros.congr (ends ▸ loose.behind) record
    fun addr outside _ => frame addr outside
  obtain ⟨filled, similar', indirect, present⟩ := owns'.fillIndirect there'
    (keeps.indirect.trans absent) loose fun k few => zeros'.words few
  have place : super + 8 ≤ fIndirectAt f ∧
      (fIndirectAt f + 4 ≤ bitmap ∨ middle.bitmapEnd ≤ fIndirectAt f) := by
    rcases owns'.place there'.spot with rfl | ⟨-, -, -, other, -, behind, least, j, few, at'⟩
    · omega
    · omega
  have both := takes.trans (@setWord_takes middle _ (BitVec.ofNat 32 block) place.1 place.2)
  rw [List.append_nil] at both
  subst after
  refine ⟨filled, similar.trans similar', indirect, both,
    fun k few => (present k few).trans (keeps.present few), fun addr outside off => ?_⟩
  rw [setWord_other (by omega), frame addr outside]

theorem fileGetBlock_filled {slot : Nat} {middle : Disk}
    (walked : fileBlockWalk f bno true d = done slot middle) (filled : middle.word slot ≠ 0)
    (ran : fileGetBlock f bno d = done blk d') : blk = (middle.word slot).toNat * pgSize := by
  have inside := (fileBlockWalk_slot walked).1
  rw [Disk.fileGetBlock, if_neg (not_le.mpr inside), walked] at ran
  change (if middle.word slot ≠ 0 then (middle.diskaddr (middle.word slot).toNat).bind fun blk =>
    done blk middle else _) = _ at ran
  rw [if_pos filled] at ran
  obtain ⟨blk', place, ran⟩ := Option.bind_eq_some_iff.mp ran
  cases ran
  exact diskaddr_eq place

/-- The slot that `file_block_walk` comes to. -/
theorem Disk.Owns.walked (owns : d.Owns) (there : d.Live f) {middle : Disk} {slot : Nat}
    (clear : d.Clear f bno) (ran : fileBlockWalk f bno true d = done slot middle) :
    middle.Owns ∧ d.Similar middle ∧ middle.HasSlot f bno ∧ slot = middle.slotAt f bno ∧
      middle.present f bno = d.present f bno ∧ middle.sNblocks = d.sNblocks ∧
      (middle.nextFree [] = if bno < nDirect ∨ d.fIndirect f ≠ 0 then d.nextFree []
        else (d.nextFree []).bind fun first => d.nextFree [first]) ∧
      ∀ addr, addr < bitmap ∨ d.bitmapEnd ≤ addr → addr < f ∨ f + 256 ≤ addr →
        middle addr = d addr := by
  obtain ⟨inside, ⟨reached, rfl, rfl⟩ | ⟨far, absent, first, after, taken, same, rfl⟩⟩ :=
    fileBlockWalk_slot ran
  · exact ⟨owns, .refl middle, ⟨inside, reached⟩, rfl, rfl, rfl, (if_pos reached).symm,
      fun _ _ _ => rfl⟩
  · have next := (allocBlock_takes taken).1
    obtain ⟨owns', similar, indirect, takes, present, frame⟩ :=
      owns.takeIndirect there absent taken (clear.indirect far absent first next) same
    have filled : middle.fIndirect f ≠ 0 := fun zero => by
      have behind := owns.reserved first (takes.were first List.mem_cons_self).2
      have least := bitmapEnd_le d
      have start : bitmap = 8192 := rfl
      rw [zero] at indirect
      rw [← indirect] at behind
      change d.bitmapEnd ≤ 0 * 4096 at behind
      omega
    have unreached : ¬(bno < nDirect ∨ d.fIndirect f ≠ 0) :=
      fun other => other.elim (not_lt.mpr far) fun filled => filled absent
    refine ⟨owns', similar, ⟨inside, .inr filled⟩, ?_, present bno inside, takes.sNblocks, ?_, frame⟩
    · rw [Disk.slotAt, if_neg (not_lt.mpr far), indirect]
    · rw [if_neg unreached, takes.nextFree, next, Option.bind_some]

/-- `file_get_block` keeps the tree and the owners of the blocks. -/
theorem Disk.Owns.fileGetBlock (owns : d.Owns) (there : d.Live f)
    (low : bno < blocksFor (d.fSize f)) (clear : d.Clear f bno) {r : Except Int Nat}
    (ran : fileGetBlock f bno d = some (r, d')) :
    d'.Owns ∧ d.Similar d' ∧
      ∀ blk, r = .ok blk → ∃ block ∈ d'.dataBlocks f, blk = block * pgSize := by
  cases r with
  | error r =>
    refine (fileGetBlock_failed ran).elim (fun ⟨same, _⟩ => ?_) fun ⟨grows, grown⟩ => ?_
    · rw [same]
      exact ⟨owns, .refl d, nofun⟩
    · obtain ⟨first, middle, taken, same⟩ := grown
      have zeros := clear.indirect grows.2.2.1 grows.2.2.2.1 first (allocBlock_takes taken).1
      obtain ⟨owns', similar, -⟩ := owns.takeIndirect there grows.2.2.2.1 taken zeros same
      exact ⟨owns', similar, nofun⟩
  | ok blk =>
    obtain ⟨slot, middle, walk, result⟩ := fileGetBlock_done ran
    obtain ⟨owns₁, similar, reached, rfl, present, count, next, frame⟩ := owns.walked there clear walk
    have there₁ := (similar.live f).mpr there
    rcases result with ⟨filled, rfl⟩ | ⟨hole, block, after, taken, rfl, rfl⟩
    · refine ⟨owns₁, similar, fun blk' same => ?_⟩
      cases same
      refine ⟨d'.blockAt f bno, mem_dataBlocks.mpr ⟨bno, ?_, present_iff.mpr ⟨reached.2, filled⟩, rfl⟩,
        fileGetBlock_filled walk filled ran⟩
      rw [similar.size f there]
      exact low
    · obtain ⟨owns₂, similar₂, kept, loose, count₂, frame₂⟩ := owns₁.allocBlock taken
      have there₂ := (similar₂.live f).mpr there₁
      have keeps := kept f there₁
      have empty : middle.present f bno = false := by
        rw [← Bool.not_eq_true, present_iff]
        exact fun filled => filled.2 hole
      have slot : after.HasSlot f bno := ⟨reached.1, by rw [keeps.indirect]; exact reached.2⟩
      have ends := bitmapEnd_congr count
      have ends₂ := bitmapEnd_congr count₂
      have record := owns₂.record loose.plain there₂.spot
      have stored := owns₂.fillSlot there₂ slot ((keeps.present reached.1).trans empty) loose
        fun directory j few => by
          have regular : d.fType f = ftypeDir := by
            rw [← similar.type f there, ← keeps.type]
            exact directory
          rw [present] at empty
          have zeros := clear.entries regular empty block (next ▸ (allocBlock_takes taken).1)
          have behind := loose.behind
          rw [ends₂, ends, pgSize_eq] at behind
          refine (zeros.congr behind record fun addr outside off => ?_).entries few
          rw [frame₂ addr (by rw [ends]; exact outside), frame addr outside off]
      rw [keeps.slotAt] at stored
      refine ⟨stored.1, similar.trans (similar₂.trans stored.2), fun blk' same => ?_⟩
      cases same
      have filled := owns₂.filled there₂ slot loose.onDisk
      rw [keeps.slotAt] at filled
      refine ⟨block, mem_dataBlocks.mpr ⟨bno, ?_, filled.last.1, filled.last.2⟩, rfl⟩
      rw [filled.size, keeps.size, similar.size f there]
      exact low

end Get

end Fs

end Jos
