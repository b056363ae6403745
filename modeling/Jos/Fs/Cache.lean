import Mathlib.Order.Basic
import Jos.Inc.Mmu
import Jos.Foundation.Run

/-! The block cache of fs/bc.c: the part of the file server's memory that maps the
disk, the flags in its page table, and the disk behind it. -/

set_option autoImplicit false

namespace Jos

open Foundation Function

def pteD : BitVec 12 := 0x040#12

namespace Fs

def blkSize : Nat := pgSize
def sectSize : Nat := 512
def blkSects : Nat := blkSize / sectSize
def blkBitSize : Nat := blkSize * 8
def diskMap : Nat := 0x10000000
def diskSize : Nat := 0xC0000000

/-- The pages from `DISKMAP` on, by block number: the flags of a page that is mapped, its
bytes, and the bytes of the disk. `written` lists the sectors that `ide_write` began at. -/
structure Cache where
  uvpt : Nat → Option (BitVec 12)
  page : Nat → Nat → BitVec 8
  disk : Nat → BitVec 8
  written : List Nat

/-- What the kernel and the disk answer to the calls for a block, and what an allocated
page holds before it is written. -/
structure Io where
  pageAlloc : Nat → Int
  ideRead : Nat → Int
  ideWrite : Nat → Int
  fresh : Nat → Nat → BitVec 8

def lba (secno : Nat) : Nat := secno % 2 ^ 28

/-- `ide_read`, whose sectors go to one page from `dst` on. -/
def ideRead (disk : Nat → BitVec 8) (secno : Nat) : Nat → Nat → (Nat → BitVec 8) → Nat → BitVec 8
  | 0, _, page => page
  | nsecs + 1, dst, page =>
    ideRead disk (secno + 1) nsecs (dst + sectSize) fun off =>
      if dst ≤ off ∧ off < dst + sectSize then disk (lba secno * sectSize + (off - dst))
      else page off

/-- `ide_write`, from one page from `src` on. -/
def ideWrite (page : Nat → BitVec 8) (secno : Nat) : Nat → Nat → (Nat → BitVec 8) → Nat → BitVec 8
  | 0, _, disk => disk
  | nsecs + 1, src, disk =>
    ideWrite page (secno + 1) nsecs (src + sectSize) fun pos =>
      if lba secno * sectSize ≤ pos ∧ pos < (lba secno + 1) * sectSize then
        page (src + (pos - lba secno * sectSize))
      else disk pos

/-- `sys_page_map` of a page onto itself, on the flags of its entry: `page_insert` finds the
page in its place already and writes the entry anew. -/
def pageMapSelf (entry perm : BitVec 12) : Option (BitVec 12) :=
  if perm &&& pteU = 0 ∨ perm &&& pteP = 0 ∨ perm &&& ~~~pteSyscall ≠ 0 then none
  else if entry &&& pteW = 0 ∧ perm &&& pteW ≠ 0 then none
  else some (perm ||| pteP)

namespace Cache

def dirty (entry : BitVec 12) : Bool := entry &&& pteD ≠ 0

def vaIsMapped (c : Cache) (blockno : Nat) : Bool := (c.uvpt blockno).isSome

def vaIsDirty (c : Cache) (blockno : Nat) : Bool := (c.uvpt blockno).any dirty

/-- A little-endian 32-bit word in a page. -/
def word (page : Nat → BitVec 8) (off : Nat) : BitVec 32 :=
  page (off + 3) ++ page (off + 2) ++ page (off + 1) ++ page off

/-- `super->s_nblocks`, when the superblock is in memory. -/
def sNblocks (c : Cache) : Nat := (word (c.page 1) 4).toNat

/-- `diskaddr`, to the block; it panics when there is no such block. -/
def diskaddr (c : Cache) (blockno : Nat) : Option Nat :=
  if blockno = 0 ∨ c.sNblocks ≤ blockno then none else some blockno

def bitmapBlock (blockno : Nat) : Nat := 2 + blockno / blkBitSize

/-- `block_is_free`, when that block of the bitmap is in memory. -/
def blockIsFree (c : Cache) (blockno : Nat) : Bool :=
  decide (blockno < c.sNblocks) &&
    (word (c.page (bitmapBlock blockno)) (blockno / 32 * 4 % blkSize)).getLsbD (blockno % 32)

/-- An access for which the flags of a mapped page are enough does not fault. -/
def access (fault : Nat → Cache → Option Cache) (needs : BitVec 12) (blockno : Nat) (c : Cache) :
    Option Cache :=
  if (c.uvpt blockno).any fun entry => entry &&& needs = needs then some c else fault blockno c

def needsRead : BitVec 12 := pteP ||| pteU
def needsWrite : BitVec 12 := pteP ||| pteU ||| pteW

/-- The page of a block after `sys_page_alloc` and `ide_read`: the disk driver has written
it. -/
def readIn (io : Io) (blockno : Nat) (c : Cache) : Cache :=
  { c with
    uvpt := update c.uvpt blockno (some ((pteSyscall ||| pteP) ||| pteD))
    page := update c.page blockno
      (ideRead c.disk (blockno * blkSects) blkSects 0 (io.fresh blockno)) }

/-- `sys_page_map(0, addr, 0, addr, perm)` -/
def remap (blockno : Nat) (perm : BitVec 12) (c : Cache) : Option Cache :=
  (c.uvpt blockno).bind fun entry => (pageMapSelf entry perm).map fun entry =>
    { c with uvpt := update c.uvpt blockno (some entry) }

/-- `bc_pgfault`, once `super` and `bitmap` are set. What it reads there may fault in turn;
`none` is a panic. -/
def bcPgfault (io : Io) : Nat → Nat → Cache → Option Cache
  | 0, _, _ => none
  | depth + 1, blockno, c =>
    if diskSize / blkSize ≤ blockno then none
    else
      (access (bcPgfault io depth) needsRead 1 c).bind fun c =>
        if c.sNblocks ≤ blockno then none
        else if io.pageAlloc blockno ≠ 0 then none
        else if io.ideRead blockno ≠ 0 then none
        else
          let c := readIn io blockno c
          (remap blockno (((c.uvpt blockno).getD 0) &&& pteSyscall) c).bind fun c =>
            (access (bcPgfault io depth) needsRead (bitmapBlock blockno) c).bind fun c =>
              if c.blockIsFree blockno then none else some c

/-- A fault on a block can fault on a block of the bitmap, and that one on the first. -/
def faultDepth : Nat := 4

def load (io : Io) (blockno off : Nat) (c : Cache) : Option (BitVec 8 × Cache) :=
  (access (bcPgfault io faultDepth) needsRead blockno c).map fun c => (c.page blockno off, c)

def store (io : Io) (blockno off : Nat) (byte : BitVec 8) (c : Cache) : Option Cache :=
  (access (bcPgfault io faultDepth) needsWrite blockno c).map fun c =>
    { c with
      uvpt := update c.uvpt blockno ((c.uvpt blockno).map (· ||| pteD))
      page := update c.page blockno (update (c.page blockno) off byte) }

def flushBlock (io : Io) (blockno : Nat) (c : Cache) : Option Cache :=
  if diskSize / blkSize ≤ blockno then none
  else if c.vaIsMapped blockno = false ∨ c.vaIsDirty blockno = false then some c
  else if io.ideWrite blockno ≠ 0 then none
  else
    remap blockno pteSyscall
      { c with
        disk := ideWrite (c.page blockno) (blockno * blkSects) blkSects 0 c.disk
        written := c.written ++ [blockno * blkSects] }

/-- The loop of `fs_sync`, which reads the number of blocks in every round. -/
def fsSyncFrom (io : Io) : Nat → Nat → Cache → Option Cache
  | 0, _, _ => none
  | left + 1, i, c =>
    (access (bcPgfault io faultDepth) needsRead 1 c).bind fun c =>
      if i < c.sNblocks then
        (c.diskaddr i).bind fun blockno =>
          (c.flushBlock io blockno).bind fun c => fsSyncFrom io left (i + 1) c
      else some c

/-- `fs_sync`; `flush_block` panics before the loop has used up its rounds. -/
def fsSync (io : Io) (c : Cache) : Option Cache := fsSyncFrom io (diskSize / blkSize + 1) 1 c

end Cache

inductive CacheEvent where
  | load (io : Io) (blockno : Nat) (off : Fin 4096)
  | store (io : Io) (blockno : Nat) (off : Fin 4096) (byte : BitVec 8)
  | flush (io : Io) (blockno : Nat)
  | sync (io : Io)

def cacheStep (c : Cache) : CacheEvent → Option Cache
  | .load io blockno off => (c.load io blockno off).map Prod.snd
  | .store io blockno off byte => c.store io blockno off byte
  | .flush io blockno => c.flushBlock io blockno
  | .sync io => c.fsSync io

/-! What the disk driver moves. -/

section Driver

variable {memory disk : Nat → BitVec 8} {secno nsecs start : Nat}

theorem lba_small (small : secno + 1 ≤ 2 ^ 28) : lba secno = secno :=
  Nat.mod_eq_of_lt small

theorem ideRead_apply (small : secno + nsecs ≤ 2 ^ 28) (off : Nat) :
    ideRead disk secno nsecs start memory off =
      if start ≤ off ∧ off < start + nsecs * 512 then disk (secno * 512 + (off - start))
      else memory off := by
  induction nsecs generalizing secno start memory with
  | zero =>
    rw [if_neg (by omega)]
    rfl
  | succ nsecs ih =>
    have sect : sectSize = 512 := rfl
    rw [ideRead, ih (by omega), lba_small (by omega), sect]
    by_cases later : start + 512 ≤ off ∧ off < start + 512 + nsecs * 512
    · have place : (secno + 1) * 512 + (off - (start + 512)) = secno * 512 + (off - start) := by
        omega
      rw [if_pos later, if_pos (by omega), place]
    · rw [if_neg later]
      by_cases first : start ≤ off ∧ off < start + 512
      · rw [if_pos first, if_pos (by omega)]
      · rw [if_neg first, if_neg (by omega)]

theorem ideWrite_apply (small : secno + nsecs ≤ 2 ^ 28) (pos : Nat) :
    ideWrite memory secno nsecs start disk pos =
      if secno * sectSize ≤ pos ∧ pos < (secno + nsecs) * sectSize then
        memory (start + (pos - secno * sectSize))
      else disk pos := by
  induction nsecs generalizing secno start disk with
  | zero =>
    rw [Nat.add_zero, if_neg (by omega)]
    rfl
  | succ nsecs ih =>
    obtain ⟨low, begins⟩ : ∃ low, low = secno * sectSize := ⟨_, rfl⟩
    obtain ⟨count, counts⟩ : ∃ count, count = nsecs * sectSize := ⟨_, rfl⟩
    have next : (secno + 1) * sectSize = low + sectSize := by
      rw [Nat.add_mul, begins, Nat.one_mul]
    have last : (secno + 1 + nsecs) * sectSize = low + sectSize + count := by
      rw [Nat.add_mul, Nat.add_mul, begins, counts, Nat.one_mul]
    have ends : (secno + (nsecs + 1)) * sectSize = low + (count + sectSize) := by
      rw [Nat.add_mul, Nat.add_mul, begins, counts, Nat.one_mul]
    rw [ideWrite, ih (by omega), lba_small (by omega), last, ends, next, ← begins]
    by_cases later : low + sectSize ≤ pos ∧ pos < low + sectSize + count
    · have place : start + sectSize + (pos - (low + sectSize)) = start + (pos - low) := by omega
      rw [if_pos later, if_pos (by omega), place]
    · rw [if_neg later]
      by_cases first : low ≤ pos ∧ pos < low + sectSize
      · rw [if_pos first, if_pos (by omega)]
      · rw [if_neg first, if_neg (by omega)]

theorem ideRead_block {blockno off : Nat} (inside : blockno < diskSize / blkSize)
    (here : off < blkSize) :
    ideRead disk (blockno * blkSects) blkSects 0 memory off = disk (blockno * blkSize + off) := by
  have size : blockno < 786432 := inside
  have here : off < 4096 := here
  have sectors : blkSects = 8 := rfl
  rw [sectors, ideRead_apply (by omega), if_pos (by omega)]
  have place : blockno * 8 * 512 + (off - 0) = blockno * 4096 + off := by omega
  rw [place]
  rfl

theorem ideWrite_block {blockno other off : Nat} (inside : blockno < diskSize / blkSize)
    (here : off < blkSize) :
    ideWrite memory (blockno * blkSects) blkSects 0 disk (other * blkSize + off) =
      if other = blockno then memory off else disk (other * blkSize + off) := by
  have size : blockno < 786432 := inside
  have here : off < 4096 := here
  have sectors : blkSects = 8 := rfl
  have block : blkSize = 4096 := rfl
  have sect : sectSize = 512 := rfl
  rw [sectors, ideWrite_apply (by omega), block, sect]
  by_cases same : other = blockno
  · rw [if_pos same, if_pos (by omega), same]
    congr 1
    omega
  · rw [if_neg same, if_neg (by omega)]

end Driver

namespace Cache

def content (c : Cache) (blockno off : Nat) : BitVec 8 :=
  if c.vaIsMapped blockno then c.page blockno off else c.disk (blockno * blkSize + off)

def Clean (c : Cache) (blockno : Nat) : Prop := c.vaIsDirty blockno = false

/-- A mapped page can be written, and unless it is dirty it is what the disk has. The
superblock stays in memory. -/
structure Coherent (c : Cache) : Prop where
  super : c.vaIsMapped 1 = true
  flags : ∀ blockno entry, c.uvpt blockno = some entry →
    blockno < diskSize / blkSize ∧ entry &&& pteSyscall = pteSyscall
  clean : ∀ blockno, c.vaIsMapped blockno = true → c.Clean blockno →
    ∀ off < blkSize, c.page blockno off = c.disk (blockno * blkSize + off)

/-- The blocks that are not in memory may come in, and nothing else changes. -/
structure Loads (c after : Cache) : Prop where
  disk : after.disk = c.disk
  written : after.written = c.written
  kept : ∀ blockno, c.vaIsMapped blockno = true →
    after.uvpt blockno = c.uvpt blockno ∧ after.page blockno = c.page blockno
  fresh : ∀ blockno, c.uvpt blockno = none → after.uvpt blockno = none ∨
    blockno < diskSize / blkSize ∧ after.uvpt blockno = some pteSyscall ∧
      ∀ off < blkSize, after.page blockno off = c.disk (blockno * blkSize + off)

theorem Loads.refl (c : Cache) : Loads c c := ⟨rfl, rfl, fun _ _ => ⟨rfl, rfl⟩, fun _ => .inl⟩

theorem vaIsMapped_iff {c : Cache} {blockno : Nat} :
    c.vaIsMapped blockno = true ↔ ∃ entry, c.uvpt blockno = some entry :=
  Option.isSome_iff_exists

theorem vaIsMapped_false {c : Cache} {blockno : Nat} :
    c.vaIsMapped blockno = false ↔ c.uvpt blockno = none := by
  simp [vaIsMapped]

theorem Loads.mapped {c after : Cache} (loads : Loads c after) {blockno : Nat}
    (mapped : c.vaIsMapped blockno = true) : after.vaIsMapped blockno = true := by
  rw [vaIsMapped, (loads.kept blockno mapped).1]
  exact mapped

theorem Loads.trans {c middle after : Cache} (first : Loads c middle)
    (second : Loads middle after) : Loads c after := by
  refine ⟨second.disk.trans first.disk, second.written.trans first.written, ?_, ?_⟩
  · intro blockno mapped
    obtain ⟨flags, page⟩ := first.kept blockno mapped
    obtain ⟨flags', page'⟩ := second.kept blockno (first.mapped mapped)
    exact ⟨flags'.trans flags, page'.trans page⟩
  · intro blockno unmapped
    rcases first.fresh blockno unmapped with still | ⟨inside, entry, page⟩
    · have later := second.fresh blockno still
      rwa [first.disk] at later
    · obtain ⟨flags', page'⟩ := second.kept blockno (vaIsMapped_iff.mpr ⟨_, entry⟩)
      exact .inr ⟨inside, flags'.trans entry, fun off here => by rw [page', page off here]⟩

theorem Loads.content {c after : Cache} (loads : Loads c after) (blockno : Nat) {off : Nat}
    (here : off < blkSize) : after.content blockno off = c.content blockno off := by
  unfold Cache.content
  cases mapped : c.vaIsMapped blockno with
  | true => simp [loads.mapped mapped, (loads.kept blockno mapped).2]
  | false =>
    rcases loads.fresh blockno (vaIsMapped_false.mp mapped) with still | ⟨-, entry, page⟩
    · simp [vaIsMapped_false.mpr still, loads.disk]
    · simp [vaIsMapped_iff.mpr ⟨_, entry⟩, page off here]

theorem Coherent.loads {c after : Cache} (coherent : Coherent c) (loads : Loads c after) :
    Coherent after := by
  refine ⟨loads.mapped coherent.super, ?_, ?_⟩
  · intro blockno entry there
    cases mapped : c.vaIsMapped blockno with
    | true =>
      rw [(loads.kept blockno mapped).1] at there
      exact coherent.flags blockno entry there
    | false =>
      rcases loads.fresh blockno (vaIsMapped_false.mp mapped) with still | ⟨inside, new, -⟩
      · rw [still] at there
        cases there
      · rw [new] at there
        cases there
        exact ⟨inside, by decide⟩
  · intro blockno now clean off here
    cases mapped : c.vaIsMapped blockno with
    | true =>
      obtain ⟨flags, page⟩ := loads.kept blockno mapped
      rw [page, loads.disk]
      refine coherent.clean blockno mapped ?_ off here
      rw [Clean, vaIsDirty, ← flags]
      exact clean
    | false =>
      rcases loads.fresh blockno (vaIsMapped_false.mp mapped) with still | ⟨-, -, page⟩
      · rw [vaIsMapped_false.mpr still] at now
        cases now
      · rw [page off here, loads.disk]

section Steps

variable {io : Io} {c after : Cache} {blockno off : Nat}

theorem enough {entry needs : BitVec 12} (flags : entry &&& pteSyscall = pteSyscall)
    (part : pteSyscall &&& needs = needs) : entry &&& needs = needs := by
  rw [← part, ← BitVec.and_assoc, flags]

theorem Coherent.access {fault : Nat → Cache → Option Cache} {needs : BitVec 12}
    (coherent : Coherent c) (part : pteSyscall &&& needs = needs)
    (mapped : c.vaIsMapped blockno = true) : access fault needs blockno c = some c := by
  obtain ⟨entry, there⟩ := vaIsMapped_iff.mp mapped
  rw [Cache.access, there, Option.any_some, if_pos]
  exact decide_eq_true (enough (coherent.flags blockno entry there).2 part)

theorem remap_eq {perm : BitVec 12} (ran : c.remap blockno perm = some after) :
    ∃ entry next, c.uvpt blockno = some entry ∧ pageMapSelf entry perm = some next ∧
      after = { c with uvpt := update c.uvpt blockno (some next) } := by
  obtain ⟨entry, there, mapped⟩ := Option.bind_eq_some_iff.mp ran
  obtain ⟨next, allowed, rfl⟩ := Option.map_eq_some_iff.mp mapped
  exact ⟨entry, next, there, allowed, rfl⟩

theorem pageMapSelf_syscall {entry next : BitVec 12}
    (allowed : pageMapSelf entry pteSyscall = some next) : next = pteSyscall := by
  unfold pageMapSelf at allowed
  split at allowed
  · cases allowed
  · split at allowed
    · cases allowed
    · cases allowed
      decide

theorem readIn_loads (unmapped : c.uvpt blockno = none) (inside : blockno < diskSize / blkSize)
    (ran : (readIn io blockno c).remap blockno
      ((((readIn io blockno c).uvpt blockno).getD 0) &&& pteSyscall) = some after) :
    Loads c after ∧ after.vaIsMapped blockno = true := by
  obtain ⟨entry, next, there, allowed, rfl⟩ := remap_eq ran
  have same : ((readIn io blockno c).uvpt blockno).getD 0 &&& pteSyscall = pteSyscall := by
    simp only [readIn, update_self]
    decide
  rw [same] at allowed
  have next := pageMapSelf_syscall allowed
  subst next
  refine ⟨⟨rfl, rfl, ?_, ?_⟩, by simp [vaIsMapped]⟩
  · intro other mapped
    have different : other ≠ blockno := by
      rintro rfl
      rw [vaIsMapped_false.mpr unmapped] at mapped
      cases mapped
    simp [readIn, update_of_ne different]
  · intro other absent
    by_cases equal : other = blockno
    · subst equal
      refine .inr ⟨inside, by simp, fun off here => ?_⟩
      simp [readIn, ideRead_block inside here]
    · exact .inl (by simpa [readIn, update_of_ne equal] using absent)

theorem bcPgfault_loads {depth : Nat} (coherent : Coherent c) (unmapped : c.uvpt blockno = none)
    (ran : bcPgfault io depth blockno c = some after) :
    Loads c after ∧ after.vaIsMapped blockno = true := by
  induction depth generalizing blockno c with
  | zero => cases ran
  | succ depth ih =>
    rw [bcPgfault] at ran
    split at ran
    case isTrue => cases ran
    case isFalse inside =>
      rw [coherent.access (by decide) coherent.super, Option.bind_some] at ran
      split at ran
      case isTrue => cases ran
      case isFalse =>
        split at ran
        case isTrue => cases ran
        case isFalse =>
          split at ran
          case isTrue => cases ran
          case isFalse =>
            obtain ⟨middle, mapped, rest⟩ := Option.bind_eq_some_iff.mp ran
            obtain ⟨loads, here⟩ := readIn_loads unmapped (Nat.lt_of_not_le inside) mapped
            have still := coherent.loads loads
            obtain ⟨final, accessed, checked⟩ := Option.bind_eq_some_iff.mp rest
            split at checked
            case isTrue => cases checked
            case isFalse =>
              cases checked
              cases known : middle.vaIsMapped (bitmapBlock blockno) with
              | true =>
                rw [still.access (by decide) known] at accessed
                cases accessed
                exact ⟨loads, here⟩
              | false =>
                have absent := vaIsMapped_false.mp known
                rw [Cache.access, absent] at accessed
                have more := (ih still absent accessed).1
                exact ⟨loads.trans more, more.mapped here⟩

theorem Coherent.accessed {needs : BitVec 12} {depth : Nat} (coherent : Coherent c)
    (part : pteSyscall &&& needs = needs)
    (ran : Cache.access (bcPgfault io depth) needs blockno c = some after) :
    Loads c after ∧ after.vaIsMapped blockno = true := by
  cases known : c.vaIsMapped blockno with
  | true =>
    rw [coherent.access part known] at ran
    cases ran
    exact ⟨.refl c, known⟩
  | false =>
    have absent := vaIsMapped_false.mp known
    rw [Cache.access, absent] at ran
    exact bcPgfault_loads coherent absent ran

theorem Coherent.load {byte : BitVec 8} (coherent : Coherent c)
    (ran : c.load io blockno off = some (byte, after)) :
    Loads c after ∧ (off < blkSize → byte = c.content blockno off) := by
  obtain ⟨middle, accessed, result⟩ := Option.map_eq_some_iff.mp ran
  obtain ⟨loads, mapped⟩ := coherent.accessed (by decide) accessed
  cases result
  refine ⟨loads, fun here => ?_⟩
  rw [← loads.content blockno here]
  simp [content, mapped]

theorem syscall_or_dirty {entry : BitVec 12} (flags : entry &&& pteSyscall = pteSyscall) :
    (entry ||| pteD) &&& pteSyscall = pteSyscall := by
  have none : pteD &&& pteSyscall = 0#12 := by decide
  rw [BitVec.and_comm, BitVec.and_or_distrib_left, BitVec.and_comm _ entry,
    BitVec.and_comm _ pteD, flags, none, BitVec.or_zero]

theorem dirty_or (entry : BitVec 12) : dirty (entry ||| pteD) = true := by
  have some : pteD ≠ 0#12 := by decide
  have absorbed : (entry ||| pteD) &&& pteD = pteD := by
    rw [BitVec.and_comm, BitVec.or_comm]
    ext i
    simp only [BitVec.getElem_and, BitVec.getElem_or, Bool.and_or_distrib_left, Bool.and_self]
    cases pteD[i] <;> rfl
  simp [dirty, absorbed, some]

theorem Coherent.store {byte : BitVec 8} (coherent : Coherent c)
    (ran : c.store io blockno off byte = some after) :
    Coherent after ∧ after.vaIsDirty blockno = true ∧
      ∀ other pos, pos < blkSize → after.content other pos =
        update c.content blockno (update (c.content blockno) off byte) other pos := by
  obtain ⟨middle, accessed, rfl⟩ := Option.map_eq_some_iff.mp ran
  obtain ⟨loads, mapped⟩ := coherent.accessed (by decide) accessed
  have loaded := coherent.loads loads
  obtain ⟨entry, there⟩ := vaIsMapped_iff.mp mapped
  refine ⟨⟨?_, ?_, ?_⟩, by simp [vaIsDirty, there, dirty_or], ?_⟩
  · have super := loaded.super
    by_cases equal : 1 = blockno
    · subst equal
      simp [vaIsMapped, there]
    · simpa [vaIsMapped, update_of_ne equal] using super
  · intro other flags found
    by_cases equal : other = blockno
    · subst equal
      obtain ⟨inside, bits⟩ := loaded.flags other entry there
      simp only [update_self, there, Option.map_some, Option.some.injEq] at found
      exact ⟨inside, found ▸ syscall_or_dirty bits⟩
    · simp only [update_of_ne equal] at found
      exact loaded.flags other flags found
  · intro other now clean pos here
    by_cases equal : other = blockno
    · subst equal
      simp [Clean, vaIsDirty, there, dirty_or] at clean
    · simp only [update_of_ne equal]
      simp only [vaIsMapped, Clean, vaIsDirty, update_of_ne equal] at now clean
      exact loaded.clean other now clean pos here
  · intro other pos here
    have same := loads.content other here
    by_cases equal : other = blockno
    · subst equal
      have page : middle.content other pos = middle.page other pos := by simp [content, mapped]
      rw [page] at same
      simp only [content, vaIsMapped, there, update_self, Option.map_some, Option.isSome_some,
        if_true, update_apply]
      split
      · rfl
      · exact same
    · rw [update_of_ne equal, ← same]
      simp only [content, vaIsMapped, update_of_ne equal]
      rfl

/-- What `flush_block` does: it writes the block if it is mapped and dirty. -/
structure Flushes (c after : Cache) (blockno : Nat) : Prop where
  coherent : Coherent after
  content : ∀ other pos, pos < blkSize → after.content other pos = c.content other pos
  page : after.page = c.page
  written : after.written =
    if c.vaIsMapped blockno = true ∧ c.vaIsDirty blockno = true then
      c.written ++ [blockno * blkSects]
    else c.written
  clean : after.Clean blockno
  others : ∀ other, c.Clean other → after.Clean other

theorem Coherent.flushBlock (coherent : Coherent c)
    (ran : c.flushBlock io blockno = some after) : Flushes c after blockno := by
  unfold Cache.flushBlock at ran
  split at ran
  case isTrue => cases ran
  case isFalse inside =>
    have inside := Nat.lt_of_not_le inside
    split at ran
    case isTrue idle =>
      cases ran
      have clean : c.Clean blockno := by
        rcases idle with unmapped | clean
        · simp [Clean, vaIsDirty, vaIsMapped_false.mp unmapped]
        · exact clean
      refine ⟨coherent, fun _ _ _ => rfl, rfl, ?_, clean, fun _ => id⟩
      rw [if_neg]
      rintro ⟨-, dirty⟩
      rw [clean] at dirty
      cases dirty
    case isFalse busy =>
      split at ran
      case isTrue => cases ran
      case isFalse =>
        obtain ⟨entry, next, there, allowed, rfl⟩ := remap_eq ran
        have there : c.uvpt blockno = some entry := there
        have next := pageMapSelf_syscall allowed
        subst next
        have clean : dirty pteSyscall = false := by decide
        have known : ∀ other, (update c.uvpt blockno (some pteSyscall) other).isSome =
            (c.uvpt other).isSome := by
          intro other
          by_cases equal : other = blockno
          · subst equal
            simp [there]
          · rw [update_of_ne equal]
        have others : ∀ other, c.Clean other →
            (update c.uvpt blockno (some pteSyscall) other).any dirty = false := by
          intro other was
          by_cases equal : other = blockno
          · subst equal
            simpa using clean
          · rw [update_of_ne equal]
            exact was
        refine ⟨⟨?_, ?_, ?_⟩, ?_, rfl, ?_, ?_, others⟩
        · exact (known 1).trans coherent.super
        · intro other flags found
          by_cases equal : other = blockno
          · subst equal
            simp only [update_self, Option.some.injEq] at found
            exact ⟨inside, found ▸ (by decide)⟩
          · simp only [update_of_ne equal] at found
            exact coherent.flags other flags found
        · intro other now was pos here
          simp only [ideWrite_block inside here]
          split
          · case isTrue equal => rw [equal]
          · case isFalse equal =>
              simp only [vaIsMapped, Clean, vaIsDirty, update_of_ne equal] at now was
              exact coherent.clean other now was pos here
        · intro other pos here
          simp only [Cache.content, vaIsMapped, known, ideWrite_block inside here]
          by_cases equal : other = blockno
          · simp [equal, there]
          · simp only [if_neg equal]
            rfl
        · rw [if_pos]
          simpa only [not_or, Bool.not_eq_false] using busy
        · simpa [Clean, vaIsDirty] using clean

/-- `fs_sync` flushes the blocks that its loop comes to. -/
theorem Coherent.fsSyncFrom {left i : Nat} (coherent : Coherent c)
    (ran : fsSyncFrom io left i c = some after)
    (done : ∀ blockno, 1 ≤ blockno → blockno < i → c.Clean blockno) :
    Coherent after ∧ (∀ other pos, pos < blkSize → after.content other pos = c.content other pos) ∧
      ∀ blockno, 1 ≤ blockno → blockno < after.sNblocks → after.Clean blockno := by
  induction left generalizing i c with
  | zero => cases ran
  | succ left ih =>
    rw [Cache.fsSyncFrom, coherent.access (by decide) coherent.super, Option.bind_some] at ran
    split at ran
    case isTrue more =>
      obtain ⟨block, address, ran⟩ := Option.bind_eq_some_iff.mp ran
      have same : i = block := by
        unfold diskaddr at address
        split at address
        · cases address
        · exact Option.some.inj address
      subst same
      obtain ⟨next, flushed, rest⟩ := Option.bind_eq_some_iff.mp ran
      have flushes := coherent.flushBlock flushed
      have before : ∀ blockno, 1 ≤ blockno → blockno < i + 1 → next.Clean blockno := by
        intro blockno low high
        by_cases last : blockno = i
        · exact last ▸ flushes.clean
        · exact flushes.others blockno (done blockno low (by omega))
      obtain ⟨final, content, clean⟩ := ih flushes.coherent rest before
      refine ⟨final, fun other pos here => ?_, clean⟩
      rw [content other pos here, flushes.content other pos here]
    case isFalse ends =>
      cases ran
      exact ⟨coherent, fun _ _ _ => rfl, fun blockno low high => done blockno low (by omega)⟩

end Steps

theorem Coherent.disk_eq {c : Cache} {blockno off : Nat} (coherent : Coherent c)
    (clean : c.Clean blockno) (here : off < blkSize) :
    c.disk (blockno * blkSize + off) = c.content blockno off := by
  unfold content
  split
  case isTrue mapped => exact (coherent.clean blockno mapped clean off here).symm
  case isFalse => rfl

end Cache

open Cache

/-- The block cache as `fs_init` leaves it: the superblock is in memory, and the pages are
as the disk has them. -/
structure Started (c : Cache) : Prop where
  super : c.vaIsMapped 1 = true
  loaded : ∀ blockno entry, c.uvpt blockno = some entry →
    blockno < diskSize / blkSize ∧ entry = pteSyscall ∧
      ∀ off < blkSize, c.page blockno off = c.disk (blockno * blkSize + off)

theorem Started.coherent {c : Cache} (started : Started c) : Coherent c where
  super := started.super
  flags := by
    intro blockno entry there
    obtain ⟨inside, rfl, -⟩ := started.loaded blockno entry there
    exact ⟨inside, by decide⟩
  clean := by
    intro blockno mapped _ off here
    obtain ⟨entry, there⟩ := vaIsMapped_iff.mp mapped
    exact (started.loaded blockno entry there).2.2 off here

/-- The contents of the blocks after an event, when they are a mere array of bytes. -/
def CacheEvent.effect (bytes : Nat → Nat → BitVec 8) : CacheEvent → Nat → Nat → BitVec 8
  | .store _ blockno off byte => update bytes blockno (update (bytes blockno) off byte)
  | _ => bytes

def lastStored (bytes : Nat → Nat → BitVec 8) (events : List CacheEvent) :
    Nat → Nat → BitVec 8 := events.foldl CacheEvent.effect bytes

theorem cacheStep_content {c after : Cache} {event : CacheEvent} (coherent : Coherent c)
    (ran : cacheStep c event = some after) :
    Coherent after ∧ ∀ blockno off, off < blkSize →
      after.content blockno off = event.effect c.content blockno off := by
  cases event with
  | load io blockno off =>
    obtain ⟨⟨byte, final⟩, loaded, rfl⟩ := Option.map_eq_some_iff.mp ran
    have loads := (coherent.load loaded).1
    exact ⟨coherent.loads loads, fun other pos here => loads.content other here⟩
  | store io blockno off byte =>
    obtain ⟨stays, -, content⟩ := coherent.store ran
    exact ⟨stays, content⟩
  | flush io blockno =>
    have flushes := coherent.flushBlock ran
    exact ⟨flushes.coherent, flushes.content⟩
  | sync io =>
    obtain ⟨stays, content, -⟩ := coherent.fsSyncFrom ran (by omega)
    exact ⟨stays, content⟩

/-- After any use of the cache it is coherent, and holds what was last stored. -/
theorem cache_runs {start c : Cache} {events : List CacheEvent} (started : Started start)
    (ran : run cacheStep start events = some c) :
    Coherent c ∧ ∀ blockno off, off < blkSize →
      c.content blockno off = lastStored start.content events blockno off := by
  have holds : ∀ events final, Along cacheStep (fun _ _ => True) start events final →
      Coherent final ∧ ∀ blockno off, off < blkSize →
        final.content blockno off = lastStored start.content events blockno off := by
    intro events final along
    induction along with
    | nil => exact ⟨started.coherent, fun _ _ _ => rfl⟩
    | @snoc events middle final event _ _ stepped ih =>
      obtain ⟨coherent, content⟩ := ih
      obtain ⟨stays, changed⟩ := cacheStep_content coherent stepped
      refine ⟨stays, fun blockno off here => ?_⟩
      rw [changed blockno off here, lastStored, List.foldl_append]
      cases event with
      | store io block pos byte =>
        by_cases equal : blockno = block
        · subst equal
          simp only [CacheEvent.effect, List.foldl_cons, List.foldl_nil, update_self]
          by_cases place : off = pos.val
          · simp [place]
          · rw [update_of_ne place, update_of_ne place]
            exact content blockno off here
        · simp only [CacheEvent.effect, List.foldl_cons, List.foldl_nil, update_of_ne equal]
          exact content blockno off here
      | load io block pos => exact content blockno off here
      | flush io block => exact content blockno off here
      | sync io => exact content blockno off here
  exact holds events c (.of_run ran)

/-- A clean page is what the disk has, no block loses what was stored to it, `flush_block`
writes the dirty blocks and no others, and after `fs_sync` the disk is up to date. -/
theorem cache_coherent {start c : Cache} {events : List CacheEvent} (started : Started start)
    (ran : run cacheStep start events = some c) :
    (∀ blockno, c.vaIsMapped blockno = true → c.vaIsDirty blockno = false → ∀ off < blkSize,
      c.page blockno off = c.disk (blockno * blkSize + off)) ∧
    (∀ blockno, c.vaIsMapped blockno = true → ∀ off < blkSize,
      c.page blockno off = lastStored start.content events blockno off) ∧
    (∀ io blockno off byte after, off < blkSize → c.load io blockno off = some (byte, after) →
      byte = lastStored start.content events blockno off) ∧
    (∀ io blockno after, c.flushBlock io blockno = some after →
      (after.written =
        if c.vaIsMapped blockno = true ∧ c.vaIsDirty blockno = true then
          c.written ++ [blockno * blkSects]
        else c.written) ∧
      after.vaIsDirty blockno = false ∧ ∀ off < blkSize,
        after.disk (blockno * blkSize + off) = lastStored start.content events blockno off) ∧
    ∀ io after, c.fsSync io = some after → ∀ blockno, 1 ≤ blockno → blockno < after.sNblocks →
      ∀ off < blkSize,
        after.disk (blockno * blkSize + off) = lastStored start.content events blockno off := by
  obtain ⟨coherent, content⟩ := cache_runs started ran
  refine ⟨coherent.clean, ?_, ?_, ?_, ?_⟩
  · intro blockno mapped off here
    rw [← content blockno off here, Cache.content, if_pos mapped]
  · intro io blockno off byte after here loaded
    rw [← content blockno off here]
    exact (coherent.load loaded).2 here
  · intro io blockno after flushed
    have flushes := coherent.flushBlock flushed
    refine ⟨flushes.written, flushes.clean, fun off here => ?_⟩
    rw [flushes.coherent.disk_eq flushes.clean here, flushes.content blockno off here,
      content blockno off here]
  · intro io after synced blockno low high off here
    obtain ⟨stays, same, clean⟩ := coherent.fsSyncFrom synced (by omega)
    rw [stays.disk_eq (clean blockno low high) here, same blockno off here,
      content blockno off here]

def ioOk : Io := ⟨fun _ => 0, fun _ => 0, fun _ => 0, fun _ _ => 0xff⟩

/-- A disk of four blocks, all in use, with the superblock and the bitmap in memory. -/
def fourBlocks : Cache where
  uvpt blockno := if blockno = 1 ∨ blockno = 2 then some pteSyscall else none
  page blockno off := if blockno = 1 ∧ off = 4 then 4 else 0
  disk pos := if pos = 4096 + 4 then 4 else 0
  written := []

theorem fourBlocks_started : Started fourBlocks := by
  refine ⟨rfl, ?_⟩
  intro blockno entry there
  have block : blkSize = 4096 := rfl
  simp only [fourBlocks] at there
  split at there
  · rename_i known
    cases there
    refine ⟨?_, rfl, fun off here => ?_⟩
    · have size : diskSize / blkSize = 786432 := rfl
      omega
    · rw [block] at here ⊢
      simp only [fourBlocks]
      congr 1
      apply propext
      omega
  · cases there

/-- A byte of the last block is changed, which `fs_sync` then writes. -/
def changeLast : List CacheEvent := [.store ioOk 3 5 7]

def changed : Cache := (run cacheStep fourBlocks changeLast).getD fourBlocks

theorem changeLast_runs : run cacheStep fourBlocks changeLast = some changed := rfl

theorem cache_coherent_changed :
    changed.vaIsDirty 3 = true ∧ changed.disk (3 * blkSize + 5) = 0 ∧
      ∃ after, changed.fsSync ioOk = some after ∧ after.disk (3 * blkSize + 5) = 7 := by
  have syncs : (changed.fsSync ioOk).isSome = true := by decide
  obtain ⟨after, synced⟩ := Option.isSome_iff_exists.mp syncs
  have blocks : ((changed.fsSync ioOk).any fun c => c.sNblocks = 4) = true := by decide
  rw [synced] at blocks
  have four : after.sNblocks = 4 := by simpa using blocks
  refine ⟨by decide, by decide, after, synced, ?_⟩
  have stored := (cache_coherent fourBlocks_started changeLast_runs).2.2.2.2 ioOk after synced 3
    (by decide) (by omega) 5 (by decide)
  rw [stored]
  decide

end Fs

end Jos
