import Jos.Fs.Tree

/-! What a call that fails leaves behind. -/

set_option autoImplicit false

namespace Jos

open Foundation Function

namespace Fs

open Disk

def Disk.present (d : Disk) (f : FilePtr) (bno : Nat) : Bool :=
  (decide (bno < nDirect) || decide (d.fIndirect f ≠ 0)) && decide (d.word (d.slotAt f bno) ≠ 0)

def Disk.byteAt (d : Disk) (f : FilePtr) (k : Nat) : BitVec 8 :=
  if d.present f (k / pgSize) then d.contents f k else 0

/-- The names, the sizes and contents of the files, and the bitmap are the same. -/
structure Disk.Same (d after : Disk) : Prop where
  free : ∀ blockno, after.blockIsFree blockno = d.blockIsFree blockno
  tree : ∀ path f, after.InTree path f ↔ d.InTree path f
  size : ∀ path f, d.InTree path f → after.fSize f = d.fSize f
  bytes : ∀ path f, d.InTree path f → ∀ k < (d.fSize f).toNat, after.byteAt f k = d.byteAt f k

theorem Disk.Same.refl (d : Disk) : d.Same d :=
  ⟨fun _ => rfl, fun _ _ => Iff.rfl, fun _ _ _ => rfl, fun _ _ _ _ _ => rfl⟩

section Alloc

variable {d after : Disk} {f : FilePtr} {block bno : Nat}

theorem allocBlock_eq (ran : d.allocBlock = some (block, after)) :
    block < d.sNblocks ∧ d.blockIsFree block = true ∧
      after = d.setWord (bitmap + 4 * (block / 32))
        (d.word (bitmap + 4 * (block / 32)) &&& ~~~(1#32 <<< (block % 32))) := by
  obtain ⟨found, search, equal⟩ := Option.map_eq_some_iff.mp ran
  cases equal
  have free := List.find?_some search
  have inside := List.mem_range.mp (List.mem_of_find?_eq_some search)
  rw [Bool.and_eq_true] at free
  exact ⟨inside, free.2, rfl⟩

theorem diskaddr_eq {blk : Nat} (place : d.diskaddr block = some blk) : blk = block * pgSize := by
  unfold Disk.diskaddr at place
  split at place
  · cases place
  · exact (Option.some.inj place).symm

theorem cleared_bit (word : BitVec 32) {bit : Nat} (inside : bit < 32) :
    (word &&& ~~~(1#32 <<< bit)).getLsbD bit = false := by
  simp [inside]

theorem bitmap_word (inside : block < d.sNblocks) :
    bitmap + 4 * (block / 32) + 4 ≤ d.bitmapEnd := by
  have start : bitmap = 8192 := rfl
  unfold Disk.bitmapEnd
  rw [start, pgSize_eq]
  omega

theorem bitmapEnd_le (d : Disk) : bitmap ≤ d.bitmapEnd := Nat.le_add_right _ _

/-- Above `f_name`, the fields of a file are behind the number of blocks. -/
theorem Disk.Placed.above (placed : d.Placed f) {field : Nat} (low : f + 128 ≤ field) :
    super + 8 ≤ field := by
  have start := bitmapEnd_le d
  have first : bitmap = 8192 := rfl
  have second : super = 4096 := rfl
  have low : 128 ≤ field - f := Nat.le_sub_of_add_le' low
  rcases placed with rfl | behind
  · have root : (4104 : Nat) = sRoot := rfl
    rw [← root] at low
    omega
  · omega

theorem Disk.Placed.apart (placed : d.Placed f) {field : Nat} (low : f + 128 ≤ field)
    (high : field + 4 ≤ f + fileSize) (inside : block < d.sNblocks) :
    field + 4 ≤ bitmap + 4 * (block / 32) ∨ bitmap + 4 * (block / 32) + 4 ≤ field := by
  have word := bitmap_word inside
  have first : bitmap = 8192 := rfl
  have third : fileSize = 256 := rfl
  have low : 128 ≤ field - f := Nat.le_sub_of_add_le' low
  rcases placed with rfl | behind
  · have root : (4104 : Nat) = sRoot := rfl
    rw [← root] at low high
    omega
  · omega

/-- Only the indirect block of a file can be allocated by a call of `file_get_block` that
then fails, and it is when there is a free block for it. -/
def Disk.Grows (d : Disk) (f : FilePtr) (bno : Nat) : Prop :=
  bno < nDirect + nIndirect ∧ bno ≤ blocksOf (d.fSize f) ∧ nDirect ≤ bno ∧ d.fIndirect f = 0 ∧
    d.allocBlock.isSome = true

def Disk.Grown (d after : Disk) (f : FilePtr) : Prop :=
  ∃ block middle, d.allocBlock = some (block, middle) ∧
    after = middle.setWord (fIndirectAt f) (BitVec.ofNat 32 block)

def Disk.Refused (d : Disk) (f : FilePtr) (bno : Nat) : Prop :=
  nDirect + nIndirect ≤ bno ∨ blocksOf (d.fSize f) < bno ∨
    (d.present f bno = false ∧ d.allocBlock = none)

theorem Disk.Refused.not_grows (refused : d.Refused f bno) : ¬d.Grows f bno := by
  rintro ⟨inside, covered, -, -, free⟩
  rcases refused with beyond | beyond | ⟨-, full⟩
  · exact absurd inside (not_lt.mpr beyond)
  · exact absurd beyond (not_lt.mpr covered)
  · rw [full] at free
    cases free

theorem fileBlockWalk_failed {r : Int}
    (ran : fileBlockWalk f bno true d = some (.error r, after)) : after = d ∧ d.Refused f bno := by
  unfold Disk.fileBlockWalk at ran
  split at ran
  case isTrue beyond =>
    cases ran
    exact ⟨rfl, .inl beyond⟩
  case isFalse =>
    split at ran
    case isTrue beyond =>
      cases ran
      exact ⟨rfl, .inr (.inl beyond)⟩
    case isFalse =>
      split at ran
      case isTrue => cases ran
      case isFalse indirect =>
        split at ran
        case isTrue =>
          obtain ⟨indirect, -, ran⟩ := Option.bind_eq_some_iff.mp ran
          cases ran
        case isFalse absent =>
          rw [if_pos rfl] at ran
          split at ran
          case h_1 full =>
            cases ran
            exact ⟨rfl, .inr (.inr ⟨by simp [Disk.present, indirect, not_not.mp absent], full⟩)⟩
          case h_2 =>
            obtain ⟨indirect, -, ran⟩ := Option.bind_eq_some_iff.mp ran
            cases ran

theorem fileBlockWalk_done {slot : Nat} (ran : fileBlockWalk f bno true d = some (.ok slot, after)) :
    (after = d ∧ slot = d.slotAt f bno) ∨ (d.Grows f bno ∧ d.Grown after f) := by
  unfold Disk.fileBlockWalk at ran
  unfold Disk.slotAt
  split at ran
  case isTrue => cases ran
  case isFalse inside =>
    split at ran
    case isTrue => cases ran
    case isFalse covered =>
      split at ran
      case isTrue direct =>
        cases ran
        exact .inl ⟨rfl, (if_pos direct).symm⟩
      case isFalse indirect =>
        split at ran
        case isTrue there =>
          obtain ⟨blk, place, ran⟩ := Option.bind_eq_some_iff.mp ran
          cases ran
          refine .inl ⟨rfl, ?_⟩
          rw [if_neg indirect, (diskaddr_eq place)]
        case isFalse absent =>
          rw [if_pos rfl] at ran
          split at ran
          case h_1 => cases ran
          case h_2 block middle found =>
            obtain ⟨blk, -, ran⟩ := Option.bind_eq_some_iff.mp ran
            cases ran
            refine .inr ⟨⟨not_le.mp inside, not_lt.mp covered, not_lt.mp indirect,
              not_not.mp absent, by rw [found]; rfl⟩, block, middle, found, rfl⟩

theorem fileGetBlock_failed {r : Int} (ran : fileGetBlock f bno d = some (.error r, after)) :
    (after = d ∧ d.Refused f bno) ∨ (d.Grows f bno ∧ d.Grown after f) := by
  unfold Disk.fileGetBlock at ran
  split at ran
  case isTrue beyond =>
    cases ran
    exact .inl ⟨rfl, .inl beyond⟩
  case isFalse =>
    obtain ⟨⟨slot, middle⟩, walked, ran⟩ := Option.bind_eq_some_iff.mp ran
    cases slot with
    | error r' =>
      cases ran
      exact .inl (fileBlockWalk_failed walked)
    | ok slot =>
      dsimp only at ran
      split at ran
      case isTrue =>
        obtain ⟨blk, -, ran⟩ := Option.bind_eq_some_iff.mp ran
        cases ran
      case isFalse hole =>
        split at ran
        case h_1 full =>
          cases ran
          rcases fileBlockWalk_done walked with ⟨rfl, rfl⟩ | grown
          · exact .inl ⟨rfl, .inr (.inr ⟨by simp [Disk.present, not_not.mp hole], full⟩)⟩
          · exact .inr grown
        case h_2 =>
          obtain ⟨blk, -, ran⟩ := Option.bind_eq_some_iff.mp ran
          cases ran

theorem fileGetBlock_refused {got : Except Int Nat} (refused : d.Refused f bno)
    (ran : fileGetBlock f bno d = some (got, after)) : after = d ∧ ∃ r, got = .error r := by
  unfold Disk.fileGetBlock at ran
  split at ran
  case isTrue =>
    cases ran
    exact ⟨rfl, _, rfl⟩
  case isFalse inside =>
    obtain ⟨⟨slot, middle⟩, walked, ran⟩ := Option.bind_eq_some_iff.mp ran
    cases slot with
    | error r =>
      cases ran
      exact ⟨(fileBlockWalk_failed walked).1, _, rfl⟩
    | ok slot =>
      rcases fileBlockWalk_done walked with ⟨rfl, rfl⟩ | ⟨grows, -⟩
      · have covered : ¬blocksOf (middle.fSize f) < bno := by
          intro beyond
          rw [Disk.fileBlockWalk, if_neg inside, if_pos beyond] at walked
          cases walked
        obtain ⟨absent, full⟩ := (refused.resolve_left inside).resolve_left covered
        have hole : middle.word (middle.slotAt f bno) = 0 := by
          by_contra filled
          have missing := absent
          simp only [Disk.present, Bool.and_eq_false_iff, Bool.or_eq_false_iff,
            decide_eq_false_iff_not, filled, ne_eq, not_false_eq_true, not_true_eq_false,
            or_false, not_not] at missing
          rw [Disk.fileBlockWalk, if_neg inside, if_neg covered, if_neg missing.1,
            if_neg (not_not.mpr missing.2), if_pos rfl, full] at walked
          cases walked
        dsimp only at ran
        rw [if_neg (not_not.mpr hole), full] at ran
        cases ran
        exact ⟨rfl, _, rfl⟩
      · exact absurd grows refused.not_grows

/-- The block that was allocated is missing from the bitmap, and the size of the file is the
same. -/
theorem Disk.Grown.changes (grown : d.Grown after f) (placed : d.Placed f) :
    (∃ blockno, after.blockIsFree blockno ≠ d.blockIsFree blockno) ∧ after.fSize f = d.fSize f := by
  obtain ⟨block, middle, found, rfl⟩ := grown
  obtain ⟨inside, free, rfl⟩ := allocBlock_eq found
  have low : f + 128 ≤ fIndirectAt f := by simp [fIndirectAt]
  have above := placed.above low
  have apart := placed.apart low (by simp [fIndirectAt, fileSize]) inside
  have first : bitmap = 8192 := rfl
  have second : super = 4096 := rfl
  constructor
  · refine ⟨block, ?_⟩
    rw [free, Disk.blockIsFree, word_setWord_other (by omega), word_setWord,
      cleared_bit _ (Nat.mod_lt _ (by decide)), Bool.and_false]
    decide
  · have apart' := placed.apart (show f + 128 ≤ fSizeAt f by simp [fSizeAt])
      (by simp [fSizeAt, fileSize]) inside
    rw [Disk.fSize, word_setWord_other (by simp only [fSizeAt, fIndirectAt]; omega),
      word_setWord_other (by omega)]
    rfl

/-- A `file_get_block` that fails leaves the file system as it was if and only if it had
allocated no indirect block. -/
theorem fileGetBlock_same {r : Int} (placed : d.Placed f)
    (ran : fileGetBlock f bno d = some (.error r, after)) :
    d.Same after ↔ ¬d.Grows f bno := by
  rcases fileGetBlock_failed ran with ⟨rfl, refused⟩ | ⟨grows, grown⟩
  · exact ⟨fun _ => refused.not_grows, fun _ => .refl _⟩
  · refine ⟨fun same => ?_, fun not => absurd grows not⟩
    obtain ⟨⟨block, differ⟩, -⟩ := grown.changes placed
    exact absurd (same.free block) differ

theorem Disk.Placed.setWord (placed : d.Placed f) {field : Nat} {value : BitVec 32}
    (low : f + 128 ≤ field) : Placed (d.setWord field value) f := by
  have above := placed.above low
  have nblocks : Disk.sNblocks (d.setWord field value) = d.sNblocks := by
    rw [Disk.sNblocks, word_setWord_other (by omega)]
    rfl
  have same : Disk.bitmapEnd (d.setWord field value) = d.bitmapEnd := by
    rw [Disk.bitmapEnd, nblocks]
    rfl
  rcases placed with root | behind
  · exact .inl root
  · exact .inr (by rw [same]; exact behind)

/-- After a size was stored, `file_get_block` leaves it there where it fails. -/
theorem fSize_failed {size : BitVec 32} {r : Int} (placed : d.Placed f)
    (ran : fileGetBlock f bno (d.setWord (fSizeAt f) size) = some (.error r, after)) :
    after.fSize f = size := by
  have stored : Disk.fSize (d.setWord (fSizeAt f) size) f = size := word_setWord
  rcases fileGetBlock_failed ran with ⟨rfl, -⟩ | ⟨-, grown⟩
  · exact stored
  · have placed : Placed (d.setWord (fSizeAt f) size) f :=
      placed.setWord (show f + 128 ≤ fSizeAt f by simp [fSizeAt])
    rw [(grown.changes placed).2, stored]

end Alloc

section Create

variable {d after : Disk} {path : Path} {names : List Path} {dir f : FilePtr} {r : Int}

/-- A directory that is found full has been made longer when no block is found for it. -/
theorem dirAllocFile_failed {n : Nat} (whole : d.Whole dir (n * pgSize)) (placed : d.Placed dir)
    (ran : dirAllocFile dir d = some (.error r, after)) :
    after.fSize dir = d.fSize dir + BitVec.ofNat 32 pgSize := by
  have found := whole.dirSearch (fun d f => d f = 0) (Nat.le_of_eq (Nat.zero_add n))
  rw [Disk.dirAllocFile, if_pos whole.wholeBlocks] at ran
  dsimp only at ran
  rw [whole.blocksOf, found] at ran
  obtain ⟨entry, search⟩ : ∃ entry, (d.entriesFrom dir 0 n).find? (fun f => d f = 0) = entry :=
    ⟨_, rfl⟩
  rw [search] at ran
  cases entry with
  | some f => cases ran
  | none =>
    change andThen (fileGetBlock dir n (d.setWord (fSizeAt dir) _)) _ = _ at ran
    obtain ⟨⟨got, middle⟩, ran', ran⟩ := Option.bind_eq_some_iff.mp ran
    cases got with
    | ok blk => cases ran
    | error r' =>
      cases ran
      exact fSize_failed placed ran'

def Disk.Creates (d : Disk) (path : Path) : Prop :=
  ∃ dir name, walkPath path d = some (.missing dir name, d)

theorem fileCreate_same (solid : d.Solid) (text : ∀ c ∈ path, c ≠ 0)
    (ran : fileCreate path d = some (.error r, after)) : d.Same after ↔ ¬d.Creates path := by
  obtain ⟨⟨walk, middle⟩, walked, ran⟩ := Option.bind_eq_some_iff.mp ran
  obtain ⟨rfl, known⟩ := solid.walkPath text walked
  cases walk with
  | found parent f =>
    cases ran
    refine ⟨fun _ => ?_, fun _ => .refl _⟩
    rintro ⟨dir, name, other⟩
    rw [walked] at other
    cases other
  | failed r' =>
    cases ran
    refine ⟨fun _ => ?_, fun _ => .refl _⟩
    rintro ⟨dir, name, other⟩
    rw [walked] at other
    cases other
  | missing dir name =>
    refine ⟨fun same => ?_, fun not => absurd ⟨dir, name, walked⟩ not⟩
    obtain ⟨⟨names, there⟩, directory⟩ := known dir name rfl
    obtain ⟨n, whole⟩ := solid.dirs names dir there directory
    dsimp only at ran
    obtain ⟨⟨got, last⟩, alloced, ran⟩ := Option.bind_eq_some_iff.mp ran
    cases got with
    | ok f =>
      obtain ⟨flushed, -, ran⟩ := Option.bind_eq_some_iff.mp ran
      cases ran
    | error r' =>
      cases ran
      have longer := dirAllocFile_failed whole (solid.placed names dir there) alloced
      rw [same.size names dir there] at longer
      have page : BitVec.ofNat 32 pgSize ≠ 0 := by decide
      exact absurd (BitVec.self_eq_add_right.mp longer) page

end Create

section Write

variable {d after : Disk} {f : FilePtr} {bno : Nat} {buf : Bytes} {count left base : Nat}
  {offset : BitVec 32} {r : Int}

/-- `offset + count` -/
def ends (offset : BitVec 32) (count : Nat) : BitVec 64 :=
  offset.signExtend 64 + BitVec.ofNat 64 count

/-- The size that `file_write` gives to a file. -/
def Disk.sizeFor (d : Disk) (f : FilePtr) (offset : BitVec 32) (count : Nat) : BitVec 32 :=
  if ((d.fSize f).signExtend 64).ult (ends offset count) then (ends offset count).setWidth 32
  else d.fSize f

/-- The loop of a write from a position on changes nothing: up to its end, or to a block that
is refused, the blocks are there and hold the bytes that are written to them. -/
inductive Disk.Idle (d : Disk) (f : FilePtr) (buf : Bytes) (offset : BitVec 32) (count : BitVec 64) :
    BitVec 32 → Nat → Prop where
  | ended {pos : BitVec 32} {base : Nat} : before pos offset count = false →
      Idle d f buf offset count pos base
  | refused {pos : BitVec 32} {base : Nat} : d.Refused f (blocksOf pos) →
      Idle d f buf offset count pos base
  | same {pos : BitVec 32} {base blk : Nat} :
      fileGetBlock f (blocksOf pos) d = some (.ok blk, d) →
      (∀ k < chunk pos offset count, d (within blk pos + k) = buf (base + k)) →
      Idle d f buf offset count (pos + BitVec.ofNat 32 (chunk pos offset count))
        (base + chunk pos offset count) →
      Idle d f buf offset count pos base

def Disk.Keeps (d : Disk) (f : FilePtr) (buf : Bytes) (offset : BitVec 32) (count : Nat) : Prop :=
  d.sizeFor f offset count = d.fSize f ∧ d.Idle f buf offset (BitVec.ofNat 64 count) offset 0

theorem setWord_word (d : Disk) (addr : Nat) : d.setWord addr (d.word addr) = d := by
  have bytes : ∀ a b c e : BitVec 8, (a ++ b ++ c ++ e).extractLsb' 0 8 = e ∧
      (a ++ b ++ c ++ e).extractLsb' 8 8 = c ∧ (a ++ b ++ c ++ e).extractLsb' 16 8 = b ∧
      (a ++ b ++ c ++ e).extractLsb' 24 8 = a := by
    intro a b c e
    refine ⟨?_, ?_, ?_, ?_⟩ <;> ext i inside <;> simp <;> grind
  obtain ⟨first, second, third, fourth⟩ :=
    bytes (d (addr + 3)) (d (addr + 2)) (d (addr + 1)) (d addr)
  unfold Disk.setWord setInt32 Disk.word
  rw [first, second, third, fourth, update_eq_self, update_eq_self, update_eq_self, update_eq_self]

theorem memmove_same {blk start bn : Nat} (same : ∀ k < bn, d (blk + k) = buf (start + k)) :
    memmove d blk buf start bn = d := by
  funext k
  unfold memmove
  split
  · rename_i inside
    have here := same (k - blk) (by omega)
    rw [Nat.add_sub_cancel' inside.1] at here
    exact here.symm
  · rfl

theorem writeFrom_idle {pos : BitVec 32} {count : BitVec 64}
    (idle : d.Idle f buf offset count pos base)
    (ran : writeFrom f buf offset count left pos base d = some (r, after)) : after = d := by
  induction left generalizing pos base with
  | zero => cases ran
  | succ left ih =>
    rw [Disk.writeFrom] at ran
    split at ran
    case isFalse =>
      cases ran
      rfl
    case isTrue more =>
      obtain ⟨⟨got, middle⟩, tried, ran⟩ := Option.bind_eq_some_iff.mp ran
      cases idle with
      | ended none =>
        rw [none] at more
        cases more
      | refused refused =>
        obtain ⟨rfl, r', rfl⟩ := fileGetBlock_refused refused tried
        cases ran
        rfl
      | same found equal rest =>
        rw [found] at tried
        cases tried
        dsimp only at ran
        rw [memmove_same equal] at ran
        exact ih rest ran

theorem fileWrite_eq (kept : ¬(d.sizeFor f offset count).slt (d.fSize f)) :
    fileWrite f buf count offset d =
      writeFrom f buf offset (BitVec.ofNat 64 count) ((BitVec.ofNat 64 count).toNat + 1) offset 0
        (d.setWord (fSizeAt f) (d.sizeFor f offset count)) := by
  unfold Disk.fileWrite Disk.sizeFor at *
  unfold ends at *
  split at kept
  case isTrue longer =>
    dsimp only
    rw [if_pos longer, if_pos longer, Disk.fileSetSize, if_neg kept]
    rfl
  case isFalse short =>
    dsimp only
    rw [if_neg short, if_neg short]
    have same : d.setWord (fSizeAt f) (d.fSize f) = d := setWord_word d (fSizeAt f)
    rw [same]
    rfl

theorem fileWrite_keeps (keeps : d.Keeps f buf offset count)
    (ran : fileWrite f buf count offset d = some (r, after)) : after = d := by
  obtain ⟨size, idle⟩ := keeps
  have kept : ¬(d.sizeFor f offset count).slt (d.fSize f) := by
    rw [size]
    simp [BitVec.slt]
  rw [fileWrite_eq kept, size] at ran
  have same : d.setWord (fSizeAt f) (d.fSize f) = d := setWord_word d (fSizeAt f)
  rw [same] at ran
  exact writeFrom_idle idle ran

/-- Where no block can be had for the first byte, a write leaves the file system as it was only
if it keeps the size. -/
theorem fileWrite_same {names : List Path} {size : BitVec 32} (there : d.InTree names f)
    (placed : d.Placed f) (target : d.sizeFor f offset count = size)
    (kept : ¬size.slt (d.fSize f)) (more : before offset offset (BitVec.ofNat 64 count) = true)
    {first : Int} {middle : Disk}
    (got : fileGetBlock f (blocksOf offset) (d.setWord (fSizeAt f) size) =
      some (.error first, middle))
    (ran : fileWrite f buf count offset d = some (r, after)) :
    d.Same after ↔ d.Keeps f buf offset count := by
  refine ⟨fun same => ?_, fun keeps => ?_⟩
  · rw [fileWrite_eq (by rw [target]; exact kept), Disk.writeFrom, if_pos more, target, got] at ran
    cases ran
    have equal := fSize_failed placed got
    rw [same.size names f there] at equal
    subst equal
    refine ⟨target, .refused ?_⟩
    have unchanged : d.setWord (fSizeAt f) (d.fSize f) = d := setWord_word d (fSizeAt f)
    rw [unchanged] at got
    rcases fileGetBlock_failed got with ⟨-, refused⟩ | ⟨-, grown⟩
    · exact refused
    · obtain ⟨⟨block, differ⟩, -⟩ := grown.changes placed
      exact absurd (same.free block) differ
  · rw [fileWrite_keeps keeps ran]
    exact .refl d

end Write

/-- A call of one of the functions that can fail with blocks or sizes already changed. -/
inductive Call where
  | getBlock (f : FilePtr) (filebno : Nat)
  | create (path : Path)
  | write (f : FilePtr) (buf : Bytes) (count : Nat) (offset : BitVec 32)

namespace Call

variable {d after : Disk} {call : Call} {r : Int}

def result {α : Type} : Except Int α × Disk → Int × Disk
  | (.ok _, d) => (0, d)
  | (.error r, d) => (r, d)

def run : Call → Disk → Option (Int × Disk)
  | getBlock f filebno, d => (fileGetBlock f filebno d).map result
  | create path, d => (fileCreate path d).map result
  | write f buf count offset, d => fileWrite f buf count offset d

def Legal (d : Disk) : Call → Prop
  | getBlock f _ => ∃ names, d.InTree names f
  | create path => ∀ c ∈ path, c ≠ 0
  | write f _ _ _ => ∃ names, d.InTree names f

/-- The call stops before it allocates a block, stores another size or writes another byte. -/
def Keeps (d : Disk) : Call → Prop
  | getBlock f filebno => ¬d.Grows f filebno
  | create path => ¬d.Creates path
  | write f buf count offset => d.Keeps f buf offset count

/-- No byte is written, since a write has no block for its first byte. -/
def Unwritten (d : Disk) : Call → Prop
  | getBlock _ _ => True
  | create _ => True
  | write f _ count offset =>
    ¬(d.sizeFor f offset count).slt (d.fSize f) ∧
      before offset offset (BitVec.ofNat 64 count) = true ∧
      ∃ first middle, fileGetBlock f (blocksOf offset)
        (d.setWord (fSizeAt f) (d.sizeFor f offset count)) = some (.error first, middle)

theorem of_result {α : Type} {outcome : Outcome α} (failed : r < 0)
    (ran : outcome.map result = some (r, after)) : outcome = some (.error r, after) := by
  obtain ⟨⟨got, last⟩, rfl, same⟩ := Option.map_eq_some_iff.mp ran
  cases got with
  | ok value =>
    cases same
    exact absurd failed (lt_irrefl 0)
  | error r' =>
    cases same
    rfl

/-- A call that fails leaves the file system as it was when it has changed nothing before, and
a call that writes no byte leaves it so only then. -/
theorem failed_same (solid : d.Solid) (legal : call.Legal d) (failed : r < 0)
    (ran : call.run d = some (r, after)) :
    (call.Keeps d → d.Same after) ∧ (call.Unwritten d → d.Same after → call.Keeps d) := by
  cases call with
  | getBlock f filebno =>
    obtain ⟨names, there⟩ := legal
    have same := fileGetBlock_same (solid.placed names f there) (of_result failed ran)
    exact ⟨same.mpr, fun _ => same.mp⟩
  | create path =>
    have same := fileCreate_same solid legal (of_result failed ran)
    exact ⟨same.mpr, fun _ => same.mp⟩
  | write f buf count offset =>
    obtain ⟨names, there⟩ := legal
    constructor
    · intro keeps
      rw [fileWrite_keeps keeps ran]
      exact .refl d
    · rintro ⟨kept, more, first, middle, got⟩ same
      exact (fileWrite_same there (solid.placed names f there) rfl kept more got ran).mp same

end Call

/-- Where the root has one block and none of its entries is a directory, its files are all there
are. -/
theorem Disk.Solid.of_root {d : Disk} (whole : d.Whole sRoot (1 * pgSize))
    (files : ∀ f ∈ d.entries sRoot, d f ≠ 0 → d.fType f ≠ ftypeDir ∧ d.bitmapEnd ≤ f) :
    d.Solid := by
  have tree : ∀ path f, d.InTree path f → f = sRoot ∨ (d.fType f ≠ ftypeDir ∧ d.bitmapEnd ≤ f) := by
    intro path f there
    induction there with
    | root => exact .inl rfl
    | entry _ directory member used ih =>
      rcases ih with rfl | ⟨other, -⟩
      · exact .inr (files _ member used)
      · exact absurd directory other
  constructor
  · intro path dir there directory
    rcases tree path dir there with rfl | ⟨other, -⟩
    · exact ⟨1, whole⟩
    · exact absurd directory other
  · intro path f there
    exact (tree path f there).imp_right And.right

/-- A disk of four blocks that is full: the root directory in block 3, with the empty file "a". -/
def fullDisk : Disk := fun addr =>
  if addr = super + 4 then 4
  else if addr = sRoot then slash
  else if addr = fSizeAt sRoot + 1 then 16
  else if addr = fTypeAt sRoot then 1
  else if addr = fDirectAt sRoot 0 then 3
  else if addr = 3 * pgSize then 97
  else 0

theorem fullDisk_solid : fullDisk.Solid := by
  refine .of_root ⟨by decide, by decide, fun beyond => absurd beyond (by decide), ?_⟩ ?_
  · intro bno inside
    obtain rfl : bno = 0 := by
      rw [pgSize_eq] at inside
      omega
    exact ⟨by decide, by decide⟩
  · decide +kernel

theorem a_inTree : ∃ names, fullDisk.InTree names (3 * pgSize) :=
  ⟨_, .entry .root (by decide) (by decide +kernel) (by decide)⟩

def writeA : Call := .write (3 * pgSize) (fun _ => 98) 1 0

theorem writeA_ran : ∃ after, writeA.run fullDisk = some (-eNoDisk, after) ∧
    after.fSize (3 * pgSize) = 1 := by
  have runs : ((writeA.run fullDisk).any fun out =>
      out.1 = -eNoDisk ∧ out.2.fSize (3 * pgSize) = 1) = true := by decide +kernel
  obtain ⟨⟨r, after⟩, ran, holds⟩ := (Option.any_eq_true _ _).mp runs
  obtain ⟨rfl, size⟩ := of_decide_eq_true holds
  exact ⟨after, ran, size⟩

theorem Call.failed_same_writeA : ∃ after, writeA.run fullDisk = some (-eNoDisk, after) ∧
    (writeA.Keeps fullDisk → fullDisk.Same after) ∧
      (writeA.Unwritten fullDisk → fullDisk.Same after → writeA.Keeps fullDisk) := by
  obtain ⟨after, ran, -⟩ := writeA_ran
  exact ⟨after, ran, Call.failed_same fullDisk_solid a_inTree (by decide) ran⟩

/-- "a" has a byte after the write of it has failed. -/
theorem Call.failed_differs : ¬∀ (d after : Disk) (call : Call) (r : Int), d.Solid →
    call.Legal d → call.run d = some (r, after) → r < 0 → d.Same after := by
  intro unchanged
  obtain ⟨after, ran, size⟩ := writeA_ran
  have same := unchanged fullDisk after writeA (-eNoDisk) fullDisk_solid a_inTree ran (by decide)
  obtain ⟨names, there⟩ := a_inTree
  rw [same.size names _ there] at size
  exact absurd size (by decide)

end Fs

end Jos
