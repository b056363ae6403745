import Mathlib.Algebra.Group.Int.Defs
import Jos.Fs.Shorten

/-! What `file_read` and `file_write` move, for every offset and every count. -/

set_option autoImplicit false

namespace Jos

open Foundation Function

namespace Fs

open Disk

/-- A `memmove` of `bn` bytes, between the buffer from `base` on and the file from `pos` on, whose
block is at `blk`. -/
structure Move where
  pos : BitVec 32
  base : Nat
  blk : Nat
  bn : Nat

def movesFrom (f : FilePtr) (offset : BitVec 32) (count : BitVec 64)
    (move : Move → Bytes × Disk → Bytes × Disk) :
    Nat → BitVec 32 → Nat → Bytes × Disk → Option (Int × List Move × Bytes × Disk)
  | 0, _, _, _ => none
  | left + 1, pos, base, s =>
    if before pos offset count then
      (fileGetBlock f (blocksOf pos) s.2).bind fun (r, d) =>
        match r with
        | .error r => some (r, [], s.1, d)
        | .ok blk =>
          let m : Move := ⟨pos, base, blk, chunk pos offset count⟩
          (movesFrom f offset count move left (pos + BitVec.ofNat 32 m.bn) (base + m.bn)
            (move m (s.1, d))).map fun (r, moves, s) => (r, m :: moves, s)
    else some ((count.setWidth 32).toInt, [], s)

def Move.read (m : Move) (s : Bytes × Disk) : Bytes × Disk :=
  (memmove s.1 m.base s.2 (within m.blk m.pos) m.bn, s.2)

def Move.write (m : Move) (s : Bytes × Disk) : Bytes × Disk :=
  (s.1, memmove s.2 (within m.blk m.pos) s.1 m.base m.bn)

/-- `count`, after `file_read` has cut it at the end of the file. -/
def clipped (d : Disk) (f : FilePtr) (count : BitVec 64) (offset : BitVec 32) : BitVec 64 :=
  let left := (d.fSize f - offset).signExtend 64
  if count.ule left then count else left

/-- `file_read`, with what it moves. -/
def fileReadMoves (f : FilePtr) (buf : Bytes) (count : BitVec 64) (offset : BitVec 32) (d : Disk) :
    Option (Int × List Move × Bytes × Disk) :=
  if (d.fSize f).sle offset then some (0, [], buf, d)
  else
    let count := clipped d f count offset
    movesFrom f offset count Move.read (count.toNat + 1) offset 0 (buf, d)

/-- `file_write`, with what it moves. -/
def fileWriteMoves (f : FilePtr) (buf : Bytes) (count : BitVec 64) (offset : BitVec 32) (d : Disk) :
    Option (Int × List Move × Bytes × Disk) :=
  let ends := offset.signExtend 64 + count
  (if ((d.fSize f).signExtend 64).ult ends then fileSetSize f (ends.setWidth 32) d
    else some (0, d)).bind fun (_, d) =>
      movesFrom f offset count Move.write (count.toNat + 1) offset 0 (buf, d)

section Loop

variable {f : FilePtr} {buf : Bytes} {offset pos : BitVec 32} {count : BitVec 64}
  {left base : Nat} {d : Disk}

theorem readFrom_moves : readFrom f offset count left pos base buf d =
    (movesFrom f offset count Move.read left pos base (buf, d)).map fun result =>
      (result.1, result.2.2) := by
  induction left generalizing pos base buf d with
  | zero => rfl
  | succ left ih =>
    rw [readFrom, movesFrom]
    by_cases more : before pos offset count = true
    · rw [if_pos more, if_pos more, Option.map_bind]
      refine Option.bind_congr fun got _ => ?_
      obtain ⟨r, d⟩ := got
      cases r with
      | error r => rfl
      | ok blk =>
        refine ih.trans ?_
        simp only [Function.comp_apply, Option.map_map]
        rfl
    · rw [if_neg more, if_neg more]
      rfl

theorem writeFrom_moves : writeFrom f buf offset count left pos base d =
    (movesFrom f offset count Move.write left pos base (buf, d)).map fun result =>
      (result.1, result.2.2.2) := by
  induction left generalizing pos base d with
  | zero => rfl
  | succ left ih =>
    rw [writeFrom, movesFrom]
    by_cases more : before pos offset count = true
    · rw [if_pos more, if_pos more, Option.map_bind]
      refine Option.bind_congr fun got _ => ?_
      obtain ⟨r, d⟩ := got
      cases r with
      | error r => rfl
      | ok blk =>
        refine ih.trans ?_
        simp only [Function.comp_apply, Option.map_map]
        rfl
    · rw [if_neg more, if_neg more]
      rfl

theorem fileRead_moves : fileRead f buf count.toNat offset d =
    (fileReadMoves f buf count offset d).map fun result => (result.1, result.2.2) := by
  unfold fileRead fileReadMoves clipped
  rw [BitVec.ofNat_toNat, BitVec.setWidth_eq]
  by_cases past : (d.fSize f).sle offset = true
  · rw [if_pos past, if_pos past]
    rfl
  · rw [if_neg past, if_neg past]
    exact readFrom_moves

theorem fileWrite_moves : fileWrite f buf count.toNat offset d =
    (fileWriteMoves f buf count offset d).map fun result => (result.1, result.2.2.2) := by
  unfold fileWrite fileWriteMoves
  simp only [BitVec.ofNat_toNat, BitVec.setWidth_eq]
  rw [Option.map_bind]
  exact Option.bind_congr fun _ _ => writeFrom_moves

end Loop

/-- The moves take the bytes from the position `p` on, up to `q`, one after the other: each
within a block of the file. -/
def Tiles : Nat → Nat → Nat → List Move → Prop
  | p, _, q, [] => p = q
  | p, base, q, m :: moves => m.pos = BitVec.ofNat 32 p ∧ m.base = base ∧ 0 < m.bn ∧
      p % pgSize + m.bn ≤ pgSize ∧ within m.blk m.pos = m.blk + p % pgSize ∧
        Tiles (p + m.bn) (base + m.bn) q moves

def SumExact (offset : BitVec 32) (count : BitVec 64) : Prop :=
  ((offset.signExtend 64 + count).toNat : Int) = offset.toInt + count.toNat

instance (offset : BitVec 32) (count : BitVec 64) : Decidable (SumExact offset count) :=
  inferInstanceAs (Decidable (_ = _))

/-- A transfer that returns `r`. -/
structure Honest (count : BitVec 64) (offset : BitVec 32) (s : Bytes × Disk) (r : Int)
    (moves : List Move) (after : Bytes × Disk) : Prop where
  counted : 0 ≤ r → r ≤ count.toNat
  moved : 0 ≤ r → 0 ≤ offset.toInt → Tiles offset.toNat 0 (offset.toNat + r.toNat) moves
  refused : offset.toInt < 0 → r < 0 ∧ after = s

def HonestRead (f : FilePtr) (buf : Bytes) (count : BitVec 64) (offset : BitVec 32) (d : Disk) :
    Prop :=
  (offset.slt (d.fSize f) = true → SumExact offset (clipped d f count offset)) ∧
    ∀ r moves after, fileReadMoves f buf count offset d = some (r, moves, after) →
      Honest count offset (buf, d) r moves after

def HonestWrite (f : FilePtr) (buf : Bytes) (count : BitVec 64) (offset : BitVec 32) (d : Disk) :
    Prop :=
  SumExact offset count ∧
    ∀ r moves after, fileWriteMoves f buf count offset d = some (r, moves, after) →
      Honest count offset (buf, d) r moves after

section Positions

variable {f : FilePtr} {start p total : Nat} {count : BitVec 64} {d d' : Disk}

theorem before_total (small : start < 2 ^ 31) (here : p < 2 ^ 31) (sum : start + count.toNat = total)
    (fits : total < 2 ^ 64) :
    before (BitVec.ofNat 32 p) (BitVec.ofNat 32 start) count = decide (p < total) := by
  rw [before, BitVec.ult, BitVec.toNat_add, toNat_signExtend_ofNat here,
    toNat_signExtend_ofNat small, sum, Nat.mod_eq_of_lt fits]

theorem chunk_total (small : start < 2 ^ 31) (here : p < 2 ^ 31) (sum : start + count.toNat = total)
    (fits : total < 2 ^ 64) (inside : p ≤ total) :
    chunk (BitVec.ofNat 32 p) (BitVec.ofNat 32 start) count = min (4096 - p % 4096) (total - p) := by
  have left : p % 4096 < 4096 := Nat.mod_lt _ (by decide)
  rw [chunk, pgSize_eq, srem_ofNat here (by decide), sub_ofNat (by omega) (by decide),
    toNat_signExtend_ofNat (by omega), BitVec.toNat_sub, BitVec.toNat_add,
    toNat_signExtend_ofNat here, toNat_signExtend_ofNat small, sum, Nat.mod_eq_of_lt fits]
  congr 1
  omega

theorem fileGetBlock_inside {bno blk : Nat} (ran : fileGetBlock f bno d = some (.ok blk, d')) :
    bno < 1034 := by
  by_contra outside
  have big : nDirect + nIndirect ≤ bno := not_lt.mp outside
  rw [fileGetBlock, if_pos big] at ran
  cases ran

/-- Where the position is in the file, the loop moves all of the bytes or fails. -/
theorem movesFrom_tiles {move : Move → Bytes × Disk → Bytes × Disk} {left base : Nat}
    {s after : Bytes × Disk} {r : Int} {moves : List Move} (small : start < 2 ^ 31)
    (sum : start + count.toNat = total) (fits : total < 2 ^ 64) (here : p < 2 ^ 31)
    (inside : p ≤ total)
    (ran : movesFrom f (BitVec.ofNat 32 start) count move left (BitVec.ofNat 32 p) base s =
      some (r, moves, after)) : r < 0 ∨ r = count.toNat ∧ Tiles p base total moves := by
  induction left generalizing p base s moves with
  | zero => cases ran
  | succ left ih =>
    rw [movesFrom, before_total small here sum fits] at ran
    by_cases more : p < total
    · rw [decide_eq_true more, if_pos rfl] at ran
      obtain ⟨⟨got, d⟩, block, ran⟩ := Option.bind_eq_some_iff.mp ran
      cases got with
      | error code =>
        cases ran
        exact .inl (negative_error (fileGetBlock_error block))
      | ok blk =>
        have bno := fileGetBlock_inside block
        rw [blocksOf_ofNat here] at bno
        obtain ⟨⟨r', rest, final⟩, looped, same⟩ := Option.map_eq_some_iff.mp ran
        cases same
        have bn := chunk_total small here sum fits inside
        have next : BitVec.ofNat 32 p + BitVec.ofNat 32
            (chunk (BitVec.ofNat 32 p) (BitVec.ofNat 32 start) count) =
            BitVec.ofNat 32 (p + chunk (BitVec.ofNat 32 p) (BitVec.ofNat 32 start) count) :=
          (BitVec.ofNat_add ..).symm
        dsimp only at looped
        rw [next] at looped
        refine (ih (by omega) (by omega) looped).imp_right fun ⟨all, tiles⟩ =>
          ⟨all, rfl, rfl, ?_, ?_, ?_, tiles⟩
        · dsimp only
          omega
        · rw [pgSize_eq]
          dsimp only
          omega
        · rw [pgSize_eq]
          exact within_ofNat here
    · rw [decide_eq_false more, if_neg Bool.false_ne_true] at ran
      cases ran
      have ends : p = total := by omega
      refine .inr ⟨?_, ends⟩
      have few : count.toNat < 2 ^ 31 := by omega
      rw [BitVec.toInt_eq_toNat_of_lt (by rw [BitVec.toNat_setWidth]; omega),
        BitVec.toNat_setWidth, Nat.mod_eq_of_lt (by omega)]

end Positions

section Ranges

variable {f : FilePtr} {buf : Bytes} {offset : BitVec 32} {count : BitVec 64} {d : Disk}

theorem extend_negative (negative : offset.toInt < 0) :
    ((offset.signExtend 64).toNat : Int) = 2 ^ 64 + offset.toInt := by
  have value : (offset.signExtend 64).toInt = offset.toInt :=
    BitVec.toInt_signExtend_of_le (by decide)
  rw [BitVec.toInt_eq_toNat_cond] at value
  split at value <;> omega

theorem extend_positive (positive : 0 ≤ offset.toInt) :
    offset.toNat < 2 ^ 31 ∧ (offset.signExtend 64).toNat = offset.toNat := by
  have small : offset.toNat < 2 ^ 31 := by
    rw [BitVec.toInt_eq_toNat_cond] at positive
    split at positive <;> omega
  refine ⟨small, ?_⟩
  have value := toNat_signExtend_ofNat small
  rwa [BitVec.ofNat_toNat, BitVec.setWidth_eq] at value

theorem exact_positive (positive : 0 ≤ offset.toInt) :
    SumExact offset count ↔ offset.toNat + count.toNat < 2 ^ 64 := by
  obtain ⟨small, extended⟩ := extend_positive positive
  have value : offset.toInt = offset.toNat := BitVec.toInt_eq_toNat_of_lt (by omega)
  have bound := count.isLt
  rw [SumExact, BitVec.toNat_add, extended, value]
  omega

theorem exact_negative (negative : offset.toInt < 0) :
    SumExact offset count ↔ -offset.toInt ≤ count.toNat := by
  have extended := extend_negative negative
  have bound := count.isLt
  rw [SumExact, BitVec.toNat_add]
  omega

/-- Where the sum is right for a negative offset, it is no more than the offset is unsigned. -/
theorem before_negative (negative : offset.toInt < 0) (exact' : SumExact offset count) :
    before offset offset count = false := by
  have extended := extend_negative negative
  have bound := count.isLt
  rw [SumExact] at exact'
  rw [before, BitVec.ult, decide_eq_false_iff_not]
  omega

theorem movesFrom_negative {move : Move → Bytes × Disk → Bytes × Disk} {left : Nat}
    {s : Bytes × Disk} (negative : offset.toInt < 0) (exact' : SumExact offset count) :
    movesFrom f offset count move (left + 1) offset 0 s =
      some ((count.setWidth 32).toInt, [], s) := by
  rw [movesFrom, before_negative negative exact', if_neg Bool.false_ne_true]

theorem Disk.Tidy.size (tidy : d.Tidy f) : (d.fSize f).toNat ≤ 4235264 ∧
    (d.fSize f).toInt = (d.fSize f).toNat := by
  have legal : (d.fSize f).toNat ≤ 4235264 := tidy.stored.legal
  exact ⟨legal, BitVec.toInt_eq_toNat_of_lt (by omega)⟩

theorem clipped_inside (legal : (d.fSize f).toNat ≤ maxFileSize)
    (inside : offset.toNat ≤ (d.fSize f).toNat) :
    (clipped d f count offset).toNat = min count.toNat ((d.fSize f).toNat - offset.toNat) := by
  have small : (d.fSize f).toNat ≤ 4235264 := legal
  have difference : (d.fSize f - offset).toNat = (d.fSize f).toNat - offset.toNat :=
    BitVec.toNat_sub_of_le inside
  have below : (d.fSize f).toNat - offset.toNat < 2 ^ 31 := by omega
  have left : ((d.fSize f - offset).signExtend 64).toNat = (d.fSize f).toNat - offset.toNat := by
    have value := toNat_signExtend_ofNat below
    rwa [← difference, BitVec.ofNat_toNat, BitVec.setWidth_eq, difference] at value
  unfold clipped
  simp only [BitVec.ule_eq_decide, decide_eq_true_eq, left]
  split
  · exact (min_eq_left ‹_›).symm
  · rw [left, min_eq_right (by omega)]

theorem tiles_loop {move : Move → Bytes × Disk → Bytes × Disk} {left : Nat} {s after : Bytes × Disk}
    {r : Int} {moves : List Move} (positive : 0 ≤ offset.toInt)
    (fits : offset.toNat + count.toNat < 2 ^ 64)
    (ran : movesFrom f offset count move left offset 0 s = some (r, moves, after)) :
    r < 0 ∨ r = count.toNat ∧ Tiles offset.toNat 0 (offset.toNat + count.toNat) moves := by
  obtain ⟨small, -⟩ := extend_positive positive
  have same : offset = BitVec.ofNat 32 offset.toNat := by rw [BitVec.ofNat_toNat, BitVec.setWidth_eq]
  rw [same] at ran
  exact movesFrom_tiles small rfl fits small (Nat.le_add_right _ _) ran

theorem Honest.of_tiles {s after : Bytes × Disk} {r : Int} {moves : List Move} (moved : BitVec 64)
    (positive : 0 ≤ offset.toInt) (less : moved.toNat ≤ count.toNat)
    (ends : r < 0 ∨ r = moved.toNat ∧ Tiles offset.toNat 0 (offset.toNat + moved.toNat) moves) :
    Honest count offset s r moves after := by
  refine ⟨fun done => ?_, fun done _ => ?_, fun negative => absurd positive (not_le.mpr negative)⟩
  · obtain ⟨all, -⟩ := ends.resolve_left (not_lt.mpr done)
    omega
  · obtain ⟨all, tiles⟩ := ends.resolve_left (not_lt.mpr done)
    rwa [all, Int.toNat_natCast]

theorem honestRead_iff (tidy : d.Tidy f) : HonestRead f buf count offset d ↔ 0 ≤ offset.toInt ∨
    -offset.toInt ≤ (clipped d f count offset).toNat ∧
      ((clipped d f count offset).setWidth 32).toInt < 0 := by
  obtain ⟨small, value⟩ := tidy.size
  by_cases positive : 0 ≤ offset.toInt
  · refine iff_of_true ?_ (.inl positive)
    have exact' : offset.toInt = offset.toNat :=
      BitVec.toInt_eq_toNat_of_lt (by have := (extend_positive positive).1; omega)
    by_cases past : (d.fSize f).sle offset = true
    · refine ⟨fun less => ?_, fun r moves after ran => ?_⟩
      · rw [BitVec.sle_eq_decide, decide_eq_true_eq] at past
        rw [BitVec.slt_eq_decide, decide_eq_true_eq] at less
        omega
      · rw [fileReadMoves, if_pos past] at ran
        cases ran
        exact .of_tiles 0 positive (Nat.zero_le _) (.inr ⟨rfl, rfl⟩)
    · have inside : offset.toNat < (d.fSize f).toNat := by
        rw [BitVec.sle_eq_decide, decide_eq_true_eq] at past
        omega
      have cut := @clipped_inside f offset count d tidy.stored.legal inside.le
      have fits : offset.toNat + (clipped d f count offset).toNat < 2 ^ 64 := by omega
      refine ⟨fun _ => (exact_positive positive).mpr fits, fun r moves after ran => ?_⟩
      rw [fileReadMoves, if_neg past] at ran
      exact .of_tiles _ positive (by omega) (tiles_loop positive fits ran)
  · have negative := not_le.mp positive
    rw [or_iff_right positive]
    have less : offset.slt (d.fSize f) = true := by
      rw [BitVec.slt_eq_decide, decide_eq_true_eq]
      omega
    have past : ¬(d.fSize f).sle offset = true := by
      rw [BitVec.sle_eq_decide, decide_eq_true_eq]
      omega
    rw [HonestRead, exact_negative negative]
    refine ⟨fun honest => ?_, fun both => ⟨fun _ => both.1, fun r moves after ran => ?_⟩⟩
    · have exact' := honest.1 less
      have ran : fileReadMoves f buf count offset d =
          some (((clipped d f count offset).setWidth 32).toInt, [], buf, d) := by
        rw [fileReadMoves, if_neg past]
        exact movesFrom_negative negative ((exact_negative negative).mpr exact')
      exact ⟨exact', ((honest.2 _ _ _ ran).refused negative).1⟩
    · rw [fileReadMoves, if_neg past] at ran
      dsimp only at ran
      rw [movesFrom_negative negative ((exact_negative negative).mpr both.1)] at ran
      cases ran
      exact ⟨fun done => absurd both.2 (not_lt.mpr done), fun done _ => absurd both.2 (not_lt.mpr done),
        fun _ => ⟨both.2, rfl⟩⟩

/-- `file_set_size` stores the size, whatever it is. -/
theorem fileSetSize_returns (tidy : d.Tidy f) (newsize : BitVec 32) :
    ∃ after, fileSetSize f newsize d = some (0, after) ∧ after.fSize f = newsize := by
  have ends (d' : Disk) : (d'.setWord (fSizeAt f) newsize).fSize f = newsize := word_setWord
  unfold fileSetSize
  by_cases less : newsize.slt (d.fSize f) = true
  · rw [if_pos less]
    obtain ⟨mid, ran⟩ : ∃ mid, fileTruncateBlocks f newsize d = some mid := by
      by_cases least : blocksFor newsize ≤ blocksFor (d.fSize f)
      · obtain ⟨mid, ran, -⟩ := tidy.stored.held.fileTruncateBlocks_trims least
        exact ⟨mid, ran⟩
      · -- no block lies behind the new size
        rw [fileTruncateBlocks, Nat.sub_eq_zero_of_le (not_le.mp least).le]
        change ∃ mid, (if blocksFor newsize ≤ nDirect ∧ d.fIndirect f ≠ 0 then
          (d.freeBlock (d.fIndirect f).toNat).map fun d => d.setWord (fIndirectAt f) 0
            else some d) = some mid
        by_cases few : blocksFor newsize ≤ nDirect ∧ d.fIndirect f ≠ 0
        · have used : (d.fIndirect f).toNat ≠ 0 := fun zero => few.2 (BitVec.eq_of_toNat_eq zero)
          rw [if_pos few, Disk.freeBlock, if_neg used]
          exact ⟨_, rfl⟩
        · rw [if_neg few]
          exact ⟨d, rfl⟩
    rw [ran]
    exact ⟨_, rfl, ends mid⟩
  · rw [if_neg less]
    exact ⟨_, rfl, ends d⟩

theorem fileSetSize_same : fileSetSize f (d.fSize f) d = some (0, d) := by
  have less : ¬(d.fSize f).slt (d.fSize f) = true := by
    rw [BitVec.slt_eq_decide, decide_eq_true_eq]
    exact lt_irrefl _
  have same : d.setWord (fSizeAt f) (d.fSize f) = d := setWord_word d (fSizeAt f)
  rw [fileSetSize, if_neg less, Option.map_some, same]

theorem honestWrite_iff (tidy : d.Tidy f) : HonestWrite f buf count offset d ↔
    0 ≤ offset.toInt ∧ offset.toNat + count.toNat < 2 ^ 64 ∨
      offset.toInt < 0 ∧ -offset.toInt ≤ count.toNat ∧ (count.setWidth 32).toInt < 0 ∧
        (¬((d.fSize f).signExtend 64).ult (offset.signExtend 64 + count) = true ∨
          (offset.signExtend 64 + count).setWidth 32 = d.fSize f) := by
  by_cases positive : 0 ≤ offset.toInt
  · have never : ¬offset.toInt < 0 := not_lt.mpr positive
    rw [and_iff_right positive, or_iff_left fun other => never other.1, HonestWrite,
      exact_positive positive]
    refine and_iff_left_of_imp fun fits r moves after ran => ?_
    obtain ⟨⟨code, d'⟩, -, ran⟩ := Option.bind_eq_some_iff.mp ran
    exact .of_tiles _ positive (Nat.le_refl _) (tiles_loop positive fits ran)
  · have negative := not_le.mp positive
    rw [or_iff_right fun other => positive other.1, and_iff_right negative, HonestWrite,
      exact_negative negative]
    refine and_congr_right fun exact' => ?_
    obtain ⟨d', sized, kept⟩ : ∃ d', (if ((d.fSize f).signExtend 64).ult
        (offset.signExtend 64 + count) = true then
          fileSetSize f ((offset.signExtend 64 + count).setWidth 32) d else some (0, d)) =
        some (0, d') ∧ (d' = d ↔ ¬((d.fSize f).signExtend 64).ult
          (offset.signExtend 64 + count) = true ∨
            (offset.signExtend 64 + count).setWidth 32 = d.fSize f) := by
      by_cases longer : ((d.fSize f).signExtend 64).ult (offset.signExtend 64 + count) = true
      · obtain ⟨d', ran, size⟩ := fileSetSize_returns tidy ((offset.signExtend 64 + count).setWidth 32)
        rw [if_pos longer, or_iff_right (not_not.mpr longer)]
        refine ⟨d', ran, fun same => ?_, fun same => ?_⟩
        · rw [← size, same]
        · rw [same, fileSetSize_same] at ran
          cases ran
          rfl
      · rw [if_neg longer]
        exact ⟨d, rfl, iff_of_true rfl (.inl longer)⟩
    have ran : fileWriteMoves f buf count offset d =
        some ((count.setWidth 32).toInt, [], buf, d') := by
      unfold fileWriteMoves
      dsimp only
      rw [sized]
      exact movesFrom_negative negative ((exact_negative negative).mpr exact')
    rw [← kept]
    refine ⟨fun honest => ?_, fun both r moves after ran' => ?_⟩
    · obtain ⟨error, same⟩ := (honest _ _ _ ran).refused negative
      exact ⟨error, congrArg Prod.snd same⟩
    · rw [ran] at ran'
      cases ran'
      exact ⟨fun done => absurd both.1 (not_lt.mpr done),
        fun done _ => absurd both.1 (not_lt.mpr done), fun _ => ⟨both.1, by rw [both.2]⟩⟩

/-- Both functions are honest for offsets from zero on, while the end is a 64-bit number; for
a negative one only when the count, as an `int`, happens to be negative and the size stays. -/
theorem honest_iff (tidy : d.Tidy f) (buf : Bytes) (count : BitVec 64) (offset : BitVec 32) :
    (HonestRead f buf count offset d ↔ 0 ≤ offset.toInt ∨
      -offset.toInt ≤ (clipped d f count offset).toNat ∧
        ((clipped d f count offset).setWidth 32).toInt < 0) ∧
    (HonestWrite f buf count offset d ↔
      0 ≤ offset.toInt ∧ offset.toNat + count.toNat < 2 ^ 64 ∨
        offset.toInt < 0 ∧ -offset.toInt ≤ count.toNat ∧ (count.setWidth 32).toInt < 0 ∧
          (¬((d.fSize f).signExtend 64).ult (offset.signExtend 64 + count) = true ∨
            (offset.signExtend 64 + count).setWidth 32 = d.fSize f)) :=
  ⟨honestRead_iff tidy, honestWrite_iff tidy⟩

end Ranges

/-- All of the file "b" -/
theorem honest_byte : HonestRead (4 * pgSize) (fun _ => 0) 1 0 nestedDisk ∧
    HonestWrite (4 * pgSize) (fun _ => 0) 1 0 nestedDisk :=
  ⟨(honest_iff nestedDisk_tidy _ 1 0).1.mpr (.inl (by decide)),
    (honest_iff nestedDisk_tidy _ 1 0).2.mpr (.inl (by decide))⟩

/-- A byte in front of the file: two bytes are read, it is said, but none is moved, and a write
of none leaves a negative size. -/
theorem negative_offset : fileReadMoves (4 * pgSize) (fun _ => 0) 2 (-1) nestedDisk =
      some (2, [], fun _ => 0, nestedDisk) ∧
    ¬HonestRead (4 * pgSize) (fun _ => 0) 2 (-1) nestedDisk ∧
      ¬HonestWrite (4 * pgSize) (fun _ => 0) 0 (-1) nestedDisk := by
  have cut : clipped nestedDisk (4 * pgSize) 2 (-1) = 2 := by decide +kernel
  have before : ¬(nestedDisk.fSize (4 * pgSize)).sle (-1) = true := by decide +kernel
  have negative : (-1 : BitVec 32).toInt < 0 := by decide
  refine ⟨?_, ?_, ?_⟩
  · rw [fileReadMoves, if_neg before]
    dsimp only
    rw [cut, movesFrom_negative negative (by decide)]
    rfl
  · rw [honestRead_iff nestedDisk_tidy, cut]
    decide
  · rw [honestWrite_iff nestedDisk_tidy]
    rintro (⟨positive, -⟩ | ⟨-, enough, -⟩)
    · exact absurd positive (by decide)
    · exact absurd enough (by decide)

end Fs

end Jos
