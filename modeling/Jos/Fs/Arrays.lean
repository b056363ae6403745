import Jos.Fs.Contents

/-! Files as arrays of bytes, over any calls of `file_read` and `file_write`. -/

set_option autoImplicit false

namespace Jos

open Foundation Function

namespace Fs

open Disk

def Disk.array (d : Disk) (f : FilePtr) : List (BitVec 8) :=
  (List.range (d.fSize f).toNat).map (d.byteAt f)

/-- A call of `file_write` or `file_read`. -/
inductive Access where
  | write (f : FilePtr) (buf : Bytes) (count : BitVec 64) (offset : BitVec 32)
  | read (f : FilePtr) (buf : Bytes) (count : BitVec 64) (offset : BitVec 32)

namespace Access

def run : Access → Disk → Option (Int × Bytes × Disk)
  | write f buf count offset, d => (fileWrite f buf count.toNat offset d).map fun (r, d) => (r, buf, d)
  | read f buf count offset, d => fileRead f buf count.toNat offset d

def step (d : Disk) (call : Access) : Option Disk :=
  (call.run d).bind fun (r, _, d) => if 0 ≤ r then some d else none

def file : Access → FilePtr
  | write f _ _ _ => f
  | read f _ _ _ => f

def offset : Access → BitVec 32
  | write _ _ _ offset => offset
  | read _ _ _ offset => offset

def count : Access → BitVec 64
  | write _ _ count _ => count
  | read _ _ count _ => count

/-- A file of the tree that is no directory, and a range within the greatest size. -/
def Legal (d : Disk) (call : Access) : Prop :=
  d.Live call.file ∧ d.fType call.file ≠ ftypeDir ∧ 0 ≤ call.offset.toInt ∧
    call.offset.toNat + call.count.toNat ≤ maxFileSize

end Access

/-- The other files keep their sizes and contents, and all files their names. Directories keep their
contents apart from the fields of `f` in the one where it is an entry. -/
structure Disk.Spares (d d' : Disk) (f : Nat) : Prop where
  live : ∀ g, d'.Live g ↔ d.Live g
  name : ∀ g : Nat, d.Live g → ∀ k < maxNameLen, d' (g + k) = d (g + k)
  size : ∀ g, d.Live g → g ≠ f → d'.fSize g = d.fSize g
  array : ∀ g, d.Live g → g ≠ f → d.fType g ≠ ftypeDir → d'.array g = d.array g
  entries : ∀ g, d.Live g → g ≠ f → d.fType g = ftypeDir → ∀ k < (d.fSize g).toNat,
    d.blockAt g (k / pgSize) * pgSize + k % pgSize < f + 128 ∨
      f + 256 ≤ d.blockAt g (k / pgSize) * pgSize + k % pgSize → d'.byteAt g k = d.byteAt g k

def Access.Done (d : Disk) (r : Int) (after : Bytes) (d' : Disk) : Access → Prop
  | .write f buf count offset => r = count.toNat ∧
      d'.array f = splice 0 (d.array f) offset.toNat ((List.range count.toNat).map buf) ∧
      (d'.fSize f).toNat = max (d.fSize f).toNat (offset.toNat + count.toNat)
  | .read f buf count offset =>
    r = (min (offset.toNat + count.toNat) (d.fSize f).toNat - offset.toNat : Nat) ∧
    (List.range r.toNat).map after = ((d.array f).drop offset.toNat).take count.toNat ∧
    (∀ k : Nat, r ≤ k → after k = buf k) ∧ d'.array f = d.array f

section Calls

variable {d d' : Disk} {f : Nat} {call : Access} {calls : List Access} {r : Int} {buf : Bytes}

theorem Disk.Neat.spares (neat : d.Neat) (there : d.Live f) (leaves : d.Leaves d' f) :
    d.Spares d' f where
  live := leaves.live
  name := leaves.name
  size g alive differ := (leaves.keeps g alive differ).size
  array g alive differ regular := by
    rw [Disk.array, (leaves.keeps g alive differ).size]
    refine List.map_congr_left fun k member => ?_
    have legal := neat.owns.legal g alive
    exact neat.byteAt_other leaves there alive regular differ
      (Nat.lt_of_lt_of_le (List.mem_range.mp member) legal)
  entries g alive differ _ k inside off := by
    have keeps := leaves.keeps g alive differ
    have legal := neat.owns.legal g alive
    have few := @div_block k (Nat.lt_of_lt_of_le inside legal)
    refine byteAt_congr (keeps.present few) fun filled => ?_
    have bounds := @place_bounds (d.blockAt g (k / pgSize)) k
    have below : k / pgSize < blocksFor (d.fSize g) := by
      rw [blocksFor_eq legal, pgSize_eq]
      omega
    exact ⟨keeps.blockAt ⟨few, (present_iff.mp filled).1⟩, leaves.data g alive differ _
      (mem_dataBlocks.mpr ⟨_, below, filled, rfl⟩) _ bounds.1 bounds.2 off⟩

theorem range_part {n start many : Nat} {b : Nat → BitVec 8} :
    (((List.range n).map b).drop start).take many =
      ((List.range (min many (n - start))).map (start + ·)).map b := by
  rw [← List.map_drop, ← List.map_take, List.range_eq_range', List.drop_range', Nat.zero_add,
    Nat.mul_one, ← List.range'_eq_map_range]
  congr 1
  rcases Nat.le_total many (n - start) with less | more
  · rw [Nat.min_eq_left less, List.take_range'_of_length_ge less]
  · rw [Nat.min_eq_right more, List.take_range'_of_length_le more]

theorem Disk.Neat.access (neat : d.Neat) (legal : call.Legal d) (ran : call.run d = some (r, buf, d'))
    (succeeds : 0 ≤ r) : d'.Neat ∧ d.Spares d' call.file ∧ call.Done d r buf d' := by
  cases call with
  | write f src count offset =>
    obtain ⟨there, regular, positive, fits⟩ : d.Live f ∧ d.fType f ≠ ftypeDir ∧ 0 ≤ offset.toInt ∧
      offset.toNat + count.toNat ≤ maxFileSize := legal
    obtain ⟨⟨r', after⟩, wrote, same⟩ := Option.map_eq_some_iff.mp ran
    cases same
    obtain ⟨all, neat', leaves, size, bytes⟩ :=
      neat.fileWrite there regular positive fits wrote succeeds
    refine ⟨neat', neat.spares there leaves, all, ?_, size⟩
    have limit := neat.owns.legal f there
    rw [Disk.array, Disk.array, size, splice_range fun k high low =>
      neat.tails f there regular k high (Nat.lt_of_lt_of_le low (Nat.le_trans (Nat.le_add_right _ _) fits))]
    refine List.map_congr_left fun k member => bytes k ?_
    have below := List.mem_range.mp member
    change _ < 4235264
    change _ ≤ 4235264 at limit
    change offset.toNat + count.toNat ≤ 4235264 at fits
    omega
  | read f src count offset =>
    obtain ⟨there, regular, positive, -⟩ : d.Live f ∧ d.fType f ≠ ftypeDir ∧ 0 ≤ offset.toInt ∧
      offset.toNat + count.toNat ≤ maxFileSize := legal
    obtain ⟨all, wrote, read⟩ := neat.fileRead there regular positive ran succeeds
    have number : min (offset.toNat + count.toNat) (d.fSize f).toNat - offset.toNat =
        min count.toNat ((d.fSize f).toNat - offset.toNat) := by omega
    have limit := neat.owns.legal f there
    refine ⟨wrote.neat, neat.spares there wrote.leaves, by rw [number]; exact all, ?_,
      fun k high => ?_, ?_⟩
    · rw [all, Int.toNat_natCast, Disk.array, range_part, List.map_map]
      refine List.map_congr_left fun k member => ?_
      rw [read k, if_pos (List.mem_range.mp member), Function.comp_apply]
    · rw [read k, if_neg (by omega)]
    · rw [Disk.array, wrote.size]
      exact List.map_congr_left fun k member =>
        wrote.bytes k (Nat.lt_of_lt_of_le (List.mem_range.mp member) limit)

/-- Whatever has been read and written before, a call that succeeds does to the array of its file
what it should, and nothing to the other files. -/
theorem files_as_arrays {before : Disk} {after : Bytes} (neat : before.Neat)
    (ran : Along Access.step Access.Legal before calls d) (legal : call.Legal d)
    (called : call.run d = some (r, after, d')) (succeeds : 0 ≤ r) :
    call.Done d r after d' ∧ d.Spares d' call.file := by
  have neat : d.Neat := ran.preserves Disk.Neat neat fun d call d' neat legal stepped => by
    obtain ⟨⟨r, buf, next⟩, called, kept⟩ := Option.bind_eq_some_iff.mp stepped
    dsimp only at kept
    split at kept
    · cases kept
      exact (neat.access legal called ‹_›).1
    · cases kept
  obtain ⟨-, spares, done⟩ := neat.access legal called succeeds
  exact ⟨done, spares⟩

end Calls

section Examples

theorem nestedDisk_zero {addr : Nat} (high : 5 * 4096 ≤ addr) : nestedDisk addr = 0 := by
  have page := pgSize_eq
  unfold nestedDisk fSizeAt fTypeAt fDirectAt sRoot bitmap super
  rw [if_neg (by omega), if_neg (by omega), if_neg (by omega), if_neg (by omega), if_neg (by omega),
    if_neg (by omega), if_neg (by omega), if_neg (by omega), if_neg (by omega), if_neg (by omega),
    if_neg (by omega), if_neg (by omega), if_neg (by omega)]

theorem nestedDisk_regular {f : FilePtr} (there : nestedDisk.Live f)
    (regular : nestedDisk.fType f ≠ ftypeDir) : f = 4 * pgSize := by
  obtain ⟨path, there⟩ := there.inTree
  have only : ∀ f ∈ [sRoot, 3 * pgSize, 4 * pgSize], nestedDisk.fType f ≠ ftypeDir →
      f = 4 * pgSize := by decide +kernel
  exact only f (nestedDisk_tree there) regular

theorem nestedDisk_neat : nestedDisk.Neat := by
  have few : nestedDisk.sNblocks = 8 := by decide +kernel
  have free : ∀ block < 8, nestedDisk.blockIsFree block = true → 6 ≤ block := by decide +kernel
  have late (block : Nat) (still : nestedDisk.blockIsFree block = true) : 6 ≤ block := by
    refine free block ?_ still
    rw [Disk.blockIsFree, Bool.and_eq_true, decide_eq_true_eq, few] at still
    exact still.1
  have ends : nestedDisk.bitmapEnd = 3 * pgSize := by decide +kernel
  have page := pgSize_eq
  have slots : ∀ bno < nDirect + nIndirect, bno ≠ 0 → nestedDisk.present (4 * pgSize) bno = false := by
    decide +kernel
  have sizes : blocksFor (nestedDisk.fSize (4 * pgSize)) = 1 ∧
      (nestedDisk.fSize (4 * pgSize)).toNat = 1 ∧ nestedDisk.blockAt (4 * pgSize) 0 = 5 := by
    decide +kernel
  refine ⟨nestedDisk_wellFormed.owns (fun block still => ?_) (by decide +kernel),
    fun block still k small => ?_, fun f there regular bno high below => ?_,
    fun f there regular k high small => ?_⟩
  · have := late block still
    rw [ends, page]
    omega
  · have := late block still
    exact nestedDisk_zero (by rw [page]; omega)
  · rw [nestedDisk_regular there regular] at high ⊢
    exact slots bno below (by omega)
  · rw [nestedDisk_regular there regular] at high ⊢
    unfold Disk.byteAt
    split
    · rename_i filled
      have first : k / pgSize = 0 := by
        by_contra other
        rw [slots _ (div_block small) other] at filled
        cases filled
      rw [Disk.contents, first, sizes.2.2]
      exact nestedDisk_zero (by rw [page]; omega)
    · rfl

/-- Two bytes are written behind the end of "/a/b", whose one byte is zero. -/
theorem files_as_arrays_hole : ∃ after d',
    (Access.write (4 * pgSize) (fun _ => 98) 2 2).run nestedDisk = some (2, after, d') ∧
      d'.array (4 * pgSize) = [0, 0, 98, 98] := by
  have runs : (((Access.write (4 * pgSize) (fun _ => 98) 2 2).run nestedDisk).any fun out =>
      out.1 = 2) = true := by decide +kernel
  obtain ⟨⟨r, after, d'⟩, ran, holds⟩ := (Option.any_eq_true _ _).mp runs
  obtain rfl := of_decide_eq_true holds
  have there : nestedDisk.Live (4 * pgSize) :=
    @Disk.Live.entry _ (3 * pgSize) _ (.entry .root (by decide +kernel)
      ⟨0, by decide +kernel, by decide +kernel, 0, by decide, by decide +kernel⟩ (by decide +kernel))
      (by decide +kernel) ⟨0, by decide +kernel, by decide +kernel, 0, by decide, by decide +kernel⟩
      (by decide +kernel)
  have legal : Access.Legal nestedDisk (.write (4 * pgSize) (fun _ => 98) 2 2) :=
    ⟨there, by decide +kernel, by decide, by decide⟩
  obtain ⟨⟨-, array, -⟩, -⟩ := files_as_arrays nestedDisk_neat .nil legal ran (by decide)
  have old : nestedDisk.array (4 * pgSize) = [0] := by decide +kernel
  refine ⟨after, d', ran, array.trans ?_⟩
  rw [old]
  decide

end Examples

end Fs

end Jos
