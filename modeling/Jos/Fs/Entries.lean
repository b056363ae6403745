import Jos.Fs.Layout

/-! The files that the loop of fsformat over its arguments has added. -/

set_option autoImplicit false

namespace Jos

open Foundation Function

namespace Fs

open Disk

namespace Fsformat

/-- A file that was added: its directory, its place there and its first block. -/
structure Entry where
  dir : Flag
  slot : Nat
  start : Nat
  file : Argument

namespace Entry

def base (e : Entry) : Path := lastName e.file.name
def size (e : Entry) : Nat := e.file.contents.length
def stop (e : Entry) : Nat := e.start + total e.size

def place (e : Entry) : Nat := entsOf e.dir + fileSize * e.slot

/-- A file with its entry at `f`. The pointers that it has no use for are those that malloc
gave. -/
structure Stored (memory mem : Disk) (f : Nat) (e : Entry) : Prop where
  small : e.size < maxFileSize
  short : e.base.length < maxNameLen
  described : Described mem f e.start e.size
  unused : Unused memory e.place mem f e.size
  type : mem.fType f = ftypeReg
  name : ∀ k ≤ e.base.length, mem (f + k) = e.base.getD k 0
  contents : ∀ k < e.size, mem (e.start * pgSize + k) = e.file.contents.getD k 0

theorem Stored.move {memory mem mem' : Disk} {f f' : Nat} {e : Entry}
    (stored : e.Stored memory mem f) (same : ∀ k < fileSize, mem' (f' + k) = mem (f + k))
    (kept : ∀ k, e.start * pgSize ≤ k → k < e.stop * pgSize → mem' k = mem k) :
    e.Stored memory mem' f' where
  small := stored.small
  short := stored.short
  described := stored.described.move stored.small same fun _ => kept
  unused := stored.unused.move same
  type := by
    rw [fType_moved same]
    exact stored.type
  name := by
    intro k inside
    have short : e.base.length < 128 := stored.short
    have room : fileSize = 256 := rfl
    rw [same k (by omega)]
    exact stored.name k inside
  contents := by
    intro k inside
    have enough : e.size ≤ total e.size * pgSize := by
      rw [total, blocks, pgSize_eq]
      omega
    have whole : e.stop * pgSize = e.start * pgSize + total e.size * pgSize := Nat.add_mul _ _ _
    rw [kept _ (by omega) (by omega)]
    exact stored.contents k inside

end Entry

theorem entsOf_le (flag : Flag) : 0x10000000 ≤ entsOf flag := by
  cases flag <;> simp [entsOf]

theorem places_apart {a b : Flag} {i j : Nat} (first : i < maxDirEnts) (second : j < maxDirEnts)
    (differ : ¬(a = b ∧ i = j)) :
    entsOf a + fileSize * i + fileSize ≤ entsOf b + fileSize * j ∨
      entsOf b + fileSize * j + fileSize ≤ entsOf a + fileSize * i := by
  have most : maxDirEnts = 128 := rfl
  have room : fileSize = 256 := rfl
  cases a <;> cases b <;> simp only [entsOf, room, reduceCtorEq, true_and, false_and] at * <;> omega

theorem arrays_apart {a b : Flag} (differ : a ≠ b) :
    entsOf a + fileSize * maxDirEnts ≤ entsOf b ∨ entsOf b + fileSize * maxDirEnts ≤ entsOf a := by
  have most : fileSize * maxDirEnts = 32768 := rfl
  rw [most]
  cases a <;> cases b <;> simp [entsOf] at *

/-- The first place for a file in a directory: the root has the other two before it. -/
def firstSlot : Flag → Nat
  | .root => 2
  | .bin => 0
  | .sbin => 0

/-- The state of the loop over the arguments: the files added, one behind the other, in the
blocks from 3 up to `pos`. -/
structure Laid (nblocks : Nat) (memory begun : Disk) (dirs : Flag → Dir) (pos : Nat) (s : Format)
    (entries : List Entry) : Prop where
  most : nblocks ≤ 10240
  diskpos : s.diskpos = pos * pgSize
  fits : pos < nblocks
  low : 3 ≤ pos
  kept : ∀ k, k < 3 * pgSize ∨ (entsOf .root ≤ k ∧ k < entsOf .root + fileSize * 2) →
    s.mem k = begun k
  clean : ∀ k, pos * pgSize ≤ k → k < nblocks * pgSize → s.mem k = 0
  ents : ∀ flag, (dirs flag).ents = entsOf flag
  room : ∀ flag, (dirs flag).n ≤ maxDirEnts
  first : ∀ flag, firstSlot flag ≤ (dirs flag).n
  heap : ∀ flag k, entsOf flag + fileSize * (dirs flag).n ≤ k →
    k < entsOf flag + fileSize * maxDirEnts → s.mem k = memory k
  stored : ∀ e ∈ entries, e.Stored memory s.mem e.place
  bounds : ∀ e ∈ entries, 3 ≤ e.start ∧ e.stop ≤ pos
  order : entries.Pairwise fun a b => a.stop ≤ b.start
  slots : ∀ flag, (entries.filter fun e => e.dir = flag).map Entry.slot =
    List.range' (firstSlot flag) ((dirs flag).n - firstSlot flag)

section Step

variable {nblocks pos : Nat} {memory begun : Disk} {dirs : Flag → Dir} {s after : Format}
  {entries : List Entry}

section

variable (laid : Laid nblocks memory begun dirs pos s entries)

include laid

theorem Laid.slot_iff {flag : Flag} {j : Nat} :
    (∃ e ∈ entries, e.dir = flag ∧ e.slot = j) ↔ firstSlot flag ≤ j ∧ j < (dirs flag).n := by
  have range : j ∈ (entries.filter fun e => e.dir = flag).map Entry.slot ↔
      j ∈ List.range' (firstSlot flag) ((dirs flag).n - firstSlot flag) := by rw [laid.slots flag]
  have first := laid.first flag
  rw [List.mem_range'_1] at range
  simp only [List.mem_map, List.mem_filter, decide_eq_true_eq] at range
  constructor
  · rintro ⟨e, member, dir, slot⟩
    have bounds := range.mp ⟨e, ⟨member, dir⟩, slot⟩
    omega
  · intro bounds
    obtain ⟨e, ⟨member, dir⟩, slot⟩ := range.mpr (by omega)
    exact ⟨e, member, dir, slot⟩

theorem Laid.slot_lt {e : Entry} (member : e ∈ entries) : e.slot < (dirs e.dir).n :=
  (laid.slot_iff.mp ⟨e, member, rfl, rfl⟩).2

theorem Laid.slot_inj {a b : Entry}
    (left : a ∈ entries) (right : b ∈ entries) (dir : a.dir = b.dir) (slot : a.slot = b.slot) :
    a = b := by
  have distinct : ((entries.filter fun e => e.dir = b.dir).map Entry.slot).Nodup := by
    rw [laid.slots]
    exact List.nodup_range'
  exact List.inj_on_of_nodup_map distinct (List.mem_filter.mpr ⟨left, decide_eq_true dir⟩)
    (List.mem_filter.mpr ⟨right, decide_eq_true rfl⟩) slot

end

theorem slots_snoc {e : Entry} {a : Flag} (dir : e.dir = a) :
    ((entries ++ [e]).filter fun e => e.dir = a).map Entry.slot =
      (entries.filter fun e => e.dir = a).map Entry.slot ++ [e.slot] := by
  have only : [e].filter (fun e => e.dir = a) = [e] := by simp [dir]
  rw [List.filter_append, List.map_append, only]
  rfl

theorem slots_snoc_other {e : Entry} {a : Flag} (dir : e.dir ≠ a) :
    ((entries ++ [e]).filter fun e => e.dir = a).map Entry.slot =
      (entries.filter fun e => e.dir = a).map Entry.slot := by
  have none : [e].filter (fun e => e.dir = a) = [] := by simp [dir]
  rw [List.filter_append, List.map_append, none]
  exact List.append_nil _

/-- What `writefile` does, with the new entry at `f` and the first block `pos`. -/
structure Added (nblocks : Nat) (f pos : Nat) (arg : Argument) (s after : Format) : Prop where
  small : arg.contents.length < maxFileSize
  diskpos : after.diskpos = (pos + total arg.contents.length) * pgSize
  fits : pos + total arg.contents.length < nblocks
  described : Described after.mem f pos arg.contents.length
  unused : Unused s.mem f after.mem f arg.contents.length
  type : after.mem.fType f = ftypeReg
  name : ∀ k ≤ (lastName arg.name).length, after.mem (f + k) = (lastName arg.name).getD k 0
  contents : ∀ k < arg.contents.length, after.mem (pos * pgSize + k) = arg.contents.getD k 0
  other : ∀ k, k < f ∨ f + fileSize ≤ k →
    k < pos * pgSize ∨ (pos + total arg.contents.length) * pgSize ≤ k → after.mem k = s.mem k

/-- The new entry holds the file, and keeps the other pointers that malloc gave. -/
theorem Added.stored {e : Entry} (added : Added nblocks e.place e.start e.file s after)
    (short : e.base.length < maxNameLen)
    (heap : ∀ k, e.place ≤ k → k < e.place + fileSize → s.mem k = memory k) :
    e.Stored memory after.mem e.place := by
  have size : fileSize = 256 := rfl
  have same : ∀ field, 136 ≤ field → field < 180 →
      memory.word (e.place + field) = s.mem.word (e.place + field) := by
    intro field low high
    refine (word_congr fun k lower upper => heap k ?_ ?_).symm
    · omega
    · omega
  exact ⟨added.small, short, added.described, added.unused.congr same, added.type, added.name,
    added.contents⟩

theorem writefile_added {dir dir' : Dir} {arg : Argument} {f : Nat}
    (place : dir.ents + fileSize * dir.n = f) (behind : nblocks * pgSize ≤ f)
    (short : (lastName arg.name).length < maxNameLen) (diskpos : s.diskpos = pos * pgSize)
    (clean : ∀ k, pos * pgSize ≤ k → k < nblocks * pgSize → s.mem k = 0)
    (ran : writefile nblocks dir arg s = some (dir', after)) :
    dir.n + 1 ≤ maxDirEnts ∧ dir' = { dir with n := dir.n + 1 } ∧
      Added nblocks f pos arg s after := by
  unfold Fsformat.writefile at ran
  dsimp only at ran
  split at ran
  case isTrue => cases ran
  case isFalse small =>
    have small := not_le.mp small
    obtain ⟨⟨g, dir1, s1⟩, added, ran⟩ := Option.bind_eq_some_iff.mp ran
    dsimp only at ran
    obtain ⟨⟨start, s2⟩, alloced, ran⟩ := Option.bind_eq_some_iff.mp ran
    obtain ⟨last, finished, same⟩ := Option.map_eq_some_iff.mp ran
    cases same
    unfold diradd at added
    rw [place] at added
    dsimp only at added
    split at added
    case isTrue => cases added
    case isFalse room =>
      cases added
      obtain ⟨mem1, named⟩ : ∃ mem1, (s.mem.setName f (lastName arg.name)).setWord (fTypeAt f)
          ftypeReg = mem1 := ⟨_, rfl⟩
      rw [named] at alloced
      obtain ⟨rfl, rfl, fits⟩ := alloc_eq (s := { s with mem := mem1 })
        (Nat.lt_trans small (by decide)) diskpos alloced
      obtain ⟨size, count⟩ : ∃ size, arg.contents.length = size := ⟨_, rfl⟩
      rw [count] at finished small fits
      dsimp only at finished
      rw [blockof, Nat.mul_div_cancel _ (by decide : 0 < pgSize)] at finished
      have nameLen : (lastName arg.name).length < 128 := short
      have typeAt : fTypeAt f = f + 132 := rfl
      have size256 : fileSize = 256 := rfl
      obtain ⟨start, first⟩ : ∃ start, pos * pgSize = start := ⟨_, rfl⟩
      have split : (pos + blocks size) * pgSize = start + blocks size * pgSize := by
        rw [Nat.add_mul, first]
      have enough : size ≤ blocks size * pgSize := by
        rw [blocks, pgSize_eq]
        omega
      have end' : (pos + blocks size) * pgSize ≤ nblocks * pgSize :=
        Nat.mul_le_mul_right pgSize (Nat.le_of_lt fits)
      have next : (pos + blocks size + 1) * pgSize ≤ nblocks * pgSize :=
        Nat.mul_le_mul_right pgSize fits
      -- the memory before the type and the name are stored, and before the bytes are read
      have before1 : ∀ k, k < f ∨ f + 128 ≤ k ∧ k < f + 132 ∨ f + 136 ≤ k → mem1 k = s.mem k := by
        intro k outside
        rw [← named, setWord_other (by omega), setName_other (by omega)]
      obtain ⟨mem2, moved⟩ : ∃ mem2, Fsformat.readn mem1 (pos * pgSize) arg.contents = mem2 :=
        ⟨_, rfl⟩
      rw [moved] at finished
      have before2 : ∀ k, k < start ∨ start + size ≤ k → mem2 k = mem1 k := by
        intro k outside
        rw [← moved, first, Fsformat.readn, memmove_other (by rw [count]; exact outside)]
      have spec := finishfile_spec small (fun _ => Nat.le_trans next behind) (fun _ => rfl)
        (fun _ k low high => by
          have low : (pos + blocks size) * pgSize ≤ k := low
          change mem2 k = 0
          rw [before2 k (by omega), before1 k (by omega)]
          exact clean k (by omega) high) finished
      have fits' := spec.fits fits
      have stop : (pos + total size) * pgSize ≤ nblocks * pgSize :=
        Nat.mul_le_mul_right pgSize (Nat.le_of_lt fits')
      refine ⟨not_lt.mp room, rfl, ?_⟩
      constructor
      · rw [count]
        exact small
      · rw [count]
        exact spec.pos rfl
      · rw [count]
        exact fits'
      · rw [count]
        exact spec.described
      · rw [count]
        have pointer : ∀ field, 136 ≤ field → mem2.word (f + field) = s.mem.word (f + field) := by
          intro field low
          exact word_congr fun k lower upper => by
            rw [before2 k (by omega), before1 k (by omega)]
        refine ⟨fun i low outside => ?_, fun few => ?_⟩
        · rw [spec.unused.direct i low outside]
          have at136 : fDirectAt f i = f + (136 + 4 * i) := by rw [fDirectAt, Nat.add_assoc]
          rw [Disk.fDirect, Disk.fDirect, at136]
          exact pointer _ (by omega)
        · rw [spec.unused.indirect few]
          exact pointer 176 (by omega)
      · rw [Disk.fType]
        refine (word_congr fun k lower upper => ?_).trans
          (word_setWord (d := s.mem.setName f (lastName arg.name)))
        rw [named, spec.other k (by omega) (by omega)]
        exact before2 k (by omega)
      · intro k inside
        rw [spec.other (f + k) (by omega) (by omega)]
        change mem2 (f + k) = _
        rw [before2 _ (by omega), ← named, setWord_other (by omega), setName_here inside]
      · intro k inside
        rw [count] at inside
        rw [spec.other (pos * pgSize + k) (by omega) (by omega)]
        change mem2 (pos * pgSize + k) = _
        rw [← moved, Fsformat.readn, memmove_here (by rw [count]; exact inside), Nat.zero_add]
      · intro k outside outside'
        rw [count] at outside'
        have grow : (pos + blocks size) * pgSize ≤ (pos + total size) * pgSize :=
          Nat.mul_le_mul_right pgSize (Nat.add_le_add_left (Nat.le_add_right _ _) pos)
        rw [spec.other k (by omega) (by omega)]
        change mem2 k = _
        rw [before2 k (by omega), before1 k (by omega)]

theorem Laid.writefile (laid : Laid nblocks memory begun dirs pos s entries) {flag : Flag}
    {dir : Dir} {arg : Argument} (short : (lastName arg.name).length < maxNameLen)
    (ran : writefile nblocks (dirs flag) arg s = some (dir, after)) :
    dir = { dirs flag with n := (dirs flag).n + 1 } ∧
      Laid nblocks memory begun (update dirs flag dir) (pos + total arg.contents.length) after
        (entries ++ [⟨flag, (dirs flag).n, pos, arg⟩]) := by
  obtain ⟨e, new⟩ : ∃ e : Entry, ⟨flag, (dirs flag).n, pos, arg⟩ = e := ⟨_, rfl⟩
  have most : nblocks * pgSize ≤ 10240 * 4096 := Nat.mul_le_mul_right pgSize laid.most
  have arrays := entsOf_le flag
  have place : (dirs flag).ents + fileSize * (dirs flag).n = e.place := by
    rw [laid.ents, ← new]
    rfl
  have here : e.place = entsOf flag + fileSize * (dirs flag).n := by
    rw [← new]
    rfl
  have behind : nblocks * pgSize ≤ e.place := by omega
  obtain ⟨room, rfl, added⟩ := writefile_added place behind short laid.diskpos laid.clean ran
  refine ⟨rfl, ?_⟩
  obtain ⟨next, stop⟩ : ∃ next, pos + total arg.contents.length = next := ⟨_, rfl⟩
  have stops : next * pgSize ≤ nblocks * pgSize := by
    rw [← stop]
    exact Nat.mul_le_mul_right pgSize (Nat.le_of_lt added.fits)
  have grow : pos * pgSize ≤ next * pgSize := by
    rw [← stop]
    exact Nat.mul_le_mul_right pgSize (Nat.le_add_right _ _)
  have first : 3 * pgSize ≤ pos * pgSize := Nat.mul_le_mul_right pgSize laid.low
  have other : ∀ k, k < e.place ∨ e.place + fileSize ≤ k →
      k < pos * pgSize ∨ next * pgSize ≤ k → after.mem k = s.mem k := by
    intro k outside outside'
    rw [← stop] at outside'
    exact added.other k outside outside'
  -- the entries of the arrays that are not the new one
  have apart : ∀ a i, i < maxDirEnts → ¬(a = flag ∧ i = (dirs flag).n) →
      ∀ k < fileSize, after.mem (entsOf a + fileSize * i + k) = s.mem (entsOf a + fileSize * i + k) := by
    intro a i low differ k inside
    have arrays := entsOf_le a
    have sides := places_apart low (show (dirs flag).n < maxDirEnts from room) differ
    exact other _ (by omega) (by omega)
  have size256 : fileSize = 256 := rfl
  have inside : fileSize * (dirs flag).n + fileSize ≤ fileSize * maxDirEnts := by
    rw [← Nat.mul_succ]
    exact Nat.mul_le_mul_left fileSize room
  have self : update dirs flag { dirs flag with n := (dirs flag).n + 1 } flag =
      { dirs flag with n := (dirs flag).n + 1 } := update_self _ _ _
  have rest : ∀ a, a ≠ flag → update dirs flag { dirs flag with n := (dirs flag).n + 1 } a = dirs a :=
    fun a differ => update_of_ne differ _ _
  rw [new, stop]
  constructor
  · exact laid.most
  · rw [added.diskpos, stop]
  · rw [← stop]
    exact added.fits
  · rw [← stop]
    exact Nat.le_trans laid.low (Nat.le_add_right _ _)
  · intro k where'
    rw [← laid.kept k where']
    have beyond : entsOf .root + fileSize * 2 ≤ e.place := by
      have slot := laid.first flag
      cases flag
      · have slot := Nat.mul_le_mul_left fileSize (show 2 ≤ (dirs .root).n from slot)
        omega
      · have root : entsOf .root = 0x10000000 := rfl
        have bin : entsOf .bin = 0x20000000 := rfl
        omega
      · have root : entsOf .root = 0x10000000 := rfl
        have sbin : entsOf .sbin = 0x30000000 := rfl
        omega
    have root := entsOf_le .root
    exact other k (by omega) (by omega)
  · intro k low high
    rw [other k (by omega) (by omega)]
    exact laid.clean k (by omega) high
  · intro a
    by_cases same : a = flag
    · rw [same, self]
      exact laid.ents flag
    · rw [rest a same]
      exact laid.ents a
  · intro a
    by_cases same : a = flag
    · rw [same, self]
      exact room
    · rw [rest a same]
      exact laid.room a
  · intro a
    by_cases same : a = flag
    · rw [same, self]
      exact Nat.le_succ_of_le (laid.first flag)
    · rw [rest a same]
      exact laid.first a
  · intro a k low high
    have arrays := entsOf_le a
    by_cases same : a = flag
    · subst same
      rw [self] at low
      dsimp only at low
      rw [Nat.mul_succ] at low
      rw [other k (by omega) (by omega)]
      exact laid.heap a k (by omega) high
    · rw [rest a same] at low
      have sides := arrays_apart same
      rw [other k (by omega) (by omega)]
      exact laid.heap a k low high
  · intro e' member
    rcases List.mem_append.mp member with old | last
    · have slot := laid.slot_lt old
      have count := laid.room e'.dir
      have low : e'.stop * pgSize ≤ pos * pgSize :=
        Nat.mul_le_mul_right pgSize (laid.bounds e' old).2
      refine (laid.stored e' old).move (apart e'.dir e'.slot (by omega) ?_) ?_
      · rintro ⟨dir, slot'⟩
        rw [dir] at slot
        omega
      · exact fun k _ high => other k (by omega) (by omega)
    · obtain rfl := List.mem_singleton.mp last
      subst new
      exact added.stored short fun k low high => laid.heap flag k low (by omega)
  · intro e' member
    rcases List.mem_append.mp member with old | last
    · have bounds := laid.bounds e' old
      omega
    · obtain rfl := List.mem_singleton.mp last
      subst new
      exact ⟨laid.low, Nat.le_of_eq stop⟩
  · refine List.pairwise_append.mpr ⟨laid.order, List.pairwise_singleton _ _, ?_⟩
    intro a old b last
    obtain rfl := List.mem_singleton.mp last
    subst new
    exact (laid.bounds a old).2
  · intro a
    have slots := laid.slots a
    have least := laid.first a
    by_cases same : a = flag
    · subst same
      have more : (dirs a).n + 1 - firstSlot a = (dirs a).n - firstSlot a + 1 := by omega
      have last : firstSlot a + ((dirs a).n - firstSlot a) = (dirs a).n := by omega
      rw [self, slots_snoc (by rw [← new]), slots]
      dsimp only
      rw [more, List.range'_1_concat, last, ← new]
    · rw [rest a same, slots_snoc_other (by rw [← new]; exact Ne.symm same), slots]

end Step

def assigned : List Argument → Flag → List (Flag × Argument)
  | [], _ => []
  | arg :: rest, flag =>
    if arg.name = optionBin then assigned rest .bin
    else if arg.name = optionSbin then assigned rest .sbin
    else (flag, arg) :: assigned rest flag

/-- Where the files are put, from the first free places and the first free block on. -/
def layout : List (Flag × Argument) → (Flag → Nat) → Nat → List Entry
  | [], _, _ => []
  | (flag, arg) :: rest, slots, pos =>
    ⟨flag, slots flag, pos, arg⟩ ::
      layout rest (update slots flag (slots flag + 1)) (pos + total arg.contents.length)

def layoutEnd : List (Flag × Argument) → Nat → Nat
  | [], pos => pos
  | (_, arg) :: rest, pos => layoutEnd rest (pos + total arg.contents.length)

section Run

variable {nblocks pos : Nat} {memory begun : Disk} {dirs dirs' : Flag → Dir} {s after : Format}
  {entries : List Entry}

theorem Laid.addArguments {args : List Argument} {flag : Flag}
    (laid : Laid nblocks memory begun dirs pos s entries)
    (short : ∀ a ∈ assigned args flag, (lastName a.2.name).length < maxNameLen)
    (ran : addArguments nblocks args flag dirs s = some (dirs', after)) :
    Laid nblocks memory begun dirs' (layoutEnd (assigned args flag) pos) after
      (entries ++ layout (assigned args flag) (fun a => (dirs a).n) pos) ∧
      ∀ a, (dirs' a).f = (dirs a).f := by
  induction args generalizing flag dirs pos s entries with
  | nil =>
    cases ran
    rw [assigned, layout, List.append_nil]
    exact ⟨laid, fun _ => rfl⟩
  | cons arg rest ih =>
    rw [Fsformat.addArguments] at ran
    rw [assigned] at short ⊢
    split at ran
    · rename_i bin
      rw [if_pos bin] at short ⊢
      exact ih laid short ran
    · rename_i other
      rw [if_neg other] at short ⊢
      split at ran
      · rename_i sbin
        rw [if_pos sbin] at short ⊢
        exact ih laid short ran
      · rename_i file
        rw [if_neg file] at short ⊢
        obtain ⟨⟨dir, s1⟩, wrote, ran⟩ := Option.bind_eq_some_iff.mp ran
        obtain ⟨rfl, next⟩ := laid.writefile (short (flag, arg) List.mem_cons_self) wrote
        obtain ⟨last, files⟩ :=
          ih next (fun a member => short a (List.mem_cons_of_mem _ member)) ran
        have slots : (fun a => (update dirs flag { dirs flag with n := (dirs flag).n + 1 } a).n) =
            update (fun a => (dirs a).n) flag ((dirs flag).n + 1) := by
          funext a
          rw [update_apply, update_apply]
          split <;> rfl
        rw [List.append_assoc, slots] at last
        refine ⟨last, fun a => ?_⟩
        rw [files a, update_apply]
        split
        · rename_i same
          rw [same]
        · rfl

end Run

def dirFile : Flag → Nat
  | .root => sRoot
  | .bin => entsOf .root + fileSize * 0
  | .sbin => entsOf .root + fileSize * 1

def dirName : Flag → Path
  | .root => [slash]
  | .bin => nameBin
  | .sbin => nameSbin

structure Begun (nblocks : Nat) (memory mem : Disk) : Prop where
  count : mem.sNblocks = nblocks
  type : ∀ flag, mem.fType (dirFile flag) = ftypeDir
  bits : ∀ k < pgSize, mem (bitmap + k) = 0xFF
  rootPointer : ∀ field, 136 ≤ field → field < 180 → mem.word (sRoot + field) = 0
  name : ∀ flag, flag ≠ .root → ∀ k ≤ (dirName flag).length,
    mem (dirFile flag + k) = (dirName flag).getD k 0
  pointer : ∀ flag, flag ≠ .root → ∀ field, 136 ≤ field → field < 180 →
    mem.word (dirFile flag + field) = memory.word (dirFile flag + field)

section Opening

variable {nblocks : Nat} {memory mem : Disk} {s after : Format}

/-- The memory that `opendisk` leaves. -/
structure Opened (nblocks : Nat) (memory mem : Disk) : Prop where
  count : mem.sNblocks = nblocks
  type : mem.fType sRoot = ftypeDir
  bits : ∀ k < pgSize, mem (bitmap + k) = 0xFF
  zero : ∀ k, k < nblocks * pgSize → 4240 ≤ k → k < 4360 ∨ 3 * pgSize ≤ k → mem k = 0
  rest : ∀ k, nblocks * pgSize ≤ k → 3 * pgSize ≤ k → mem k = memory k

theorem opendisk_spec (most : nblocks ≤ 10240) (least : 2 ≤ nblocks)
    (ran : opendisk nblocks memory = some s) :
    s.diskpos = 3 * pgSize ∧ 3 < nblocks ∧ Opened nblocks memory s.mem := by
  unfold opendisk at ran
  dsimp only at ran
  obtain ⟨⟨a0, s0⟩, first, ran⟩ := Option.bind_eq_some_iff.mp ran
  obtain ⟨-, rfl, -⟩ := alloc_eq (by decide) (show 0 = 0 * pgSize from (Nat.zero_mul _).symm) first
  obtain ⟨⟨a1, s1⟩, second, ran⟩ := Option.bind_eq_some_iff.mp ran
  obtain ⟨rfl, rfl, -⟩ := alloc_eq (by decide) (show _ = 1 * pgSize from rfl) second
  obtain ⟨⟨a2, s2⟩, third, same⟩ := Option.map_eq_some_iff.mp ran
  have one : (nblocks + blkBitSize - 1) / blkBitSize = 1 := by
    have bits : blkBitSize = 32768 := rfl
    rw [bits]
    omega
  rw [one, Nat.one_mul] at third same
  obtain ⟨rfl, rfl, fits⟩ := alloc_eq (by decide) (show _ = 2 * pgSize from rfl) third
  subst same
  have fits : 3 < nblocks := fits
  have page := pgSize_eq
  have size : 3 * 4096 < nblocks * pgSize := by
    rw [page]
    omega
  have super' : 1 * pgSize = 4096 := rfl
  have third' : 2 * pgSize = 8192 := rfl
  obtain ⟨mem0, zeros⟩ : ∃ mem0 : Disk, (fun k => if k < nblocks * pgSize then 0 else memory k) = mem0 :=
    ⟨_, rfl⟩
  have zero : ∀ k, k < nblocks * pgSize → mem0 k = 0 := by
    intro k low
    rw [← zeros]
    exact if_pos low
  refine ⟨rfl, fits, ?_⟩
  obtain ⟨mem1, stored⟩ : ∃ mem1, (((mem0.setWord 4096 fsMagic).setWord 4100
    (BitVec.ofNat 32 nblocks)).setWord 4236 ftypeDir) = mem1 := ⟨_, rfl⟩
  obtain ⟨mem2, named⟩ : ∃ mem2, mem1.setName 4104 [slash] = mem2 := ⟨_, rfl⟩
  obtain ⟨mem3, filled⟩ : ∃ mem3, memset mem2 8192 0xFF 4096 = mem3 := ⟨_, rfl⟩
  have equal : Opened nblocks memory mem3 := by
    have length : ([slash] : Path).length = 1 := rfl
    have before2 : ∀ k, k < 4104 ∨ 4106 ≤ k → k < 8192 ∨ 12288 ≤ k → mem3 k = mem1 k := by
      intro k outside outside'
      have apart : ¬(8192 ≤ k ∧ k < 8192 + 4096) := by omega
      rw [← filled, memset, if_neg apart, ← named, setName_other (by rw [length]; omega)]
    have before0 : ∀ k, 4240 ≤ k → k < 8192 ∨ 12288 ≤ k → mem3 k = mem0 k := by
      intro k low outside
      rw [before2 k (by omega) outside, ← stored, setWord_other (by omega),
        setWord_other (by omega), setWord_other (by omega)]
    constructor
    · have count : mem3.word 4100 = BitVec.ofNat 32 nblocks := by
        rw [word_congr fun k lower upper => before2 k (by omega) (by omega), ← stored,
          word_setWord_other (by omega), word_setWord]
      change (mem3.word 4100).toNat = nblocks
      rw [count, toNat_ofNat32 (by omega)]
    · change mem3.word 4236 = _
      rw [word_congr fun k lower upper => before2 k (by omega) (by omega), ← stored, word_setWord]
    · intro k inside
      have here : 8192 ≤ 8192 + k ∧ 8192 + k < 8192 + 4096 := by omega
      rw [← filled]
      exact if_pos here
    · intro k low start place
      rw [before0 k start (by omega)]
      exact zero k low
    · intro k high beyond
      rw [before0 k (by omega) (by omega), ← zeros]
      exact if_neg (not_lt.mpr high)
  rw [← filled, ← named, ← stored, ← zeros] at equal
  exact equal

/-- The memory with the first two entries of the root, for "bin" and "sbin". -/
def withDirs (mem : Disk) : Disk :=
  (setName (setWord (setName mem 0x10000000 nameBin) 0x10000084 ftypeDir) 0x10000100
    nameSbin).setWord 0x10000184 ftypeDir

theorem withDirs_other {k : Nat} (outside : k < 0x10000000 ∨ 0x10000088 ≤ k ∧ k < 0x10000100 ∨
    0x10000188 ≤ k) : withDirs mem k = mem k := by
  have bin : nameBin.length = 3 := rfl
  have sbin : nameSbin.length = 4 := rfl
  rw [withDirs, setWord_other (by omega), setName_other (by omega), setWord_other (by omega),
    setName_other (by omega)]

theorem Opened.begun (opened : Opened nblocks memory mem) (most : nblocks ≤ 10240)
    (fits : 3 < nblocks) : Begun nblocks memory (withDirs mem) := by
  have below : nblocks * pgSize ≤ 10240 * 4096 := Nat.mul_le_mul_right pgSize most
  have above : 4 * 4096 ≤ nblocks * pgSize := Nat.mul_le_mul_right pgSize fits
  have bin : nameBin.length = 3 := rfl
  have sbin : nameSbin.length = 4 := rfl
  have low : ∀ addr, addr + 4 ≤ 0x10000000 → (withDirs mem).word addr = mem.word addr :=
    fun addr low => word_congr fun k _ upper => withDirs_other (by omega)
  -- the pointers of the two entries
  have pointer : ∀ flag, flag ≠ .root → ∀ field, 136 ≤ field → field < 180 →
      (withDirs mem).word (dirFile flag + field) = word memory (dirFile flag + field) := by
    intro flag inner field lower upper
    cases flag
    · exact absurd rfl inner
    · have place : dirFile .bin = 0x10000000 := rfl
      exact word_congr fun k lower upper => by
        rw [withDirs_other (by omega)]
        exact opened.rest k (by omega) (by rw [pgSize_eq]; omega)
    · have place : dirFile .sbin = 0x10000100 := rfl
      exact word_congr fun k lower upper => by
        rw [withDirs_other (by omega)]
        exact opened.rest k (by omega) (by rw [pgSize_eq]; omega)
  constructor
  · rw [← opened.count]
    exact congrArg BitVec.toNat (low 4100 (by omega))
  · intro flag
    cases flag
    · rw [← opened.type]
      exact low 4236 (by omega)
    · change (withDirs mem).word 0x10000084 = _
      rw [withDirs, word_setWord_other (by omega),
        word_congr fun k lower upper => setName_other (by omega), word_setWord]
    · change (withDirs mem).word 0x10000184 = _
      rw [withDirs, word_setWord]
  · intro k inside
    rw [pgSize_eq] at inside
    have place : bitmap = 8192 := rfl
    rw [withDirs_other (by omega)]
    exact opened.bits k inside
  · intro field lower upper
    have place : sRoot + field = 4104 + field := rfl
    rw [place, low _ (by omega)]
    exact word_zero fun k lower upper => opened.zero k (by omega) (by omega) (by omega)
  · intro flag inner k inside
    cases flag
    · exact absurd rfl inner
    · have inside : k ≤ 3 := inside
      change withDirs mem (0x10000000 + k) = nameBin.getD k 0
      rw [withDirs, setWord_other (by omega), setName_other (by omega), setWord_other (by omega),
        setName_here inside]
    · have inside : k ≤ 4 := inside
      change withDirs mem (0x10000100 + k) = nameSbin.getD k 0
      rw [withDirs, setWord_other (by omega), setName_here inside]
  · exact pointer

theorem begins {args : List Argument} {d : Disk} (ran : main nblocks args memory = some d) :
    ∃ (dirs dirs' : Flag → Dir) (s s1 s2 s3 s4 : Format),
      Begun nblocks memory s.mem ∧ Laid nblocks memory s.mem dirs 3 s [] ∧
      (∀ flag, (dirs flag).f = dirFile flag) ∧ (∀ flag, (dirs flag).n = firstSlot flag) ∧
      addArguments nblocks args .root dirs s = some (dirs', s1) ∧
      finishdir nblocks (dirs' .bin) s1 = some s2 ∧ finishdir nblocks (dirs' .sbin) s2 = some s3 ∧
      finishdir nblocks (dirs' .root) s3 = some s4 ∧ finishdisk s4 = d := by
  unfold main at ran
  split at ran
  · cases ran
  · rename_i legal
    obtain ⟨s0, opened, ran⟩ := Option.bind_eq_some_iff.mp ran
    obtain ⟨diskpos, fits, opened⟩ := opendisk_spec (by omega) (by omega) opened
    obtain ⟨⟨b, root, s1⟩, first, ran⟩ := Option.bind_eq_some_iff.mp ran
    dsimp only at ran
    obtain ⟨⟨sb, root', s2⟩, second, ran⟩ := Option.bind_eq_some_iff.mp ran
    dsimp only at ran
    obtain ⟨⟨dirs', s3⟩, added, ran⟩ := Option.bind_eq_some_iff.mp ran
    obtain ⟨s4, bin, ran⟩ := Option.bind_eq_some_iff.mp ran
    obtain ⟨s5, sbin, ran⟩ := Option.bind_eq_some_iff.mp ran
    obtain ⟨s6, root'', same⟩ := Option.map_eq_some_iff.mp ran
    cases first
    cases second
    have most : nblocks ≤ 10240 := by omega
    have below : nblocks * pgSize ≤ 10240 * 4096 := Nat.mul_le_mul_right pgSize most
    have above : 3 * pgSize ≤ nblocks * pgSize := Nat.mul_le_mul_right pgSize (Nat.le_of_lt fits)
    refine ⟨_, dirs', ⟨withDirs s0.mem, s0.diskpos⟩, s3, s4, s5, s6, opened.begun most fits, ?_, ?_, ?_,
      added, bin, sbin, root'', same⟩
    · constructor
      · exact most
      · exact diskpos
      · exact fits
      · exact le_refl 3
      · exact fun _ _ => rfl
      · intro k low high
        change withDirs s0.mem k = 0
        rw [withDirs_other (by omega)]
        exact opened.zero k high (by rw [pgSize_eq] at low; omega) (.inr low)
      · intro flag
        cases flag <;> rfl
      · intro flag
        cases flag <;> decide
      · intro flag
        cases flag <;> decide
      · intro flag k low _
        change withDirs s0.mem k = memory k
        have place : 0x10000200 ≤ k := by
          cases flag
          · exact low
          · exact Nat.le_trans (by decide) low
          · exact Nat.le_trans (by decide) low
        rw [withDirs_other (by omega)]
        exact opened.rest k (by omega) (by omega)
      · intro e member
        cases member
      · intro e member
        cases member
      · exact List.Pairwise.nil
      · intro flag
        cases flag <;> rfl
    · intro flag
      cases flag <;> rfl
    · intro flag
      cases flag <;> rfl

end Opening

end Fsformat

end Fs

end Jos
