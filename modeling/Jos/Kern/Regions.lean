import Jos.Kern.Multiboot
import Mathlib.Algebra.BigOperators.Group.List.Basic
import Mathlib.Data.BitVec
import Mathlib.Data.List.Pairwise
import Mathlib.Data.List.Sort
import Mathlib.Logic.Function.Basic

/-! `multiboot_read` of kern/pmap.c: the cells of `mmap_list` that it uses, and what it adds up
of the regions of a map. -/

set_option autoImplicit false

namespace Jos

open Function

namespace Regions

/-- `mmap_list`, and what lies behind it on the stack. -/
abbrev Cells := Nat → MemoryMap

/-- The loop over `j`: where it stops, and the cells that it reads. -/
def findPlace (cells : Cells) (addr : BitVec 64) : Nat → Nat → Nat × List Nat
  | 0, j => (j, [])
  | rounds + 1, j =>
    if (cells j).addr > addr then (j, [j])
    else ((findPlace cells addr rounds (j + 1)).1, j :: (findPlace cells addr rounds (j + 1)).2)

/-- The loop over `last`, from `j + count` down to `j`. -/
def shiftUp (j : Nat) : Nat → Cells → Cells × List Nat
  | 0, cells => (cells, [])
  | count + 1, cells =>
    let last := j + count + 1
    let r := shiftUp j count (update cells last (cells (last - 1)))
    (r.1, (last - 1) :: last :: r.2)

/-- A round of the first loop, with the cells that it reads and writes. -/
def insertRound (i : Nat) (mmap : MemoryMap) (cells : Cells) : Cells × List Nat :=
  let (j, reads) := findPlace cells mmap.addr i 0
  if j < i then
    let (cells, moved) := shiftUp j (i + 1 - j) cells
    (update cells j (checkType mmap), reads ++ (moved ++ [j]))
  else (update cells j (checkType mmap), reads ++ [j])

def insertRounds : Nat → List MemoryMap → Cells → Cells × List Nat
  | _, [], cells => (cells, [])
  | i, mmap :: mmaps, cells =>
    let (cells, used) := insertRound i mmap cells
    let (cells, later) := insertRounds (i + 1) mmaps cells
    (cells, used ++ later)

/-- The cells that `multiboot_read` uses, in its three loops, and its list after the first. The
second loop uses the cells `i - 1` and `i`, and the third the cell `i`. -/
def multibootUses (mmaps : List MemoryMap) (stack : Cells) : List Nat × List MemoryMap :=
  let (cells, used) := insertRounds 0 mmaps stack
  (used ++ ((List.range' 1 (mmaps.length - 1)).flatMap fun i => [i - 1, i]) ++
    List.range mmaps.length, (List.range mmaps.length).map cells)

def listed (cells : Cells) (n : Nat) : List MemoryMap := (List.range n).map cells

section
variable {cells : Cells} {addr : BitVec 64} {mmap : MemoryMap} {i j n : Nat}

theorem findPlace_spec (cells : Cells) (addr : BitVec 64) (rounds j : Nat) :
    j ≤ (findPlace cells addr rounds j).1 ∧ (findPlace cells addr rounds j).1 ≤ j + rounds ∧
      (∀ k, j ≤ k → k < (findPlace cells addr rounds j).1 → ¬ (cells k).addr > addr) ∧
      ((findPlace cells addr rounds j).1 < j + rounds →
        (cells (findPlace cells addr rounds j).1).addr > addr) ∧
      ∀ k ∈ (findPlace cells addr rounds j).2, k < j + rounds := by
  induction rounds generalizing j with
  | zero =>
    exact ⟨Nat.le_refl _, Nat.le_refl _,
      fun k low high => absurd high (by simp [findPlace]; omega), fun less => absurd less (lt_irrefl _), nofun⟩
  | succ rounds ih =>
    unfold findPlace
    by_cases later : (cells j).addr > addr
    · rw [if_pos later]
      refine ⟨Nat.le_refl _, by omega, fun k low high => absurd low (by omega), fun _ => later,
        fun k inside => ?_⟩
      rw [List.mem_singleton.mp inside]
      omega
    · rw [if_neg later]
      obtain ⟨low, high, before, stops, reads⟩ := ih (j + 1)
      refine ⟨by omega, by omega, fun k first last => ?_, fun less => stops (by omega),
        fun k inside => ?_⟩
      · rcases Nat.eq_or_lt_of_le first with rfl | more
        · exact later
        · exact before k more last
      · rcases List.mem_cons.mp inside with rfl | inside
        · omega
        · have bound := reads k inside
          omega

/-- The cells from `j` on move up by one. -/
theorem shiftUp_spec (j count : Nat) (cells : Cells) (k : Nat) :
    (shiftUp j count cells).1 k =
      if j < k ∧ k ≤ j + count then cells (k - 1) else cells k := by
  induction count generalizing cells with
  | zero =>
    have none : ¬ (j < k ∧ k ≤ j + 0) := by omega
    rw [if_neg none]
    rfl
  | succ count ih =>
    unfold shiftUp
    simp only [ih]
    by_cases top : k = j + count + 1
    · subst top
      have outside : ¬ (j < j + count + 1 ∧ j + count + 1 ≤ j + count) := by omega
      have inside : j < j + count + 1 ∧ j + count + 1 ≤ j + (count + 1) := by omega
      rw [if_neg outside, if_pos inside, update_self]
    · rw [update_of_ne top]
      by_cases moved : j < k ∧ k ≤ j + count
      · have same : j < k ∧ k ≤ j + (count + 1) := ⟨moved.1, by omega⟩
        rw [if_pos moved, if_pos same, update_of_ne (by omega)]
      · have other : ¬ (j < k ∧ k ≤ j + (count + 1)) := by omega
        rw [if_neg moved, if_neg other]

theorem shiftUp_uses (j count : Nat) (cells : Cells) :
    (∀ k ∈ (shiftUp j count cells).2, k ≤ j + count) ∧
      (0 < count → j + count ∈ (shiftUp j count cells).2) := by
  induction count generalizing cells with
  | zero => exact ⟨nofun, fun none => absurd none (lt_irrefl 0)⟩
  | succ count ih =>
    unfold shiftUp
    simp only
    refine ⟨fun k inside => ?_, fun _ => List.mem_cons_of_mem _ List.mem_cons_self⟩
    rcases List.mem_cons.mp inside with rfl | inside
    · omega
    · rcases List.mem_cons.mp inside with rfl | inside
      · omega
      · have bound := (ih _).1 k inside
        omega

theorem checkType_addr (mmap : MemoryMap) : (checkType mmap).addr = mmap.addr := by
  unfold checkType
  split <;> rfl

theorem insertRound_cells (i : Nat) (mmap : MemoryMap) (cells : Cells) {k : Nat} (inside : k ≤ i) :
    let j := (findPlace cells mmap.addr i 0).1
    (insertRound i mmap cells).1 k =
      if k < j then cells k else if k = j then checkType mmap else cells (k - 1) := by
  obtain ⟨-, high, -, -, -⟩ := findPlace_spec cells mmap.addr i 0
  unfold insertRound
  generalize findPlace cells mmap.addr i 0 = place at high
  obtain ⟨j, reads⟩ := place
  simp only at high ⊢
  by_cases before : j < i
  · rw [if_pos before]
    dsimp only
    by_cases here : k = j
    · subst here
      rw [update_self, if_neg (lt_irrefl k), if_pos rfl]
    · rw [update_of_ne here, shiftUp_spec]
      by_cases less : k < j
      · have outside : ¬ (j < k ∧ k ≤ j + (i + 1 - j)) := by omega
        rw [if_neg outside, if_pos less]
      · have moved : j < k ∧ k ≤ j + (i + 1 - j) := by omega
        rw [if_pos moved, if_neg less, if_neg here]
  · rw [if_neg before]
    dsimp only
    by_cases here : k = j
    · subst here
      rw [update_self, if_neg (lt_irrefl k), if_pos rfl]
    · have less : k < j := by omega
      rw [update_of_ne here, if_pos less]

/-- The cells of a round are in the array, unless a region is put in front of others in the
last one. -/
theorem insertRound_uses (i : Nat) (mmap : MemoryMap) (cells : Cells) :
    (∀ k ∈ (insertRound i mmap cells).2, k ≤ i + 1) ∧
      (i + 1 ∈ (insertRound i mmap cells).2 ↔ ∃ k < i, (cells k).addr > mmap.addr) := by
  obtain ⟨-, high, before, stops, reads⟩ := findPlace_spec cells mmap.addr i 0
  unfold insertRound
  generalize findPlace cells mmap.addr i 0 = place at high before stops reads
  obtain ⟨j, used⟩ := place
  simp only [Nat.zero_add] at high before stops reads ⊢
  by_cases found : j < i
  · rw [if_pos found]
    have moved := shiftUp_uses j (i + 1 - j) cells
    have top : j + (i + 1 - j) = i + 1 := by omega
    rw [top] at moved
    refine ⟨fun k inside => ?_, iff_of_true ?_ ⟨j, found, stops found⟩⟩
    · rcases List.mem_append.mp inside with inside | inside
      · exact Nat.le_succ_of_le (reads k inside).le
      · rcases List.mem_append.mp inside with inside | inside
        · exact moved.1 k inside
        · rw [List.mem_singleton.mp inside]
          omega
    · exact List.mem_append_right _ (List.mem_append_left _ (moved.2 (by omega)))
  · rw [if_neg found]
    refine ⟨fun k inside => ?_, iff_of_false (fun inside => ?_) ?_⟩
    · rcases List.mem_append.mp inside with inside | inside
      · exact Nat.le_succ_of_le (reads k inside).le
      · rw [List.mem_singleton.mp inside]
        omega
    · rcases List.mem_append.mp inside with inside | inside
      · have bound := reads _ inside
        omega
      · have same := List.mem_singleton.mp inside
        omega
    · rintro ⟨k, less, later⟩
      exact before k (Nat.zero_le k) (by omega) later

theorem insertSorted_eq {mmap : MemoryMap} {list : List MemoryMap} {j : Nat}
    (high : j ≤ list.length) (before : ∀ k this, k < j → list[k]? = some this → ¬ this.addr > mmap.addr)
    (stops : ∀ this, list[j]? = some this → this.addr > mmap.addr) :
    insertSorted mmap list = list.take j ++ mmap :: list.drop j := by
  induction list generalizing j with
  | nil =>
    obtain rfl := Nat.le_zero.mp high
    rfl
  | cons this list ih =>
    cases j with
    | zero =>
      rw [insertSorted, if_pos (stops this rfl)]
      rfl
    | succ j =>
      rw [insertSorted, if_neg (before 0 this (Nat.succ_pos j) rfl),
        ih (Nat.le_of_succ_le_succ high) (fun k other less here =>
          before (k + 1) other (Nat.succ_lt_succ less) here) fun other here => stops other here]
      rfl

theorem listed_getElem? (cells : Cells) {n k : Nat} (inside : k < n) :
    (listed cells n)[k]? = some (cells k) := by
  rw [listed, List.getElem?_map, List.getElem?_range inside]
  rfl

theorem listed_insertRound (i : Nat) (mmap : MemoryMap) (cells : Cells) :
    listed (insertRound i mmap cells).1 (i + 1) = insertSorted (checkType mmap) (listed cells i) := by
  obtain ⟨-, high, before, stops, -⟩ := findPlace_spec cells mmap.addr i 0
  have placed {k : Nat} (inside : k ≤ i) := insertRound_cells i mmap cells inside
  simp only at placed
  generalize (findPlace cells mmap.addr i 0).1 = j at high before stops placed
  rw [Nat.zero_add] at high stops
  have length : (listed cells i).length = i := by simp [listed]
  have inserted := @insertSorted_eq (checkType mmap) (listed cells i) j (by omega)
    (fun k this less here => by
      rw [listed_getElem? cells (by omega)] at here
      cases here
      rw [checkType_addr]
      exact before k (Nat.zero_le k) less)
    (fun this here => by
      have less : j < i := by
        have bound := (List.getElem?_eq_some_iff.mp here).1
        omega
      rw [listed_getElem? cells less] at here
      cases here
      rw [checkType_addr]
      exact stops less)
  rw [inserted]
  refine List.ext_getElem? fun k => ?_
  by_cases inside : k ≤ i
  · rw [listed_getElem? _ (Nat.lt_succ_of_le inside), placed inside]
    by_cases less : k < j
    · rw [if_pos less, List.getElem?_append_left (by rw [List.length_take]; omega),
        List.getElem?_take_of_lt less, listed_getElem? cells (by omega)]
    · rw [if_neg less, List.getElem?_append_right (by rw [List.length_take]; omega),
        List.length_take, length, min_eq_left high]
      by_cases here : k = j
      · subst here
        rw [if_pos rfl, Nat.sub_self]
        rfl
      · have behind := Nat.lt_of_le_of_ne (Nat.le_of_not_lt less) (Ne.symm here)
        obtain ⟨d, rfl⟩ := Nat.exists_eq_add_of_lt behind
        have index : j + d + 1 - j = d + 1 := by omega
        rw [if_neg here, index, List.getElem?_cons_succ, List.getElem?_drop,
          listed_getElem? cells (by omega)]
        rfl
  · rw [List.getElem?_eq_none (by simp [listed]; omega), List.getElem?_eq_none]
    rw [List.length_append, List.length_take, List.length_cons, List.length_drop]
    omega

theorem listed_insertRounds (i : Nat) (mmaps : List MemoryMap) (cells : Cells) :
    listed (insertRounds i mmaps cells).1 (i + mmaps.length) =
      mmaps.foldl (fun list mmap => insertSorted (checkType mmap) list) (listed cells i) := by
  induction mmaps generalizing i cells with
  | nil => rfl
  | cons mmap mmaps ih =>
    have later := ih (i + 1) (insertRound i mmap cells).1
    rw [listed_insertRound] at later
    rw [List.length_cons, ← Nat.add_assoc, Nat.add_right_comm, List.foldl_cons]
    exact later

theorem insertSorted_perm (mmap : MemoryMap) (list : List MemoryMap) :
    (insertSorted mmap list).Perm (mmap :: list) := by
  induction list with
  | nil => exact .refl _
  | cons this list ih =>
    unfold insertSorted
    split
    · exact .refl _
    · exact (ih.cons this).trans (.swap ..)

/-- The rounds use no cell behind the array, unless the last region is put in front of others. -/
theorem insertRounds_uses (i : Nat) (mmaps : List MemoryMap) (last : MemoryMap) (cells : Cells) :
    (∀ k ∈ (insertRounds i (mmaps ++ [last]) cells).2, k ≤ i + mmaps.length + 1) ∧
      (i + mmaps.length + 1 ∈ (insertRounds i (mmaps ++ [last]) cells).2 ↔
        ∃ this ∈ mmaps.foldl (fun list mmap => insertSorted (checkType mmap) list) (listed cells i),
          this.addr > last.addr) := by
  induction mmaps generalizing i cells with
  | nil =>
    obtain ⟨bound, used⟩ := insertRound_uses i last cells
    have single : (insertRounds i ([] ++ [last]) cells).2 = (insertRound i last cells).2 :=
      List.append_nil _
    rw [single]
    refine ⟨bound, used.trans ⟨?_, ?_⟩⟩
    · rintro ⟨k, less, later⟩
      exact ⟨cells k, List.mem_map_of_mem (List.mem_range.mpr less), later⟩
    · rintro ⟨this, inside, later⟩
      obtain ⟨k, less, rfl⟩ := List.mem_map.mp inside
      exact ⟨k, List.mem_range.mp less, later⟩
  | cons mmap mmaps ih =>
    obtain ⟨first, -⟩ := insertRound_uses i mmap cells
    obtain ⟨bound, used⟩ := ih (i + 1) (insertRound i mmap cells).1
    have split : (insertRounds i (mmap :: mmaps ++ [last]) cells).2 =
        (insertRound i mmap cells).2 ++
          (insertRounds (i + 1) (mmaps ++ [last]) (insertRound i mmap cells).1).2 := rfl
    have count : i + (mmap :: mmaps).length + 1 = i + 1 + mmaps.length + 1 := by
      rw [List.length_cons]
      omega
    rw [listed_insertRound] at used
    rw [split, count, List.foldl_cons, ← used]
    refine ⟨fun k inside => ?_, fun inside => ?_, fun inside => List.mem_append_right _ inside⟩
    · rcases List.mem_append.mp inside with inside | inside
      · have small := first k inside
        omega
      · exact bound k inside
    · rcases List.mem_append.mp inside with inside | inside
      · have small := first _ inside
        omega
      · exact inside

theorem foldl_insertSorted_perm (mmaps list : List MemoryMap) :
    (mmaps.foldl (fun list mmap => insertSorted (checkType mmap) list) list).Perm
      (mmaps.map checkType ++ list) := by
  induction mmaps generalizing list with
  | nil => exact .refl _
  | cons mmap mmaps ih =>
    rw [List.foldl_cons, List.map_cons]
    refine (ih _).trans ?_
    exact ((insertSorted_perm _ list).append_left _).trans List.perm_middle

theorem sortMap_perm (mmaps : List MemoryMap) : (sortMap mmaps).Perm (mmaps.map checkType) := by
  have perm := foldl_insertSorted_perm mmaps []
  rw [List.append_nil] at perm
  exact perm

/-- No access of `multiboot_read` is outside of `mmap_list`. -/
def InBounds (mmaps : List MemoryMap) (stack : Cells) : Prop :=
  ∀ k ∈ (multibootUses mmaps stack).1, k < mmaps.length

theorem multibootUses_list (mmaps : List MemoryMap) (stack : Cells) :
    (multibootUses mmaps stack).2 = sortMap mmaps := by
  have sorted := listed_insertRounds 0 mmaps stack
  rw [Nat.zero_add] at sorted
  exact sorted

theorem inBounds_nil (stack : Cells) : InBounds [] stack := nofun

theorem inBounds_iff (mmaps : List MemoryMap) (last : MemoryMap) (stack : Cells) :
    InBounds (mmaps ++ [last]) stack ↔ ∀ mmap ∈ mmaps, mmap.addr ≤ last.addr := by
  obtain ⟨bound, used⟩ := insertRounds_uses 0 mmaps last stack
  rw [Nat.zero_add] at bound used
  have length : (mmaps ++ [last]).length = mmaps.length + 1 := by simp
  have none : (∀ mmap ∈ mmaps, mmap.addr ≤ last.addr) ↔
      ¬ mmaps.length + 1 ∈ (insertRounds 0 (mmaps ++ [last]) stack).2 := by
    rw [used]
    constructor
    · rintro all ⟨this, inside, later⟩
      obtain ⟨mmap, here, rfl⟩ := List.mem_map.mp ((sortMap_perm mmaps).mem_iff.mp inside)
      rw [checkType_addr] at later
      exact absurd (all mmap here) (BitVec.not_le.mpr later)
    · intro no mmap here
      by_contra later
      refine no ⟨checkType mmap, (sortMap_perm mmaps).mem_iff.mpr (List.mem_map_of_mem here), ?_⟩
      rw [checkType_addr]
      exact BitVec.not_le.mp later
  rw [none]
  unfold InBounds multibootUses
  simp only [length, List.mem_append, Nat.add_sub_cancel]
  constructor
  · intro inside past
    exact absurd (inside _ (.inl (.inl past))) (lt_irrefl _)
  · rintro inside k ((first | second) | third)
    · exact Nat.lt_of_le_of_ne (bound k first) fun same => inside (same ▸ first)
    · obtain ⟨i, range, here⟩ := List.mem_flatMap.mp second
      have small := (List.mem_range'_1.mp range).2
      rcases List.mem_cons.mp here with rfl | here
      · omega
      · rw [List.mem_singleton.mp here]
        omega
    · exact List.mem_range.mp third

end

def finish (mmap : MemoryMap) : Nat := mmap.addr.toNat + mmap.length.toNat

def Below (a b : MemoryMap) : Prop := a.addr.toNat < b.addr.toNat ∧ finish a ≤ b.addr.toNat

/-- Regions of the address space, of which no two overlap or start at the same address. -/
def NonOverlapping (mmaps : List MemoryMap) : Prop :=
  mmaps.Pairwise (fun a b => Below a b ∨ Below b a) ∧ ∀ a ∈ mmaps, finish a ≤ 2 ^ 64

def Usable (mmap : MemoryMap) : Prop := mmap.type = mbTypeUsable ∨ mmap.type = mbTypeAcpiReclm

instance (mmap : MemoryMap) : Decidable (Usable mmap) := inferInstanceAs (Decidable (_ ∨ _))

/-- The region starts below 1 MB. -/
def InBase (mmap : MemoryMap) : Prop := mmap.addr < 0x100000

instance (mmap : MemoryMap) : Decidable (InBase mmap) := inferInstanceAs (Decidable (_ < _))

/-- The usable bytes below and above 1 MB, of the list as it was passed. -/
def rawTotals (mmaps : List MemoryMap) : BitVec 64 × BitVec 64 :=
  (mmaps.map some).foldl addRegion (0, 0)

/-- A usable region below 1 MB that goes on, at an address from there on, in one of its type. -/
def Crosses (a b : MemoryMap) : Prop :=
  Usable a ∧ a.type = b.type ∧ InBase a ∧ ¬ InBase b ∧ finish a = b.addr.toNat ∧ b.length ≠ 0

/-- What `multiboot_read` should do with a map. -/
structure Parsed (mmaps : List MemoryMap) (stack : Cells) : Prop where
  inBounds : InBounds mmaps stack
  sorted : (multibootUses mmaps stack).2.Pairwise fun a b => a.addr ≤ b.addr
  entries : (multibootUses mmaps stack).2.Perm (mmaps.map checkType)
  totals : multibootRead mmaps = rawTotals mmaps
  order : ∀ other : List MemoryMap, other.Perm mmaps → multibootRead other = multibootRead mmaps

section
variable {prev this mmap : MemoryMap} {list mmaps : List MemoryMap}

theorem insertSorted_sorted (sorted : list.Pairwise fun a b => a.addr ≤ b.addr) :
    (insertSorted mmap list).Pairwise fun a b => a.addr ≤ b.addr := by
  induction list with
  | nil => exact List.pairwise_singleton ..
  | cons this list ih =>
    obtain ⟨first, rest⟩ := List.pairwise_cons.mp sorted
    unfold insertSorted
    by_cases later : this.addr > mmap.addr
    · rw [if_pos later]
      refine List.pairwise_cons.mpr ⟨fun b inside => ?_, sorted⟩
      rcases List.mem_cons.mp inside with rfl | inside
      · exact BitVec.le_of_lt later
      · exact BitVec.le_trans (BitVec.le_of_lt later) (first b inside)
    · rw [if_neg later]
      refine List.pairwise_cons.mpr ⟨fun b inside => ?_, ih rest⟩
      rcases List.mem_cons.mp ((insertSorted_perm mmap list).mem_iff.mp inside) with rfl | inside
      · exact BitVec.not_lt.mp later
      · exact first b inside

theorem sortMap_sorted (mmaps : List MemoryMap) :
    (sortMap mmaps).Pairwise fun a b => a.addr ≤ b.addr := by
  have fold (list : List MemoryMap) (sorted : list.Pairwise fun a b => a.addr ≤ b.addr) :
      (mmaps.foldl (fun list mmap => insertSorted (checkType mmap) list) list).Pairwise
        fun a b => a.addr ≤ b.addr := by
    induction mmaps generalizing list with
    | nil => exact sorted
    | cons mmap mmaps ih => exact ih _ (insertSorted_sorted sorted)
  exact fold [] .nil

/-- What a region adds below and above 1 MB. -/
def lowOf (mmap : MemoryMap) : BitVec 64 := if Usable mmap ∧ InBase mmap then mmap.length else 0
def highOf (mmap : MemoryMap) : BitVec 64 := if Usable mmap ∧ ¬ InBase mmap then mmap.length else 0

def sumOf (adds : MemoryMap → BitVec 64) (list : List (Option MemoryMap)) : BitVec 64 :=
  (list.map fun mmap => mmap.elim 0 adds).sum

def low : List (Option MemoryMap) → BitVec 64 := sumOf lowOf
def high : List (Option MemoryMap) → BitVec 64 := sumOf highOf

theorem addRegion_eq (total : BitVec 64 × BitVec 64) (mmap : Option MemoryMap) :
    addRegion total mmap = (total.1 + mmap.elim 0 lowOf, total.2 + mmap.elim 0 highOf) := by
  cases mmap with
  | none => simp [addRegion]
  | some mmap =>
    have usable : (mmap.type = mbTypeUsable ∨ mmap.type = mbTypeAcpiReclm) = Usable mmap := rfl
    have base : (mmap.addr < 0x100000) = InBase mmap := rfl
    simp only [addRegion, lowOf, highOf, Option.elim_some, usable, base]
    by_cases isUsable : Usable mmap
    · by_cases inBase : InBase mmap <;> simp [isUsable, inBase]
    · simp [isUsable]

theorem foldl_addRegion (list : List (Option MemoryMap)) (total : BitVec 64 × BitVec 64) :
    list.foldl addRegion total = (total.1 + low list, total.2 + high list) := by
  induction list generalizing total with
  | nil => simp [low, high, sumOf]
  | cons mmap list ih =>
    rw [List.foldl_cons, ih, addRegion_eq]
    simp only [low, high, sumOf, List.map_cons, List.sum_cons, BitVec.add_assoc]

def Laid (prev : MemoryMap) : List MemoryMap → Prop
  | [] => finish prev ≤ 2 ^ 64
  | this :: list => Below prev this ∧ Laid this list

/-- None of them crosses 1 MB to the next. -/
def Apart (prev : MemoryMap) : List MemoryMap → Prop
  | [] => True
  | this :: list => ¬ Crosses prev this ∧ Apart this list

/-- The region that `this` becomes when it takes in the one before. -/
def merged (prev this : MemoryMap) : MemoryMap :=
  { this with addr := prev.addr, length := prev.length + this.length }

theorem sum_toNat (below : Below prev this) : (prev.addr + prev.length).toNat = finish prev := by
  rw [BitVec.toNat_add]
  exact Nat.mod_eq_of_lt (Nat.lt_of_le_of_lt below.2 this.addr.isLt)

theorem adjacent_iff (below : Below prev this) :
    prev.addr + prev.length = this.addr ↔ finish prev = this.addr.toNat := by
  rw [← BitVec.toNat_inj, sum_toNat below]

theorem sanitize_laid (below : Below prev this) : sanitize prev (this :: list) =
    if finish prev = this.addr.toNat ∧ prev.type = this.type then
      none :: sanitize (merged prev this) list
    else some prev :: sanitize this list := by
  have apart : ¬ prev.addr + prev.length > this.addr := by
    rw [gt_iff_lt, BitVec.lt_def, sum_toNat below]
    exact Nat.not_lt.mpr below.2
  rw [sanitize]
  simp only [adjacent_iff below, if_neg apart]
  rfl

theorem finish_merged_le (adjacent : finish prev = this.addr.toNat) :
    finish (merged prev this) ≤ finish this := by
  have sum : (prev.length + this.length).toNat ≤ prev.length.toNat + this.length.toNat := by
    rw [BitVec.toNat_add]
    exact Nat.mod_le ..
  change prev.addr.toNat + (prev.length + this.length).toNat ≤ finish this
  unfold finish at *
  omega

theorem finish_merged (adjacent : finish prev = this.addr.toNat) (inside : finish this < 2 ^ 64) :
    finish (merged prev this) = finish this := by
  unfold finish at *
  have sum : (prev.length + this.length).toNat = prev.length.toNat + this.length.toNat := by
    rw [BitVec.toNat_add]
    exact Nat.mod_eq_of_lt (by omega)
  change prev.addr.toNat + (prev.length + this.length).toNat = _
  omega

theorem Laid.joined (below : Below prev this) (adjacent : finish prev = this.addr.toNat)
    (laid : Laid this list) : Laid (merged prev this) list := by
  have small := finish_merged_le adjacent
  cases list with
  | nil => exact Nat.le_trans small laid
  | cons next list =>
    obtain ⟨next', rest⟩ := laid
    exact ⟨⟨Nat.lt_trans below.1 next'.1, Nat.le_trans small next'.2⟩, rest⟩

theorem inBase_iff : InBase mmap ↔ mmap.addr.toNat < 0x100000 := by
  rw [InBase, BitVec.lt_def]
  rfl

theorem usable_merged : Usable (merged prev this) ↔ Usable this := Iff.rfl

theorem usable_same (same : prev.type = this.type) : Usable prev ↔ Usable this := by
  rw [Usable, Usable, same]

theorem Laid.apart (laid : Laid this list) (outside : ¬ InBase this) : Apart this list := by
  induction list generalizing this with
  | nil => trivial
  | cons next list ih =>
    refine ⟨fun crosses => outside crosses.2.2.1, ih laid.2 fun inside => outside ?_⟩
    rw [inBase_iff] at inside ⊢
    exact Nat.lt_trans laid.1.1 inside

theorem Below.crosses_merged {next : MemoryMap} (below : Below this next)
    (adjacent : finish prev = this.addr.toNat) (same : Usable this → (InBase prev ↔ InBase this)) :
    Crosses (merged prev this) next ↔ Crosses this next := by
  have ends := finish_merged adjacent (Nat.lt_of_le_of_lt below.2 next.addr.isLt)
  unfold Crosses
  rw [usable_merged, ends]
  refine and_congr_right fun usable => ?_
  have base : InBase (merged prev this) ↔ InBase this := same usable
  rw [base]
  exact Iff.rfl

theorem Laid.apart_merged (laid : Laid this list) (adjacent : finish prev = this.addr.toNat)
    (same : Usable this → (InBase prev ↔ InBase this)) :
    Apart (merged prev this) list ↔ Apart this list := by
  cases list with
  | nil => exact Iff.rfl
  | cons next list => exact and_congr_left' (not_congr (laid.1.crosses_merged adjacent same))

theorem sumOf_cons (adds : MemoryMap → BitVec 64) (mmap : Option MemoryMap)
    (list : List (Option MemoryMap)) :
    sumOf adds (mmap :: list) = mmap.elim 0 adds + sumOf adds list := by
  rw [sumOf, List.map_cons, List.sum_cons]
  rfl

theorem low_cons (mmap : Option MemoryMap) (list : List (Option MemoryMap)) :
    low (mmap :: list) = mmap.elim 0 lowOf + low list := sumOf_cons lowOf mmap list

theorem lowOf_add_highOf (mmap : MemoryMap) :
    lowOf mmap + highOf mmap = if Usable mmap then mmap.length else 0 := by
  unfold lowOf highOf
  by_cases usable : Usable mmap
  · by_cases base : InBase mmap <;> simp [usable, base]
  · simp [usable]

theorem sanitize_all (laid : Laid prev list) :
    low (sanitize prev list) + high (sanitize prev list) =
      low (some prev :: list.map some) + high (some prev :: list.map some) := by
  have cons (mmap : Option MemoryMap) (list : List (Option MemoryMap)) :
      low (mmap :: list) + high (mmap :: list) =
        mmap.elim 0 (fun mmap => lowOf mmap + highOf mmap) + (low list + high list) := by
    rw [low_cons, high, sumOf_cons highOf, ← high]
    cases mmap with
    | none => simp
    | some mmap =>
      simp only [Option.elim_some]
      ac_rfl
  induction list generalizing prev with
  | nil => rfl
  | cons this list ih =>
    obtain ⟨below, rest⟩ := laid
    rw [sanitize_laid below]
    by_cases meets : finish prev = this.addr.toNat ∧ prev.type = this.type
    · rw [if_pos meets, cons, ih (rest.joined below meets.1), List.map_cons, cons, cons, cons]
      simp only [Option.elim_none, Option.elim_some, lowOf_add_highOf, usable_merged,
        usable_same meets.2, zero_add]
      by_cases usable : Usable this
      · simp only [if_pos usable, merged]
        ac_rfl
      · simp only [if_neg usable, zero_add]
    · rw [if_neg meets, cons, ih rest, List.map_cons, cons, cons, cons]

theorem lowOf_merged (same : prev.type = this.type) (side : Usable this → (InBase prev ↔ InBase this)) :
    lowOf (merged prev this) = lowOf prev + lowOf this := by
  have base : InBase (merged prev this) = InBase prev := rfl
  unfold lowOf
  simp only [usable_merged, base, usable_same same]
  by_cases usable : Usable this
  · by_cases inBase : InBase this
    · have before := (side usable).mpr inBase
      simp [usable, inBase, before, merged]
    · have before : ¬ InBase prev := fun before => inBase ((side usable).mp before)
      simp [usable, inBase, before]
  · simp [usable]

theorem Below.crossing (below : Below prev this) (differs : ¬ (InBase prev ↔ InBase this)) :
    InBase prev ∧ ¬ InBase this := by
  have order := below.1
  rw [inBase_iff, inBase_iff] at differs ⊢
  omega

theorem Laid.apart_empty (laid : Laid this list) (adjacent : finish prev = this.addr.toNat)
    (outside : ¬ InBase this) (empty : this.length = 0) : Apart (merged prev this) list := by
  cases list with
  | nil => trivial
  | cons next list =>
    obtain ⟨below, rest⟩ := laid
    have order := below.1
    refine ⟨fun crosses => ?_, rest.apart fun inside => outside ?_⟩
    · have ends := finish_merged adjacent (Nat.lt_of_le_of_lt below.2 next.addr.isLt)
      have meets := crosses.2.2.2.2.1
      rw [ends, finish, empty] at meets
      exact absurd meets (Nat.ne_of_lt order)
    · rw [inBase_iff] at inside ⊢
      exact Nat.lt_trans order inside

theorem Laid.finish_absorbed {absorbed : Nat} (laid : Laid this list)
    (adjacent : finish prev = this.addr.toNat) (bound : finish (merged prev this) + absorbed ≤ 2 ^ 64)
    (apart : absorbed = 0 ↔ Apart (merged prev this) list) : finish this + absorbed ≤ 2 ^ 64 := by
  cases list with
  | nil =>
    rw [apart.mpr trivial]
    exact laid
  | cons next list =>
    rw [finish_merged adjacent (Nat.lt_of_le_of_lt laid.1.2 next.addr.isLt)] at bound
    exact bound

/-- Merging counts some bytes above 1 MB below it, exactly when a region crosses 1 MB. -/
theorem sanitize_low (laid : Laid prev list) :
    ∃ absorbed, low (sanitize prev list) =
        low (some prev :: list.map some) + BitVec.ofNat 64 absorbed ∧
      finish prev + absorbed ≤ 2 ^ 64 ∧ absorbed < 2 ^ 64 ∧ (absorbed = 0 ↔ Apart prev list) := by
  induction list generalizing prev with
  | nil => exact ⟨0, by simp [sanitize], laid, by decide, iff_of_true rfl trivial⟩
  | cons this list ih =>
    obtain ⟨below, rest⟩ := laid
    rw [sanitize_laid below]
    by_cases meets : finish prev = this.addr.toNat ∧ prev.type = this.type
    · obtain ⟨absorbed, lower, bound, small, apart⟩ := ih (rest.joined below meets.1)
      have ends := rest.finish_absorbed meets.1 bound apart
      by_cases same : Usable this → (InBase prev ↔ InBase this)
      · refine ⟨absorbed, ?_, ?_, small, apart.trans ((rest.apart_merged meets.1 same).trans ?_)⟩
        · rw [if_pos meets, low_cons, lower, List.map_cons, low_cons (some prev),
            low_cons (some this), low_cons (some (merged prev this)), Option.elim_none, zero_add]
          simp only [Option.elim_some, lowOf_merged meets.2 same]
          ac_rfl
        · have order := meets.1
          unfold finish at ends order ⊢
          omega
        · have separate : ¬ Crosses prev this := fun ⟨usable, type, base, outside, _⟩ =>
            outside ((same ((usable_same type).mp usable)).mp base)
          exact (and_iff_right separate).symm
      · obtain ⟨usable, differs⟩ := Classical.not_imp.mp same
        obtain ⟨base, outside⟩ := below.crossing differs
        have usable' := (usable_same meets.2).mpr usable
        refine ⟨this.length.toNat + absorbed, ?_, ?_, ?_, ?_⟩
        · have whole : lowOf (merged prev this) = prev.length + this.length := if_pos ⟨usable, base⟩
          have first : lowOf prev = prev.length := if_pos ⟨usable', base⟩
          have second : lowOf this = 0 := if_neg fun both => outside both.2
          rw [if_pos meets, low_cons, lower, List.map_cons, low_cons (some prev),
            low_cons (some this), low_cons (some (merged prev this)), Option.elim_none, zero_add,
            BitVec.ofNat_add, BitVec.ofNat_toNat, BitVec.setWidth_eq]
          simp only [Option.elim_some, whole, first, second, zero_add]
          ac_rfl
        · have order := meets.1
          unfold finish at ends order ⊢
          omega
        · rw [inBase_iff] at outside
          unfold finish at ends
          omega
        · by_cases empty : this.length = 0
          · have none : absorbed = 0 := apart.mpr (rest.apart_empty meets.1 outside empty)
            rw [none, empty]
            exact iff_of_true rfl ⟨fun crosses => crosses.2.2.2.2.2 empty, rest.apart outside⟩
          · have some' : this.length.toNat ≠ 0 := fun zero =>
              empty (BitVec.eq_of_toNat_eq zero)
            exact iff_of_false (by omega) fun both =>
              both.1 ⟨usable', meets.2, base, outside, meets.1, empty⟩
    · obtain ⟨absorbed, lower, bound, small, apart⟩ := ih rest
      refine ⟨absorbed, ?_, ?_, small, apart.trans ?_⟩
      · rw [if_neg meets, low_cons, lower, List.map_cons, low_cons (some prev)]
        ac_rfl
      · have order := below.2
        unfold finish at bound order ⊢
        omega
      · have separate : ¬ Crosses prev this := fun crosses =>
          meets ⟨crosses.2.2.2.2.1, crosses.2.1⟩
        exact (and_iff_right separate).symm

theorem checkType_length (mmap : MemoryMap) : (checkType mmap).length = mmap.length := by
  unfold checkType
  split <;> rfl

theorem checkType_of_usable (usable : Usable mmap) : checkType mmap = mmap := by
  unfold checkType
  refine if_neg fun unknown => ?_
  rcases usable with usable | usable <;> rw [usable] at unknown <;> exact absurd unknown (by decide)

theorem usable_checkType : Usable (checkType mmap) ↔ Usable mmap := by
  refine ⟨fun usable => ?_, fun usable => (checkType_of_usable usable).symm ▸ usable⟩
  unfold checkType at usable
  by_cases unknown : mmap.type > 5 ∨ mmap.type < 1
  · rw [if_pos unknown] at usable
    exact absurd usable (by simp [Usable, mbTypeReserved, mbTypeUsable, mbTypeAcpiReclm])
  · rwa [if_neg unknown] at usable

theorem inBase_checkType : InBase (checkType mmap) ↔ InBase mmap := by
  rw [InBase, InBase, checkType_addr]

theorem lowOf_checkType (mmap : MemoryMap) : lowOf (checkType mmap) = lowOf mmap := by
  simp only [lowOf, usable_checkType, inBase_checkType, checkType_length]

theorem highOf_checkType (mmap : MemoryMap) : highOf (checkType mmap) = highOf mmap := by
  simp only [highOf, usable_checkType, inBase_checkType, checkType_length]

theorem below_checkType {a b : MemoryMap} : Below (checkType a) (checkType b) ↔ Below a b := by
  unfold Below finish
  rw [checkType_addr, checkType_addr, checkType_length]

theorem crosses_checkType {a b : MemoryMap} : Crosses (checkType a) (checkType b) ↔ Crosses a b := by
  unfold Crosses InBase finish
  rw [checkType_addr, checkType_addr, checkType_length, checkType_length, usable_checkType]
  refine and_congr_right fun usable => and_congr_left' ?_
  rw [checkType_of_usable usable]
  refine ⟨fun same => ?_, fun same => ?_⟩
  · rw [checkType_of_usable (usable_checkType.mp ((usable_same same).mp usable))] at same
    exact same
  · rw [checkType_of_usable ((usable_same same).mp usable)]
    exact same

theorem NonOverlapping.checked (apart : NonOverlapping mmaps) :
    NonOverlapping (mmaps.map checkType) := by
  refine ⟨List.pairwise_map.mpr (apart.1.imp fun below => ?_), fun a inside => ?_⟩
  · rwa [below_checkType, below_checkType]
  · obtain ⟨mmap, here, rfl⟩ := List.mem_map.mp inside
    rw [finish, checkType_addr, checkType_length]
    exact apart.2 mmap here

theorem NonOverlapping.perm {other : List MemoryMap} (apart : NonOverlapping mmaps)
    (perm : other.Perm mmaps) : NonOverlapping other :=
  ⟨(perm.pairwise_iff Or.symm).mpr apart.1, fun a inside => apart.2 a (perm.mem_iff.mp inside)⟩

theorem NonOverlapping.sortMap (apart : NonOverlapping mmaps) : NonOverlapping (sortMap mmaps) :=
  apart.checked.perm (sortMap_perm mmaps)

theorem NonOverlapping.pairwise_below (apart : NonOverlapping mmaps)
    (sorted : mmaps.Pairwise fun a b => a.addr ≤ b.addr) : mmaps.Pairwise Below :=
  (apart.1.and sorted).imp fun both => both.1.resolve_right fun below =>
    absurd below.1 (Nat.not_lt.mpr (BitVec.le_def.mp both.2))

theorem laid_of_pairwise (below : (prev :: list).Pairwise Below)
    (inside : ∀ a ∈ prev :: list, finish a ≤ 2 ^ 64) : Laid prev list := by
  induction list generalizing prev with
  | nil => exact inside prev List.mem_cons_self
  | cons this list ih =>
    obtain ⟨first, rest⟩ := List.pairwise_cons.mp below
    exact ⟨first this List.mem_cons_self,
      ih rest fun a here => inside a (List.mem_cons_of_mem _ here)⟩

theorem apart_iff (below : (prev :: list).Pairwise Below) :
    Apart prev list ↔ ∀ a ∈ prev :: list, ∀ b ∈ prev :: list, ¬ Crosses a b := by
  induction list generalizing prev with
  | nil =>
    refine iff_of_true trivial fun a first b second crosses => ?_
    rw [List.mem_singleton.mp first, List.mem_singleton.mp second] at crosses
    exact crosses.2.2.2.1 crosses.2.2.1
  | cons this list ih =>
    obtain ⟨first, rest⟩ := List.pairwise_cons.mp below
    refine ⟨fun apart a here b there crosses => ?_, fun all => ⟨?_, (ih rest).mpr
      fun a here b there =>
        all a (List.mem_cons_of_mem _ here) b (List.mem_cons_of_mem _ there)⟩⟩
    · rcases List.mem_cons.mp here with rfl | behind
      · rcases List.mem_cons.mp there with rfl | after
        · exact crosses.2.2.2.1 crosses.2.2.1
        · rcases List.mem_cons.mp after with rfl | far
          · exact apart.1 crosses
          · -- `this` lies between the two
            have near := (first this List.mem_cons_self).2
            have order := ((List.pairwise_cons.mp rest).1 b far).1
            have meets := crosses.2.2.2.2.1
            omega
      · rcases List.mem_cons.mp there with rfl | after
        · have order := (first a behind).1
          have low := inBase_iff.mp crosses.2.2.1
          exact crosses.2.2.2.1 (inBase_iff.mpr (Nat.lt_trans order low))
        · exact (ih rest).mp apart.2 a behind b after crosses
    · exact all prev List.mem_cons_self this (List.mem_cons_of_mem _ List.mem_cons_self)

theorem rawTotals_eq (mmaps : List MemoryMap) :
    rawTotals mmaps = (low (mmaps.map some), high (mmaps.map some)) := by
  rw [rawTotals, foldl_addRegion]
  simp

theorem sumOf_sortMap {adds : MemoryMap → BitVec 64}
    (same : ∀ mmap, adds (checkType mmap) = adds mmap) (mmaps : List MemoryMap) :
    sumOf adds ((sortMap mmaps).map some) = sumOf adds (mmaps.map some) := by
  have plain (list : List MemoryMap) : sumOf adds (list.map some) = (list.map adds).sum := by
    rw [sumOf, List.map_map]
    rfl
  rw [plain, plain, ((sortMap_perm mmaps).map adds).sum_eq, List.map_map]
  exact congrArg List.sum (List.map_congr_left fun mmap _ => same mmap)

theorem rawTotals_sortMap (mmaps : List MemoryMap) : rawTotals (sortMap mmaps) = rawTotals mmaps := by
  rw [rawTotals_eq, rawTotals_eq, low, high, sumOf_sortMap lowOf_checkType,
    sumOf_sortMap highOf_checkType]

/-- Merging keeps both totals exactly when no region crosses 1 MB to the next. -/
theorem sanitize_totals (laid : Laid prev list) :
    (sanitize prev list).foldl addRegion (0, 0) = rawTotals (prev :: list) ↔ Apart prev list := by
  obtain ⟨absorbed, lower, -, small, apart⟩ := sanitize_low laid
  have both := sanitize_all laid
  rw [foldl_addRegion, rawTotals_eq, ← apart, List.map_cons]
  simp only [BitVec.zero_add, BitVec.ofNat_eq_ofNat, Prod.mk.injEq]
  refine ⟨fun same => ?_, fun none => ?_⟩
  · have zero : BitVec.ofNat 64 absorbed = 0 := by
      rw [lower] at same
      exact left_eq_add.mp same.1.symm
    have value := congrArg BitVec.toNat zero
    rwa [BitVec.toNat_ofNat, Nat.mod_eq_of_lt small] at value
  · have equal : low (sanitize prev list) = low (some prev :: list.map some) := by
      rw [lower, none]
      exact BitVec.add_zero _
    rw [equal] at both
    exact ⟨equal, add_left_cancel both⟩

theorem multibootRead_totals (apart : NonOverlapping mmaps) :
    multibootRead mmaps = rawTotals mmaps ↔ ∀ a ∈ mmaps, ∀ b ∈ mmaps, ¬ Crosses a b := by
  have crossing : (∀ a ∈ sortMap mmaps, ∀ b ∈ sortMap mmaps, ¬ Crosses a b) ↔
      ∀ a ∈ mmaps, ∀ b ∈ mmaps, ¬ Crosses a b := by
    simp only [(sortMap_perm mmaps).mem_iff, List.forall_mem_map, crosses_checkType]
  have below := apart.sortMap.pairwise_below (sortMap_sorted mmaps)
  rw [← crossing, ← rawTotals_sortMap, multibootRead]
  cases list : sortMap mmaps with
  | nil => exact iff_of_true rfl nofun
  | cons first rest =>
    rw [list] at below
    have laid := laid_of_pairwise below fun a inside => apart.sortMap.2 a (list ▸ inside)
    exact (sanitize_totals laid).trans (apart_iff below)

theorem sortMap_order {other : List MemoryMap} (apart : NonOverlapping mmaps)
    (perm : other.Perm mmaps) : sortMap other = sortMap mmaps := by
  have same : (sortMap other).Perm (sortMap mmaps) :=
    (sortMap_perm other).trans ((perm.map checkType).trans (sortMap_perm mmaps).symm)
  refine same.eq_of_pairwise (fun a b first second before after => ?_) (sortMap_sorted other)
    (sortMap_sorted mmaps)
  by_contra differ
  have symm : Std.Symm fun a b => Below a b ∨ Below b a := ⟨fun _ _ => Or.symm⟩
  rw [BitVec.le_def] at before after
  rcases apart.sortMap.1.forall (same.mem_iff.mp first) second differ with below | below
  · exact absurd below.1 (Nat.not_lt.mpr after)
  · exact absurd below.1 (Nat.not_lt.mpr before)

/-- The accesses are in bounds when the last region of the map starts behind the others. -/
theorem inBounds_last (mmaps : List MemoryMap) (stack : Cells) :
    InBounds mmaps stack ↔ ∀ last ∈ mmaps.getLast?, ∀ mmap ∈ mmaps, mmap.addr ≤ last.addr := by
  rcases List.eq_nil_or_concat mmaps with rfl | ⟨before, last, rfl⟩
  · exact iff_of_true (inBounds_nil stack) nofun
  · rw [List.concat_eq_append, inBounds_iff, List.getLast?_concat]
    refine ⟨fun all other same mmap inside => ?_, fun all mmap inside =>
      all last rfl mmap (List.mem_append_left _ inside)⟩
    cases same
    rcases List.mem_append.mp inside with inside | inside
    · exact all mmap inside
    · rw [List.mem_singleton.mp inside]
      exact BitVec.le_refl _

/-- `multiboot_read` does with a map what it should, exactly when the map's last region is its
highest, and no usable one below 1 MB goes on above it. -/
theorem parsed_iff (mmaps : List MemoryMap) (stack : Cells) (apart : NonOverlapping mmaps) :
    Parsed mmaps stack ↔ (∀ last ∈ mmaps.getLast?, ∀ mmap ∈ mmaps, mmap.addr ≤ last.addr) ∧
      ∀ a ∈ mmaps, ∀ b ∈ mmaps, ¬ Crosses a b := by
  rw [← inBounds_last mmaps stack, ← multibootRead_totals apart]
  refine ⟨fun parsed => ⟨parsed.inBounds, parsed.totals⟩, fun both => ?_⟩
  exact {
    inBounds := both.1
    sorted := multibootUses_list mmaps stack ▸ sortMap_sorted mmaps
    entries := multibootUses_list mmaps stack ▸ sortMap_perm mmaps
    totals := both.2
    order := fun other perm => by rw [multibootRead, multibootRead, sortMap_order apart perm] }

end

/-- Memory below 640 KB and from 1 MB on. -/
def lowerFirst : List MemoryMap := [⟨0, 0x9fc00, 1⟩, ⟨0x100000, 0x7ee0000, 1⟩]

theorem lowerFirst_parsed : NonOverlapping lowerFirst ∧ Parsed lowerFirst fun _ => ⟨0, 0, 0⟩ := by
  have apart : NonOverlapping lowerFirst := by
    simp [NonOverlapping, lowerFirst, Below, finish]
  refine ⟨apart, (parsed_iff lowerFirst _ apart).mpr ⟨?_, ?_⟩⟩
  · simp [lowerFirst]
  · simp [lowerFirst, Crosses, Usable, InBase, finish]

/-- The same two regions, the other way around. -/
theorem upperFirst_writes_behind : NonOverlapping lowerFirst.reverse ∧
    2 ∈ (multibootUses lowerFirst.reverse fun _ => ⟨0, 0, 0⟩).1 ∧
      ¬ Parsed lowerFirst.reverse fun _ => ⟨0, 0, 0⟩ := by
  have used : 2 ∈ (multibootUses lowerFirst.reverse fun _ => ⟨0, 0, 0⟩).1 := by decide
  refine ⟨by simp [NonOverlapping, lowerFirst, Below, finish], used, fun parsed => ?_⟩
  exact absurd (parsed.inBounds 2 used) (by decide)

end Regions

end Jos
