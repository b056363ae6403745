import Mathlib.Algebra.BigOperators.Group.List.Basic
import Mathlib.Algebra.Group.Prod
import Mathlib.Data.BitVec
import Jos.Kern.Multiboot
import Jos.Runs.Allocator

/-! The memory map of the boot loader and the pages that the allocator hands out. The
map is reduced to two totals, so a hole in it is not seen. -/

set_option autoImplicit false

namespace Jos

variable {npages : Nat} {mmaps list rest : List MemoryMap} {r s p last this prev : MemoryMap}
  {before : List MemoryMap}

namespace MemoryMap

def Ram (r : MemoryMap) : Prop := r.type = mbTypeUsable ∨ r.type = mbTypeAcpiReclm

instance (r : MemoryMap) : Decidable r.Ram := inferInstanceAs (Decidable (_ ∨ _))

def stop (r : MemoryMap) : Nat := r.addr.toNat + r.length.toNat

def Holds (r : MemoryMap) (page : Nat) : Prop :=
  r.addr.toNat ≤ page * pgSize ∧ (page + 1) * pgSize ≤ r.stop

instance (r : MemoryMap) (page : Nat) : Decidable (r.Holds page) :=
  inferInstanceAs (Decidable (_ ∧ _))

def Before (r s : MemoryMap) : Prop := r.addr.toNat < s.addr.toNat ∧ r.stop ≤ s.addr.toNat

instance (r s : MemoryMap) : Decidable (r.Before s) := inferInstanceAs (Decidable (_ ∧ _))

def Apart (r s : MemoryMap) : Prop := r.Before s ∨ s.Before r

instance (r s : MemoryMap) : Decidable (r.Apart s) := inferInstanceAs (Decidable (_ ∨ _))

/-- The region starts in base memory, or continues one of its type that does. -/
inductive FromBase (mmaps : List MemoryMap) : MemoryMap → Prop where
  | start {r : MemoryMap} : r ∈ mmaps → r.addr < 0x100000 → FromBase mmaps r
  | next {p r : MemoryMap} : FromBase mmaps p → r ∈ mmaps → p.stop = r.addr.toNat →
      p.type = r.type → FromBase mmaps r

open Classical in
/-- What a region adds to the memory that is counted as base and as extended memory. -/
noncomputable def share (r : MemoryMap) (fromBase : Prop) : BitVec 64 × BitVec 64 :=
  if r.Ram then if fromBase then (r.length, 0) else (0, r.length) else 0

theorem share_ram {fromBase : Prop} (ram : r.Ram) (yes : fromBase) :
    r.share fromBase = (r.length, 0) := by
  rw [share, if_pos ram, if_pos yes]

theorem share_extended {fromBase : Prop} (ram : r.Ram) (no : ¬ fromBase) :
    r.share fromBase = (0, r.length) := by
  rw [share, if_pos ram, if_neg no]

theorem share_zero {fromBase : Prop} (ram : ¬ r.Ram) : r.share fromBase = 0 := if_neg ram

theorem Before.trans {t : MemoryMap} (first : r.Before s) (second : s.Before t) : r.Before t := by
  obtain ⟨lt, stop⟩ := first
  obtain ⟨lt', -⟩ := second
  exact ⟨lt.trans lt', stop.trans lt'.le⟩

theorem Apart.symm (apart : r.Apart s) : s.Apart r := Or.symm apart

end MemoryMap

/-- The memory of the map that is counted as base and as extended memory. -/
noncomputable def ramBytes (mmaps : List MemoryMap) : BitVec 64 × BitVec 64 :=
  (mmaps.map fun r => r.share (MemoryMap.FromBase mmaps r)).sum

open MemoryMap

section Sorting

@[simp] theorem checkType_addr : (checkType r).addr = r.addr := by
  unfold checkType
  split <;> rfl

@[simp] theorem checkType_length : (checkType r).length = r.length := by
  unfold checkType
  split <;> rfl

theorem checkType_of_ram (ram : r.Ram) : checkType r = r := by
  refine if_neg ?_
  rcases ram with usable | reclaimable
  · rw [usable]
    decide
  · rw [reclaimable]
    decide

theorem ram_of_checkType (ram : (checkType r).Ram) : r.Ram := by
  unfold checkType at ram
  split at ram
  · rcases ram with usable | reclaimable
    · exact absurd usable (show ¬ mbTypeReserved = mbTypeUsable by decide)
    · exact absurd reclaimable (show ¬ mbTypeReserved = mbTypeAcpiReclm by decide)
  · exact ram

theorem apart_checkType (apart : r.Apart s) : r.Apart (checkType s) := by
  simpa only [Apart, Before, stop, checkType_addr, checkType_length] using apart

theorem insertSorted_perm : (insertSorted r list).Perm (r :: list) := by
  induction list with
  | nil => exact .refl _
  | cons this list ih =>
    unfold insertSorted
    split
    · exact .refl _
    · exact (ih.cons this).trans (.swap r this list)

theorem insertSorted_sorted (apart : ∀ s ∈ list, s.Apart r) (sorted : list.Pairwise Before) :
    (insertSorted r list).Pairwise Before := by
  induction list with
  | nil => exact List.pairwise_singleton _ _
  | cons this list ih =>
    obtain ⟨first, rest⟩ := List.pairwise_cons.mp sorted
    unfold insertSorted
    split
    · rename_i later
      have before : r.Before this := (apart this List.mem_cons_self).resolve_left
        fun other => lt_asymm other.1 (BitVec.lt_def.mp later)
      refine List.pairwise_cons.mpr ⟨fun s there => ?_, sorted⟩
      rcases List.mem_cons.mp there with rfl | there
      · exact before
      · exact before.trans (first s there)
    · rename_i earlier
      have before : this.Before r := (apart this List.mem_cons_self).resolve_right
        fun other => earlier (BitVec.lt_def.mpr other.1)
      refine List.pairwise_cons.mpr
        ⟨fun s there => ?_, ih (fun s there => apart s (List.mem_cons_of_mem _ there)) rest⟩
      rcases List.mem_cons.mp (insertSorted_perm.mem_iff.mp there) with rfl | there
      · exact before
      · exact first s there

theorem sortLoop (between : ∀ r ∈ list, ∀ s ∈ mmaps, r.Apart s) (sorted : list.Pairwise Before)
    (apart : mmaps.Pairwise Apart) :
    (mmaps.foldl (fun list mmap => insertSorted (checkType mmap) list) list).Pairwise Before ∧
      (mmaps.foldl (fun list mmap => insertSorted (checkType mmap) list) list).Perm
        (list ++ mmaps.map checkType) := by
  induction mmaps generalizing list with
  | nil => simpa using sorted
  | cons mmap mmaps ih =>
    obtain ⟨first, apart⟩ := List.pairwise_cons.mp apart
    have placed : ∀ r ∈ insertSorted (checkType mmap) list, ∀ s ∈ mmaps, r.Apart s := by
      intro r there s listed
      rcases List.mem_cons.mp (insertSorted_perm.mem_iff.mp there) with rfl | there
      · exact (apart_checkType (first s listed).symm).symm
      · exact between r there s (List.mem_cons_of_mem _ listed)
    obtain ⟨sorted', perm⟩ := ih placed
      (insertSorted_sorted
        (fun s there => apart_checkType (between s there mmap List.mem_cons_self)) sorted) apart
    refine ⟨sorted', perm.trans ?_⟩
    refine (insertSorted_perm.append_right _).trans ?_
    simpa using List.perm_middle.symm

theorem sortMap_sorted (apart : mmaps.Pairwise Apart) : (sortMap mmaps).Pairwise Before ∧
    (sortMap mmaps).Perm (mmaps.map checkType) :=
  sortLoop nofun .nil apart

end Sorting

section Merging

theorem MemoryMap.FromBase.mem (low : FromBase mmaps r) : r ∈ mmaps := by
  cases low with
  | start listed => exact listed
  | next _ listed => exact listed

/-- The only region that can end where another one starts is the one before it. -/
theorem eq_last (sorted : mmaps.Pairwise Before)
    (whole : mmaps = before ++ last :: this :: rest) (listed : p ∈ mmaps)
    (meets : p.stop = this.addr.toNat) : p = last ∨ p = this := by
  subst whole
  obtain ⟨-, tail, ahead⟩ := List.pairwise_append.mp sorted
  obtain ⟨first, tail⟩ := List.pairwise_cons.mp tail
  obtain ⟨second, -⟩ := List.pairwise_cons.mp tail
  have next := first this List.mem_cons_self
  simp only [List.mem_append, List.mem_cons] at listed
  rcases listed with early | rfl | rfl | late
  · have early := (ahead p early last List.mem_cons_self).2
    have lt := next.1
    omega
  · exact .inl rfl
  · exact .inr rfl
  · have late := (second p late).1
    unfold stop at meets
    omega

/-- A region in extended memory continues one from base memory only through the
region before it. -/
theorem fromBase_this (sorted : mmaps.Pairwise Before)
    (whole : mmaps = before ++ last :: this :: rest) (low : FromBase mmaps this)
    (high : ¬ this.addr < 0x100000) :
    FromBase mmaps last ∧ last.stop = this.addr.toNat ∧ last.type = this.type := by
  generalize same : this = r at low
  induction low with
  | start _ start =>
    subst same
    exact absurd start high
  | next low _ meets type ih =>
    subst same
    rcases eq_last sorted whole low.mem meets with rfl | rfl
    · exact ⟨low, meets, type⟩
    · exact ih rfl

theorem share_merge {low low' : Prop} (type : prev.type = this.type) (same : low ↔ low')
    (addr : BitVec 64) : MemoryMap.share { this with addr, length := prev.length + this.length } low =
      prev.share low + this.share low' := by
  by_cases ram : this.Ram
  · have ramPrev : prev.Ram := by rwa [MemoryMap.Ram, type]
    have ramBoth : MemoryMap.Ram { this with addr, length := prev.length + this.length } := ram
    by_cases yes : low
    · rw [share_ram ramBoth yes, share_ram ramPrev yes, share_ram ram (same.mp yes), Prod.mk_add_mk,
        add_zero]
    · rw [share_extended ramBoth yes, share_extended ramPrev yes,
        share_extended ram (fun there => yes (same.mpr there)), Prod.mk_add_mk, add_zero]
  · have ramPrev : ¬ prev.Ram := by rwa [MemoryMap.Ram, type]
    have ramBoth : ¬ MemoryMap.Ram { this with addr, length := prev.length + this.length } := ram
    rw [share_zero ramBoth, share_zero ramPrev, share_zero ram, add_zero]

/-- What the third loop adds for a cell of the list. -/
noncomputable def counted (region : Option MemoryMap) : BitVec 64 × BitVec 64 :=
  region.elim 0 fun r => r.share (r.addr < 0x100000)

/-- The second and the third loop, from the region `last` on, which is merged with
those before it into `prev`. -/
theorem sanitize_share (sorted : mmaps.Pairwise Before)
    (whole : mmaps = before ++ last :: rest) (type : prev.type = last.type)
    (ends : prev.addr + prev.length = last.addr + last.length)
    (start : prev.addr < 0x100000 ↔ FromBase mmaps last) :
    ((sanitize prev rest).map counted).sum =
      prev.share (prev.addr < 0x100000) + (rest.map fun r => r.share (FromBase mmaps r)).sum := by
  induction rest generalizing before last prev with
  | nil => simp [sanitize, counted]
  | cons this rest ih =>
    have whole' : mmaps = before ++ [last] ++ this :: rest := by simpa using whole
    have next : last.Before this := by
      rw [whole] at sorted
      exact (List.pairwise_cons.mp (List.pairwise_append.mp sorted).2.1).1 this List.mem_cons_self
    have listed : this ∈ mmaps := by simp [whole]
    have fits : (prev.addr + prev.length).toNat = last.stop := by
      have bound := this.addr.isLt
      have ending := next.2
      unfold stop at ending ⊢
      rw [ends, BitVec.toNat_add]
      exact Nat.mod_eq_of_lt (by omega)
    have later := BitVec.lt_def.mpr next.1
    unfold sanitize
    split
    · rename_i merges
      have meets : last.stop = this.addr.toNat := by rw [← fits, merges.1]
      have low : prev.addr < 0x100000 ↔ FromBase mmaps this := by
        rw [start]
        constructor
        · intro low
          exact low.next listed meets (type.symm.trans merges.2)
        · intro low
          by_cases high : this.addr < 0x100000
          · exact .start (by simp [whole]) (BitVec.lt_trans later high)
          · exact (fromBase_this sorted whole low high).1
      have later : ((sanitize { this with addr := prev.addr, length := prev.length + this.length }
          rest).map counted).sum = _ :=
        ih whole' rfl (by simp only [← merges.1, add_assoc]) low
      rw [List.map_cons, List.sum_cons, later, share_merge merges.2 low prev.addr, List.map_cons,
        List.sum_cons, counted, Option.elim_none, zero_add, add_assoc]
    · rename_i apart
      have fine : ¬ prev.addr + prev.length > this.addr := by
        intro past
        have past := BitVec.lt_def.mp past
        have ending := next.2
        omega
      have low : this.addr < 0x100000 ↔ FromBase mmaps this := by
        refine ⟨.start listed, fun low => ?_⟩
        by_contra high
        obtain ⟨-, meets, same⟩ := fromBase_this sorted whole low high
        refine apart ⟨BitVec.eq_of_toNat_eq (fits.trans meets), type.trans same⟩
      rw [if_neg fine, List.map_cons, List.sum_cons, ih whole' rfl rfl low, List.map_cons,
        List.sum_cons, counted, Option.elim_some, propext low]

theorem fromBase_first (sorted : mmaps.Pairwise Before) (whole : mmaps = r :: rest) :
    r.addr < 0x100000 ↔ FromBase mmaps r := by
  refine ⟨.start (by simp [whole]), fun low => ?_⟩
  generalize same : r = s at low
  induction low with
  | start _ start => exact start
  | next low _ meets _ ih =>
    subst same
    have listed := low.mem
    rw [whole] at listed sorted
    rcases List.mem_cons.mp listed with rfl | late
    · exact ih rfl
    · have late := ((List.pairwise_cons.mp sorted).1 _ late).1
      unfold stop at meets
      omega

theorem addRegion_eq (total : BitVec 64 × BitVec 64) (region : Option MemoryMap) :
    addRegion total region = total + counted region := by
  cases region with
  | none => exact (add_zero total).symm
  | some r =>
    rw [counted, Option.elim_some]
    simp only [addRegion]
    split
    · rename_i ram
      split
      · rename_i low
        rw [share_ram ram low, Prod.add_def, add_zero]
      · rename_i high
        rw [share_extended ram high, Prod.add_def, add_zero]
    · rename_i other
      rw [share_zero other, add_zero]

theorem foldl_addRegion (regions : List (Option MemoryMap)) (total : BitVec 64 × BitVec 64) :
    regions.foldl addRegion total = total + (regions.map counted).sum := by
  induction regions generalizing total with
  | nil => exact (add_zero total).symm
  | cons region regions ih =>
    rw [List.foldl_cons, ih, addRegion_eq, List.map_cons, List.sum_cons, add_assoc]

theorem fromBase_checkType {other : List MemoryMap} (perm : other.Perm (mmaps.map checkType))
    (ram : r.Ram) : FromBase other r ↔ FromBase mmaps r := by
  constructor
  · intro low
    have kept {s : MemoryMap} (ram : s.Ram) (listed : s ∈ other) : s ∈ mmaps := by
      obtain ⟨t, listed, rfl⟩ := List.mem_map.mp (perm.mem_iff.mp listed)
      rwa [checkType_of_ram (ram_of_checkType ram)]
    induction low with
    | start listed start =>
      exact .start (kept ram listed) start
    | next _ listed meets type ih =>
      exact (ih (by rwa [MemoryMap.Ram, type])).next (kept ram listed) meets type
  · intro low
    have kept {s : MemoryMap} (ram : s.Ram) (listed : s ∈ mmaps) : s ∈ other :=
      perm.mem_iff.mpr (List.mem_map.mpr ⟨s, listed, checkType_of_ram ram⟩)
    induction low with
    | start listed start => exact .start (kept ram listed) start
    | next _ listed meets type ih =>
      exact (ih (by rwa [MemoryMap.Ram, type])).next (kept ram listed) meets type

theorem multibootRead_eq (apart : mmaps.Pairwise Apart) : multibootRead mmaps = ramBytes mmaps := by
  obtain ⟨sorted, perm⟩ := sortMap_sorted apart
  have shares : ((sanitizeMap (sortMap mmaps)).map counted).sum =
      ((sortMap mmaps).map fun r => r.share (FromBase (sortMap mmaps) r)).sum := by
    generalize sortMap mmaps = list at sorted
    cases list with
    | nil => rfl
    | cons first rest =>
      rw [sanitizeMap, sanitize_share sorted (List.nil_append _).symm rfl rfl (fromBase_first sorted rfl),
        List.map_cons, List.sum_cons, propext (fromBase_first sorted rfl)]
  rw [multibootRead, foldl_addRegion, shares, (perm.map _).sum_eq, List.map_map, ramBytes,
    ← Prod.zero_eq_mk, zero_add]
  refine congrArg List.sum (List.map_congr_left fun r _ => ?_)
  rw [Function.comp_apply]
  by_cases ram : r.Ram
  · rw [checkType_of_ram ram, propext (fromBase_checkType perm ram)]
  · rw [share_zero ram, share_zero fun there => ram (ram_of_checkType there)]

end Merging

def Usable (mmaps : List MemoryMap) (page : Nat) : Prop := ∃ r ∈ mmaps, r.Ram ∧ r.Holds page

instance (mmaps : List MemoryMap) (page : Nat) : Decidable (Usable mmaps page) :=
  List.decidableBEx _ mmaps

/-- The end of memory, if it were what the map has of it without a hole from
EXTPHYSMEM on. -/
noncomputable def endPage (mmaps : List MemoryMap) (mc146818 : Nat → BitVec 8) : Nat :=
  let extended := (npagesExtmem mc146818 (ramBytes mmaps).2).toNat
  limitPages (if extended ≠ 0 then extPhysMem / pgSize + extended
    else (ramBytes mmaps).1.toNat / pgSize)

/-- Base memory is whole, and extended memory has no hole below what the kernel takes
for its end. -/
structure Unbroken (mmaps : List MemoryMap) (mc146818 : Nat → BitVec 8) : Prop where
  base : ∀ page, 1 ≤ page → page < ioPhysMem / pgSize → page ≠ mpentryPaddr / pgSize →
    Usable mmaps page
  extended : ∀ page, extPhysMem / pgSize ≤ page → page < endPage mmaps mc146818 →
    Usable mmaps page

section Detect

variable {mc146818 : Nat → BitVec 8} {npagesBasemem : Nat}

theorem npagesExtmem_small (extmem : BitVec 64) :
    (npagesExtmem mc146818 extmem).toNat < 2 ^ 52 := by
  have small (x : BitVec 64) : (x / 4096).toNat < 2 ^ 52 := by
    have bound := x.isLt
    have size : (4096 : BitVec 64).toNat = 4096 := rfl
    rw [BitVec.toNat_udiv, size]
    omega
  unfold npagesExtmem
  split
  · exact small _
  · exact small _

theorem i386DetectMemory_eq (apart : mmaps.Pairwise Apart)
    (detected : i386DetectMemory (some mmaps) mc146818 = some (npages, npagesBasemem)) :
    npages = endPage mmaps mc146818 := by
  simp only [i386DetectMemory, multibootRead_eq apart] at detected
  split at detected
  case isTrue => cases detected
  have small : (npagesExtmem mc146818 (ramBytes mmaps).2).toNat < 2 ^ 52 := npagesExtmem_small _
  have zero : npagesExtmem mc146818 (ramBytes mmaps).2 = 0 ↔
      (npagesExtmem mc146818 (ramBytes mmaps).2).toNat = 0 := by
    rw [← BitVec.toNat_inj]
    rfl
  have first : extPhysMem / pgSize = 256 := by decide
  have size : (4096 : BitVec 64).toNat = 4096 := rfl
  cases detected
  unfold endPage
  simp only [ne_eq, zero, first]
  split
  · rw [BitVec.toNat_add, BitVec.toNat_ofNat, Nat.mod_eq_of_lt (by omega)]
  · rw [BitVec.toNat_udiv, size]
    rfl

/-- Every page on the free list after `page_init` is memory, and reserved for nothing
else, if and only if the map has no hole where the kernel sees none. -/
theorem only_ram_iff {platform : Platform npages} (linked : platform.Linked)
    (apart : mmaps.Pairwise Apart)
    (detected : i386DetectMemory (some mmaps) mc146818 = some (npages, npagesBasemem))
    (image : ∃ r ∈ mmaps, r.Ram ∧ r.addr.toNat = extPhysMem ∧ platform.kernE * pgSize ≤ r.stop)
    {m m' : Pmap npages} (inited : pageInit m platform.kernE platform.bootPts = some m')
    {free : List (Fin npages)} (listed : m'.FreeList free) :
    (∀ page ∈ free, Usable mmaps page.val ∧ ¬ platform.Reserved page) ↔
      Unbroken mmaps mc146818 := by
  obtain ⟨final, ran, head, -, -, pages⟩ := pageInit_eq platform m
  cases inited.symm.trans ran
  obtain rfl : free = platform.initialFree := listed.functional (platform.pool head pages).chain
  have last := i386DetectMemory_eq apart detected
  have room : platform.kernE < npages := platform.room
  have order := platform.kernEnd_lt
  have image' := platform.image
  have low : ioPhysMem / pgSize = 160 := by decide
  have first : extPhysMem / pgSize = 256 := by decide
  have entry : mpentryPaddr / pgSize = 7 := by decide
  have size : extPhysMem = 256 * pgSize := rfl
  rw [Platform.Linked, first] at linked
  constructor
  · intro every
    refine ⟨fun page above below other => ?_, fun page above below => ?_⟩
    · rw [low] at below
      rw [entry] at other
      exact (every ⟨page, by omega⟩ (platform.mem_initialFree.mpr (.inl ⟨above, below, other⟩))).1
    · rw [first] at above
      rw [← last] at below
      by_cases inside : page < platform.kernE
      · obtain ⟨r, there, ram, start, stop⟩ := image
        refine ⟨r, there, ram, ?_, (Nat.mul_le_mul_right pgSize inside).trans stop⟩
        rw [start, size]
        exact Nat.mul_le_mul_right pgSize above
      · exact (every ⟨page, below⟩ (platform.mem_initialFree.mpr (.inr (not_lt.mp inside)))).1
  · intro unbroken page there
    refine ⟨?_, fun reserved => (Platform.reserved_iff (by rwa [Platform.Linked, first])).mp reserved
      there⟩
    rcases platform.mem_initialFree.mp there with ⟨above, below, other⟩ | above
    · exact unbroken.base page above (by rwa [low]) (by rwa [entry])
    · exact unbroken.extended page (by omega) (last ▸ page.isLt)

/-- Base memory but for its last page, and extended memory up to 16 megabytes. -/
def brokenMap : List MemoryMap :=
  [⟨0x100000, 0xF00000, mbTypeUsable⟩, ⟨0, 0x9F000, mbTypeUsable⟩,
    ⟨0x9F000, 0x1000, mbTypeReserved⟩]

def wholeMap : List MemoryMap := [⟨0x100000, 0xF00000, mbTypeUsable⟩, ⟨0, 0xA0000, mbTypeUsable⟩]

theorem only_ram_whole : ∃ (m : Pmap 4096) (free : List (Fin 4096)), m.FreeList free ∧
    ((∀ page ∈ free, Usable wholeMap page.val ∧ ¬ sample.Reserved page) ↔
      Unbroken wholeMap fun _ => 0) := by
  obtain ⟨k, -, -, -⟩ := sample_booted
  obtain ⟨m, inited, head, -, -, pages⟩ := pageInit_eq sample k.pmap
  have listed := (sample.pool head pages).chain
  have detected : i386DetectMemory (some wholeMap) (fun _ => 0) = some (4096, 160) := by decide
  have linked : sample.Linked := (by decide : extPhysMem / pgSize ≤ 257)
  exact ⟨m, _, listed, only_ram_iff linked (by decide) detected (by decide) inited listed⟩

/-- The allocator is given a reserved page of base memory. -/
theorem reserved_page_free : ¬ ∀ (npages npagesBasemem : Nat) (platform : Platform npages)
    (mmaps : List MemoryMap) (mc146818 : Nat → BitVec 8) (m m' : Pmap npages)
    (free : List (Fin npages)), platform.Linked → mmaps.Pairwise Apart →
    (∀ r ∈ mmaps, r.addr.toNat % pgSize = 0 ∧ r.length.toNat % pgSize = 0) →
    i386DetectMemory (some mmaps) mc146818 = some (npages, npagesBasemem) →
    (∃ r ∈ mmaps, r.Ram ∧ r.addr.toNat = extPhysMem ∧ platform.kernE * pgSize ≤ r.stop) →
    pageInit m platform.kernE platform.bootPts = some m' → m'.FreeList free →
    ∀ page ∈ free, Usable mmaps page.val ∧ ¬ platform.Reserved page := by
  intro always
  obtain ⟨k, -, -, -⟩ := sample_booted
  obtain ⟨m, inited, head, -, -, pages⟩ := pageInit_eq sample k.pmap
  have detected : i386DetectMemory (some brokenMap) (fun _ => 0) = some (4096, 159) := by decide
  have usable := (always 4096 159 sample brokenMap _ _ m _
    (by decide : extPhysMem / pgSize ≤ 257) (by decide) (by decide) detected (by decide) inited
    (sample.pool head pages).chain ⟨159, by decide⟩
    (sample.mem_initialFree.mpr (.inl ⟨by decide, by decide, by decide⟩))).1
  exact absurd usable (by decide)

end Detect

end Jos
