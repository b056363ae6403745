import Mathlib.Data.BitVec
import Mathlib.Data.List.Induction
import Jos.Kern.Boot

/-! The multiprocessor configuration table, kern/mpconfig.c. Offsets are those of
`struct mpconf` and `struct mpproc`. -/

set_option autoImplicit false

namespace Jos

open Function

namespace Smp

abbrev Byte := BitVec 8

def mpproc : Byte := 0x00
def mplintr : Byte := 0x04
def mprocEn : Byte := 0x01
def mpprocBoot : Byte := 0x02
def cpuStarted : BitVec 32 := 1

/-- `sizeof(struct mpconf)` and `sizeof(struct mpproc)` -/
def mpconfSize : Nat := 44
def mpprocSize : Nat := 20

/-- What `mpconfig` looks at in the floating pointer that `mpsearch` has found. -/
structure Mp where
  physaddr : BitVec 32
  type : Byte

section Table

variable (conf : Nat → Byte)

def uint16 (offset : Nat) : Nat := (conf offset).toNat + 256 * (conf (offset + 1)).toNat
def uint32 (offset : Nat) : Nat := uint16 conf offset + 65536 * uint16 conf (offset + 2)

def length : Nat := uint16 conf 4
def version : Byte := conf 6
def entry : Nat := uint16 conf 34
def lapicaddr : Nat := uint32 conf 36
def xlength : Nat := uint16 conf 40
def xchecksum : Byte := conf 42

def sum (bytes : Nat → Byte) (len : Nat) : Byte := ((List.range len).map bytes).sum

def mpconfig (mem : Nat → Byte) (mp : Option Mp) : Option Nat := do
  let mp ← mp
  if mp.physaddr = 0 ∨ mp.type ≠ 0 then none
  else
    let conf := fun k => mem (mp.physaddr.toNat + k)
    -- "PCMP"
    if (List.range 4).map conf ≠ [0x50, 0x43, 0x4d, 0x50] then none
    else if sum conf (length conf) ≠ 0 then none
    else if version conf ≠ 1 ∧ version conf ≠ 4 then none
    else if sum (fun k => conf (length conf + k)) (xlength conf) ≠ xchecksum conf then none
    else some mp.physaddr.toNat

/-- The globals of mpconfig.c, with the offsets in the table that `mp_init` has read. `filled` has
for each element of `cpus` in use the processor entry that it was filled for. -/
structure Cpus where
  ncpu : Nat
  bootcpu : Nat
  cpuId : Nat → BitVec 8
  cpuStatus : Nat → BitVec 32
  ismp : Bool
  lapicaddr : Nat
  filled : List Nat
  reads : List Nat

def Cpus.read (s : Cpus) (offset size : Nat) : Cpus :=
  { s with reads := s.reads ++ List.range' offset size }

/-- A processor entry at offset `p`. The message about a processor reads its version and feature
flags too. -/
def processor (s : Cpus) (p : Nat) : Cpus :=
  let s := s.read (p + 3) 1
  let flags := conf (p + 3)
  let s := if flags &&& mpprocBoot ≠ 0 then { s with bootcpu := s.ncpu } else s
  if s.ncpu < ncpuMax then
    let s := ((s.read (p + 1) 1).read (p + 2) 1).read (p + 8) 4
    if flags &&& mprocEn ≠ 0 then
      { s with
        cpuId := update s.cpuId s.ncpu (BitVec.ofNat 8 s.ncpu)
        ncpu := s.ncpu + 1
        filled := s.filled ++ [p] }
    else s
  else s.read (p + 1) 1

/-- The loop of `mp_init`, with the number of entries that are left. -/
def walk : Nat → Nat → Cpus → Cpus
  | 0, _, s => s
  | left + 1, p, s =>
    let s := s.read p 1
    if conf p = mpproc then walk left (p + mpprocSize) (processor conf s p)
    else if conf p ≤ mplintr then walk left (p + 8) s
    else { s with ismp := false }

end Table

/-- The globals before `mp_init`. -/
def zeroed : Cpus := ⟨0, 0, fun _ => 0, fun _ => 0, false, 0, [], []⟩

def mpInit (mem : Nat → Byte) (mp : Option Mp) : Cpus :=
  match mpconfig mem mp with
  | none => zeroed
  | some addr =>
    let conf := fun k => mem (addr + k)
    let s : Cpus := { zeroed with ismp := true, lapicaddr := lapicaddr conf }
    let s := walk conf (entry conf) mpconfSize ((s.read 36 4).read 34 2)
    let s : Cpus := { s with cpuStatus := update s.cpuStatus s.bootcpu cpuStarted }
    if ¬ s.ismp then { s with ncpu := 1, lapicaddr := 0 } else s

section Entries

variable (conf : Nat → Byte)

def entriesFrom : Nat → Nat → List Nat
  | 0, _ => []
  | left + 1, p => p ::
      if conf p = mpproc then entriesFrom left (p + mpprocSize)
      else if conf p ≤ mplintr then entriesFrom left (p + 8)
      else []

def entries : List Nat := entriesFrom conf (entry conf) mpconfSize

def Enabled (p : Nat) : Prop := conf p = mpproc ∧ conf (p + 3) &&& mprocEn ≠ 0
def Flagged (p : Nat) : Prop := conf p = mpproc ∧ conf (p + 3) &&& mpprocBoot ≠ 0

instance : DecidablePred (Enabled conf) := fun _ => inferInstanceAs (Decidable (_ ∧ _))
instance : DecidablePred (Flagged conf) := fun _ => inferInstanceAs (Decidable (_ ∧ _))

/-- What is asked of `mp_init`. -/
structure Safe (s : Cpus) : Prop where
  inside : ∀ offset ∈ s.reads, offset < length conf
  few : s.ncpu ≤ ncpuMax
  numbered : ∀ i < s.ncpu, s.cpuId i = BitVec.ofNat 8 i
  element : s.bootcpu < ncpuMax
  started : s.cpuStatus s.bootcpu = cpuStarted
  boot : (∃ p ∈ entries conf, Enabled conf p ∧ Flagged conf p) →
    ∃ p, s.filled[s.bootcpu]? = some p ∧ Enabled conf p ∧ Flagged conf p

/-- How many bytes of an entry are looked at when `before` came before it: only those of the first
eight processors are reported in full. -/
def span (before : List Nat) (p : Nat) : Nat :=
  if conf p = mpproc then if before.countP (Enabled conf ·) < ncpuMax then 12 else 4 else 1

/-- The table has all the entries it counts, and its last boot processor is among the first eight
and enabled if any boot processor is. -/
structure WellFormed : Prop where
  header : 40 ≤ length conf
  whole : ∀ before p, before ++ [p] <+: entries conf → p + span conf before p ≤ length conf
  early : ∀ before p after, entries conf = before ++ p :: after → Flagged conf p →
    (∀ q ∈ after, ¬Flagged conf q) → before.countP (Enabled conf ·) < ncpuMax
  enabled : ∀ before p after, entries conf = before ++ p :: after → Flagged conf p →
    (∀ q ∈ after, ¬Flagged conf q) → (∃ q ∈ before, Enabled conf q ∧ Flagged conf q) →
      Enabled conf p

end Entries

section Visit

variable {conf : Nat → Byte} {s : Cpus} {p size len : Nat} {l : List Nat}

/-- What the loop does with the entry at `p`. -/
def visit (conf : Nat → Byte) (s : Cpus) (p : Nat) : Cpus :=
  let s := s.read p 1
  if conf p = mpproc then processor conf s p
  else if conf p ≤ mplintr then s
  else { s with ismp := false }

theorem walk_eq_foldl (left : Nat) :
    walk conf left p s = (entriesFrom conf left p).foldl (visit conf) s := by
  induction left generalizing p s with
  | zero => rfl
  | succ left ih =>
    rw [walk, entriesFrom, List.foldl_cons]
    by_cases type : conf p = mpproc
    · rw [if_pos type, if_pos type, ih, visit, if_pos type]
    · rw [if_neg type, if_neg type]
      by_cases known : conf p ≤ mplintr
      · rw [if_pos known, if_pos known, ih, visit, if_neg type, if_pos known]
      · rw [if_neg known, if_neg known, List.foldl_nil, visit, if_neg type, if_neg known]

/-- The bytes that are looked at of the entry at `p`. -/
def touched (conf : Nat → Byte) (ncpu p : Nat) : List Nat :=
  if conf p = mpproc then
    if ncpu < ncpuMax then [p, p + 3, p + 1, p + 2] ++ List.range' (p + 8) 4 else [p, p + 3, p + 1]
  else [p]

theorem visit_reads : (visit conf s p).reads = s.reads ++ touched conf s.ncpu p := by
  unfold visit processor touched Cpus.read
  grind

/-- The bytes that are looked at of an entry lie in the table when the last of them does. -/
theorem touched_inside (conf : Nat → Byte) (ncpu p : Nat) :
    p + (if conf p = mpproc then if ncpu < ncpuMax then 12 else 4 else 1) ≤
      len ↔ ∀ offset ∈ touched conf ncpu p, offset < len := by
  unfold touched
  split
  · split
    · grind
    · grind
  · grind

theorem visit_ncpu : (visit conf s p).ncpu =
    if Enabled conf p ∧ s.ncpu < ncpuMax then s.ncpu + 1 else s.ncpu := by
  unfold visit processor Enabled Cpus.read
  grind

theorem visit_filled : (visit conf s p).filled =
    if Enabled conf p ∧ s.ncpu < ncpuMax then s.filled ++ [p] else s.filled := by
  unfold visit processor Enabled Cpus.read
  grind

theorem visit_cpuId : (visit conf s p).cpuId = if Enabled conf p ∧ s.ncpu < ncpuMax then
    update s.cpuId s.ncpu (BitVec.ofNat 8 s.ncpu) else s.cpuId := by
  unfold visit processor Enabled Cpus.read
  grind

theorem visit_bootcpu : (visit conf s p).bootcpu =
    if Flagged conf p then s.ncpu else s.bootcpu := by
  unfold visit processor Flagged Cpus.read
  grind

/-- What holds when the entries of `l` have been visited. -/
structure Walked (conf : Nat → Byte) (l : List Nat) (s : Cpus) : Prop where
  ncpu : s.ncpu = min ncpuMax (l.countP (Enabled conf ·))
  filled : s.filled = (l.filter (Enabled conf ·)).take ncpuMax
  numbered : ∀ i < s.ncpu, s.cpuId i = BitVec.ofNat 8 i
  first : s.cpuId 0 = 0
  boot : ∀ before p after, l = before ++ p :: after → Flagged conf p →
    (∀ q ∈ after, ¬Flagged conf q) → s.bootcpu = min ncpuMax (before.countP (Enabled conf ·))
  unflagged : (∀ q ∈ l, ¬Flagged conf q) → s.bootcpu = 0
  inside : ∀ len, (∀ offset ∈ s.reads, offset < len) ↔
    40 ≤ len ∧ ∀ before p, before ++ [p] <+: l → p + span conf before p ≤ len

section

variable (walked : Walked conf l s)

include walked

theorem Walked.visit_ncpu : (visit conf s p).ncpu =
    min ncpuMax ((l ++ [p]).countP (Enabled conf ·)) := by
  rw [Smp.visit_ncpu, List.countP_append, List.countP_singleton]
  have counted := walked.ncpu
  by_cases enabled : Enabled conf p
  · rw [if_pos (decide_eq_true enabled)]
    by_cases fits : s.ncpu < ncpuMax
    · rw [if_pos ⟨enabled, fits⟩]
      omega
    · rw [if_neg (fun h => fits h.2)]
      omega
  · rw [if_neg (fun h => enabled h.1), if_neg (by simpa using enabled)]
    exact counted

theorem Walked.visit_filled : (visit conf s p).filled =
    ((l ++ [p]).filter (Enabled conf ·)).take ncpuMax := by
  rw [Smp.visit_filled, List.filter_append, walked.filled]
  by_cases enabled : Enabled conf p
  · rw [List.filter_cons_of_pos (by simpa using enabled), List.filter_nil]
    have counted := walked.ncpu
    have length : (l.filter (Enabled conf ·)).length = l.countP (Enabled conf ·) :=
      List.countP_eq_length_filter.symm
    by_cases fits : s.ncpu < ncpuMax
    · rw [if_pos ⟨enabled, fits⟩, List.take_of_length_le (by omega), List.take_of_length_le]
      rw [List.length_append, List.length_singleton]
      omega
    · rw [if_neg (fun h => fits h.2), List.take_append_of_le_length (by omega)]
  · rw [if_neg (fun h => enabled h.1), List.filter_cons_of_neg (by simpa using enabled),
      List.filter_nil, List.append_nil]

theorem Walked.visit_numbered :
    ∀ i < (visit conf s p).ncpu, (visit conf s p).cpuId i = BitVec.ofNat 8 i := by
  intro i below
  rw [Smp.visit_ncpu] at below
  rw [visit_cpuId]
  by_cases entered : Enabled conf p ∧ s.ncpu < ncpuMax
  · rw [if_pos entered] at below ⊢
    by_cases same : i = s.ncpu
    · rw [same, update_self]
    · rw [update_of_ne same]
      exact walked.numbered i (by omega)
  · rw [if_neg entered] at below ⊢
    exact walked.numbered i below

theorem Walked.visit_first : (visit conf s p).cpuId 0 = 0 := by
  rw [visit_cpuId]
  split
  · by_cases same : 0 = s.ncpu
    · rw [← same, update_self]
      rfl
    · rw [update_of_ne same]
      exact walked.first
  · exact walked.first

theorem Walked.visit_boot {before after : List Nat} {q : Nat}
    (parts : l ++ [p] = before ++ q :: after) (flagged : Flagged conf q)
    (last : ∀ r ∈ after, ¬Flagged conf r) :
    (visit conf s p).bootcpu = min ncpuMax (before.countP (Enabled conf ·)) := by
  rw [visit_bootcpu]
  rcases List.eq_nil_or_concat after with rfl | ⟨after, r, rfl⟩
  · obtain ⟨rfl, same⟩ := List.append_inj' parts rfl
    obtain rfl := (List.cons.inj same).1
    rw [if_pos flagged, walked.ncpu]
  · rw [List.concat_eq_append, ← List.cons_append, ← List.append_assoc] at parts
    obtain ⟨whole, same⟩ := List.append_inj' parts rfl
    obtain rfl := (List.cons.inj same).1
    rw [List.concat_eq_append] at last
    rw [if_neg (last p (List.mem_append_right _ (List.mem_singleton_self p)))]
    exact walked.boot before q after whole flagged fun q member =>
      last q (List.mem_append_left _ member)

theorem Walked.visit_inside (len : Nat) : (∀ offset ∈ (visit conf s p).reads, offset < len) ↔
      40 ≤ len ∧ ∀ before q, before ++ [q] <+: l ++ [p] → q + span conf before q ≤ len := by
  have room : l.countP (Enabled conf ·) < ncpuMax ↔ s.ncpu < ncpuMax := by
    rw [walked.ncpu]
    omega
  have here : (∀ offset ∈ touched conf s.ncpu p, offset < len) ↔ p + span conf l p ≤ len := by
    rw [← touched_inside]
    simp only [span, room]
  rw [visit_reads, List.forall_mem_append, walked.inside len, here, and_assoc]
  refine and_congr_right fun _ => ⟨?_, fun all => ?_⟩
  · rintro ⟨all, here⟩ before q initial
    rcases List.prefix_concat_iff.mp initial with same | initial
    · obtain ⟨rfl, only⟩ := List.append_inj' same rfl
      obtain rfl := (List.cons.inj only).1
      exact here
    · exact all before q initial
  · exact ⟨fun before q initial => all before q (initial.trans (List.prefix_append _ _)),
      all l p (List.prefix_refl _)⟩

theorem Walked.visit : Walked conf (l ++ [p]) (visit conf s p) where
  ncpu := walked.visit_ncpu
  filled := walked.visit_filled
  numbered := walked.visit_numbered
  first := walked.visit_first
  boot := fun _ _ _ parts flagged last => walked.visit_boot parts flagged last
  unflagged := fun none => by
    rw [visit_bootcpu, if_neg (none p (List.mem_append_right _ (List.mem_singleton_self p)))]
    exact walked.unflagged fun q member => none q (List.mem_append_left _ member)
  inside := walked.visit_inside

end

theorem walked_foldl (start : Walked conf [] s) : Walked conf l (l.foldl (Smp.visit conf) s) := by
  induction l using List.reverseRecOn with
  | nil => exact start
  | append_singleton l p ih =>
    rw [List.foldl_append, List.foldl_cons, List.foldl_nil]
    exact ih.visit

/-- Before the first entry, the header has been read up to `lapicaddr`. -/
theorem walked_start (conf : Nat → Byte) {ismp : Bool} {lapicaddr : Nat} :
    Walked conf [] (({ zeroed with ismp := ismp, lapicaddr := lapicaddr }.read 36 4).read 34 2) where
  ncpu := rfl
  filled := rfl
  numbered := nofun
  first := rfl
  boot := fun before p after parts => absurd parts (by simp)
  unflagged := fun _ => rfl
  inside := fun len => by
    have none : ∀ before p, before ++ [p] <+: [] → p + span conf before p ≤ len :=
      fun before p initial => absurd (List.prefix_nil.mp initial) (by simp)
    rw [and_iff_left none]
    constructor
    · exact fun all => all 39 (show 39 ∈ [36, 37, 38, 39, 34, 35] by decide)
    · intro fits offset member
      have below : ∀ offset ∈ [36, 37, 38, 39, 34, 35], offset < 40 := by decide
      exact Nat.lt_of_lt_of_le (below offset member) fits

variable {mem : Nat → Byte} {mp : Option Mp} {addr : Nat}

/-- A table that is accepted is walked, and then what was found is taken or given up. -/
theorem mpInit_walked (accepted : mpconfig mem mp = some addr) :
    ∃ s, Walked (fun k => mem (addr + k)) (entries fun k => mem (addr + k)) s ∧
      ∃ ncpu lapicaddr, (ncpu = s.ncpu ∨ ncpu = 1) ∧ mpInit mem mp = { s with
        ncpu := ncpu
        lapicaddr := lapicaddr
        cpuStatus := update s.cpuStatus s.bootcpu cpuStarted } := by
  have walked := @walked_foldl _ _ (entries fun k => mem (addr + k)) (@walked_start
    (fun k => mem (addr + k)) true (lapicaddr fun k => mem (addr + k)))
  refine ⟨_, walked, ?_⟩
  unfold mpInit
  rw [accepted]
  simp only
  rw [walk_eq_foldl, ← entries]
  split
  · exact ⟨_, _, .inr rfl, rfl⟩
  · exact ⟨_, _, .inl rfl, rfl⟩

theorem exists_last {P : Nat → Prop} (some : ∃ p ∈ l, P p) :
    ∃ before p after, l = before ++ p :: after ∧ P p ∧ ∀ q ∈ after, ¬P q := by
  induction l with
  | nil =>
    obtain ⟨p, member, -⟩ := some
    cases member
  | cons head l ih =>
    by_cases later : ∃ p ∈ l, P p
    · obtain ⟨before, p, after, rfl, holds, last⟩ := ih later
      exact ⟨head :: before, p, after, rfl, holds, last⟩
    · obtain ⟨p, member, holds⟩ := some
      rcases List.mem_cons.mp member with rfl | member
      · exact ⟨[], p, l, rfl, holds, fun q member holds => later ⟨q, member, holds⟩⟩
      · exact absurd ⟨p, member, holds⟩ later

/-- The element of `cpus` that an enabled processor has. -/
theorem Walked.filled_at (walked : Walked conf l s) {before after : List Nat}
    (parts : l = before ++ p :: after) (early : before.countP (Enabled conf ·) < ncpuMax) :
    s.filled[before.countP (Enabled conf ·)]? =
      ((p :: after).filter (Enabled conf ·)).head? := by
  rw [walked.filled, List.getElem?_take_of_lt early, parts, List.filter_append,
    List.countP_eq_length_filter, List.getElem?_append_right (Nat.le_refl _), Nat.sub_self,
    List.head?_eq_getElem?]

/-- The last boot processor is enabled, if the element it has is filled for a boot processor. -/
theorem Walked.enabled_of_filled (walked : Walked conf l s) {before after : List Nat} {q : Nat}
    (parts : l = before ++ p :: after) (flagged : Flagged conf p)
    (last : ∀ r ∈ after, ¬Flagged conf r) (element : s.bootcpu < ncpuMax)
    (filled : s.filled[s.bootcpu]? = some q) (flag : Flagged conf q) : Enabled conf p := by
  have place := walked.boot before p after parts flagged last
  have early : before.countP (Enabled conf ·) < ncpuMax := by omega
  have same : s.bootcpu = before.countP (Enabled conf ·) := by omega
  rw [same, walked.filled_at parts early] at filled
  by_contra disabled
  rw [List.filter_cons_of_neg (by simpa using disabled)] at filled
  exact last q (List.mem_filter.mp (List.mem_of_head? filled)).1 flag

theorem Walked.boot_lt (walked : Walked conf (entries conf) s) (wellFormed : WellFormed conf) :
    s.bootcpu < ncpuMax := by
  by_cases some : ∃ p ∈ entries conf, Flagged conf p
  · obtain ⟨before, p, after, parts, flagged, last⟩ := exists_last some
    have early := wellFormed.early before p after parts flagged last
    have place := walked.boot before p after parts flagged last
    omega
  · rw [walked.unflagged fun q member flagged => some ⟨q, member, flagged⟩]
    decide

theorem Walked.booted (walked : Walked conf (entries conf) s) (wellFormed : WellFormed conf)
    (boots : ∃ q ∈ entries conf, Enabled conf q ∧ Flagged conf q) :
    ∃ p, s.filled[s.bootcpu]? = some p ∧ Enabled conf p ∧ Flagged conf p := by
  obtain ⟨q, member, enabled, flag⟩ := boots
  obtain ⟨before, p, after, parts, flagged, last⟩ := exists_last ⟨q, member, flag⟩
  have early := wellFormed.early before p after parts flagged last
  have place := walked.boot before p after parts flagged last
  have same : s.bootcpu = before.countP (Enabled conf ·) := by omega
  have usable : Enabled conf p := by
    rw [parts, List.mem_append, List.mem_cons] at member
    rcases member with member | rfl | member
    · exact wellFormed.enabled before p after parts flagged last ⟨q, member, enabled, flag⟩
    · exact enabled
    · exact absurd flag (last q member)
  refine ⟨p, ?_, usable, flagged⟩
  rw [same, walked.filled_at parts early, List.filter_cons_of_pos (by simpa using usable)]
  rfl

/-- `mp_init` is right about a table that it accepts exactly when the table is well formed. -/
theorem mpInit_safe_iff (accepted : mpconfig mem mp = some addr) :
    Safe (fun k => mem (addr + k)) (mpInit mem mp) ↔ WellFormed fun k => mem (addr + k) := by
  obtain ⟨s, walked, ncpu, lapicaddr, counted, final⟩ := mpInit_walked accepted
  generalize (fun k => mem (addr + k)) = conf at walked ⊢
  rw [final]
  have inside := walked.inside (length conf)
  constructor
  · intro safe
    have read := inside.mp safe.inside
    have element : s.bootcpu < ncpuMax := safe.element
    refine ⟨read.1, read.2, fun before p after parts flagged last => ?_,
      fun before p after parts flagged last boots => ?_⟩
    · have place := walked.boot before p after parts flagged last
      omega
    · obtain ⟨q, member, enabled, boot⟩ := boots
      obtain ⟨r, filled, -, flag⟩ :=
        safe.boot ⟨q, parts ▸ List.mem_append_left _ member, enabled, boot⟩
      exact walked.enabled_of_filled parts flagged last element filled flag
  · intro wellFormed
    have few : s.ncpu ≤ ncpuMax := by
      have counts := walked.ncpu
      omega
    refine ⟨inside.mpr ⟨wellFormed.header, wellFormed.whole⟩, ?_, fun i below => ?_,
      walked.boot_lt wellFormed, update_self .., walked.booted wellFormed⟩
    · rcases counted with rfl | rfl
      · exact few
      · exact Nat.one_le_iff_ne_zero.mpr (by decide)
    · rcases counted with rfl | rfl
      · exact walked.numbered i below
      · obtain rfl : i = 0 := Nat.lt_one_iff.mp below
        exact walked.first

/-- A table of `len` bytes at address 1 that counts `count` entries, `procs` being the flags of its
processors. -/
def table (len count checksum : Byte) (procs : List Byte) (k : Nat) : Byte :=
  ([0, 0x50, 0x43, 0x4d, 0x50, len, 0, 4, checksum] ++ List.replicate 26 0 ++ [count] ++
    List.replicate 9 0 ++ procs.flatMap fun flags => [0, 0, 0, flags] ++ List.replicate 16 0).getD k 0

def pointer : Option Mp := some ⟨1, 0⟩

/-- A table with one processor, which is enabled and boots. -/
theorem mpInit_safe_one :
    Safe (fun k => table 64 1 136 [3] (1 + k)) (mpInit (table 64 1 136 [3]) pointer) := by
  have one : entries (fun k => table 64 1 136 [3] (1 + k)) = [44] := by decide +kernel
  have first : ∀ {before p after}, before ++ p :: after = [44] → before = [] ∧ p = 44 := by
    intro before p after parts
    rcases List.append_eq_singleton_iff.mp parts with ⟨rfl, same⟩ | ⟨-, none⟩
    · exact ⟨rfl, (List.cons.inj same).1⟩
    · cases none
  refine (mpInit_safe_iff (by decide +kernel)).mpr ⟨by decide +kernel, ?_, ?_, ?_⟩
  · intro before p initial
    obtain ⟨after, parts⟩ := one ▸ initial
    rw [List.append_assoc, List.singleton_append] at parts
    obtain ⟨rfl, rfl⟩ := first parts
    decide +kernel
  · intro before p after parts _ _
    obtain ⟨rfl, -⟩ := first (parts.symm.trans one)
    decide
  · intro before p after parts _ _ boots
    obtain ⟨rfl, -⟩ := first (parts.symm.trans one)
    obtain ⟨q, member, -⟩ := boots
    cases member

/-- A table that counts an entry it does not have, and one whose ninth processor boots. -/
theorem mpInit_unsafe :
    (mpconfig (table 44 1 159 []) pointer = some 1 ∧
      ¬Safe (fun k => table 44 1 159 [] (1 + k)) (mpInit (table 44 1 159 []) pointer)) ∧
    mpconfig (table 224 9 216 [1, 1, 1, 1, 1, 1, 1, 1, 3]) pointer = some 1 ∧
      ¬Safe (fun k => table 224 9 216 [1, 1, 1, 1, 1, 1, 1, 1, 3] (1 + k))
        (mpInit (table 224 9 216 [1, 1, 1, 1, 1, 1, 1, 1, 3]) pointer) := by
  refine ⟨⟨by decide +kernel, fun safe => ?_⟩, by decide +kernel, fun safe => ?_⟩
  · have read : 44 ∈ (mpInit (table 44 1 159 []) pointer).reads := by decide +kernel
    exact absurd (safe.inside 44 read) (by decide +kernel)
  · exact absurd safe.element (by decide +kernel)

end Visit
end Smp
end Jos
