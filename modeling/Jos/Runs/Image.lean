import Jos.Kern.Icode
import Jos.Runs.Sound

/-! The address space that `load_icode` builds. -/

set_option autoImplicit false

namespace Jos.Icode

open Foundation

variable {npages : Nat} {managed : Set (Fin npages)} {g : Ledger npages} {k k' : Kernel npages}
  {e : EnvIdx} {binary : Elf} {ram ram' : Ram}

structure WellFormed (binary : Elf) : Prop where
  magic : binary.magic = elfMagic
  headers : binary.phoff + binary.phnum * proghdrSize ≤ binary.bytes.length
  filled : ∀ i h, binary.segment i = some h → h.filesz ≤ h.memsz
  data : ∀ i h, binary.segment i = some h → 0 < h.filesz →
    h.offset + h.filesz ≤ binary.bytes.length
  below : ∀ i h, binary.segment i = some h → h.va + h.memsz ≤ ustackTop - pgSize
  apart : ∀ i j h h' pn, i ≠ j → binary.segment i = some h → binary.segment j = some h' →
    h.Covers pn → ¬h'.Covers pn

def byteAt (k : Kernel npages) (ram : Ram) (e : EnvIdx) (va : Nat) : Option (BitVec 8) :=
  (k.view e va).map fun found => ram (found.ppn * pgSize + va % pgSize)

/-- The environment has its program image and a page for the stack, and no more. -/
structure Exact (binary : Elf) (k : Kernel npages) (ram : Ram) (e : EnvIdx) : Prop where
  bytes : ∀ i h n, binary.segment i = some h → n < h.memsz →
    byteAt k ram e (h.va + n) =
      if n < h.filesz then binary.byte (h.offset + n : Nat) else some 0
  stack : k.view e (ustackTop - pgSize) ≠ none
  only : ∀ va, va < utop → k.view e va ≠ none → vpn va = vpn (ustackTop - pgSize) ∨
    ∃ i h n, binary.segment i = some h ∧ n < h.memsz ∧ vpn va = vpn (h.va + n)
  entry : (k.envs e).envTf.tfRip = BitVec.ofNat 64 binary.entry

theorem WellFormed.low (formed : WellFormed binary) : (outline binary).Low := by
  intro segment member
  obtain ⟨i, -, found⟩ := List.mem_filterMap.mp member
  obtain ⟨h, here, fits⟩ := Option.bind_eq_some_iff.mp found
  split at fits
  · obtain rfl := Option.some.inj fits
    have below := formed.below i h here
    have top : ustackTop < 2 ^ 38 := by decide
    simp only [LowRegion, pgSize] at below ⊢
    omega
  · cases fits

section

variable (sound : Sound managed k g)

include sound

theorem unmapped_of_wanted {va : Nat} (user : pml4 va ≠ pml4 uvpt)
    (wanted : g.wanted (.root (some e)) va ≠ 0) : leafOf k g e va = 0 := by
  refine leafEntry_none (Option.eq_none_iff_forall_ne_some.mpr fun page there => wanted ?_)
  exact sound.valid.wanted_of_table user there

/-- One round of `region_alloc`. -/
theorem regionAllocLoop_step {root : Fin npages} {rounds va : Nat}
    {m' : Pmap npages} (ran : Jos.regionAllocLoop (some root) (rounds + 1) va k.pmap = some m') :
    ∃ page rest code m, g.free = page :: rest ∧
      pageInsert (k.pmap.take page true) (some root) page va (pteU ||| pteP ||| pteW) =
        some (code, m) ∧
      Jos.regionAllocLoop (some root) rounds (va + pgSize) m = some m' := by
  unfold Jos.regionAllocLoop at ran
  cases listed : g.free with
  | nil =>
    rw [sound.valid.pageAlloc_empty listed] at ran
    cases ran
  | cons page rest =>
    rw [sound.valid.pageAlloc_eq listed] at ran
    obtain ⟨⟨code, m⟩, inserted, ran⟩ := Option.bind_eq_some_iff.mp ran
    exact ⟨page, rest, code, m, rfl, inserted, ran⟩

/-- `region_alloc` for the stack goes one page too far, or it has mapped nothing. -/
theorem stack_extra {root : Fin npages}
    (rooted : (k.envs e).envPml4e = some root) {m' : Pmap npages}
    (ran : Jos.regionAlloc k.pmap (some root) (ustackTop - pgSize) pgSize = some m') :
    ∃ g', Sound managed (k.setPmap m') g' ∧
      ((leafOf (k.setPmap m') g' e ustackTop).present = true ∨
        leafOf (k.setPmap m') g' e (ustackTop - pgSize) = 0) := by
  have rounds : (pgSize + pgSize) / pgSize = 1 + 1 := by decide
  have base : (ustackTop - pgSize) / pgSize * pgSize = ustackTop - pgSize := by decide
  have next : ustackTop - pgSize + pgSize = ustackTop := by decide
  have user : pml4 (ustackTop - pgSize) ≠ pml4 uvpt := by decide
  unfold Jos.regionAlloc at ran
  rw [rounds, base] at ran
  obtain ⟨page, rest, code, m, listed, inserted, ran⟩ := regionAllocLoop_step sound ran
  rw [next] at ran
  rcases sound.insertFresh rooted listed (by decide) inserted with
    ⟨-, -, g₁, call, leaf, -⟩ | ⟨-, lacking, g₁, call, -⟩
  · obtain ⟨page', rest', code', m'', listed', inserted', ran⟩ :=
      @regionAllocLoop_step _ _ g₁ (k.setPmap m) call.sound root 0 ustackTop m' ran
    cases ran
    -- The table of the first page is that of the second.
    have tables : g₁.wanted (.root (some e)) ustackTop = 0 := by
      by_contra wanted
      have same : g₁.wanted (.root (some e)) (ustackTop - pgSize) =
          g₁.wanted (.root (some e)) ustackTop := rfl
      rw [unmapped_of_wanted call.sound user (same ▸ wanted)] at leaf
      exact absurd leaf.symm (ne_zero_of_present present_or)
    rcases call.sound.insertFresh rooted listed' (by decide) inserted' with
      ⟨-, -, g₂, call', leaf', -⟩ | ⟨-, lacking, -⟩
    · exact ⟨g₂, call'.sound, .inl (leaf' ▸ present_or)⟩
    · omega
  · obtain ⟨page', rest', code', m'', listed', inserted', ran⟩ :=
      @regionAllocLoop_step _ _ g₁ (k.setPmap m) call.sound root 0 ustackTop m' ran
    cases ran
    have before := unmapped_of_wanted sound user (Nat.ne_zero_of_lt lacking)
    have kept : leafOf (k.setPmap m) g₁ e (ustackTop - pgSize) = 0 := by
      rw [← before]
      exact call.keeps.leaves (by rw [Place.table_path user]; rfl) _ id
    have other : ¬(Footprint.slot (.root (some e)) ustackTop).stores
        ((Place.root (some e)).table (ustackTop - pgSize)) (ptx (ustackTop - pgSize)) :=
      fun both => absurd both.2 (by decide)
    have deep : ((Place.root (some e)).table (ustackTop - pgSize)).path.length = 3 := by
      rw [Place.table_path user]
      rfl
    rcases call.sound.insertFresh rooted listed' (by decide) inserted' with
      ⟨-, -, g₂, call', -⟩ | ⟨-, -, g₂, call', -⟩
    · exact ⟨g₂, call'.sound, .inr ((call'.keeps.leaves deep _ other).trans kept)⟩
    · exact ⟨g₂, call'.sound, .inr ((call'.keeps.leaves deep _ id).trans kept)⟩

/-- What `load_icode` leaves of the stack. -/
theorem loadIcode_stack (live : k.Live e) {binary : Binary}
    (low : binary.Low) (ran : Jos.loadIcode k e binary = some k') :
    k'.view e ustackTop ≠ none ∨ k'.view e (ustackTop - pgSize) = none := by
  obtain ⟨root, rooted⟩ := live.root
  unfold Jos.loadIcode at ran
  rw [rooted] at ran
  obtain ⟨m₁, loaded, ran⟩ := Option.bind_eq_some_iff.mp ran
  obtain ⟨m₂, stacked, ran⟩ := Option.bind_eq_some_iff.mp ran
  cases ran
  obtain ⟨g₁, first⟩ := sound.loadSegments rooted low loaded
  obtain ⟨g₂, after, extra⟩ := @stack_extra _ _ g₁ (k.setPmap m₁) e first.sound root rooted m₂ stacked
  have view {va : Nat} (user : pml4 va ≠ pml4 uvpt) {tf : Trapframe} :
      ((k.setPmap m₂).setEnv e { k.envs e with envTf := tf }).view e va =
        leafTranslation (leafOf ((k.setPmap m₁).setPmap m₂) g₂ e va) := by
    rw [← after.translateIn (show ((k.setPmap m₂).envs e).envPml4e ≠ none from live) user]
    exact Kernel.view_setEnv rfl
  refine extra.imp (fun present => ?_) fun none => ?_
  · rw [view (by decide), leafTranslation, if_pos present]
    exact Option.some_ne_none _
  · rw [view (by decide), none]
    rfl

end

theorem Exact.stack_only (exact : Exact binary k ram e) (formed : WellFormed binary) :
    ¬(k.view e ustackTop ≠ none ∨ k.view e (ustackTop - pgSize) = none) := by
  rintro (extra | none)
  · rcases exact.only ustackTop (by decide) extra with same | ⟨i, h, n, found, inside, same⟩
    · exact absurd same (by decide)
    · have below := formed.below i h found
      have top : vpn ustackTop = vpn (ustackTop - pgSize) + 1 := by decide
      have le : vpn (h.va + n) ≤ vpn (ustackTop - pgSize) := Nat.div_le_div_right (by omega)
      omega
  · exact exact.stack none

/-- On no binary does `load_icode` come back with the image: it faults, or it panics, or
the page at USTACKTOP is mapped, too. -/
theorem loadIcode_not_exact (sound : Sound managed k g) (live : k.Live e)
    (formed : WellFormed binary) :
    ¬∃ k' ram', loadIcode k ram e binary = some (k', ram') ∧ Exact binary k' ram' e := by
  rintro ⟨k', ram', ran, exact⟩
  exact exact.stack_only formed (loadIcode_stack sound live formed.low (loadIcode_outline ran))

theorem regionAllocLoop_bytes {root : Option (Fin npages)} {rounds va : Nat} {m m' : Pmap npages}
    (ran : Jos.regionAllocLoop root rounds va m = some m') (ram : Ram) :
    ∃ ram', regionAllocLoop root rounds va (m, ram) = some (m', ram') := by
  induction rounds generalizing va m ram with
  | zero =>
    cases ran
    exact ⟨ram, rfl⟩
  | succ rounds ih =>
    unfold Jos.regionAllocLoop at ran
    unfold regionAllocLoop
    dsimp only
    cases allocated : pageAlloc m true with
    | none =>
      rw [allocated] at ran
      cases ran
    | some pair =>
      rw [allocated] at ran
      obtain ⟨⟨code, m'⟩, inserted, ran⟩ := Option.bind_eq_some_iff.mp ran
      dsimp only
      rw [inserted]
      exact ih ran _

def bare : Elf := ⟨[0x7F, 0x45, 0x4C, 0x46] ++ List.replicate 60 0⟩

theorem bare_phnum : bare.phnum = 0 := by decide +kernel

theorem bare_magic : bare.magic = elfMagic := by decide +kernel

theorem bare_formed : WellFormed bare := by
  have none : ∀ i h, bare.segment i ≠ some h := by
    intro i h found
    have range := Elf.segment_range found
    rw [bare_phnum] at range
    exact Nat.not_lt_zero i range
  exact ⟨bare_magic, by decide +kernel, fun i h found => absurd found (none i h),
    fun i h found => absurd found (none i h), fun i h found => absurd found (none i h),
    fun i _ h _ _ _ found => absurd found (none i h)⟩

theorem sample_loaded : ∃ (k k' : Kernel 4096) (g : Ledger 4096) (e : EnvIdx) (ram' : Ram),
    Sound sample.managed k g ∧ k.Live e ∧ loadIcode k (fun _ => 0) e bare = some (k', ram') := by
  obtain ⟨k, g, e, -, fresh, live, -, tables⟩ := sample_bare Orderly fun _ => trivial
  obtain ⟨root, rooted⟩ := live.root
  have rounds : (pgSize + pgSize) / pgSize = 2 := by decide
  have base : (ustackTop - pgSize) / pgSize * pgSize = ustackTop - pgSize := by decide
  have size : pgSize = 4096 := rfl
  have low : ustackTop - pgSize + 2 * pgSize ≤ 2 ^ 39 := by decide
  have empty : ∀ i < 2, leafOf k g e (ustackTop - pgSize + i * pgSize) = 0 := by
    intro i few
    refine leafEntry_none ?_
    rw [Place.table_own]
    · exact tables _ _
    all_goals
      rcases Nat.lt_succ_iff_lt_or_eq.mp few with first | rfl
      · obtain rfl := Nat.lt_one_iff.mp first
        decide
      · decide
  obtain ⟨m, -, stacked, -⟩ := fresh.sound.regionAllocLoop_done rooted low empty
    (by have room := fresh.room; omega)
  obtain ⟨ram', stacked⟩ := regionAllocLoop_bytes stacked fun _ => 0
  have ran : ∃ k', loadIcode k (fun _ => 0) e bare = some (k', ram') := by
    unfold loadIcode
    dsimp only
    rw [if_neg (not_not.mpr bare_magic), bare_phnum, List.range_zero, List.foldlM_nil,
      Option.pure_def, Option.bind_some]
    unfold regionAlloc
    rw [rounds, base, rooted, stacked]
    exact ⟨_, rfl⟩
  obtain ⟨k', ran⟩ := ran
  exact ⟨k, k', g, e, ram', fresh.sound, live, ran⟩

theorem loadIcode_bare : ∃ (k : Kernel 4096) (e : EnvIdx),
    (∃ k' ram', loadIcode k (fun _ => 0) e bare = some (k', ram')) ∧
      ¬∃ k' ram', loadIcode k (fun _ => 0) e bare = some (k', ram') ∧ Exact bare k' ram' e := by
  obtain ⟨k, k', g, e, ram', sound, live, ran⟩ := sample_loaded
  exact ⟨k, e, ⟨k', ram', ran⟩, loadIcode_not_exact sound live bare_formed⟩

theorem loadIcode_oversteps : ¬∀ (k k' : Kernel 4096) (g : Ledger 4096) (e : EnvIdx) (ram ram' : Ram)
    (binary : Elf), Sound sample.managed k g → k.Live e → WellFormed binary →
      loadIcode k ram e binary = some (k', ram') → Exact binary k' ram' e := by
  intro exact
  obtain ⟨k, k', g, e, ram', sound, live, ran⟩ := sample_loaded
  exact (exact k k' g e _ ram' bare sound live bare_formed ran).stack_only bare_formed
    (loadIcode_stack sound live bare_formed.low (loadIcode_outline ran))

end Jos.Icode
