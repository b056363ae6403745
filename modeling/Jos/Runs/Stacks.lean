import Jos.Runs.Allocator

/-! The kernel stacks of the processors: where `trap_init_percpu` puts them, and what
`mem_init_mp` and the map of all of physical memory have there. -/

set_option autoImplicit false

namespace Jos

open Foundation

variable {npages : Nat}

/-- The pages that calls of `page_alloc` return, one after another. -/
def pageAllocs (m : Pmap npages) : List Bool → List (Fin npages)
  | [] => []
  | allocZero :: calls =>
    match pageAlloc m allocZero with
    | none => pageAllocs m calls
    | some (page, m) => page :: pageAllocs m calls

namespace Platform

/-- The linker puts `percpu_kstacks` in the image, behind EXTPHYSMEM. -/
def StacksLinked (platform : Platform npages) : Prop :=
  extPhysMem / pgSize ≤ platform.kstacks ∧
    platform.kstacks + ncpuMax * (kstkSize / pgSize) ≤ platform.kernEnd

instance (platform : Platform npages) : Decidable platform.StacksLinked :=
  inferInstanceAs (Decidable (_ ∧ _))

def InStack (i va : Nat) : Prop := tsEsp0 i - kstkSize ≤ va ∧ va < tsEsp0 i

/-- The stack of a processor is its own `percpu_kstacks`, with a gap below, and nobody
else gets its pages. -/
structure StackPrivate (platform : Platform npages) (m : Pmap npages) (i : Nat) : Prop where
  backed : ∀ va, InStack i va → ∃ found, m.translate m.bootPml4e va = some found ∧
    found.ppn = platform.kstacks + i * (kstkSize / pgSize) + (va - (tsEsp0 i - kstkSize)) / pgSize
  guarded : ∀ va, tsEsp0 i - kstkSize - kstkGap ≤ va → va < tsEsp0 i - kstkSize →
    m.translate m.bootPml4e va = none
  disjoint : ∀ j < ncpuMax, j ≠ i → ∀ va va' found found', InStack i va → InStack j va' →
    m.translate m.bootPml4e va = some found → m.translate m.bootPml4e va' = some found' →
      found.ppn ≠ found'.ppn
  unallocated : ∀ calls, ∀ page ∈ pageAllocs m calls, ∀ va found, InStack i va →
    m.translate m.bootPml4e va = some found → found.ppn ≠ page.val

end Platform

theorem pageAllocs_managed {managed : Set (Fin npages)} {m : Pmap npages}
    {free : List (Fin npages)} (chain : m.FreeList free) (listed : ∀ page ∈ free, page ∈ managed)
    {calls : List Bool} {page : Fin npages} (returned : page ∈ pageAllocs m calls) :
    page ∈ managed := by
  induction calls generalizing m free with
  | nil => cases returned
  | cons allocZero calls ih =>
    unfold pageAllocs at returned
    cases ran : pageAlloc m allocZero with
    | none =>
      rw [ran] at returned
      exact ih chain listed returned
    | some result =>
      obtain ⟨first, m'⟩ := result
      rw [ran] at returned
      obtain ⟨rest, rfl, -, chain'⟩ := chain.pageAlloc ran
      rcases List.mem_cons.mp returned with rfl | later
      · exact listed _ List.mem_cons_self
      · exact ih chain' (fun page member => listed page (List.mem_cons_of_mem _ member)) later

theorem leafTranslation_stack {ppn : Nat} : leafTranslation ⟨ppn, pteW ||| pteP⟩ =
    some ⟨ppn, tablePerm, tablePerm, tablePerm, pteW ||| pteP⟩ := by
  have present : Pte.present ⟨ppn, pteW ||| pteP⟩ := by
    change (pteW ||| pteP).getLsbD 0 = true
    decide
  rw [leafTranslation, if_pos present]

theorem leafTranslation_physical {ppn : Nat} : leafTranslation ⟨ppn, pteP ||| pteW⟩ =
    some ⟨ppn, tablePerm, tablePerm, tablePerm, pteP ||| pteW⟩ := by
  have present : Pte.present ⟨ppn, pteP ||| pteW⟩ := by
    change (pteP ||| pteW).getLsbD 0 = true
    decide
  rw [leafTranslation, if_pos present]

section
variable {platform : Platform npages} {m : Pmap npages} {g : Ledger npages}

/-- The first stack is where `mem_init_mp` maps it. -/
theorem KernelMapped.first (mapped : KernelMapped platform m g) {va : Nat}
    (inside : Platform.InStack 0 va) :
    bootLeaf m g va =
      ⟨platform.kstacks + (va - (tsEsp0 0 - kstkSize)) / pgSize, pteW ||| pteP⟩ := by
  have top : tsEsp0 0 = 2 ^ 39 + 2 ^ 26 := by decide
  have stack : kstkSize = 16 * 4096 := rfl
  have size : pgSize = 4096 := rfl
  have bottom : kstackBottom 0 / pgSize = 2 ^ 27 + 2 ^ 14 - 16 := kstackBottom_page (by decide)
  obtain ⟨above, below⟩ := inside
  rw [top, stack] at above
  rw [top] at below
  have low : kstackBottom 0 / pgSize ≤ va / pgSize := by
    rw [bottom, size]
    omega
  have high : va / pgSize < kstackBottom 0 / pgSize + 16 := by
    rw [bottom, size]
    omega
  have page : platform.kstacks + 0 * 16 + (va / pgSize - kstackBottom 0 / pgSize) =
      platform.kstacks + (va - (tsEsp0 0 - kstkSize)) / pgSize := by
    rw [bottom, top, stack, size]
    omega
  have canonical : va < 2 ^ 48 := by omega
  rw [mapped.stack 0 (by decide) va canonical low high, page]

theorem stack_reach {i va count base : Nat} (small : i < 8) (below : va < base + i * (24 * 4096))
    (room : 256 * 4096 ≤ count) : va < base + count := by
  omega

theorem KernelMapped.other (mapped : KernelMapped platform m g) (linked : platform.StacksLinked)
    {i va : Nat} (later : i ≠ 0) (small : i < ncpuMax) (inside : Platform.InStack i va) :
    bootLeaf m g va = ⟨(va - kernBase) / pgSize, pteP ||| pteW⟩ ∧
      (va - kernBase) / pgSize < extPhysMem / pgSize := by
  have cpus : ncpuMax = 8 := rfl
  have top : tsEsp0 i = 2 ^ 39 + 2 ^ 26 + i * (24 * 4096) := rfl
  have stack : kstkSize = 16 * 4096 := rfl
  have size : pgSize = 4096 := rfl
  have base : kernBase = 2 ^ 39 + 2 ^ 26 := by decide
  have extended : extPhysMem / pgSize = 256 := by decide
  have room : 256 * 4096 ≤ npages * 4096 := by
    have first := linked.1
    have image := linked.2
    have order := platform.kernEnd_lt_npages
    rw [extended] at first
    exact Nat.mul_le_mul_right 4096 (by omega)
  obtain ⟨above, below⟩ := inside
  rw [top, stack] at above
  rw [top] at below
  have high : va < kernBase + npages * pgSize := by
    rw [base, size]
    exact stack_reach small below room
  have low : kernBase ≤ va := by
    rw [base]
    omega
  refine ⟨mapped.physical va low high, ?_⟩
  rw [extended, base, size]
  omega

theorem not_stackPrivate (booting : Booting platform platform.bootPage m g)
    (mapped : KernelMapped platform m g) (linked : platform.StacksLinked) {i : Nat}
    (small : i < ncpuMax) (later : i ≠ 0) : ¬ platform.StackPrivate m i := by
  intro kept
  have inside : Platform.InStack i (tsEsp0 i - kstkSize) :=
    ⟨le_rfl, Nat.sub_lt (Nat.lt_of_lt_of_le (by decide) (Nat.le_add_right _ _)) (by decide)⟩
  obtain ⟨found, translated, ppn⟩ := kept.backed _ inside
  obtain ⟨leaf, low⟩ := mapped.other linked later small inside
  rw [booting.valid.translate_boot] at translated
  change leafTranslation (bootLeaf m g _) = some found at translated
  rw [leaf, leafTranslation_physical] at translated
  cases translated
  have above := linked.1
  change (tsEsp0 i - kstkSize - kernBase) / pgSize = _ at ppn
  rw [Nat.sub_self, Nat.zero_div] at ppn
  omega

theorem first_stackPrivate (booting : Booting platform platform.bootPage m g)
    (mapped : KernelMapped platform m g) (linked : platform.StacksLinked) :
    platform.StackPrivate m 0 := by
  have translate (va : Nat) : m.translate m.bootPml4e va = leafTranslation (bootLeaf m g va) :=
    booting.valid.translate_boot
  have first {va : Nat} {found : Translation} (inside : Platform.InStack 0 va)
      (translated : m.translate m.bootPml4e va = some found) :
      platform.kstacks ≤ found.ppn ∧ found.ppn < platform.kernEnd := by
    rw [translate, mapped.first inside, leafTranslation_stack] at translated
    cases translated
    obtain ⟨above, below⟩ := inside
    have image := linked.2
    have cpus : ncpuMax * (kstkSize / pgSize) = 128 := rfl
    have top : tsEsp0 0 = 2 ^ 39 + 2 ^ 26 := by decide
    have stack : kstkSize = 16 * 4096 := rfl
    have size : pgSize = 4096 := rfl
    rw [cpus] at image
    rw [top, stack] at above
    rw [top] at below
    simp only [top, stack, size]
    omega
  refine ⟨fun va inside => ?_, fun va above below => ?_,
    fun j small differs va va' found found' inside inside' here there => ?_,
    fun calls page returned va found inside here => ?_⟩
  · refine ⟨_, by rw [translate, mapped.first inside, leafTranslation_stack], ?_⟩
    simp only
    omega
  · have top : tsEsp0 0 = 2 ^ 39 + 2 ^ 26 := by decide
    have stack : kstkSize = 16 * 4096 := rfl
    have gap : kstkGap = 8 * 4096 := rfl
    have size : pgSize = 4096 := rfl
    rw [top, stack, gap] at above
    rw [top, stack] at below
    rw [translate, mapped.gap va (by rw [show kstackTop = 2 ^ 39 + 2 ^ 26 by decide]; omega)
      (by
        rw [show kstackTop = 2 ^ 39 + 2 ^ 26 by decide,
          show ncpuMax * (kstkSize + kstkGap) = 192 * 4096 by decide]
        omega) fun i small => ?_]
    · rfl
    · rw [kstackBottom_page small, size]
      have cpus : ncpuMax = 8 := rfl
      omega
  · have second := mapped.other linked differs small inside'
    have high := (first inside here).1
    have low := linked.1
    rw [translate, second.1, leafTranslation_physical] at there
    cases there
    have small := second.2
    simp only
    omega
  · have managed := pageAllocs_managed booting.valid.pool.chain
      (fun page listed => (booting.valid.pool.member page listed).1) returned
    have between := first inside here
    have low := linked.1
    have extended : extPhysMem / pgSize = 256 := by decide
    have order := platform.kernEnd_lt
    rcases managed with ⟨-, small, -⟩ | large
    · omega
    · omega

end

/-- Of the processors, exactly the first has a kernel stack of its own. -/
theorem stackPrivate_iff {platform : Platform npages} {m : Pmap npages}
    (linked : platform.StacksLinked) (ample : kernelTables npages ≤ platform.initialFree.length)
    (ran : x64VmInit platform = some m) {i : Nat} (small : i < ncpuMax) :
    platform.StackPrivate m i ↔ i = 0 := by
  obtain ⟨m', g, ran', booting, -, -, mapped⟩ := x64VmInit_booting platform
  cases ran.symm.trans ran'
  constructor
  · intro kept
    by_contra later
    exact not_stackPrivate booting (mapped ample).1 linked small later kept
  · rintro rfl
    exact first_stackPrivate booting (mapped ample).1 linked

theorem sample_stacksLinked : sample.StacksLinked := by decide

theorem sample_ample : kernelTables 4096 ≤ sample.initialFree.length := by
  rw [Platform.length_initialFree]
  decide

/-- The stack of the first processor of the sample machine. -/
theorem sample_stackPrivate : ∃ m, x64VmInit sample = some m ∧ sample.StackPrivate m 0 := by
  obtain ⟨m, g, ran, -⟩ := x64VmInit_booting sample
  exact ⟨m, ran, (stackPrivate_iff sample_stacksLinked sample_ample ran (by decide)).mpr rfl⟩

/-- The second processor runs on pages of low memory that are not its stack. -/
theorem second_stack_aliased : ∃ m, x64VmInit sample = some m ∧ ¬ sample.StackPrivate m 1 := by
  obtain ⟨m, g, ran, booting, -, -, mapped⟩ := x64VmInit_booting sample
  exact ⟨m, ran, not_stackPrivate booting (mapped sample_ample).1 sample_stacksLinked
    (by decide) (by decide)⟩

end Jos
