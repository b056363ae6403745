import Jos.Foundation.Run
import Jos.Calls.Progress
import Jos.Calls.Step

/-! The states that the kernel reaches from the boot. -/

set_option autoImplicit false

namespace Jos

open Foundation Function

variable {npages : Nat} {platform : Platform npages} {g g' : Ledger npages}
  {k k' : Kernel npages} {e : EnvIdx}

/-- The states that runs from the boot reach, when the guard admits every event. -/
def Reached (platform : Platform npages) (guard : Kernel npages → KernelEvent → Prop) :
    Kernel npages → Prop :=
  Reachable (fun k => boot platform = some k) kernelStep guard

theorem Reached.sound (reached : Reached platform Orderly k) :
    ∃ g, Sound platform.managed k g := by
  refine Reachable.invariant reached (fun k => ∃ g, Sound platform.managed k g)
    (fun start booted => ?_) fun before event after sound orderly ran => ?_
  · obtain ⟨g, booted⟩ := boot_booted booted
    exact ⟨g, booted.sound⟩
  · obtain ⟨g, sound⟩ := sound
    obtain ⟨g', change, -⟩ := sound.step orderly ran
    exact ⟨g', change.sound⟩

def Kernel.view (k : Kernel npages) (e : EnvIdx) (va : Nat) : Option Translation :=
  k.pmap.translateIn (k.envs e).envPml4e va

theorem Kernel.view_setEnv {slot : EnvIdx} {env : Env npages} {va : Nat}
    (space : env.envPml4e = (k.envs slot).envPml4e) : (k.setEnv slot env).view e va = k.view e va := by
  unfold Kernel.view Kernel.setEnv
  by_cases same : e = slot
  · subst same
    simp only [update_self, space]
  · simp only [update_of_ne same]

/-- A state soon after the boot: the allocator's pages are not mapped yet. -/
structure Fresh (platform : Platform npages) (k : Kernel npages) (g : Ledger npages)
    (pages : Nat) : Prop where
  sound : Sound platform.managed k g
  unmapped : ∀ {a t}, a.Mappable t → ∀ page ∈ platform.managed,
    ¬ (leafEntry k.pmap.mem g.table a t).Refers page
  refs : ∀ page, page ∉ platform.managed → (k.pmap.pages page).ppRef = 0
  idle : ∀ page, page ∉ platform.managed → page ≠ k.pmap.bootPml4e →
    k.pmap.mem page = platform.mem page
  room : pages ≤ g.free.length

theorem Booted.fresh {pages : Nat} (booted : Booted platform k g) (room : pages ≤ g.free.length) :
    Fresh platform k g pages :=
  ⟨booted.sound, booted.unmapped, booted.refs, booted.idle, room⟩

theorem Booted.dead (booted : Booted platform k g) : ¬ k.Live e := by
  obtain ⟨link, zeroed⟩ := booted.envs e
  rw [Kernel.Live, zeroed, not_not]
  rfl

theorem Pmap.setupVm_ref {m : Pmap npages} {root page : Fin npages} (differs : page ≠ root) :
    ((m.setupVm root).pages page).ppRef = (m.pages page).ppRef := by
  change (((m.take root true).incRef root).pages page).ppRef = _
  rw [Pmap.incRef_ref, if_neg differs, Pmap.take_ref]

theorem Fresh.alloc {pages : Nat} (fresh : Fresh platform k g (pages + 1))
    (vacant : ∃ e, ¬ k.Live e) (parentId : EnvId) :
    ∃ e k' g', envAlloc k parentId = .ok (e, k') ∧ Fresh platform k' g' pages ∧
      Allocated platform.managed k g k' g' e parentId := by
  have sound := fresh.sound
  have memory : g.free ≠ [] := by
    intro empty
    have room := fresh.room
    simp [empty] at room
  obtain ⟨e, k', ran⟩ := sound.envAlloc_some vacant memory parentId
  obtain ⟨g', change, spec⟩ := sound.envAlloc_change ran
  obtain ⟨root, envs, rest, listed, left, tables⟩ := spec.envs
  have pmap : k'.pmap = k.pmap.setupVm root := by
    rw [envAlloc_eq parentId sound.valid, spec.head, listed] at ran
    simp only [Except.ok.injEq, Prod.mk.injEq] at ran
    rw [← ran.2]
  have inside := (sound.valid.pool.member root (by simp [listed])).1
  refine ⟨e, k', g', ran, ⟨change.sound, fun {a t} mappable page managed => ?_, fun page outside => ?_,
    fun page outside differs => ?_, ?_⟩, spec⟩
  · by_cases own : a.owner = some e
    · have empty : g'.table a = none := by
        have other : a ≠ .root (some e) := by
          rintro rfl
          simpa using mappable.length
        rw [tables, update_of_ne other]
        obtain ⟨owner, path⟩ := a
        obtain rfl : owner = some e := own
        exact sound.valid.tree.absent_of_root spec.fresh path
      rw [leafEntry_none empty]
      exact not_refers_zero
    · rw [change.keeps.leaves mappable.length t own]
      exact fresh.unmapped mappable page managed
  · rw [pmap, Pmap.setupVm_ref (by rintro rfl; exact outside inside)]
    exact fresh.refs page outside
  · have boot := change.keeps.boot
    rw [boot] at differs
    rw [change.keeps.idle page outside differs]
    exact fresh.idle page outside differs
  · have room := fresh.room
    rw [listed, List.length_cons] at room
    rw [left]
    omega

theorem Allocated.live {parentId : EnvId} {managed : Set (Fin npages)}
    (spec : Allocated managed k g k' g' e parentId) : k'.Live e := by
  obtain ⟨root, rooted, -⟩ := spec.root
  exact Kernel.live_of rooted

def permUser : BitVec 32 := 7

/-- While no page of the allocator is mapped, `sys_page_alloc` succeeds. -/
theorem Fresh.pageAlloc {pages : Nat} (fresh : Fresh platform k g pages) (enough : 4 ≤ pages)
    (live : k.Live e) {va : Nat} (aligned : va % pgSize = 0) (bound : va ≤ utop) :
    ∃ k' page g', sysPageAlloc k e 0 va permUser = some (0, k') ∧ page ∈ platform.managed ∧
      MemoryCall platform.managed k g k' g' (.slot (.root (some e)) va) ∧
      leafOf k' g' e va = ⟨page.val, permUser.setWidth 12 ||| pteP⟩ ∧
      g.free.length ≤ g'.free.length + 4 := by
  have checks : pageAllocChecks k e 0 va permUser e := ⟨rfl, by decide, aligned, bound⟩
  have droppable : ∀ page, (leafOf k g e va).Refers page →
      page ∈ platform.managed ∨ (k.pmap.pages page).ppRef ≠ 1 := by
    intro page _
    by_cases managed : page ∈ platform.managed
    · exact .inl managed
    · rw [fresh.refs page managed]
      exact .inr (by decide)
  obtain ⟨k', page, g', ran, listed, after, there, -, left⟩ :=
    fresh.sound.sysPageAlloc_done live checks droppable (enough.trans fresh.room)
  exact ⟨k', page, g', ran, (fresh.sound.valid.pool.member page listed).1, after, there, left⟩

/-- `env_create` of a binary without segments succeeds: it needs the PML4 and the
pages of the stack. -/
theorem Fresh.create {pages : Nat} (fresh : Fresh platform k g (pages + 9))
    (vacant : ∃ e, ¬ k.Live e) (entry : BitVec 64) :
    ∃ e k', envCreate k ⟨[], entry⟩ .user = some k' ∧ (k'.envs e).envStatus = .runnable ∧
      ∀ other, other ≠ e → k'.envs other = k.envs other := by
  obtain ⟨e, k₁, g₁, allocated, fresh₁, spec⟩ := fresh.alloc vacant 0
  obtain ⟨root, envs, rest, -, -, tables⟩ := spec.envs
  have empty {va : Nat} (low : va < 2 ^ 39) : leafOf k₁ g₁ e va = 0 := by
    have user : pml4 va ≠ pml4 uvpt := Place.user_of_low (lt_of_lt_of_le low (by decide))
    have shared : pml4 va ≠ 1 := by
      intro one
      have value := congrArg Fin.val one
      rw [pml4_eq, Nat.div_eq_of_lt low] at value
      cases value
    refine leafEntry_none ?_
    rw [Place.table_own shared user, tables, update_of_ne (by simp [Place.root])]
    exact fresh.sound.valid.tree.absent_of_root spec.fresh _
  have same : SameSpace (k₁.envs e) { k₁.envs e with envType := .user } :=
    ⟨rfl, rfl, rfl, rfl, fun _ => rfl⟩
  have sound := fresh₁.sound.setEnv same
  have rooted : ((k₁.setEnv e { k₁.envs e with envType := .user }).envs e).envPml4e =
      some root := by
    simp [Kernel.setEnv, envs, allocatedEnv]
  have stack : ustackTop - pgSize + 2 * pgSize ≤ 2 ^ 39 := by decide
  obtain ⟨m, -, loaded, -⟩ := sound.regionAllocLoop_done rooted stack
    (fun i less => empty (by
      have size : pgSize = 4096 := rfl
      rw [size] at stack ⊢
      omega))
    (by
      have room := fresh₁.room
      omega)
  refine ⟨e, ((k₁.setEnv e { k₁.envs e with envType := .user }).setPmap m).setEnv e
    { k₁.envs e with
      envType := .user
      envTf := { (k₁.envs e).envTf with tfRip := entry } }, ?_, ?_, fun other differs => ?_⟩
  · have rounds : (pgSize + pgSize) / pgSize = 2 := by decide
    have base : (ustackTop - pgSize) / pgSize * pgSize = ustackTop - pgSize := by decide
    have user : ¬ (EnvType.user = EnvType.fs) := by simp
    have root' : (k₁.envs e).envPml4e = some root := by simp [envs, allocatedEnv]
    simp only [envCreate, allocated, if_neg user, loadIcode, List.foldlM_nil, Option.pure_def,
      Option.bind_eq_bind, Option.bind_some, regionAlloc, rounds, base]
    simp only [Kernel.setEnv, Kernel.setPmap, update_self, root'] at loaded ⊢
    simp only [loaded, Option.bind_some]
  · simp [Kernel.setEnv, envs, allocatedEnv]
  · have first : (((k₁.setEnv e { k₁.envs e with envType := .user }).setPmap m).setEnv e
        { k₁.envs e with
          envType := .user
          envTf := { (k₁.envs e).envTf with tfRip := entry } }).envs other =
        (k₁.setEnv e { k₁.envs e with envType := .user }).envs other :=
      update_of_ne differs _ _
    have second : (k₁.setEnv e { k₁.envs e with envType := .user }).envs other =
        k₁.envs other := update_of_ne differs _ _
    rw [first, second, envs, update_of_ne differs]

/-- A machine with 16 megabytes of memory, all zero, and no devices. -/
def sample : Platform 4096 where
  kernEnd := 1024
  bootPts := 257
  kstacks := 512
  mem := fun _ _ => 0
  devices := []
  hole := by decide
  image := by decide
  room := by decide
  limit := by decide

theorem sample_booted : ∃ k g, boot sample = some k ∧ Booted sample k g ∧ 1000 ≤ g.free.length := by
  obtain ⟨k, g, ran, booted, spent⟩ := boot_plain sample rfl
  refine ⟨k, g, ran, booted, ?_⟩
  have upper : sample.kernE + (4096 - sample.kernE) ≤ 4096 := by decide
  have count : sample.initialFree.length = 6 + (152 + (4096 - sample.kernE)) := by
    rw [Platform.initialFree, List.length_append, List.length_append,
      length_cellRange (by decide), length_cellRange (by decide), length_cellRange upper]
  have tables : kernelTables 4096 = 54 := by decide
  have first : sample.kernE = 1113 := by decide
  rw [count, tables, first] at spent
  omega

section

variable (guard : Kernel 4096 → KernelEvent → Prop)

include guard

theorem sample_bare (admits : ∀ k, guard k (.alloc 0)) :
    ∃ k g e, Reached sample guard k ∧ Fresh sample k g 999 ∧ k.Live e ∧
      (∀ other, k.Live other → other = e) ∧ ∀ i path, g.table ⟨some e, i :: path⟩ = none := by
  obtain ⟨k₀, g₀, ran, booted, room⟩ := sample_booted
  obtain ⟨e, k, g, allocated, fresh, spec⟩ :=
    (booted.fresh room).alloc ⟨0, booted.dead⟩ 0
  have stepped : kernelStep k₀ (.alloc 0) = some k := by simp only [kernelStep, allocated]
  refine ⟨k, g, e, ⟨k₀, _, ran, Along.nil.snoc (admits k₀) stepped⟩, fresh, spec.live,
    fun other live => ?_, fun i path => ?_⟩
  · obtain ⟨root, -, envs⟩ := spec.root
    by_contra differs
    rw [Kernel.Live, envs, update_of_ne differs] at live
    exact booted.dead live
  · obtain ⟨root, -, -, -, -, tables⟩ := spec.envs
    rw [tables, update_of_ne (by simp [Place.root])]
    exact booted.sound.valid.tree.absent_of_root spec.fresh _

theorem sample_env (admits : ∀ k, guard k (.alloc 0)) :
    ∃ k g e, Reached sample guard k ∧ Fresh sample k g 999 ∧ k.Live e ∧
      ∀ other, k.Live other → other = e := by
  obtain ⟨k, g, e, reached, fresh, live, only, -⟩ := sample_bare guard admits
  exact ⟨k, g, e, reached, fresh, live, only⟩

theorem sample_envs (admits : ∀ k, guard k (.alloc 0)) :
    ∃ k g c e, Reached sample guard k ∧ Fresh sample k g 998 ∧ k.Live c ∧ k.Live e ∧ c ≠ e ∧
      (k.envs e).envParentId = 0 := by
  obtain ⟨k₀, g₀, c, ⟨k', events, ran, along⟩, fresh₀, live, only⟩ := sample_env guard admits
  obtain ⟨other, differs⟩ := exists_ne c
  obtain ⟨e, k, g, allocated, fresh, spec⟩ :=
    fresh₀.alloc ⟨other, fun live => differs (only other live)⟩ 0
  have stepped : kernelStep k₀ (.alloc 0) = some k := by simp only [kernelStep, allocated]
  have distinct : c ≠ e := by
    rintro rfl
    exact live spec.fresh
  obtain ⟨root, -, envs⟩ := spec.root
  refine ⟨k, g, c, e, ⟨k', _, ran, along.snoc (admits k₀) stepped⟩, fresh, ?_, spec.live, distinct,
    ?_⟩
  · rw [Kernel.Live, envs, update_of_ne distinct]
    exact live
  · rw [envs, update_self]
    rfl

end

end Jos
