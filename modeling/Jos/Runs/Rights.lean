import Jos.Runs.Isolation
import Jos.Runs.Privilege

/-! Where write access to a page comes from, in runs from the boot. A right moves
with `sys_page_map` and `sys_ipc_try_send`, whose source must have it; but a new
environment finds whatever is mapped in the tables that all environments share. -/

set_option autoImplicit false

namespace Jos

open Foundation Function

variable {npages : Nat} {platform : Platform npages} {managed : Set (Fin npages)}
  {k k' k₁ : Kernel npages} {g g' : Ledger npages} {c e dst : EnvIdx} {page : Fin npages}
  {ambient : Ambient} {call : Syscall} {outcome : Outcome} {va : Nat} {perm : BitVec 32}

/-- The leaf entry of a user address of an environment maps the page with PTE_W. -/
def Kernel.WritesAt (k : Kernel npages) (e : EnvIdx) (va : Nat) (page : Fin npages) : Prop :=
  va ≤ utop ∧ ∃ found, k.view e va = some found ∧ found.ppn = page.val ∧
    found.ptePerm.getLsbD 1 = true

/-- The page is not on `page_free_list`. -/
def Kernel.Held (k : Kernel npages) (page : Fin npages) : Prop :=
  ∀ free, k.pmap.FreeList free → page ∉ free

/-- What entitles a call of the environment `c` to map a page with PTE_W. -/
inductive Kernel.Grants (k : Kernel npages) (c : EnvIdx) (page : Fin npages) : Syscall → Prop where
  /-- The call allocates the page. -/
  | pageAlloc {envid : EnvId} {va : Nat} {perm : BitVec 32} {rest : List (Fin npages)} :
      k.pmap.FreeList (page :: rest) → Grants k c page (.pageAlloc envid va perm)
  /-- The source of the call maps the page with PTE_W. -/
  | pageMap {srcenvid dstenvid : EnvId} {srcva dstva : Nat} {perm : BitVec 32} {src : EnvIdx} :
      envid2env k c srcenvid true = some src → k.WritesAt src srcva page →
      Grants k c page (.pageMap srcenvid srcva dstenvid dstva perm)
  | ipcTrySend {envid : EnvId} {value : BitVec 32} {srcva : Nat} {perm : BitVec 32} :
      k.WritesAt c srcva page → Grants k c page (.ipcTrySend envid value srcva perm)

def KernelEvent.Forks : KernelEvent → Prop
  | .call _ _ .exofork => True
  | _ => False

/-- The event keeps the bookkeeping of pages in order, and makes no environment
while a page can be written through a shared table. -/
def Fenced (k : Kernel npages) (event : KernelEvent) : Prop :=
  Orderly k event ∧
    (event.Forks → ∀ e va (page : Fin npages), 2 ^ 39 ≤ va → ¬ k.WritesAt e va page)

theorem Kernel.WritesAt.live (writes : k.WritesAt e va page) : k.Live e := by
  intro rootless
  obtain ⟨-, found, there, -⟩ := writes
  rw [Kernel.view, rootless] at there
  cases there

theorem Sound.writesAt_iff (sound : Sound managed k g) (live : k.Live e) (bound : va ≤ utop) :
    k.WritesAt e va page ↔
      (leafOf k g e va).Refers page ∧ (leafOf k g e va).writable = true := by
  have user := Place.mappable_user (Place.mappable_of_le (e := e) bound)
  unfold Kernel.WritesAt Kernel.view
  rw [sound.translateIn live user, leafTranslation]
  constructor
  · rintro ⟨-, found, there, ppn, write⟩
    split at there
    · rename_i present
      cases there
      exact ⟨⟨present, ppn⟩, write⟩
    · cases there
  · rintro ⟨⟨present, ppn⟩, write⟩
    rw [if_pos present]
    exact ⟨bound, _, rfl, ppn, write⟩

theorem Sound.writes_leaf (sound : Sound managed k g) (writes : k.WritesAt e va page) :
    (leafOf k g e va).Refers page ∧ (leafOf k g e va).writable = true :=
  (sound.writesAt_iff writes.live writes.1).mp writes

theorem Kernel.live_setEnv {env : Env npages} (live : (k.setEnv dst env).Live e)
    (same : env.envPml4e = (k.envs dst).envPml4e) : k.Live e := by
  by_cases here : e = dst
  · subst here
    simpa only [Kernel.Live, Kernel.setEnv, update_self, same] using live
  · simpa only [Kernel.Live, Kernel.setEnv, update_of_ne here] using live

theorem Kernel.live_freed (freed : envFree k dst = some k') (live : k'.Live e) :
    e ≠ dst ∧ k.Live e := by
  rw [Kernel.Live, (envFree_envs freed).2.2] at live
  by_cases here : e = dst
  · subst here
    simp at live
  · rw [update_of_ne here] at live
    exact ⟨here, live⟩

/-- Only `sys_exofork` brings an environment to life. -/
theorem Effect.live_back (effect : Effect k c k' call outcome) (old : call ≠ .exofork)
    (live : k'.Live e) : k.Live e := by
  have stored {k₁ : Kernel npages} {x : EnvIdx} {env : Env npages}
      (same : k' = k₁.setEnv x env) (root : env.envPml4e = (k₁.envs x).envPml4e) : k₁.Live e :=
    Kernel.live_setEnv (same ▸ live) root
  cases effect with
  | memory same | yield same =>
    subst same
    exact live
  | recv _ same => exact stored same rfl
  | @send _ _ _ _ _ m _ _ _ same =>
    refine Kernel.live_setEnv (k := k.setPmap m) (same ▸ live) ?_
    rfl
  | exofork => exact absurd rfl old
  | setStatus _ _ _ same => exact stored same rfl
  | setTrapframe _ same => exact stored same rfl
  | setUpcall _ same => exact stored same rfl
  | dying _ _ _ same => exact stored same rfl
  | destroy _ _ freed | denied _ freed => exact (Kernel.live_freed freed live).2

theorem Change.writes_back {footprint : Footprint} (sound : Sound managed k g)
    (change : Change managed k g k' g' footprint) (live : k.Live e)
    (writes : k'.WritesAt e va page)
    (outside : ¬ footprint.stores ((Place.root (some e)).table va) (ptx va)) :
    k.WritesAt e va page := by
  have mappable := Place.mappable_of_le (e := e) writes.1
  have after := change.sound.writes_leaf writes
  rw [leafOf, change.keeps.leaves mappable.length _ outside] at after
  exact (sound.writesAt_iff live writes.1).mpr after

theorem MemoryCall.writes_slot (call : MemoryCall managed k g k' g' (.slot (.root (some dst)) va))
    (sound : Sound managed k g) {va' : Nat} (writes : k'.WritesAt e va' page) :
    k.WritesAt e va' page ∨
      (leafOf k' g' dst va).Refers page ∧ (leafOf k' g' dst va).writable = true := by
  have live : k.Live e := by
    have live := writes.live
    rw [Kernel.Live, call.envs] at live
    exact live
  by_cases stores : (Footprint.slot (.root (some dst)) va).stores
      ((Place.root (some e)).table va') (ptx va')
  · obtain ⟨table, entry⟩ := stores
    have same : leafOf k' g' e va' = leafOf k' g' dst va := by rw [leafOf, leafOf, table, entry]
    exact .inr (same ▸ call.sound.writes_leaf writes)
  · exact .inl (call.change.writes_back sound live writes stores)

theorem writes_entry {target : Fin npages} {perm : BitVec 12} {entry : Pte}
    (leaf : entry = ⟨target.val, perm ||| pteP⟩)
    (writes : entry.Refers page ∧ entry.writable = true) :
    target = page ∧ perm.getLsbD 1 = true := by
  subst leaf
  exact ⟨Fin.ext writes.1.2, by simpa only [writable_or] using writes.2⟩

section

variable (sound : Sound managed k g)

include sound

theorem sysPageMap_source {srcenvid dstenvid : EnvId}
    {srcva dstva : Nat} {src dst : EnvIdx} (live : k.Live c)
    (checks : PageMapChecks k c srcenvid srcva dstenvid dstva perm src dst)
    (ran : sysPageMap k c srcenvid srcva dstenvid dstva perm = some (0, k'))
    (writes : (perm.setWidth 12).getLsbD 1 = true) : (leafOf k g src srcva).writable = true := by
  obtain ⟨root, rooted⟩ := sound.envid2env_live live checks.src
  have range : ¬ ((dstva % pgSize ≠ 0 ∨ dstva > utop) ∨ (srcva % pgSize ≠ 0 ∨ srcva > utop)) := by
    have first := checks.dstRange
    have second := checks.srcRange
    omega
  unfold sysPageMap at ran
  simp only [checks.src, checks.dst] at ran
  rw [if_neg (by simp [checks.perm]), if_neg range, rooted] at ran
  obtain ⟨⟨found, m⟩, looked, ran⟩ := Option.bind_eq_some_iff.mp ran
  rcases lookup_mapped sound rooted checks.srcRange.2 looked with
    ⟨rfl, -⟩ | ⟨target, holder, rfl, rfl, -, -, leaf, -⟩
  · cases ran
  · simp only at ran
    split at ran
    · cases ran
    · rename_i allowed
      rw [leaf]
      by_contra clear
      refine allowed ⟨by simpa [Pmap.entry] using clear, fun none => ?_⟩
      rw [writable_setWidth.mpr none] at writes
      cases writes

theorem sysIpcTrySend_source (live : k.Live c) {envid : EnvId}
    {value : BitVec 32} {srcva : Nat} (low : srcva < utop)
    (ran : sysIpcTrySend k c envid value srcva perm ambient = some (0, k'))
    (writes : ((perm ||| pteP.setWidth 32).setWidth 12).getLsbD 1 = true) :
    (leafOf k g c srcva).writable = true := by
  obtain ⟨root, rooted⟩ := live.root
  unfold sysIpcTrySend at ran
  simp only at ran
  split at ran
  · cases ran
  · split at ran
    · cases ran
    · rw [rooted] at ran
      obtain ⟨⟨found, m⟩, looked, ran⟩ := Option.bind_eq_some_iff.mp ran
      rcases lookup_mapped sound rooted low.le looked with
        ⟨rfl, -⟩ | ⟨target, holder, rfl, rfl, -, -, leaf, -⟩
      · simp only at ran
        rw [if_pos ⟨rfl, low⟩] at ran
        cases ran
      · simp only at ran
        rw [if_neg (by simp)] at ran
        simp only [Option.bind_eq_bind, Option.bind_some] at ran
        split at ran
        · cases ran
        · split at ran
          · cases ran
          · rename_i allowed
            rw [leaf]
            by_contra clear
            refine allowed ⟨low, fun none => ?_, ?_⟩
            · rw [writable_setWidth.mpr none] at writes
              cases writes
            · have bit : pteW = BitVec.twoPow 12 1 := by decide
              have kept : pteSyscall &&& pteW = pteW := by decide
              rw [BitVec.and_assoc, kept, bit, BitVec.and_twoPow]
              exact if_neg clear

theorem Sound.fork_writes {parentId : EnvId}
    (allocated : Jos.envAlloc k parentId = .ok (dst, k₁)) {env : Env npages}
    (same : SameSpace (k₁.envs dst) env) (live : k.Live c)
    (writes : (k₁.setEnv dst env).WritesAt e va page) :
    k.WritesAt e va page ∨ 2 ^ 39 ≤ va ∧ k.WritesAt c va page := by
  obtain ⟨g', before, spec⟩ := sound.envAlloc_change allocated
  obtain ⟨root, envs, rest, -, -, tables⟩ := spec.envs
  have change : Change managed k g (k₁.setEnv dst env) g' (.space dst) :=
    before.trans (before.sound.setEnv_change same)
  by_cases born : e = dst
  · subst born
    by_cases high : 2 ^ 39 ≤ va
    · have mappable := Place.mappable_of_le (e := e) writes.1
      have shared : pml4 va = 1 := by
        apply Fin.ext
        have bound := writes.1
        rw [utop_eq] at bound
        rw [pml4_eq]
        change _ = 1
        omega
      have outside : ¬ (Footprint.space e).stores ((Place.root (some e)).table va) (ptx va) := by
        rw [Place.table_shared shared]
        exact nofun
      have after := change.sound.writes_leaf writes
      rw [leafOf, change.keeps.leaves mappable.length _ outside, Place.table_shared shared,
        ← Place.table_shared (e := c) shared] at after
      exact .inr ⟨high, (sound.writesAt_iff live writes.1).mpr after⟩
    · have own : pml4 va = 0 := by
        apply Fin.ext
        rw [pml4_eq, Nat.div_eq_of_lt (not_le.mp high)]
        rfl
      have empty : g'.table ((Place.root (some e)).table va) = none := by
        rw [Place.table_own (by rw [own]; decide) (by rw [own]; decide), tables,
          update_of_ne (by simp [Place.root])]
        exact sound.valid.tree.absent_of_root spec.fresh _
      obtain ⟨refers, -⟩ := change.sound.writes_leaf writes
      rw [leafOf, leafEntry_none empty] at refers
      exact absurd refers not_refers_zero
  · have live' : k.Live e := by
      have live' := writes.live
      simp only [Kernel.Live, Kernel.setEnv, update_of_ne born, envs] at live'
      exact live'
    exact .inl (change.writes_back sound live' writes fun own => born (Place.eq_of_table_owner own))

theorem Sound.sysPageMap_writes (live : k.Live c)
    {srcenvid dstenvid : EnvId} {srcva dstva : Nat} {result : Int}
    (orderly : OrderlyCall k c (.pageMap srcenvid srcva dstenvid dstva perm))
    (ran : Jos.sysPageMap k c srcenvid srcva dstenvid dstva perm = some (result, k'))
    (writes : k'.WritesAt e va page) :
    k.WritesAt e va page ∨ k.Grants c page (.pageMap srcenvid srcva dstenvid dstva perm) := by
  have looked {m : Pmap npages} {g' : Ledger npages} {a : Place} {target : Nat}
      (same : k' = k.setPmap m) (looked : Looked managed k.roots k.pmap g m g' a target) :
      k.WritesAt e va page := by
    subst same
    exact (looked.memoryCall sound).change.writes_back sound writes.live writes nofun
  rcases sound.sysPageMap live orderly ran with ⟨-, rfl, -⟩ | ⟨src, dst, checks, ending⟩
  · exact .inl writes
  · cases ending with
    | notMapped _ same spec => exact .inl (looked same spec)
    | readOnly _ _ _ same =>
      subst same
      exact .inl writes
    | noTable _ _ same _ spec => exact .inl (looked same spec)
    | done refers _ after leaf _ =>
      rcases after.writes_slot sound writes with already | there
      · exact .inl already
      · obtain ⟨rfl, write⟩ := writes_entry leaf there
        have source := sound.envid2env_root live checks.src
        have writable := sysPageMap_source sound live checks ran write
        exact .inr (.pageMap checks.src
          ((sound.writesAt_iff source checks.srcRange.2).mpr ⟨refers, writable⟩))

theorem Sound.sysIpcTrySend_writes (live : k.Live c) {envid : EnvId}
    {value : BitVec 32} {srcva : Nat} {result : Int}
    (orderly : OrderlyCall k c (.ipcTrySend envid value srcva perm))
    (ran : Jos.sysIpcTrySend k c envid value srcva perm ambient = some (result, k'))
    (writes : k'.WritesAt e va page) :
    k.WritesAt e va page ∨ k.Grants c page (.ipcTrySend envid value srcva perm) := by
  have recorded {k₁ : Kernel npages} {g₁ : Ledger npages} {dst : EnvIdx} {env : Env npages}
      (sound₁ : Sound managed k₁ g₁) (space : SameSpace (k₁.envs dst) env)
      (same : k' = k₁.setEnv dst env) : k₁.WritesAt e va page := by
    have live₁ : k₁.Live e := Kernel.live_setEnv (same ▸ writes.live) space.pml4e
    have change : Change managed k₁ g₁ k' g₁ .nowhere := same ▸ sound₁.setEnv_change space
    exact change.writes_back sound₁ live₁ writes nofun
  have delivered {dst : EnvIdx} {m : Pmap npages} {sent : Option (BitVec 32)} {g₁ : Ledger npages}
      (found : envid2env k c envid false = some dst) (sound₁ : Sound managed (k.setPmap m) g₁)
      (same : k' = (k.setPmap m).setEnv dst
        (deliveredEnv (k.envs dst) (k.envs c).envId value sent)) :
      (k.setPmap m).WritesAt e va page :=
    recorded sound₁ (sameSpace_delivered (sound.envid2env_root live found)) same
  have looked {m : Pmap npages} {g' : Ledger npages} {a : Place} {target : Nat}
      (looked : Looked managed k.roots k.pmap g m g' a target)
      (writes : (k.setPmap m).WritesAt e va page) : k.WritesAt e va page :=
    (looked.memoryCall sound).change.writes_back sound writes.live writes nofun
  cases sound.sysIpcTrySend live orderly ran with
  | rejected _ same =>
    subst same
    exact .inl writes
  | notMapped _ _ _ _ same spec =>
    subst same
    exact .inl (looked spec writes)
  | plain found _ _ same spec =>
    exact .inl (looked spec (delivered found (spec.memoryCall sound).sound same))
  | refused found _ _ _ same =>
    exact .inl (recorded sound (sameSpace_delivered (sound.envid2env_root live found)) same)
  | noTable found _ _ _ _ same spec =>
    exact .inl (looked spec (delivered found (spec.memoryCall sound).sound same))
  | done found _ sends _ _ _ refers same after leaf _ =>
    have leaf : leafOf (k.setPmap _) _ _ _ = _ := (congrArg (leafOf · _ _ _) same).symm.trans leaf
    rcases after.writes_slot sound (delivered found after.sound same) with already | there
    · exact .inl already
    · obtain ⟨rfl, write⟩ := writes_entry leaf there
      have writable := sysIpcTrySend_source sound live sends.1 ran write
      exact .inr (.ipcTrySend ((sound.writesAt_iff live sends.1.le).mpr ⟨refers, writable⟩))

theorem Sound.syscall_writes (live : k.Live c) (fenced : Fenced k (.call c ambient call))
    (ran : Jos.syscall k c ambient call = some (outcome, k')) (writes : k'.WritesAt e va page) :
    k.WritesAt e va page ∨ k.Grants c page call := by
  obtain ⟨orderly, fence⟩ := fenced
  have returned {result : Option (Int × Kernel npages)}
      (ran : returning result = some (outcome, k')) : ∃ value, result = some (value, k') := by
    obtain ⟨⟨value, k₁⟩, here, same⟩ := Option.map_eq_some_iff.mp ran
    cases same
    exact ⟨value, here⟩
  have effect := syscall_effect ran
  have kept (old : call ≠ .exofork)
      (outside : ¬ (callFootprint k k' c call).stores ((Place.root (some e)).table va) (ptx va)) :
      k.WritesAt e va page ∨ k.Grants c page call := by
    obtain ⟨g', change, -⟩ := sound.syscall live orderly ran
    exact .inl (change.writes_back sound (effect.live_back old writes.live) writes outside)
  cases call with
  | pageAlloc envid va perm =>
    obtain ⟨value, result⟩ := returned ran
    rcases sound.sysPageAlloc live result with ⟨-, rfl, -⟩ | ⟨target, checks, ending⟩
    · exact .inl writes
    · cases ending with
      | noPage _ same =>
        subst same
        exact .inl writes
      | noTable _ _ after _ _ =>
        exact .inl (after.change.writes_back sound (effect.live_back (by simp) writes.live) writes
          (by rintro ⟨⟩))
      | done listed _ after leaf _ =>
        rcases after.writes_slot sound writes with already | there
        · exact .inl already
        · obtain ⟨rfl, -⟩ := writes_entry leaf there
          exact .inr (.pageAlloc (sound.valid.freeList_iff.mpr listed.symm))
  | pageMap srcenvid srcva dstenvid dstva perm =>
    obtain ⟨value, result⟩ := returned ran
    exact sound.sysPageMap_writes live orderly result writes
  | ipcTrySend envid value srcva perm =>
    obtain ⟨code, result⟩ := returned ran
    exact sound.sysIpcTrySend_writes live orderly result writes
  | exofork =>
    cases effect with
    | memory same _ still =>
      rw [still rfl, Kernel.setPmap_self] at same
      subst same
      exact .inl writes
    | exofork allocated after =>
      subst after
      obtain ⟨-, -, root, envs⟩ := envAlloc_envs allocated
      have space (env : Env npages) (tf : Trapframe) (rooted : env.envPml4e ≠ none) :
          SameSpace env (forkedEnv env tf) :=
        ⟨rfl, rfl, rfl, rfl, fun rootless => absurd rootless rooted⟩
      rcases sound.fork_writes allocated (space _ _ (by simp [envs, allocatedEnv])) live
        writes with already | ⟨high, already⟩
      · exact .inl already
      · exact absurd already (fence trivial c va page high)
    | denied checks _ => cases checks
  | pageUnmap envid va' =>
    obtain ⟨value, result⟩ := returned ran
    rcases sound.sysPageUnmap live result with ⟨-, rfl⟩ | ⟨-, target, found, low, ending⟩
    · exact .inl writes
    · cases ending with
      | notMapped _ same spec =>
        subst same
        exact .inl ((spec.memoryCall sound).change.writes_back sound writes.live writes (by rintro ⟨⟩))
      | done after leaf _ =>
        rcases after.writes_slot sound writes with already | there
        · exact .inl already
        · rw [leaf] at there
          exact absurd there.1 not_refers_zero
  | cputs s len =>
    exact kept (by simp) fun stores => stores.2 (Place.eq_of_table_owner stores.1 ▸ writes.live)
  | netTx buf size =>
    exact kept (by simp) fun stores => stores.2 (Place.eq_of_table_owner stores.1 ▸ writes.live)
  | netRx buf =>
    exact kept (by simp) fun stores => stores.2 (Place.eq_of_table_owner stores.1 ▸ writes.live)
  | envDestroy envid =>
    refine kept (by simp) ?_
    rintro ⟨other, ⟨-, dead⟩, own⟩
    exact dead (Place.eq_of_table_owner own ▸ writes.live)
  | _ => exact kept (by simp) (by rintro ⟨⟩)

end

/-- The events of a run after the boot: `env_create` is over, and `env_alloc` is
part of `sys_exofork`. -/
def KernelEvent.AfterBoot : KernelEvent → Prop
  | .create .. | .alloc _ => False
  | _ => True

def KernelEvent.Grants (k : Kernel npages) (page : Fin npages) : KernelEvent → Prop
  | .call c _ call => k.Grants c page call
  | _ => False

theorem Sound.step_writes (sound : Sound managed k g) {event : KernelEvent}
    (fenced : Fenced k event) (after : event.AfterBoot) (ran : kernelStep k event = some k')
    (writes : k'.WritesAt e va page) : k.WritesAt e va page ∨ event.Grants k page := by
  have kept (live : k.Live e)
      (outside : ¬ (eventFootprint k k' event).stores ((Place.root (some e)).table va) (ptx va)) :
      k.WritesAt e va page ∨ event.Grants k page := by
    obtain ⟨g', change, -⟩ := sound.step fenced.1 ran
    exact .inl (change.writes_back sound live writes outside)
  cases event with
  | create | alloc => exact after.elim
  | free x =>
    obtain ⟨other, live⟩ := Kernel.live_freed ran writes.live
    exact kept live fun own => other (Place.eq_of_table_owner own)
  | call c ambient call =>
    obtain ⟨live, outcome, called⟩ := kernelStep_call ran
    exact sound.syscall_writes live fenced called writes
  | fault c =>
    have live' := writes.live
    refine kept ?_ fun stores => stores.2 (Place.eq_of_table_owner stores.1 ▸ live')
    obtain ⟨-, exit, handled⟩ := kernelStep_fault ran
    obtain ⟨m, ⟨-, freed⟩ | ⟨-, rip, rsp, same⟩⟩ := pageFaultHandler_spec handled
    · exact (Kernel.live_freed freed live').2
    · change k' = _ at same
      subst same
      exact Kernel.live_setEnv (k := k.setPmap m) live' rfl
  | frame x tf =>
    cases ran
    exact kept (Kernel.live_setEnv writes.live rfl) (by rintro ⟨⟩)
  | run curenv cpu x =>
    obtain ⟨-, rfl⟩ := kernelStep_run ran
    have live := writes.live
    rw [Kernel.Live, (Origins.envSwitch_frame k curenv cpu x e).2] at live
    exact kept live (by rintro ⟨⟩)

theorem KernelEvent.Grants.source {event : KernelEvent} (granted : event.Grants k page)
    (held : k.Held page) : ∃ e va, k.WritesAt e va page := by
  cases event with
  | call c ambient call =>
    cases granted with
    | pageAlloc listed => exact absurd List.mem_cons_self (held _ listed)
    | pageMap _ source => exact ⟨_, _, source⟩
    | ipcTrySend source => exact ⟨_, _, source⟩
  | _ => exact granted.elim

theorem Sound.writes_managed (sound : Sound managed k g) (writes : k.WritesAt e va page) :
    page ∈ managed := by
  obtain ⟨refers, writable⟩ := sound.writes_leaf writes
  rcases sound.valid.leaf_cases (Place.mappable_of_le (e := e) writes.1) with
    empty | ⟨holder, target, here, leaf, maps⟩
  · rw [leafOf, empty] at refers
    exact absurd refers not_refers_zero
  · rw [leafOf, leaf] at refers writable
    obtain rfl : page = target := maps.refers.mp refers
    refine maps.kind.resolve_right fun clear => ?_
    rw [clear] at writable
    cases writable

theorem sample_writes (va : Nat) (aligned : va % pgSize = 0) (bound : va ≤ utop) :
    ∃ (k k' : Kernel 4096) (g' : Ledger 4096) (c : EnvIdx) (page : Fin 4096),
      Reached sample Orderly k ∧ k.Live c ∧
      syscall k c ⟨none, 0, none⟩ (.pageAlloc 0 va permUser) = some (.returns 0, k') ∧
      Reached sample Orderly k' ∧ Sound sample.managed k' g' ∧ k'.Live c ∧
      k'.WritesAt c va page ∧ (∃ e, ¬ k'.Live e) ∧ g'.free ≠ [] := by
  obtain ⟨k, g, c, reached, fresh, live, only⟩ := sample_env Orderly fun _ => trivial
  obtain ⟨start, events, booted, along⟩ := reached
  obtain ⟨k', page, g', ran, -, after, leaf, left⟩ := fresh.pageAlloc (by decide) live aligned bound
  have called : syscall k c ⟨none, 0, none⟩ (.pageAlloc 0 va permUser) =
      some (.returns 0, k') := by
    simp only [syscall, ran, returning, Option.map_some]
  have stepped : kernelStep k (.call c ⟨none, 0, none⟩ (.pageAlloc 0 va permUser)) = some k' := by
    simp only [kernelStep, if_pos live, called, Option.map_some]
  have orderly : Orderly k (.call c ⟨none, 0, none⟩ (.pageAlloc 0 va permUser)) := trivial
  have alive (e : EnvIdx) : k'.Live e ↔ k.Live e := by rw [Kernel.Live, Kernel.Live, after.envs]
  obtain ⟨other, differs⟩ := exists_ne c
  refine ⟨k, k', g', c, page, ⟨start, events, booted, along⟩, live, called,
    ⟨start, _, booted, along.snoc orderly stepped⟩, after.sound, (alive c).mpr live, ?_,
    ⟨other, fun live => differs (only other ((alive other).mp live))⟩, fun empty => ?_⟩
  · refine (after.sound.writesAt_iff ((alive c).mpr live) bound).mpr ?_
    rw [leaf]
    exact ⟨⟨present_or, rfl⟩, by rw [writable_or]; decide⟩
  · have room := fresh.room
    rw [empty] at left
    simp at left
    omega

end Jos
