import Jos.Calls.Survival
import Jos.Processors.Tlb
import Jos.Processors.Switch
import Jos.Runs.References
import Jos.Runs.Rights

/-! What the TLBs of the processors hold, over the runs of all of them. -/

set_option autoImplicit false

namespace Jos

open Foundation Function

variable {npages ncpu : Nat} {platform : Platform npages} {managed : Set (Fin npages)}
  {k k' : Kernel npages} {g g' : Ledger npages} {c e x : EnvIdx} {call : Syscall} {ambient : Ambient}
  {outcome : Outcome} {s s' : Cores npages ncpu} {cpu other : Fin ncpu} {event : CoreEvent ncpu}
  {va page : Nat}

def Cores.Started (platform : Platform npages) (s : Cores npages ncpu) : Prop :=
  Reached platform Orderly s.kernel ∧
    ∀ cpu, s.curenv cpu = none ∧ s.cr3 cpu = none ∧ ∀ page, s.tlb cpu page = none

/-- An address that is not one of the window through which the page tables are seen. -/
def Plain (va : Nat) : Prop := va < 2 ^ 48 ∧ pml4 va ≠ pml4 uvpt

instance (va : Nat) : Decidable (Plain va) := inferInstanceAs (Decidable (_ ∧ _))

/-- Where a call stores to leaf entries: it is an address that the call edits, and that is
invalidated when it was mapped, or the call makes or ends an environment. -/
structure Stores (k : Kernel npages) (c : EnvIdx) (ambient : Ambient) (call : Syscall)
    (k' : Kernel npages) (a : Place) (t : Index) : Prop where
  cause : (∃ e va, a = (Place.root (some e)).table va ∧ t = ptx va ∧ va ≤ utop ∧
      Targets k c e va call ∧ ((k.pmap.translateIn (k.envs e).envPml4e va).isSome →
        ((k.envs e).envPml4e, va) ∈ callInvalidations k c ambient call)) ∨
    ∃ e, a.owner = some e ∧ (¬ k.Live e ∨ ¬ k'.Live e)

theorem mem_tlbInvalidate {m : Pmap npages} {pml4e : Option (Fin npages)}
    (mapped : (m.translateIn pml4e va).isSome) : (pml4e, va) ∈ m.tlbInvalidate pml4e va := by
  unfold Pmap.tlbInvalidate
  rw [if_pos mapped]
  exact List.mem_singleton_self _

theorem Sound.call_stores (sound : Sound managed k g) (live : k.Live c)
    (orderly : OrderlyCall k c call) (ran : Jos.syscall k c ambient call = some (outcome, k')) :
    ∃ g' footprint, Change managed k g k' g' footprint ∧
      ∀ a t, footprint.stores a t → Stores k c ambient call k' a t := by
  have returned {result : Option (Int × Kernel npages)}
      (ran : returning result = some (outcome, k')) : ∃ value, result = some (value, k') := by
    obtain ⟨⟨value, k₁⟩, here, same⟩ := Option.map_eq_some_iff.mp ran
    cases same
    exact ⟨value, here⟩
  have untouched (same : k' = k) : ∃ g' footprint, Change managed k g k' g' footprint ∧
      ∀ a t, footprint.stores a t → Stores k c ambient call k' a t := by
    subst same
    exact ⟨g, .nowhere, .refl sound, nofun⟩
  have walked {a : Place} {va : Nat} {g' : Ledger npages}
      (walk : MemoryCall managed k g k' g' (.walk a va)) :
      ∃ g' footprint, Change managed k g k' g' footprint ∧
        ∀ a t, footprint.stores a t → Stores k c ambient call k' a t :=
    ⟨g', _, walk.change, nofun⟩
  have edited {e : EnvIdx} {va : Nat} {g' : Ledger npages} (bound : va ≤ utop)
      (targets : Targets k c e va call)
      (calls : (k.pmap.translateIn (k.envs e).envPml4e va).isSome →
        ((k.envs e).envPml4e, va) ∈ callInvalidations k c ambient call)
      (change : Change managed k g k' g' (.slot (.root (some e)) va)) :
      ∃ g' footprint, Change managed k g k' g' footprint ∧
        ∀ a t, footprint.stores a t → Stores k c ambient call k' a t :=
    ⟨g', _, change, fun a t stores =>
      ⟨.inl ⟨e, va, stores.1, stores.2, bound, targets, calls⟩⟩⟩
  have delivered {dst : EnvIdx} {value : BitVec 32} {m : Pmap npages} {sent : Option (BitVec 32)}
      {g₁ : Ledger npages} {footprint : Footprint} {envid : EnvId}
      (found : envid2env k c envid false = some dst)
      (sound' : Sound managed (k.setPmap m) g₁) : Change managed (k.setPmap m) g₁
        ((k.setPmap m).setEnv dst (deliveredEnv (k.envs dst) (k.envs c).envId value sent)) g₁
        footprint :=
    sound'.setEnv_change (sameSpace_delivered (sound.envid2env_root live found))
  cases call with
  | pageAlloc envid va perm =>
    obtain ⟨value, result⟩ := returned ran
    rcases sound.sysPageAlloc live result with ⟨-, same, -⟩ | ⟨e, checks, ending⟩
    · exact untouched same
    · cases ending with
      | noPage _ same => exact untouched same
      | noTable _ _ walk => exact walked walk
      | done _ _ stored =>
        refine edited checks.2.2.2 ⟨checks, rfl⟩ (fun mapped => ?_) stored.change
        simp only [callInvalidations, checks.1, result]
        exact mem_tlbInvalidate mapped
  | pageMap srcenvid srcva dstenvid dstva perm =>
    obtain ⟨value, result⟩ := returned ran
    rcases sound.sysPageMap live orderly result with ⟨-, same, -⟩ | ⟨src, dst, checks, ending⟩
    · exact untouched same
    · cases ending with
      | notMapped _ same looked => exact walked (same ▸ looked.memoryCall sound)
      | readOnly _ _ _ same => exact untouched same
      | noTable _ _ same _ looked => exact walked (same ▸ looked.memoryCall sound)
      | done _ _ stored =>
        refine edited checks.dstRange.2 ⟨⟨src, checks⟩, rfl⟩ (fun mapped => ?_) stored.change
        simp only [callInvalidations, checks.dst, result]
        exact mem_tlbInvalidate mapped
  | pageUnmap envid va =>
    obtain ⟨value, result⟩ := returned ran
    rcases sound.sysPageUnmap live result with ⟨-, same⟩ | ⟨rfl, e, found, low, ending⟩
    · exact untouched same
    · cases ending with
      | notMapped _ same looked => exact walked (same ▸ looked.memoryCall sound)
      | done stored =>
        refine edited low.le ⟨⟨found, low⟩, rfl⟩ (fun mapped => ?_) stored.change
        simp only [callInvalidations, found, result]
        exact mem_tlbInvalidate mapped
  | ipcTrySend envid value srcva perm =>
    obtain ⟨code, result⟩ := returned ran
    have room : ∀ dst, envid2env k c envid false = some dst → SendsPage k dst srcva →
        RoomToMap k c srcva dst (k.envs dst).envIpcDstva := orderly
    cases sound.sysIpcTrySend live room result with
    | rejected _ same => exact untouched same
    | notMapped _ _ _ _ same looked => exact walked (same ▸ looked.memoryCall sound)
    | plain found _ _ same looked =>
      subst same
      exact ⟨_, _, (looked.memoryCall sound).change.trans (delivered found
        (looked.memoryCall sound).sound), nofun⟩
    | refused found _ _ _ same =>
      subst same
      exact ⟨g, .nowhere, @delivered _ _ k.pmap _ _ _ _ found sound, nofun⟩
    | noTable found _ _ _ _ same looked =>
      subst same
      exact ⟨_, _, (looked.memoryCall sound).change.trans (delivered found
        (looked.memoryCall sound).sound), nofun⟩
    | done found waiting sends deliverable _ _ _ same stored =>
      subst same
      refine edited sends.2.le ⟨⟨found, waiting, sends⟩, rfl⟩ (fun mapped => ?_)
        (stored.change.trans (delivered found stored.sound))
      simp only [callInvalidations, found, result, if_pos (And.intro sends deliverable)]
      exact mem_tlbInvalidate mapped
  | cputs s len =>
    obtain ⟨g', change, -⟩ := sound.syscall live orderly ran
    exact ⟨g', _, change, fun a t stores => ⟨.inr ⟨c, stores.1, .inr stores.2⟩⟩⟩
  | netTx buf size =>
    obtain ⟨g', change, -⟩ := sound.syscall live orderly ran
    exact ⟨g', _, change, fun a t stores => ⟨.inr ⟨c, stores.1, .inr stores.2⟩⟩⟩
  | netRx buf =>
    obtain ⟨g', change, -⟩ := sound.syscall live orderly ran
    exact ⟨g', _, change, fun a t stores => ⟨.inr ⟨c, stores.1, .inr stores.2⟩⟩⟩
  | envDestroy envid =>
    obtain ⟨g', change, -⟩ := sound.syscall live orderly ran
    refine ⟨g', _, change, fun a t stores => ?_⟩
    obtain ⟨e, ⟨-, dead⟩, owner⟩ := stores
    exact ⟨.inr ⟨e, owner, .inr dead⟩⟩
  | exofork =>
    obtain ⟨g', change, -⟩ := sound.syscall live orderly ran
    refine ⟨g', _, change, fun a t stores => ?_⟩
    obtain ⟨e, dead, owner⟩ := stores
    exact ⟨.inr ⟨e, owner, .inl dead⟩⟩
  | _ =>
    obtain ⟨g', change, -⟩ := sound.syscall live orderly ran
    exact ⟨g', _, change, nofun⟩

theorem Effect.root_kept (effect : Effect k c k' call outcome) (listed : k.Listed)
    (live : k.Live x) : (k'.envs x).envPml4e = (k.envs x).envPml4e ∨ Ends k c x call ∧ ¬ k'.Live x := by
  have written {k₁ : Kernel npages} {slot : EnvIdx} {env : Env npages}
      (same : env.envPml4e = (k₁.envs slot).envPml4e) :
      ((k₁.setEnv slot env).envs x).envPml4e = (k₁.envs x).envPml4e := by
    by_cases self : x = slot
    · subst self
      simp only [Kernel.setEnv, update_self, same]
    · simp only [Kernel.setEnv, update_of_ne self]
  have gone {k₁ : Kernel npages} {slot : EnvIdx} (ran : envFree k₁ slot = some k')
      (ends : x = slot → Ends k c x call) (before : k₁.envs = k.envs) :
      (k'.envs x).envPml4e = (k.envs x).envPml4e ∨ Ends k c x call ∧ ¬ k'.Live x := by
    have envs := (envFree_envs ran).2.2
    by_cases self : x = slot
    · refine .inr ⟨ends self, ?_⟩
      rw [Kernel.Live, envs, self, update_self, not_not]
    · rw [envs, update_of_ne self, before]
      exact .inl rfl
  cases effect with
  | memory same =>
    subst same
    exact .inl rfl
  | yield same =>
    subst same
    exact .inl rfl
  | recv _ same =>
    subst same
    exact .inl (written (by unfold waitingEnv; split <;> rfl))
  | send _ _ _ same =>
    subst same
    refine .inl ((written ?_).trans rfl)
    unfold deliveredEnv
    split <;> rfl
  | @exofork e k₁ allocated same =>
    subst same
    have differs : x ≠ e := by
      rintro rfl
      exact live (listed.alloc allocated).2
    obtain ⟨-, -, root, envs⟩ := envAlloc_envs allocated
    have kept := @written k₁ e (forkedEnv (k₁.envs e) (k₁.envs c).envTf) rfl
    rw [kept, envs, update_of_ne differs]
    exact .inl rfl
  | setStatus _ _ _ same =>
    subst same
    exact .inl (written rfl)
  | setTrapframe _ same =>
    subst same
    exact .inl (written rfl)
  | setUpcall _ same =>
    subst same
    exact .inl (written rfl)
  | dying _ _ _ same =>
    subst same
    exact .inl (written rfl)
  | destroy found idle ran =>
    exact gone ran (fun self => .inr ⟨_, rfl, self ▸ found, self ▸ idle⟩) rfl
  | denied checks ran => exact gone ran (fun self => .inl ⟨checks, self⟩) rfl

theorem Place.page_eq {low low' : Nat} (bound : Plain low) (bound' : low' ≤ utop)
    (tables : (root (some x)).table low = (root (some e)).table low')
    (entries : ptx low = ptx low') :
    low / pgSize = low' / pgSize ∧ (low' < 2 ^ 39 → x = e) := by
  have size : pgSize = 4096 := rfl
  have user := bound.2
  have bound := bound.1
  have user' := mappable_user (mappable_of_le (e := e) bound')
  have paths := congrArg Place.path tables
  rw [table_path user, table_path user'] at paths
  injection paths with third rest
  injection rest with second rest
  injection rest with first _
  have fourth := congrArg Fin.val entries
  have third := congrArg Fin.val third
  have second := congrArg Fin.val second
  have top := congrArg Fin.val first
  rw [ptx_eq, ptx_eq] at fourth
  rw [pdx_eq, pdx_eq] at third
  rw [pdpe_eq, pdpe_eq] at second
  rw [pml4_eq, pml4_eq] at top
  rw [utop_eq] at bound'
  rw [size]
  refine ⟨by omega, fun own => ?_⟩
  have zero : (pml4 low').val ≠ 1 := by
    rw [pml4_eq]
    omega
  have owner := congrArg Place.owner tables
  rw [@table_own x low (fun one => zero (by rw [← first, one]; rfl)) user,
    @table_own e low' (fun one => zero (by rw [one]; rfl)) user'] at owner
  exact Option.some.inj owner

section

variable {footprint : Footprint}

theorem Change.view_kept (sound : Sound managed k g) (change : Change managed k g k' g' footprint)
    (live : k.Live x) (live' : k'.Live x) (bound : Plain va)
    (outside : ¬ footprint.stores ((Place.root (some x)).table va) (ptx va)) :
    k'.view x va = k.view x va := by
  have deep : ((Place.root (some x)).table va).path.length = 3 := by
    rw [Place.table_path bound.2]
    rfl
  unfold Kernel.view
  rw [sound.translateIn live bound.2, change.sound.translateIn live' bound.2, leafOf, leafOf,
    change.keeps.leaves deep _ outside]

end

namespace Cores

/-- Every translation that a TLB holds is the one in the page tables that its processor
executes with. -/
structure Coherent (managed : Set (Fin npages)) (s : Cores npages ncpu) : Prop where
  sound : ∃ g, Sound managed s.kernel g
  running : ∀ cpu e, s.curenv cpu = some e →
    s.kernel.Live e ∧ s.cr3 cpu = (s.kernel.envs e).envPml4e
  cached : ∀ cpu page found, Plain (page * pgSize) → s.tlb cpu page = some found →
    ∃ e, s.curenv cpu = some e ∧ s.kernel.view e (page * pgSize) = some found

/-- A processor has just loaded cr3. -/
structure Renewed (s : Cores npages ncpu) (cpu : Fin ncpu) : Prop where
  empty : ∀ page, s.tlb cpu page = none
  running : ∀ e, s.curenv cpu = some e →
    s.kernel.Live e ∧ s.cr3 cpu = (s.kernel.envs e).envPml4e

/-- A processor goes on with its environment, whose address space is the same wherever the
TLB still holds something. -/
structure GoesOn (s s' : Cores npages ncpu) (cpu : Fin ncpu) : Prop where
  curenv : s'.curenv cpu = s.curenv cpu
  cr3 : s'.cr3 cpu = s.cr3 cpu
  tlb : ∀ page found, s'.tlb cpu page = some found → s.tlb cpu page = some found
  root : ∀ x, s.curenv cpu = some x → (s'.kernel.envs x).envPml4e = (s.kernel.envs x).envPml4e
  view : ∀ x, s.curenv cpu = some x → ∀ page found, s'.tlb cpu page = some found →
    Plain (page * pgSize) → s'.kernel.view x (page * pgSize) = s.kernel.view x (page * pgSize)

theorem Coherent.next (coherent : s.Coherent managed) (sound : ∃ g, Sound managed s'.kernel g)
    (each : ∀ cpu, s'.Renewed cpu ∨ s.GoesOn s' cpu) : s'.Coherent managed := by
  refine ⟨sound, fun cpu e here => ?_, fun cpu page found plain held => ?_⟩
  · rcases each cpu with renewed | goes
    · exact renewed.running e here
    · rw [goes.curenv] at here
      obtain ⟨live, cr3⟩ := coherent.running cpu e here
      have root := goes.root e here
      refine ⟨?_, (goes.cr3.trans cr3).trans root.symm⟩
      rw [Kernel.Live, root]
      exact live
  · rcases each cpu with renewed | goes
    · rw [renewed.empty] at held
      cases held
    · obtain ⟨e, here, there⟩ := coherent.cached cpu page found plain (goes.tlb page found held)
      exact ⟨e, goes.curenv.trans here, (goes.view e here page found held plain).trans there⟩

theorem lcr3_renewed {curenv : Option EnvIdx} (live : ∀ e, curenv = some e → s.kernel.Live e) :
    (s.lcr3 cpu curenv).Renewed cpu := by
  refine ⟨fun page => ?_, fun e here => ?_⟩
  · simp only [lcr3, update_self]
  · simp only [lcr3, update_self] at here ⊢
    subst here
    exact ⟨live e rfl, rfl⟩

theorem lcr3_other {curenv : Option EnvIdx} (differs : other ≠ cpu) :
    (s.lcr3 cpu curenv).curenv other = s.curenv other ∧
      (s.lcr3 cpu curenv).cr3 other = s.cr3 other ∧
      (s.lcr3 cpu curenv).tlb other = s.tlb other := by
  simp only [lcr3, update_of_ne differs, and_self]

theorem leave_kernel {event : KernelEvent} : (s.leave cpu event k').kernel = k' := by
  unfold leave
  cases event with
  | run curenv number e =>
    simp only
    split <;> rfl
  | _ =>
    cases s.curenv cpu with
    | none => rfl
    | some c =>
      simp only
      split <;> rfl

theorem leave_other {event : KernelEvent} (differs : other ≠ cpu) :
    (s.leave cpu event k').curenv other = s.curenv other ∧
      (s.leave cpu event k').cr3 other = s.cr3 other ∧
      (s.leave cpu event k').tlb other = s.tlb other := by
  unfold leave
  cases event with
  | run curenv number e =>
    simp only
    split
    · exact ⟨rfl, rfl, rfl⟩
    · exact lcr3_other differs
  | _ =>
    cases s.curenv cpu with
    | none => exact ⟨rfl, rfl, rfl⟩
    | some c =>
      simp only
      split
      · exact ⟨rfl, rfl, update_of_ne differs _ _⟩
      · exact lcr3_other differs

/-- Another processor goes on when the address space of its environment is as it was. -/
theorem leave_goesOn {event : KernelEvent} (differs : other ≠ cpu)
    (same : ∀ x, s.curenv other = some x → (k'.envs x).envPml4e = (s.kernel.envs x).envPml4e ∧
      ∀ va, Plain va → k'.view x va = s.kernel.view x va) :
    s.GoesOn (s.leave cpu event k') other := by
  obtain ⟨curenv, cr3, tlb⟩ := @leave_other npages ncpu k' s cpu other event differs
  refine ⟨curenv, cr3, fun page found held => tlb ▸ held, fun x here => ?_,
    fun x here page found _ bound => ?_⟩
  · rw [leave_kernel]
    exact (same x here).1
  · rw [leave_kernel]
    exact (same x here).2 _ bound

theorem leave_own {event : KernelEvent} (here : s.curenv cpu = some c)
    (notRun : ∀ curenv number e, event ≠ .run curenv number e)
    (root : k'.Live c → (k'.envs c).envPml4e = (s.kernel.envs c).envPml4e)
    (view : k'.Live c → ∀ page found,
      invlpg (invalidations s.kernel event) (s.kernel.envs c).envPml4e (s.tlb cpu) page = some found →
        Plain (page * pgSize) → k'.view c (page * pgSize) = s.kernel.view c (page * pgSize)) :
    (s.leave cpu event k').Renewed cpu ∨ s.GoesOn (s.leave cpu event k') cpu := by
  have left : s.leave cpu event k' = if k'.Live c then
      { s with
        kernel := k'
        tlb := update s.tlb cpu
          (invlpg (invalidations s.kernel event) (s.kernel.envs c).envPml4e (s.tlb cpu)) }
      else ({ s with kernel := k' } : Cores npages ncpu).lcr3 cpu none := by
    cases event with
    | run curenv number e => exact absurd rfl (notRun curenv number e)
    | _ => simp only [leave, here]
  rw [left]
  by_cases live : k'.Live c
  · rw [if_pos live]
    refine .inr ⟨rfl, rfl, fun page found held => ?_, fun x there => ?_,
      fun x there page found held bound => ?_⟩
    · simp only [update_self] at held
      unfold invlpg at held
      split at held
      · cases held
      · exact held
    · obtain rfl := Option.some.inj (here.symm.trans there)
      exact root live
    · obtain rfl := Option.some.inj (here.symm.trans there)
      simp only [update_self] at held
      exact view live page found held bound
  · rw [if_neg live]
    exact .inl (lcr3_renewed nofun)

/-- No other address space is edited, and every page of the own one that is edited is
invalidated. -/
theorem Coherent.after_call (coherent : s.Coherent managed) (here : s.curenv cpu = some c)
    (admitted : s.Local (.enter cpu (.call c ambient call)))
    (ran : syscall s.kernel c ambient call = some (outcome, k')) :
    (s.leave cpu (.call c ambient call) k').Coherent managed := by
  obtain ⟨orderly, ends, edits⟩ := admitted
  obtain ⟨g, sound⟩ := coherent.sound
  have liveC := (coherent.running cpu c here).1
  obtain ⟨g', footprint, change, stores⟩ := sound.call_stores liveC orderly ran
  have effect := syscall_effect ran
  have listed : s.kernel.Listed := ⟨sound.slots, sound.idle⟩
  have view {x : EnvIdx} (live : s.kernel.Live x) (live' : k'.Live x) {va : Nat} (bound : Plain va)
      (apart : ∀ e low, (Place.root (some x)).table va = (Place.root (some e)).table low →
        ptx va = ptx low → low ≤ utop → Targets s.kernel c e low call →
        ((s.kernel.pmap.translateIn (s.kernel.envs e).envPml4e low).isSome →
          ((s.kernel.envs e).envPml4e, low) ∈ callInvalidations s.kernel c ambient call) → False) :
      k'.view x va = s.kernel.view x va := by
    refine change.view_kept sound live live' bound fun stored => ?_
    rcases (stores _ _ stored).cause with ⟨e, low, table, entry, small, targets, calls⟩ |
      ⟨e, owner, dead⟩
    · exact apart e low table entry small targets calls
    · obtain rfl := Place.eq_of_table_owner owner
      exact dead.elim (· live) (· live')
  refine coherent.next (leave_kernel ▸ ⟨g', change.sound⟩) fun slot => ?_
  by_cases own : slot = cpu
  · subst own
    refine leave_own here nofun (fun live' => ?_) fun live' page found held bound => ?_
    · rcases effect.root_kept listed liveC with kept | ⟨-, dead⟩
      · exact kept
      · exact absurd live' dead
    · refine view liveC live' bound fun e low table entry small targets calls => ?_
      obtain ⟨same, unshared⟩ := Place.page_eq bound small table entry
      have self : c = e := by
        rcases Nat.lt_or_ge low (2 ^ 39) with own | shared
        · exact unshared own
        · exact ((edits e low targets).2 shared).1
      subst self
      unfold invlpg at held
      split at held
      · cases held
      · rename_i kept
        -- what the TLB holds was mapped, so the page has been invalidated
        obtain ⟨x, there, mapped⟩ := coherent.cached slot page found bound held
        cases here.symm.trans there
        have size : page * pgSize / pgSize = page := Nat.mul_div_cancel page (by decide)
        refine kept ⟨_, calls ?_, rfl, same.symm.trans size⟩
        have user' := Place.mappable_user (Place.mappable_of_le (e := c) small)
        unfold Kernel.view at mapped
        rw [sound.translateIn liveC bound.2, leafOf, table, entry] at mapped
        rw [sound.translateIn liveC user', leafOf, mapped]
        rfl
  · refine .inr (leave_goesOn own fun x there => ?_)
    have live := (coherent.running slot x there).1
    have root : (k'.envs x).envPml4e = (s.kernel.envs x).envPml4e := by
      rcases effect.root_kept listed live with kept | ⟨ended, -⟩
      · exact kept
      · exact absurd there (ends x ended slot own)
    have live' : k'.Live x := by
      rw [Kernel.Live, root]
      exact live
    refine ⟨root, fun va bound => view live live' bound
      fun e low table entry small targets _ => ?_⟩
    obtain ⟨alone, shared⟩ := edits e low targets
    rcases Nat.lt_or_ge low (2 ^ 39) with unshared | high
    · obtain rfl := (Place.page_eq bound small table entry).2 unshared
      exact alone slot own there
    · rw [(shared high).2 slot own] at there
      cases there

/-- An event that changes no address space but, at most, that of an environment that it
ends, which no other processor executes. -/
theorem Coherent.after_end {event : KernelEvent} (coherent : s.Coherent managed)
    (here : s.curenv cpu = some c) (notRun : ∀ curenv number e, event ≠ .run curenv number e)
    (alone : s.Alone cpu c ∨ k'.Live c)
    (roots : ∀ x, s.kernel.Live x → x ≠ c ∨ k'.Live c →
      (k'.envs x).envPml4e = (s.kernel.envs x).envPml4e)
    (changed : ∀ g, Sound managed s.kernel g → ∃ g' footprint,
      Change managed s.kernel g k' g' footprint ∧
        ∀ a t, footprint.stores a t → a.owner = some c ∧ ¬ k'.Live c) :
    (s.leave cpu event k').Coherent managed := by
  obtain ⟨g, sound⟩ := coherent.sound
  obtain ⟨g', footprint, change, stores⟩ := changed g sound
  have kept {slot : Fin ncpu} {x : EnvIdx} (there : s.curenv slot = some x)
      (stays : x ≠ c ∨ k'.Live c) : (k'.envs x).envPml4e = (s.kernel.envs x).envPml4e ∧
        ∀ va, Plain va → k'.view x va = s.kernel.view x va := by
    have live := (coherent.running slot x there).1
    have root := roots x live stays
    have live' : k'.Live x := by
      rw [Kernel.Live, root]
      exact live
    refine ⟨root, fun va bound => change.view_kept sound live live' bound fun stored => ?_⟩
    obtain ⟨owner, dead⟩ := stores _ _ stored
    obtain rfl := Place.eq_of_table_owner owner
    exact dead live'
  refine coherent.next (leave_kernel ▸ ⟨g', change.sound⟩) fun slot => ?_
  by_cases own : slot = cpu
  · subst own
    exact leave_own here notRun (fun live' => (kept here (.inr live')).1)
      fun live' page found _ bound => (kept here (.inr live')).2 _ bound
  · refine .inr (leave_goesOn own fun x there => kept there ?_)
    refine alone.imp (fun apart => ?_) id
    rintro rfl
    exact apart slot own there

theorem Coherent.enter {event : KernelEvent} (coherent : s.Coherent managed)
    (enters : s.Enters cpu event) (admitted : s.Local (.enter cpu event))
    (ran : kernelStep s.kernel event = some k') : (s.leave cpu event k').Coherent managed := by
  obtain ⟨g, sound⟩ := coherent.sound
  cases event with
  | create binary type =>
    have idle : ∀ slot, s.curenv slot = none := enters
    have left : s.leave cpu (.create binary type) k' = { s with kernel := k' } := by
      simp only [leave, idle cpu]
    obtain ⟨g', change, -⟩ := sound.step admitted.1 ran
    rw [left]
    refine ⟨⟨g', change.sound⟩, fun slot x here => ?_, fun slot page found plain held => ?_⟩
    · cases (idle slot).symm.trans here
    · obtain ⟨x, here, -⟩ := coherent.cached slot page found plain held
      cases (idle slot).symm.trans here
  | alloc parentId => exact enters.elim
  | free e =>
    have freed : envFree s.kernel e = some k' := ran
    have envs := (envFree_envs freed).2.2
    refine coherent.after_end enters (by simp) (.inl admitted.2) (fun x live stays => ?_)
      fun g sound => ?_
    · have differs : x ≠ e := stays.resolve_right fun live' => live' (by rw [envs, update_self])
      rw [envs, update_of_ne differs]
    · obtain ⟨g', change, vacated⟩ := sound.envFree_change admitted.1 freed
      exact ⟨g', _, change, fun a t stores => ⟨stores, vacated.dead⟩⟩
  | call c ambient call =>
    obtain ⟨-, outcome, called⟩ := kernelStep_call ran
    exact coherent.after_call enters admitted called
  | fault c =>
    obtain ⟨live, exit, handled⟩ := kernelStep_fault ran
    refine coherent.after_end enters (by simp) (.inl admitted.2) (fun x _ stays => ?_)
      fun g sound => ?_
    · obtain ⟨m, ⟨-, freed⟩ | ⟨-, tf, same⟩⟩ := pageFaultHandler_cases handled
      · have envs := (envFree_envs freed).2.2
        have differs : x ≠ c :=
          stays.resolve_right fun live' => live' (by rw [envs, update_self])
        rw [envs, update_of_ne differs]
        rfl
      · change k' = _ at same
        subst same
        by_cases self : x = c
        · subst self
          simp only [Kernel.setEnv, update_self]
        · simp only [Kernel.setEnv, update_of_ne self]
          rfl
    · obtain ⟨g', change⟩ := sound.pageFaultHandler live admitted.1 handled
      exact ⟨g', _, change, fun a t stores => stores⟩
  | frame e tf =>
    cases ran
    have roots (x : EnvIdx) : ((s.kernel.setEnv e { s.kernel.envs e with envTf := tf }).envs
        x).envPml4e = (s.kernel.envs x).envPml4e := by
      by_cases self : x = e
      · subst self
        simp only [Kernel.setEnv, update_self]
      · simp only [Kernel.setEnv, update_of_ne self]
    have live' : (s.kernel.setEnv e { s.kernel.envs e with envTf := tf }).Live e := by
      rw [Kernel.Live, roots]
      exact (coherent.running cpu e enters).1
    refine coherent.after_end enters (by simp) (.inr live') (fun x _ _ => roots x) fun g sound => ?_
    exact ⟨g, .nowhere, sound.setEnv_change ⟨rfl, rfl, rfl, rfl, fun _ => rfl⟩, by intros; contradiction⟩
  | run curenv number e =>
    obtain ⟨ready, rfl⟩ := kernelStep_run ran
    have roots (x : EnvIdx) : ((envSwitch s.kernel curenv number e).envs x).envPml4e =
        (s.kernel.envs x).envPml4e := (envSwitch_spec x).1
    have views (x : EnvIdx) (va : Nat) :
        (envSwitch s.kernel curenv number e).view x va = s.kernel.view x va := by
      unfold Kernel.view
      rw [envSwitch_pmap, roots]
    have sound' : Sound managed (envSwitch s.kernel curenv number e) g := sound.envSwitch ready
    refine coherent.next (leave_kernel ▸ ⟨g, sound'⟩) fun slot => ?_
    by_cases own : slot = cpu
    · subst own
      simp only [leave]
      by_cases same : s.curenv slot = some e
      · rw [if_pos same]
        exact .inr ⟨rfl, rfl, fun _ _ held => held, fun x _ => roots x,
          fun x _ page _ _ _ => views x _⟩
      · rw [if_neg same]
        refine .inl (lcr3_renewed fun x this => ?_)
        cases this
        have runnable := ready.resolve_left fun here => same (enters.symm.trans here)
        have live : s.kernel.Live e := fun rootless => by
          rw [sound.idle rootless] at runnable
          cases runnable
        change (envSwitch s.kernel curenv number e).Live e
        rw [Kernel.Live, roots]
        exact live
    · exact .inr (leave_goesOn own fun x _ => ⟨roots x, fun va _ => views x va⟩)

theorem Coherent.step (coherent : s.Coherent managed) (admitted : s.Local event)
    (stepped : s.step event = some s') : s'.Coherent managed := by
  cases event with
  | touch cpu page =>
    unfold Cores.step at stepped
    simp only at stepped
    split at stepped
    · cases stepped
    · rename_i user
      rw [not_or] at user
      obtain ⟨found, there, rfl⟩ := Option.map_eq_some_iff.mp stepped
      obtain ⟨e, here⟩ := Option.ne_none_iff_exists'.mp user.1
      refine ⟨coherent.sound, coherent.running, fun slot page' found' plain held => ?_⟩
      by_cases own : slot = cpu
      · subst own
        simp only [update_self] at held
        by_cases same : page' = page
        · subst same
          rw [update_self] at held
          cases held
          refine ⟨e, here, ?_⟩
          rw [(coherent.running slot e here).2] at there
          exact there
        · rw [update_of_ne same] at held
          exact coherent.cached slot page' found' plain held
      · simp only [update_of_ne own] at held
        exact coherent.cached slot page' found' plain held
  | enter cpu event =>
    unfold Cores.step at stepped
    simp only at stepped
    split at stepped
    · rename_i enters
      obtain ⟨k', ran, rfl⟩ := Option.map_eq_some_iff.mp stepped
      exact coherent.enter enters admitted ran
    · cases stepped
  | halt cpu =>
    cases stepped
    refine coherent.next coherent.sound fun slot => ?_
    by_cases own : slot = cpu
    · subst own
      exact .inl (lcr3_renewed nofun)
    · obtain ⟨curenv, cr3, tlb⟩ := @lcr3_other npages ncpu s cpu slot none own
      exact .inr ⟨curenv, cr3, fun page found held => tlb ▸ held, fun _ _ => rfl,
        fun _ _ _ _ _ _ => rfl⟩

/-- Every translation that a TLB holds is in the page tables of its processor, with the same
page and permissions, and a page of user memory is not on `page_free_list`. The window on
the page tables is left out: it changes only with the tables themselves. -/
def Current (s : Cores npages ncpu) : Prop :=
  ∀ cpu page found, Plain (page * pgSize) → s.tlb cpu page = some found →
    s.kernel.pmap.translateIn (s.cr3 cpu) (page * pgSize) = some found ∧
      (page * pgSize ≤ utop → ∀ pp : Fin npages, found.ppn = pp.val → s.kernel.Held pp)

theorem Coherent.current (coherent : s.Coherent managed) : s.Current := by
  obtain ⟨g, sound⟩ := coherent.sound
  intro cpu page found plain held
  obtain ⟨e, here, view⟩ := coherent.cached cpu page found plain held
  obtain ⟨live, cr3⟩ := coherent.running cpu e here
  refine ⟨by rw [cr3]; exact view, fun bound pp ppn free chain listed => ?_⟩
  have mappable := Place.mappable_of_le (e := e) bound
  unfold Kernel.view at view
  rw [sound.translateIn live (Place.mappable_user mappable)] at view
  obtain ⟨present, same⟩ := leafTranslation_ppn.mp ⟨found, view, ppn⟩
  obtain rfl := sound.valid.freeList_iff.mp chain
  rcases sound.valid.leaf_cases mappable with empty | ⟨holder, target, there, leaf, maps⟩
  · rw [leafOf, empty] at present
    cases present
  · rw [leafOf, leaf] at present same
    exact (sound.valid.free_unused listed).unmapped there mappable present same

theorem Started.coherent (started : s.Started platform) : s.Coherent platform.managed := by
  obtain ⟨reached, idle⟩ := started
  refine ⟨reached.sound, fun cpu e here => ?_, fun cpu page found _ held => ?_⟩
  · cases (idle cpu).1.symm.trans here
  · cases ((idle cpu).2.2 page).symm.trans held

end Cores

/-- In every run in which no processor edits or ends an address space that another one
executes in, no TLB holds a translation that is no longer there. -/
theorem tlbs_current (reached : Reachable (Cores.Started platform) Cores.step Cores.Local s) :
    s.Current :=
  (reached.invariant (Cores.Coherent platform.managed) (fun _ started => started.coherent)
    fun _ _ _ coherent admitted stepped => coherent.step admitted stepped).current

structure Parentage (k : Kernel 4096) (g : Ledger 4096) (c e : EnvIdx) (page : Fin 4096) : Prop where
  sound : Sound sample.managed k g
  live : k.Live c
  live' : k.Live e
  differs : c ≠ e
  parent : (k.envs e).envParentId = (k.envs c).envId
  inside : page ∈ sample.managed
  leaf : leafOf k g e pgSize = ⟨page.val, permUser.setWidth 12 ||| pteP⟩

theorem sample_parentage : ∃ k g c e page, Reached sample Orderly k ∧ Parentage k g c e page ∧
    (k.envs c).envStatus = .runnable ∧ (k.envs e).envStatus = .runnable := by
  obtain ⟨k₀, g₀, ran, booted, room⟩ := sample_booted
  obtain ⟨c, k₁, g₁, allocated₁, fresh₁, spec₁⟩ := (booted.fresh room).alloc ⟨0, booted.dead⟩ 0
  obtain ⟨other, apart⟩ := exists_ne c
  obtain ⟨root₁, envs₁, -⟩ := spec₁.envs
  have vacant : ¬ k₁.Live other := by
    rw [Kernel.Live, envs₁, update_of_ne apart]
    exact booted.dead
  obtain ⟨e, k₂, g₂, allocated₂, fresh₂, spec₂⟩ :=
    fresh₁.alloc ⟨other, vacant⟩ (k₁.envs c).envId
  obtain ⟨root₂, envs₂, -⟩ := spec₂.envs
  have differs : c ≠ e := by
    rintro rfl
    exact spec₁.live spec₂.fresh
  have pageSize : pgSize % pgSize = 0 := by decide
  obtain ⟨k₃, page, g₃, called, inside, after, leaf, -⟩ :=
    fresh₂.pageAlloc (by decide) spec₂.live pageSize (by decide)
  have first : kernelStep k₀ (.alloc 0) = some k₁ := by simp only [kernelStep, allocated₁]
  have second : kernelStep k₁ (.alloc (k₁.envs c).envId) = some k₂ := by
    simp only [kernelStep, allocated₂]
  have third : kernelStep k₂ (.call e ⟨none, 0, none⟩ (.pageAlloc 0 pgSize permUser)) = some k₃ := by
    simp only [kernelStep, if_pos spec₂.live, syscall, called, returning, Option.map_some]
  have sameC : k₃.envs c = k₁.envs c := by
    rw [after.envs, envs₂, update_of_ne differs]
  have sameE : k₃.envs e = allocatedEnv (k₁.envs e) e (k₁.envs c).envId root₂ := by
    rw [after.envs, envs₂, update_self]
  have orderly : Orderly k₂ (.call e ⟨none, 0, none⟩ (.pageAlloc 0 pgSize permUser)) := trivial
  refine ⟨k₃, g₃, c, e, page, ⟨k₀, _, ran, ((Along.nil.snoc trivial first).snoc trivial second).snoc
    orderly third⟩, ⟨after.sound, ?_, ?_, differs, ?_, inside, leaf⟩, ?_, ?_⟩
  · rw [Kernel.Live, sameC]
    exact spec₁.live
  · rw [Kernel.Live, after.envs]
    exact spec₂.live
  · rw [sameE, sameC]
    rfl
  · rw [sameC, envs₁, update_self]
    rfl
  · rw [sameE]
    rfl

theorem envSwitch_record {number : Nat} : ∃ status runs cpunum,
    (envSwitch k none number e).envs x =
      { k.envs x with envStatus := status, envRuns := runs, envCpunum := cpunum } := by
  unfold envSwitch
  rw [if_neg nofun]
  by_cases self : x = e
  · subst self
    exact ⟨.running, (k.envs x).envRuns + 1, number, by simp [popTf, Kernel.setStatus, Kernel.setEnv]⟩
  · exact ⟨(k.envs x).envStatus, (k.envs x).envRuns, (k.envs x).envCpunum,
      by simp [popTf, Kernel.setStatus, Kernel.setEnv, self]⟩

theorem Parentage.run {k : Kernel 4096} {g : Ledger 4096} {page : Fin 4096} (family : Parentage k g c e page)
    {number : Nat} (runnable : (k.envs x).envStatus = .runnable) :
    Parentage (envSwitch k none number x) g c e page := by
  have roots (y : EnvIdx) := (@envSwitch_spec 4096 x k none number y).1
  have leaf : leafOf (envSwitch k none number x) g e pgSize = leafOf k g e pgSize := by
    unfold leafOf
    rw [envSwitch_pmap]
  obtain ⟨_, _, _, recordC⟩ := @envSwitch_record 4096 k x c number
  obtain ⟨_, _, _, recordE⟩ := @envSwitch_record 4096 k x e number
  refine ⟨family.sound.envSwitch (.inr runnable), ?_, ?_, family.differs, ?_, family.inside,
    leaf.trans family.leaf⟩
  · rw [Kernel.Live, roots]
    exact family.live
  · rw [Kernel.Live, roots]
    exact family.live'
  · rw [recordC, recordE]
    exact family.parent

def childPage (page : Fin 4096) : Translation :=
  ⟨page.val, tablePerm, tablePerm, tablePerm, permUser.setWidth 12 ||| pteP⟩

theorem childPage_present {page : Fin 4096} :
    (⟨page.val, permUser.setWidth 12 ||| pteP⟩ : Pte).present = true := by
  unfold Pte.present
  change (permUser.setWidth 12 ||| pteP : BitVec 12).getLsbD 0 = true
  decide

namespace Parentage

variable {k k' : Kernel 4096} {g : Ledger 4096} {page : Fin 4096}

theorem view (family : Parentage k g c e page) : k.view e pgSize = some (childPage page) := by
  have user : pml4 pgSize ≠ pml4 uvpt := by decide
  unfold Kernel.view
  rw [family.sound.translateIn family.live' user, family.leaf, leafTranslation, if_pos childPage_present]
  rfl

theorem unmap (family : Parentage k g c e page) (busy : (k.envs e).envStatus ≠ .free) :
    ∃ k', kernelStep k (.call c ⟨none, 0, none⟩ (.pageUnmap (k.envs e).envId pgSize)) = some k' ∧
      k'.view e pgSize = none ∧ (k'.envs e).envPml4e = (k.envs e).envPml4e ∧ k'.Live c := by
  have ⟨positive, slot⟩ := family.sound.ids family.live'
  have nonzero : (k.envs e).envId ≠ 0 := by
    intro zero
    rw [zero] at positive
    exact absurd positive (by decide)
  have found : envid2env k c (k.envs e).envId true = some e := by
    unfold envid2env
    rw [if_neg nonzero]
    simp [slot, busy, family.parent]
  have droppable : ∀ x, envid2env k c (k.envs e).envId true = some x → pgSize < utop →
      Droppable sample.managed k.pmap g x pgSize := by
    intro x same _ page' refers
    cases found.symm.trans same
    have leaf := family.leaf
    unfold leafOf at leaf
    rw [leaf] at refers
    obtain rfl : page = page' := Fin.ext refers.2
    exact .inl family.inside
  obtain ⟨result, k', ran⟩ := Sound.sysPageUnmap_some family.sound family.live droppable
  have called : kernelStep k (.call c ⟨none, 0, none⟩ (.pageUnmap (k.envs e).envId pgSize)) =
      some k' := by
    simp only [kernelStep, if_pos family.live, syscall, ran, returning, Option.map_some]
  have done : result = 0 := by
    simp only [Jos.sysPageUnmap, found] at ran
    rw [if_neg (by decide)] at ran
    obtain ⟨m, -, same⟩ := Option.bind_eq_some_iff.mp ran
    exact (Prod.mk.inj (Option.some.inj same)).1.symm
  rcases family.sound.sysPageUnmap family.live ran with ⟨failed, -⟩ | ⟨-, x, same, -, ended⟩
  · exact absurd failed (by omega)
  · obtain rfl := Option.some.inj (found.symm.trans same)
    cases ended with
    | notMapped absent =>
      rw [family.leaf, childPage_present] at absent
      cases absent
    | done after cleared =>
      have sameEnvs := after.envs
      have live : k'.Live e := by
        rw [Kernel.Live, sameEnvs]
        exact family.live'
      refine ⟨k', called, ?_, by rw [sameEnvs], ?_⟩
      · unfold Kernel.view
        rw [after.sound.translateIn live (by decide), cleared]
        rfl
      · rw [Kernel.Live, sameEnvs]
        exact family.live

end Parentage

namespace Cores

def idle (k : Kernel npages) : Cores npages ncpu :=
  ⟨k, fun _ => none, fun _ => none, fun _ _ => none⟩

theorem started_idle (reached : Reached platform Orderly k) :
    (idle k : Cores npages ncpu).Started platform :=
  ⟨reached, fun _ => ⟨rfl, rfl, fun _ => rfl⟩⟩

theorem step_run {number : Nat} (free : s.curenv cpu = none)
    (runnable : (s.kernel.envs e).envStatus = .runnable) :
    s.step (.enter cpu (.run none number e)) =
      some (({ s with kernel := envSwitch s.kernel none number e } : Cores npages ncpu).lcr3 cpu
        (some e)) := by
  have enters : s.Enters cpu (.run none number e) := free.symm
  unfold step
  simp only [if_pos enters, kernelStep, runnable, or_true, if_true, Option.map_some, leave, free]
  rw [if_neg (by simp)]

theorem step_touch {found : Translation} (user : s.curenv cpu = some e) (low : page * pgSize < 2 ^ 48)
    (cr3 : s.cr3 cpu = (s.kernel.envs e).envPml4e)
    (view : s.kernel.view e (page * pgSize) = some found) :
    s.step (.touch cpu page) =
      some { s with tlb := update s.tlb cpu (update (s.tlb cpu) page (some found)) } := by
  have runs : ¬ (s.curenv cpu = none ∨ 2 ^ 48 ≤ page * pgSize) := by
    rw [user]
    rintro (idle | high)
    · cases idle
    · exact absurd low high.not_gt
  unfold Kernel.view at view
  unfold step
  simp only [if_neg runs, cr3, view, Option.map_some]

end Cores

theorem sample_tlbs_current : ∃ s : Cores 4096 2,
    Reachable (Cores.Started sample) Cores.step Cores.Local s ∧
      (∃ found, s.tlb 0 1 = some found) ∧ s.Current := by
  obtain ⟨k, g, c, e, page, reached, family, -, runnable⟩ := sample_parentage
  have family' : Parentage (envSwitch k none 0 e) g c e page := family.run runnable
  have first := @Cores.step_run 4096 2 e (Cores.idle k) 0 0 rfl runnable
  generalize next : (({ (Cores.idle k : Cores 4096 2) with
    kernel := envSwitch (Cores.idle k : Cores 4096 2).kernel none 0 e } : Cores 4096 2).lcr3 0
      (some e)) = s₁ at first
  have kernel : s₁.kernel = envSwitch k none 0 e := by
    subst next
    rfl
  have user : s₁.curenv 0 = some e := by
    subst next
    rfl
  have cr3 : s₁.cr3 0 = (s₁.kernel.envs e).envPml4e := by
    subst next
    rfl
  have view : s₁.kernel.view e (1 * pgSize) = some (childPage page) := by
    rw [kernel]
    exact family'.view
  have second := Cores.step_touch user (by decide) cr3 view
  have admitted : Cores.Local (Cores.idle k : Cores 4096 2) (.enter 0 (.run none 0 e)) :=
    ⟨trivial, trivial⟩
  have touches : Cores.Local s₁ (.touch 0 1) := trivial
  have reachable := (Along.nil.snoc admitted first).snoc touches second
  refine ⟨_, ⟨_, _, Cores.started_idle reached, reachable⟩, ⟨childPage page, ?_⟩,
    tlbs_current ⟨_, _, Cores.started_idle reached, reachable⟩⟩
  simp only [update_self]

theorem Cores.step_enter {event : KernelEvent} (enters : s.Enters cpu event)
    (ran : kernelStep s.kernel event = some k') :
    s.step (.enter cpu event) = some (s.leave cpu event k') := by
  unfold Cores.step
  simp only [if_pos enters, ran, Option.map_some]

/-- Every kernel entry keeps to the bookkeeping; who executes where is not looked at. -/
def Cores.Orderly (s : Cores npages ncpu) : CoreEvent ncpu → Prop
  | .enter _ event => Jos.Orderly s.kernel event
  | _ => True

/-- A parent on processor 0 unmaps a page of its child, which executes on processor 1 and
has used the page: the TLB of processor 1 keeps it. -/
theorem unmapped_page_stays_cached : ∃ s : Cores 4096 2,
    Reachable (Cores.Started sample) Cores.step Cores.Orderly s ∧ ¬ s.Current := by
  obtain ⟨k, g, c, e, page, reached, family, runnableC, runnableE⟩ := sample_parentage
  have family₁ : Parentage (envSwitch k none 0 c) g c e page := family.run runnableC
  have runnable₁ : ((envSwitch k none 0 c).envs e).envStatus = .runnable := by
    rw [(envSwitch_spec e).2, if_neg nofun, if_neg (Ne.symm family.differs), if_neg (by simp)]
    exact runnableE
  have family₂ : Parentage (envSwitch (envSwitch k none 0 c) none 1 e) g c e page :=
    family₁.run runnable₁
  have busy : ((envSwitch (envSwitch k none 0 c) none 1 e).envs e).envStatus ≠ .free := by
    rw [(envSwitch_spec e).2, if_neg nofun, if_pos rfl]
    decide
  -- both environments are running, and the child uses its page
  have first := @Cores.step_run 4096 2 c (Cores.idle k) 0 0 rfl runnableC
  generalize next₁ : (({ (Cores.idle k : Cores 4096 2) with
    kernel := envSwitch (Cores.idle k : Cores 4096 2).kernel none 0 c } : Cores 4096 2).lcr3 0
      (some c)) = s₁ at first
  have kernel₁ : s₁.kernel = envSwitch k none 0 c := by
    subst next₁
    rfl
  have free₁ : s₁.curenv 1 = none := by
    subst next₁
    rfl
  have parent₁ : s₁.curenv 0 = some c := by
    subst next₁
    rfl
  have second := @Cores.step_run 4096 2 e s₁ 1 1 free₁ (by rw [kernel₁]; exact runnable₁)
  generalize next₂ : (({ s₁ with kernel := envSwitch s₁.kernel none 1 e } : Cores 4096 2).lcr3 1
      (some e)) = s₂ at second
  have kernel₂ : s₂.kernel = envSwitch (envSwitch k none 0 c) none 1 e := by
    subst next₂
    rw [← kernel₁]
    rfl
  have user₂ : s₂.curenv 1 = some e := by
    subst next₂
    rfl
  have cr3₂ : s₂.cr3 1 = (s₂.kernel.envs e).envPml4e := by
    subst next₂
    rfl
  have parent₂ : s₂.curenv 0 = some c := by
    subst next₂
    exact parent₁
  have view : s₂.kernel.view e (1 * pgSize) = some (childPage page) := by
    rw [kernel₂]
    exact family₂.view
  have third := Cores.step_touch user₂ (by decide) cr3₂ view
  generalize next₃ : ({ s₂ with
    tlb := update s₂.tlb 1 (update (s₂.tlb 1) 1 (some (childPage page))) } : Cores 4096 2) = s₃
      at third
  have kernel₃ : s₃.kernel = envSwitch (envSwitch k none 0 c) none 1 e := by
    subst next₃
    exact kernel₂
  have cr3₃ : s₃.cr3 1 = (s₃.kernel.envs e).envPml4e := by
    subst next₃
    exact cr3₂
  have parent₃ : s₃.curenv 0 = some c := by
    subst next₃
    exact parent₂
  have held : s₃.tlb 1 1 = some (childPage page) := by
    subst next₃
    simp only [update_self]
  -- the parent takes it away
  obtain ⟨k', called, gone, root, -⟩ := family₂.unmap busy
  rw [← kernel₃] at called root
  have enters : s₃.Enters 0
      (.call c ⟨none, 0, none⟩ (.pageUnmap (s₃.kernel.envs e).envId pgSize)) := parent₃
  have fourth := Cores.step_enter enters called
  refine ⟨_, ⟨Cores.idle k, _, Cores.started_idle reached, (((Along.nil.snoc ?_ first).snoc ?_
    second).snoc ?_ third).snoc ?_ fourth⟩, fun current => ?_⟩
  · exact trivial
  · exact trivial
  · exact trivial
  · exact trivial
  · have apart : (1 : Fin 2) ≠ 0 := by decide
    have there := (current 1 1 (childPage page) (by decide) ((congrFun (Cores.leave_other apart).2.2 1).trans
      held)).1
    rw [Cores.leave_kernel, (Cores.leave_other apart).2.1, cr3₃, ← root] at there
    cases gone.symm.trans there

end Jos
