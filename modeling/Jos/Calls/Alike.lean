import Jos.Calls.Step
import Jos.Environment.Alike

/-! System calls on two kernels that differ in what destroyed environments have left
behind: they return the same and leave kernels that differ in nothing more. -/

set_option autoImplicit false

namespace Jos

open Foundation

variable {npages : Nat} {managed : Set (Fin npages)} {g : Ledger npages}
  {k k' k₁ : Kernel npages} {c e : EnvIdx} {va : Nat} {result : Int}

namespace Kernel.Alike

section

variable (alike : k.Alike k')

include alike

theorem found (sound : Sound managed k g) (live : k.Live c) (envid : EnvId)
    (checkperm : Bool) : Jos.envid2env k' c envid checkperm = Jos.envid2env k c envid checkperm :=
  alike.envid2env (fun _ dead => sound.idle (not_not.mp dead)) live envid checkperm

/-- A check that both make the same way, and that leaves everything alone when it fails. -/
theorem guarded {bad : Prop} [Decidable bad] {more more' : Option (Int × Kernel npages)} {code : Int}
    (ran : (if bad then some (code, k) else more) = some (result, k₁))
    (same : more = some (result, k₁) → ∃ k₁', more' = some (result, k₁') ∧ k₁.Alike k₁') :
    ∃ k₁', (if bad then some (code, k') else more') = some (result, k₁') ∧ k₁.Alike k₁' := by
  by_cases fails : bad
  · rw [if_pos fails] at ran ⊢
    cases ran
    exact ⟨k', rfl, alike⟩
  · rw [if_neg fails] at ran ⊢
    exact same ran

theorem rooted {root : Fin npages} (rooted : (k.envs e).envPml4e = some root) :
    k'.envs e = k.envs e := by
  exact alike.live e (Kernel.live_of rooted)

section

variable (sound : Sound managed k g)

include sound

theorem sysPageAlloc (live : k.Live c)
    (same : ∀ page, k.pmap.pageFreeList = some page → k'.pmap.mem page = k.pmap.mem page)
    {envid : EnvId} {perm : BitVec 32}
    (ran : Jos.sysPageAlloc k c envid va perm = some (result, k₁)) :
    ∃ k₁', Jos.sysPageAlloc k' c envid va perm = some (result, k₁') ∧ k₁.Alike k₁' := by
  unfold Jos.sysPageAlloc at ran ⊢
  rw [alike.found sound live]
  cases found : Jos.envid2env k c envid true with
  | none =>
    rw [found] at ran
    cases ran
    exact ⟨k', rfl, alike⟩
  | some e =>
    obtain ⟨root, rooted⟩ := sound.envid2env_live live found
    simp only [found, alike.rooted rooted] at ran ⊢
    refine alike.guarded ran fun ran => alike.guarded ran fun ran => ?_
    have valid := sound.valid
    cases listed : g.free with
    | nil =>
      rw [valid.pageAlloc_empty listed] at ran
      rw [(alike.pmap.valid valid).pageAlloc_empty listed]
      cases ran
      exact ⟨k', rfl, alike⟩
    | cons page rest =>
      have chain := valid.pool.chain
      rw [listed] at chain
      rw [valid.pageAlloc_eq listed] at ran
      rw [(alike.pmap.valid valid).pageAlloc_eq listed]
      have taken := alike.pmap.take valid listed (.inr (same page chain.1) : false = true ∨ _)
      obtain ⟨⟨code, m₁⟩, inserted, ended⟩ := Option.bind_eq_some_iff.mp ran
      have top := valid.top rooted
      rw [rooted] at inserted
      obtain ⟨m₁', inserted', alike₁⟩ :=
        (valid.take listed false).pageInsert_alike taken top inserted
      cases ended
      exact ⟨_, by simp only [rooted, inserted']; rfl, alike.setPmap alike₁⟩

theorem sysPageMap (live : k.Live c)
    {srcenvid dstenvid : EnvId} {srcva dstva : Nat} {perm : BitVec 32}
    (ran : Jos.sysPageMap k c srcenvid srcva dstenvid dstva perm = some (result, k₁)) :
    ∃ k₁', Jos.sysPageMap k' c srcenvid srcva dstenvid dstva perm = some (result, k₁') ∧
      k₁.Alike k₁' := by
  unfold Jos.sysPageMap at ran ⊢
  rw [alike.found sound live, alike.found sound live]
  cases found : Jos.envid2env k c srcenvid true with
  | none =>
    rw [found] at ran
    cases ran
    exact ⟨k', rfl, alike⟩
  | some src =>
    cases found' : Jos.envid2env k c dstenvid false with
    | none =>
      rw [found, found'] at ran
      cases ran
      exact ⟨k', rfl, alike⟩
    | some dst =>
      obtain ⟨root, rooted⟩ := sound.envid2env_live live found
      obtain ⟨root', rooted'⟩ := sound.envid2env_live live found'
      simp only [found, found', alike.rooted rooted, alike.rooted rooted', rooted,
        rooted'] at ran ⊢
      refine alike.guarded ran fun ran => alike.guarded ran fun ran => ?_
      have valid := sound.valid
      have top := valid.top rooted
      have top' := valid.top rooted'
      obtain ⟨⟨entry, m₁⟩, looked, ran⟩ := Option.bind_eq_some_iff.mp ran
      obtain ⟨m₁', looked', alike₁, entries⟩ := valid.pageLookup_alike alike.pmap top looked
      obtain ⟨g₁, spec⟩ := valid.pageLookup_looked top rfl (.inl (by simp)) looked
      simp only [looked', Option.bind_eq_bind, Option.bind_some]
      cases entry with
      | none =>
        cases ran
        exact ⟨_, rfl, alike.setPmap alike₁⟩
      | some pair =>
        obtain ⟨page, slot⟩ := pair
        simp only [entries page slot rfl] at ran ⊢
        split at ran
        · rename_i readOnly
          cases ran
          exact ⟨_, if_pos readOnly, alike.setPmap alike₁⟩
        · rename_i fine
          rw [if_neg fine]
          obtain ⟨⟨code, m₂⟩, inserted, ended⟩ := Option.bind_eq_some_iff.mp ran
          obtain ⟨m₂', inserted', alike₂⟩ :=
            spec.valid.pageInsert_alike alike₁ (spec.grows.table top') inserted
          cases ended
          exact ⟨_, by simp only [inserted']; rfl, alike.setPmap alike₂⟩

theorem sysPageUnmap (live : k.Live c)
    {envid : EnvId} (ran : Jos.sysPageUnmap k c envid va = some (result, k₁)) :
    ∃ k₁', Jos.sysPageUnmap k' c envid va = some (result, k₁') ∧ k₁.Alike k₁' := by
  unfold Jos.sysPageUnmap at ran ⊢
  rw [alike.found sound live]
  cases found : Jos.envid2env k c envid true with
  | none =>
    rw [found] at ran
    cases ran
    exact ⟨k', rfl, alike⟩
  | some e =>
    obtain ⟨root, rooted⟩ := sound.envid2env_live live found
    simp only [found, alike.rooted rooted, rooted] at ran ⊢
    refine alike.guarded ran fun ran => ?_
    obtain ⟨m₁, removed, ended⟩ := Option.bind_eq_some_iff.mp ran
    obtain ⟨m₁', removed', alike₁⟩ := sound.valid.pageRemove_alike alike.pmap
      (sound.valid.top rooted) removed
    cases ended
    exact ⟨_, by simp only [removed']; rfl, alike.setPmap alike₁⟩

theorem envDestroy {root : Fin npages} (rooted : (k.envs e).envPml4e = some root)
    (clean : ¬ ((k.envs e).envStatus = .running ∧ c ≠ e) → Jos.Clean k.pmap root) {how : Destroyed}
    (ran : Jos.envDestroy k c e = some (how, k₁)) :
    ∃ k₁', Jos.envDestroy k' c e = some (how, k₁') ∧ k₁.Alike k₁' := by
  unfold Jos.envDestroy at ran ⊢
  rw [alike.rooted rooted]
  split at ran
  · rename_i elsewhere
    cases ran
    exact ⟨_, if_pos elsewhere, alike.setStatus e .dying⟩
  · rename_i here
    rw [if_neg here]
    obtain ⟨k₂, freed, ended⟩ := Option.bind_eq_some_iff.mp ran
    obtain ⟨k₂', freed', alike₂⟩ := alike.envFree sound rooted (clean here) freed
    cases ended
    exact ⟨k₂', by simp only [freed']; rfl, alike₂⟩

section

variable (live : k.Live c)

include live

theorem sysEnvDestroy
    {envid : EnvId} (orderly : OrderlyCall k c (.envDestroy envid)) {outcome : Outcome}
    (ran : Jos.sysEnvDestroy k c envid = some (outcome, k₁)) :
    ∃ k₁', Jos.sysEnvDestroy k' c envid = some (outcome, k₁') ∧ k₁.Alike k₁' := by
  unfold Jos.sysEnvDestroy at ran ⊢
  rw [alike.found sound live]
  cases found : Jos.envid2env k c envid true with
  | none =>
    rw [found] at ran
    cases ran
    exact ⟨k', rfl, alike⟩
  | some e =>
    obtain ⟨root, rooted⟩ := sound.envid2env_live live found
    rw [found] at ran
    obtain ⟨⟨how, k₂⟩, destroyed, ended⟩ := Option.bind_eq_some_iff.mp ran
    obtain ⟨k₂', destroyed', alike₂⟩ := alike.envDestroy sound rooted
      (fun here => orderly e found here root rooted) destroyed
    cases ended
    exact ⟨k₂', by simp only [destroyed']; rfl, alike₂⟩

theorem userMemAssert (clean : k.Clean c) {len : Nat} {perm : BitVec 12} {passed : Bool}
    (ran : Jos.userMemAssert k c va len perm = some (passed, k₁)) :
    ∃ k₁', Jos.userMemAssert k' c va len perm = some (passed, k₁') ∧ k₁.Alike k₁' := by
  obtain ⟨root, rooted⟩ := live.root
  obtain ⟨⟨allowed, m⟩, checked, after⟩ := Option.bind_eq_some_iff.mp ran
  rw [rooted] at checked
  obtain ⟨m', checked', alike₁⟩ := sound.valid.userMemCheckLoop_alike alike.pmap
    (sound.valid.top rooted) checked
  obtain ⟨g₁, walked, more⟩ := sound.userMemCheckLoop rooted checked
  have alikes := alike.setPmap alike₁
  have same : Jos.userMemCheck k'.pmap (some root) va len (perm ||| pteU) = some (allowed, m') :=
    checked'
  unfold Jos.userMemAssert
  simp only [alike.rooted rooted, rooted, same, Option.bind_eq_bind, Option.bind_some]
  cases allowed with
  | true =>
    cases after
    exact ⟨_, rfl, alikes⟩
  | false =>
    obtain ⟨⟨how, k₂⟩, destroyed, ended⟩ := Option.bind_eq_some_iff.mp after
    obtain ⟨k₂', destroyed', alike₂⟩ := alikes.envDestroy walked.sound rooted
      (fun _ => sound.clean_walks walked more clean root rooted) destroyed
    cases ended
    exact ⟨k₂', by simp only [destroyed']; rfl, alike₂⟩

theorem checkedCall (clean : k.Clean c) {len : Nat} {answer : Int} {outcome : Outcome}
    (ran : Jos.checkedCall k c va len answer = some (outcome, k₁)) :
    ∃ k₁', Jos.checkedCall k' c va len answer = some (outcome, k₁') ∧ k₁.Alike k₁' := by
  obtain ⟨⟨passed, k₂⟩, asserted, ended⟩ := Option.bind_eq_some_iff.mp ran
  cases ended
  obtain ⟨k₂', asserted', alike₂⟩ := alike.userMemAssert sound live clean asserted
  exact ⟨k₂', by unfold Jos.checkedCall; simp only [asserted']; rfl, alike₂⟩

theorem destroyCurenv
    (clean : k.Clean c) {exit : Exit} (ran : Jos.destroyCurenv k c = some (exit, k₁)) :
    ∃ k₁', Jos.destroyCurenv k' c = some (exit, k₁') ∧ k₁.Alike k₁' := by
  obtain ⟨root, rooted⟩ := live.root
  obtain ⟨⟨how, k₂⟩, destroyed, ended⟩ := Option.bind_eq_some_iff.mp ran
  cases ended
  obtain ⟨k₂', destroyed', alike₂⟩ := alike.envDestroy sound rooted
    (fun _ => clean root rooted) destroyed
  exact ⟨k₂', by unfold Jos.destroyCurenv; simp only [destroyed']; rfl, alike₂⟩

theorem translateIn (user : pml4 va ≠ pml4 uvpt) :
    k'.pmap.translateIn (k.envs c).envPml4e va = k.pmap.translateIn (k.envs c).envPml4e va := by
  obtain ⟨root, rooted⟩ := live.root
  have walked := sound.valid.translate_env rooted user
  have walked' := (alike.pmap.valid sound.valid).translate_env rooted user
  rw [rooted]
  refine walked'.trans (Eq.trans ?_ walked.symm)
  cases there : g.table ((Place.root (some c)).table va) with
  | none => rw [leafEntry_none there, leafEntry_none there]
  | some table =>
    rw [leafEntry_some there, leafEntry_some there, alike.pmap.at_placed sound.valid ⟨_, there⟩]

theorem pageFaultHandler
    (clean : k.Clean c) {exit : Exit} (ran : Jos.pageFaultHandler k c = some (exit, k₁)) :
    ∃ k₁', Jos.pageFaultHandler k' c = some (exit, k₁') ∧ k₁.Alike k₁' := by
  unfold Jos.pageFaultHandler at ran ⊢
  rw [alike.live c live]
  split at ran
  · rename_i unhandled
    rw [if_pos unhandled]
    exact alike.destroyCurenv sound live clean ran
  · rename_i handled
    obtain ⟨⟨passed, k₂⟩, asserted, ran⟩ := Option.bind_eq_some_iff.mp ran
    obtain ⟨k₂', asserted', alike₂⟩ := alike.userMemAssert sound live clean asserted
    obtain ⟨g₂, change, still, -⟩ := sound.userMemAssert live clean asserted
    rw [if_neg handled, asserted']
    simp only [Option.bind_eq_bind, Option.bind_some] at ran ⊢
    split at ran
    · rename_i failed
      cases ran
      exact ⟨k₂', if_pos failed, alike₂⟩
    · rename_i accepted
      rw [if_neg accepted]
      obtain ⟨clean₂, envs, -⟩ := still (by simpa using accepted)
      have live₂ : k₂.Live c := by
        rw [Kernel.Live, envs]
        exact live
      rw [alike₂.live c live₂]
      split at ran
      · rename_i overflow
        rw [if_pos overflow]
        exact alike₂.destroyCurenv change.sound live₂ clean₂ ran
      · rename_i fits
        rw [if_neg fits]
        obtain ⟨found, walked, ran⟩ := Option.bind_eq_some_iff.mp ran
        have low {rsp : Nat} : (if rsp < uxstackTop ∧ rsp > uxstackTop - pgSize then
            rsp - utrapframeSize - 8 else uxstackTop - utrapframeSize) < utop := by
          have top : uxstackTop ≤ utop := by decide
          have size : 0 < utrapframeSize ∧ utrapframeSize ≤ uxstackTop := by decide
          split <;> omega
        rw [alike₂.translateIn change.sound live₂ (Place.user_of_low low), walked, Option.bind_some]
        split at ran
        · rename_i writable
          cases ran
          exact ⟨_, if_pos writable, alike₂.setEnv c _⟩
        · cases ran

theorem sysExofork (blank : ∀ e, k.envFreeList = some e → (k.envs e).Blank ∧ (k'.envs e).Blank) :
    (Jos.sysExofork k' c).1 = (Jos.sysExofork k c).1 ∧
      (Jos.sysExofork k c).2.Alike (Jos.sysExofork k' c).2 := by
  have allocated := alike.envAlloc sound (k.envs c).envId blank
  unfold Jos.sysExofork
  rw [alike.live c live]
  cases ran : Jos.envAlloc k (k.envs c).envId with
  | error result =>
    rw [ran] at allocated
    have ran' : Jos.envAlloc k' (k.envs c).envId = .error result := allocated
    rw [ran']
    exact ⟨rfl, alike⟩
  | ok pair =>
    obtain ⟨e, k₂⟩ := pair
    rw [ran] at allocated
    obtain ⟨k₂', ran', alike₂, live₂⟩ := allocated
    obtain ⟨g₂, sound₂, spec⟩ := sound.envAlloc ran
    have still : k₂.Live c := by
      obtain ⟨root, envs, -⟩ := spec.envs
      rw [Kernel.Live, envs]
      by_cases here : c = e
      · subst here
        rw [Function.update_self]
        exact Option.some_ne_none root
      · rw [Function.update_of_ne here]
        exact live
    simp only [ran', alike₂.live e live₂, alike₂.live c still]
    exact ⟨trivial, alike₂.setEnv e _⟩

theorem ipcDeliver {dst : EnvIdx} (target : k.Live dst) {value perm : BitVec 32} {srcva : Nat}
    (ran : Jos.ipcDeliver k c dst value srcva perm = some (result, k₁)) :
    ∃ k₁', Jos.ipcDeliver k' c dst value srcva perm = some (result, k₁') ∧ k₁.Alike k₁' := by
  unfold Jos.ipcDeliver at ran ⊢
  simp only [setEnv_same, alike.live dst target, alike.live c live] at ran ⊢
  split at ran
  · rename_i page
    rw [if_pos page]
    have twice {n : Kernel npages} (env env' : Env npages) :
        (n.setEnv dst env).setEnv dst env' = n.setEnv dst env' := by
      simp [Kernel.setEnv]
    have space : SameSpace (k.envs dst) (receivedEnv (k.envs dst) (k.envs c).envId value perm) :=
      sameSpace_received
    have live₂ : (k.setEnv dst (receivedEnv (k.envs dst) (k.envs c).envId value perm)).Live c := by
      rw [Kernel.Live]
      by_cases here : c = dst
      · subst here
        rw [setEnv_same]
        exact fun gone => live (space.pml4e ▸ gone)
      · rw [setEnv_other here]
        exact live
    simp only [twice] at ran ⊢
    obtain ⟨⟨code, k₂⟩, mapped, ended⟩ := Option.bind_eq_some_iff.mp ran
    obtain ⟨k₂', mapped', alike₂⟩ :=
      (alike.setEnv dst (receivedEnv (k.envs dst) (k.envs c).envId value perm)).sysPageMap
        (sound.setEnv space) live₂ mapped
    have mapped' : Jos.sysPageMap (k'.setEnv dst { k.envs dst with
        envIpcRecving := false
        envIpcFrom := (k.envs c).envId
        envIpcValue := value
        envIpcPerm := perm }) c (k.envs c).envId srcva (k.envs dst).envId
          (k.envs dst).envIpcDstva perm = some (code, k₂') := mapped'
    simp only [mapped', Option.bind_eq_bind, Option.bind_some]
    split at ended
    · rename_i positive
      cases ended
      exact ⟨k₂', if_pos positive, alike₂⟩
    · rename_i other
      cases ended
      exact ⟨_, if_neg other, alike₂.setStatus dst .runnable⟩
  · rename_i plain
    cases ran
    exact ⟨_, if_neg plain, (alike.setEnv dst _).setStatus dst .runnable⟩

/-- The last checks of `sys_ipc_try_send`, on the entry of the page that is sent. -/
theorem sendChecked
    {dst : EnvIdx} (target : k.Live dst) {envid : EnvId} {value perm : BitVec 32} {srcva : Nat}
    {bad readOnly : Prop} [Decidable bad] [Decidable readOnly]
    (ran : (if bad then some (-eInval, k)
      else if readOnly then some (-eInval, k)
      else if envid = (k.envs c).envId then none
      else Jos.ipcDeliver k c dst value srcva perm) = some (result, k₁)) :
    ∃ k₁', (if bad then some (-eInval, k')
      else if readOnly then some (-eInval, k')
      else if envid = (k.envs c).envId then none
      else Jos.ipcDeliver k' c dst value srcva perm) = some (result, k₁') ∧ k₁.Alike k₁' := by
  refine alike.guarded ran fun ran => alike.guarded ran fun ran => ?_
  split at ran
  · cases ran
  · rename_i other
    rw [if_neg other]
    exact alike.ipcDeliver sound live target ran

theorem sysIpcTrySend {envid : EnvId} {value perm : BitVec 32} {srcva : Nat} {ambient : Ambient}
    (ran : Jos.sysIpcTrySend k c envid value srcva perm ambient = some (result, k₁)) :
    ∃ k₁', Jos.sysIpcTrySend k' c envid value srcva perm ambient = some (result, k₁') ∧
      k₁.Alike k₁' := by
  obtain ⟨root, rooted⟩ := live.root
  unfold Jos.sysIpcTrySend at ran ⊢
  dsimp only at ran ⊢
  rw [alike.found sound live]
  cases found : Jos.envid2env k c envid false with
  | none =>
    rw [found] at ran
    cases ran
    exact ⟨k', rfl, alike⟩
  | some dst =>
    have target : k.Live dst := sound.envid2env_root live found
    simp only [found, alike.live dst target, alike.live c live] at ran ⊢
    split at ran
    · rename_i deaf
      cases ran
      exact ⟨k', if_pos deaf, alike⟩
    rename_i waiting
    rw [if_neg waiting]
    have top := sound.valid.top rooted
    obtain ⟨⟨entry, m₁⟩, looked, ran⟩ := Option.bind_eq_some_iff.mp ran
    rw [rooted] at looked
    obtain ⟨m₁', looked', alike₁, entries⟩ := sound.valid.pageLookup_alike alike.pmap top looked
    obtain ⟨g₁, spec⟩ := sound.valid.pageLookup_looked top rfl (.inl (by simp)) looked
    have alikes := alike.setPmap alike₁
    have sound₁ : Sound managed (k.setPmap m₁) g₁ :=
      sound.setPmap spec.valid spec.grows.table spec.grows.boot
    simp only [rooted, looked', Option.bind_eq_bind, Option.bind_some]
    split at ran
    · rename_i absent
      cases ran
      exact ⟨_, if_pos absent, alikes⟩
    rename_i present
    rw [if_neg present]
    have cSame : (k'.setPmap m₁').envs c = (k.setPmap m₁).envs c := alike.live c live
    rw [cSame]
    cases entry with
    | none =>
      obtain ⟨pte, stale, ran⟩ := Option.bind_eq_some_iff.mp ran
      have stale : ambient.stalePte = some pte := stale
      simp only [stale, Option.bind_some]
      exact alikes.sendChecked sound₁ live target ran
    | some pair =>
      obtain ⟨page, slot⟩ := pair
      simp only [entries page slot rfl, Option.bind_some] at ran ⊢
      exact alikes.sendChecked sound₁ live target ran

theorem sysEnvSetTrapframe {envid : EnvId} {tf : Nat} {ambient : Ambient}
    (ran : Jos.sysEnvSetTrapframe k c envid tf ambient = some (result, k₁)) :
    ∃ k₁', Jos.sysEnvSetTrapframe k' c envid tf ambient = some (result, k₁') ∧ k₁.Alike k₁' := by
  obtain ⟨root, rooted⟩ := live.root
  have low : k'.pmap.translateIn (k.envs c).envPml4e 0 =
      k.pmap.translateIn (k.envs c).envPml4e 0 := by
    have user : pml4 0 ≠ pml4 uvpt := by decide
    rw [rooted]
    change k'.pmap.translate root 0 = k.pmap.translate root 0
    rw [sound.valid.translate_env rooted user,
      (alike.pmap.valid sound.valid).translate_env rooted user]
    cases there : g.table ((Place.root (some c)).table 0) with
    | none => rw [leafEntry_none there, leafEntry_none there]
    | some page =>
      rw [leafEntry_some there, leafEntry_some there,
        alike.pmap.at_placed sound.valid ⟨_, there⟩]
  unfold Jos.sysEnvSetTrapframe at ran ⊢
  rw [alike.found sound live, alike.live c live, low]
  split at ran
  · rename_i null
    cases ran
    exact ⟨k', if_pos null, alike⟩
  rename_i pointer
  rw [if_neg pointer]
  cases user : ambient.userTf with
  | none =>
    rw [user] at ran
    cases ran
  | some frame =>
    cases found : Jos.envid2env k c envid true with
    | none =>
      simp only [user, found] at ran ⊢
      cases stored : k.pmap.translateIn (k.envs c).envPml4e 0 with
      | none =>
        rw [stored] at ran
        cases ran
      | some page =>
        simp only [stored] at ran ⊢
        split at ran
        · rename_i writable
          cases ran
          exact ⟨k', if_pos writable, alike⟩
        · cases ran
    | some e =>
      simp only [user, found] at ran ⊢
      cases ran
      have target : k.Live e := sound.envid2env_root live found
      rw [alike.live e target]
      exact ⟨_, rfl, alike.setEnv e _⟩

theorem sysEnvSetStatus (envid : EnvId) (status : BitVec 32) :
    (Jos.sysEnvSetStatus k' c envid status).1 = (Jos.sysEnvSetStatus k c envid status).1 ∧
      (Jos.sysEnvSetStatus k c envid status).2.Alike (Jos.sysEnvSetStatus k' c envid status).2 := by
  unfold Jos.sysEnvSetStatus
  rw [alike.found sound live]
  cases Jos.envid2env k c envid true with
  | none => exact ⟨rfl, alike⟩
  | some e =>
    dsimp only
    split
    · exact ⟨rfl, alike⟩
    · exact ⟨rfl, alike.setStatus e _⟩

theorem sysEnvSetPgfaultUpcall (envid : EnvId) (func : BitVec 64) :
    (Jos.sysEnvSetPgfaultUpcall k' c envid func).1 = (Jos.sysEnvSetPgfaultUpcall k c envid func).1 ∧
      (Jos.sysEnvSetPgfaultUpcall k c envid func).2.Alike
        (Jos.sysEnvSetPgfaultUpcall k' c envid func).2 := by
  unfold Jos.sysEnvSetPgfaultUpcall
  rw [alike.found sound live]
  cases found : Jos.envid2env k c envid true with
  | none => exact ⟨rfl, alike⟩
  | some e =>
    have target : k.Live e := sound.envid2env_root live found
    dsimp only
    rw [alike.live e target]
    exact ⟨rfl, alike.setEnv e _⟩

end

end

theorem sysIpcRecv (live : k.Live c) (dstva : Nat) :
    (Jos.sysIpcRecv k' c dstva).1 = (Jos.sysIpcRecv k c dstva).1 ∧
      (Jos.sysIpcRecv k c dstva).2.Alike (Jos.sysIpcRecv k' c dstva).2 := by
  unfold Jos.sysIpcRecv
  rw [alike.live c live]
  split
  · exact ⟨rfl, alike⟩
  · exact ⟨rfl, alike.setEnv c _⟩

end

end Kernel.Alike

/-- The page that `sys_page_alloc` maps without clearing it is clear already, and so
are the fields of the slot that `env_alloc` does not set. -/
def Clears (k : Kernel npages) : Syscall → Prop
  | .pageAlloc .. => ∀ page, k.pmap.pageFreeList = some page → k.pmap.mem page = fun _ => 0
  | .exofork => ∀ e, k.envFreeList = some e → (k.envs e).Blank
  | _ => True

theorem Kernel.Alike.syscall (alike : k.Alike k') (sound : Sound managed k g) (live : k.Live c)
    {ambient : Ambient} {call : Syscall} {outcome : Outcome} (orderly : OrderlyCall k c call)
    (clears : Clears k call) (clears' : Clears k' call)
    (ran : Jos.syscall k c ambient call = some (outcome, k₁)) :
    ∃ k₁', Jos.syscall k' c ambient call = some (outcome, k₁') ∧ k₁.Alike k₁' := by
  have returned {result result' : Option (Int × Kernel npages)}
      (ran : returning result = some (outcome, k₁))
      (same : ∀ value, result = some (value, k₁) →
        ∃ k₁', result' = some (value, k₁') ∧ k₁.Alike k₁') :
      ∃ k₁', returning result' = some (outcome, k₁') ∧ k₁.Alike k₁' := by
    obtain ⟨⟨value, k₂⟩, here, ended⟩ := Option.map_eq_some_iff.mp ran
    cases ended
    obtain ⟨k₁', here', alike₁⟩ := same value here
    exact ⟨k₁', by rw [here']; rfl, alike₁⟩
  have direct {pair pair' : Int × Kernel npages}
      (ran : returning (some pair) = some (outcome, k₁))
      (same : pair'.1 = pair.1 ∧ pair.2.Alike pair'.2) :
      ∃ k₁', returning (some pair') = some (outcome, k₁') ∧ k₁.Alike k₁' := by
    cases ran
    exact ⟨pair'.2, by rw [← same.1]; rfl, same.2⟩
  have still {value : Outcome} (ran : some (value, k) = some (outcome, k₁)) :
      ∃ k₁', some (value, k') = some (outcome, k₁') ∧ k₁.Alike k₁' := by
    cases ran
    exact ⟨k', rfl, alike⟩
  cases call with
  | cputs s len => exact alike.checkedCall sound live orderly ran
  | netTx buf size => exact alike.checkedCall sound live orderly ran
  | netRx buf => exact alike.checkedCall sound live orderly ran
  | cgetc => exact still ran
  | timeMsec => exact still ran
  | noSys => exact still ran
  | yield => exact still ran
  | getenvid =>
    simp only [Jos.syscall, sysGetenvid, alike.live c live] at ran ⊢
    exact still ran
  | envDestroy envid => exact alike.sysEnvDestroy sound live orderly ran
  | pageAlloc envid va perm =>
    refine returned ran fun value here => alike.sysPageAlloc sound live (fun page head => ?_) here
    rw [clears page head, clears' page (alike.pmap.list.trans head)]
  | pageMap srcenvid srcva dstenvid dstva perm =>
    exact returned ran fun value here => alike.sysPageMap sound live here
  | pageUnmap envid va => exact returned ran fun value here => alike.sysPageUnmap sound live here
  | exofork =>
    exact direct ran (alike.sysExofork sound live fun e head =>
      ⟨clears e head, clears' e (alike.list.trans head)⟩)
  | envSetStatus envid status => exact direct ran (alike.sysEnvSetStatus sound live envid status)
  | envSetTrapframe envid tf =>
    exact returned ran fun value here => alike.sysEnvSetTrapframe sound live here
  | envSetPgfaultUpcall envid func =>
    exact direct ran (alike.sysEnvSetPgfaultUpcall sound live envid func)
  | ipcTrySend envid value srcva perm =>
    exact returned ran fun value here => alike.sysIpcTrySend sound live here
  | ipcRecv dstva =>
    obtain ⟨same, alike₁⟩ := alike.sysIpcRecv live dstva
    have ran : Jos.sysIpcRecv k c dstva = (outcome, k₁) := Option.some.inj ran
    rw [ran] at same alike₁
    exact ⟨(Jos.sysIpcRecv k' c dstva).2, congrArg some (Prod.ext same rfl), alike₁⟩

end Jos
