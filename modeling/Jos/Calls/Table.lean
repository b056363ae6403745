import Jos.Environment.Table
import Jos.Calls.Environment

/-! The table of environments over all events of the kernel, whatever happens to
the memory. -/

set_option autoImplicit false

namespace Jos

open Function

variable {npages : Nat} {k k' : Kernel npages} {c e : EnvIdx}

/-- The free slots are on the list, and environments are in slots that are not
marked free, under an identifier that names the slot. -/
structure Kernel.Tabled (k : Kernel npages) : Prop where
  listed : k.Listed
  busy : ∀ {e}, k.Live e → (k.envs e).envStatus ≠ .free
  ids : ∀ {e}, k.Live e → 0 < (k.envs e).envId.toInt ∧ envx (k.envs e).envId = e

theorem destroyCurenv_free {exit : Exit} (ran : destroyCurenv k c = some (exit, k')) :
    exit = .toSchedAfterExit ∧ envFree k c = some k' := by
  simp only [destroyCurenv, Option.bind_eq_bind, Option.bind_eq_some_iff] at ran
  obtain ⟨⟨destroyed, k₂⟩, destroyed, same⟩ := ran
  cases same
  rcases envDestroy_cases destroyed with ⟨-, differs, -⟩ | ⟨-, freed, -⟩
  · exact absurd rfl differs
  · exact ⟨rfl, freed⟩

/-- A fault ends the environment, or sends it to its handler: it changes the
program counter and the stack pointer only. -/
theorem pageFaultHandler_spec {exit : Exit}
    (ran : pageFaultHandler k c = some (exit, k')) :
    ∃ m, (exit = .toSchedAfterExit ∧ envFree (k.setPmap m) c = some k') ∨
      exit = .toUser ∧ ∃ rip rsp, k' = (k.setPmap m).setEnv c { k.envs c with
        envTf := { (k.envs c).envTf with tfRip := rip, tfRsp := rsp } } := by
  unfold pageFaultHandler at ran
  split at ran
  · exact ⟨k.pmap, .inl (destroyCurenv_free ran)⟩
  · simp only [Option.bind_eq_bind, Option.bind_eq_some_iff] at ran
    obtain ⟨⟨passed, k₁⟩, asserted, ran⟩ := ran
    obtain ⟨m, -, after⟩ := userMemAssert_cases asserted
    refine ⟨m, ?_⟩
    cases passed with
    | false =>
      simp only [Bool.false_eq_true, not_false_eq_true, if_true] at ran
      cases ran
      exact .inl ⟨rfl, after⟩
    | true =>
      simp only [if_true] at after
      subst after
      simp only [not_true_eq_false, if_false] at ran
      split at ran
      · exact .inl (destroyCurenv_free ran)
      · obtain ⟨found, -, ran⟩ := Option.bind_eq_some_iff.mp ran
        split at ran
        · obtain ⟨rfl, rfl⟩ := Prod.mk.inj (Option.some.inj ran)
          exact .inr ⟨rfl, _, _, rfl⟩
        · cases ran

theorem pageFaultHandler_cases {exit : Exit}
    (ran : pageFaultHandler k c = some (exit, k')) :
    ∃ m, (exit = .toSchedAfterExit ∧ envFree (k.setPmap m) c = some k') ∨
      exit = .toUser ∧ ∃ tf, k' = (k.setPmap m).setEnv c { k.envs c with envTf := tf } := by
  obtain ⟨m, ended | ⟨user, rip, rsp, after⟩⟩ := pageFaultHandler_spec ran
  · exact ⟨m, .inl ended⟩
  · exact ⟨m, .inr ⟨user, _, after⟩⟩

/-- The trap frame of an environment that `env_create` has made. -/
def createdTf (tf : Trapframe) (binary : Binary) (type : EnvType) : Trapframe :=
  { tf with
    tfEflags := if type = .fs then tf.tfEflags ||| flIoplMask else tf.tfEflags
    tfRip := binary.entry }

theorem envCreate_spec {binary : Binary} {type : EnvType}
    (ran : envCreate k binary type = some k') :
    ∃ e k₁ m, envAlloc k 0 = .ok (e, k₁) ∧ k' = (k₁.setPmap m).setEnv e
      { k₁.envs e with
        envType := type
        envTf := createdTf (k₁.envs e).envTf binary type } := by
  unfold envCreate at ran
  split at ran
  · cases ran
  · rename_i e k₁ allocated
    simp only at ran
    generalize typed : (if type = .fs then
      { { k₁.envs e with envType := type } with
        envTf := { (k₁.envs e).envTf with
          tfEflags := (k₁.envs e).envTf.tfEflags ||| flIoplMask } }
      else { k₁.envs e with envType := type }) = env at ran
    have fields : env = { k₁.envs e with
        envType := type
        envTf := { (k₁.envs e).envTf with
          tfEflags := if type = .fs then (k₁.envs e).envTf.tfEflags ||| flIoplMask
            else (k₁.envs e).envTf.tfEflags } } := by
      subst typed
      split <;> rfl
    clear typed
    subst fields
    simp only [loadIcode, Option.bind_eq_bind, Option.bind_eq_some_iff] at ran
    obtain ⟨m₁, -, m, -, same⟩ := ran
    cases same
    refine ⟨e, k₁, m, allocated, ?_⟩
    simp [Kernel.setEnv, Kernel.setPmap, update_idem, createdTf]

theorem envCreate_cases {binary : Binary} {type : EnvType}
    (ran : envCreate k binary type = some k') :
    ∃ e k₁ m tf, envAlloc k 0 = .ok (e, k₁) ∧
      k' = (k₁.setPmap m).setEnv e { k₁.envs e with envType := type, envTf := tf } := by
  obtain ⟨e, k₁, m, allocated, after⟩ := envCreate_spec ran
  exact ⟨e, k₁, m, _, allocated, after⟩

theorem sameSpace_setEnv {env : Env npages} (same : SameSpace (k.envs e) env) (slot : EnvIdx) :
    SameSpace (k.envs slot) ((k.setEnv e env).envs slot) := by
  by_cases differs : slot = e
  · subst differs
    simpa [Kernel.setEnv] using same
  · have other : (k.setEnv e env).envs slot = k.envs slot := update_of_ne differs _ _
    rw [other]
    exact ⟨rfl, rfl, rfl, rfl, fun _ => rfl⟩

namespace Kernel.Listed

theorem setPmap (listed : k.Listed) (m : Pmap npages) : (k.setPmap m).Listed :=
  ⟨listed.slots, listed.idle⟩

theorem setEnv (listed : k.Listed) {env : Env npages} (same : SameSpace (k.envs e) env) :
    (k.setEnv e env).Listed := by
  have space := sameSpace_setEnv same
  refine ⟨?_, fun {slot} absent => ?_⟩
  · obtain ⟨slots, chain, members⟩ := listed.slots
    exact ⟨slots, chain.congr fun slot _ => (space slot).link,
      fun slot => by rw [members slot, (space slot).pml4e]⟩
  · rw [(space slot).pml4e] at absent
    rw [(space slot).idle absent]
    exact listed.idle absent

theorem envid2env_live (listed : k.Listed) (live : k.Live c) {envid : EnvId} {checkperm : Bool}
    (found : envid2env k c envid checkperm = some e) : k.Live e := by
  unfold envid2env at found
  split at found
  · obtain rfl := Option.some.inj found
    exact live
  · simp only at found
    split at found
    · cases found
    · rename_i used
      split at found
      · cases found
      · obtain rfl := Option.some.inj found
        exact fun absent => used (.inl (listed.idle absent))

theorem effect (listed : k.Listed) (live : k.Live c) {call : Syscall} {outcome : Outcome}
    (effect : Effect k c k' call outcome) : k'.Listed := by
  have present {e : EnvIdx} (there : k.Live e) {env : Env npages} {status : EnvStatus}
      (absent : (k.envs e).envPml4e = none) : env.envStatus = status := absurd absent there
  cases effect with
  | memory same =>
    subst same
    exact listed.setPmap _
  | yield same =>
    subst same
    exact listed
  | recv _ same =>
    subst same
    exact listed.setEnv ⟨rfl, rfl, rfl, rfl, present live⟩
  | send found _ _ same =>
    subst same
    have there := listed.envid2env_live live found
    exact (listed.setPmap _).setEnv ⟨rfl, rfl, rfl, rfl, present there⟩
  | @exofork e k₁ allocated same =>
    subst same
    obtain ⟨-, -, root, envs⟩ := envAlloc_envs allocated
    have there : k₁.Live e := by
      rw [Kernel.Live, envs, update_self]
      exact Option.some_ne_none root
    exact (listed.alloc allocated).1.setEnv
      ⟨rfl, rfl, rfl, rfl, fun absent => absurd absent there⟩
  | setStatus found _ _ same =>
    subst same
    exact listed.setEnv ⟨rfl, rfl, rfl, rfl, present (listed.envid2env_live live found)⟩
  | setTrapframe found same =>
    subst same
    exact listed.setEnv ⟨rfl, rfl, rfl, rfl, fun _ => rfl⟩
  | setUpcall found same =>
    subst same
    exact listed.setEnv ⟨rfl, rfl, rfl, rfl, fun _ => rfl⟩
  | dying found _ _ same =>
    subst same
    exact listed.setEnv ⟨rfl, rfl, rfl, rfl, present (listed.envid2env_live live found)⟩
  | destroy _ _ freed => exact listed.free freed
  | denied _ freed => exact (listed.setPmap _).free freed

end Kernel.Listed

namespace Kernel.Tabled

theorem init (k : Kernel npages) : (envInit k).Tabled where
  listed := .init k
  busy := fun live => absurd rfl live
  ids := fun live => absurd rfl live

theorem setPmap (tabled : k.Tabled) (m : Pmap npages) : (k.setPmap m).Tabled :=
  ⟨tabled.listed.setPmap m, tabled.busy, tabled.ids⟩

theorem setEnv (tabled : k.Tabled) {env : Env npages} (same : SameSpace (k.envs e) env)
    (busy : k.Live e → env.envStatus ≠ .free) : (k.setEnv e env).Tabled := by
  have space := sameSpace_setEnv same
  refine ⟨tabled.listed.setEnv same, fun {slot} live => ?_, fun {slot} live => ?_⟩
  · rw [Kernel.Live, (space slot).pml4e] at live
    by_cases differs : slot = e
    · subst differs
      simpa [Kernel.setEnv] using busy live
    · have other : (k.setEnv e env).envs slot = k.envs slot := update_of_ne differs _ _
      rw [other]
      exact tabled.busy live
  · rw [Kernel.Live, (space slot).pml4e] at live
    rw [(space slot).id]
    exact tabled.ids live

theorem alloc (tabled : k.Tabled) {parentId : EnvId} (ran : envAlloc k parentId = .ok (e, k')) :
    k'.Tabled := by
  obtain ⟨-, -, root, envs⟩ := envAlloc_envs ran
  refine ⟨(tabled.listed.alloc ran).1, fun {slot} live => ?_, fun {slot} live => ?_⟩
  · rw [envs]
    by_cases same : slot = e
    · subst same
      rw [update_self]
      exact nofun
    · rw [Kernel.Live, envs, update_of_ne same] at live
      rw [update_of_ne same]
      exact tabled.busy live
  · rw [envs]
    by_cases same : slot = e
    · subst same
      rw [update_self]
      exact nextEnvId_spec _ slot
    · rw [Kernel.Live, envs, update_of_ne same] at live
      rw [update_of_ne same]
      exact tabled.ids live

theorem free (tabled : k.Tabled) (ran : envFree k e = some k') : k'.Tabled := by
  obtain ⟨-, -, envs⟩ := envFree_envs ran
  have left {slot : EnvIdx} (live : k'.Live slot) : k.Live slot ∧ k'.envs slot = k.envs slot := by
    rw [Kernel.Live, envs] at live
    by_cases same : slot = e
    · subst same
      rw [update_self] at live
      exact absurd rfl live
    · rw [update_of_ne same] at live
      rw [envs, update_of_ne same]
      exact ⟨live, rfl⟩
  refine ⟨tabled.listed.free ran, fun live => ?_, fun live => ?_⟩
  · rw [(left live).2]
    exact tabled.busy (left live).1
  · rw [(left live).2]
    exact tabled.ids (left live).1

end Kernel.Tabled

def KeepsStatus (k : Kernel npages) : KernelEvent → Prop
  | .call c _ (.envSetStatus envid status) => envid2env k c envid true = none ∨ status ≠ 0
  | _ => True

theorem Kernel.Tabled.effect (tabled : k.Tabled) (live : k.Live c) {ambient : Ambient}
    {call : Syscall} {outcome : Outcome} (keeps : KeepsStatus k (.call c ambient call))
    (effect : Effect k c k' call outcome) : k'.Tabled := by
  cases effect with
  | memory same =>
    subst same
    exact tabled.setPmap _
  | yield same =>
    subst same
    exact tabled
  | recv _ same =>
    subst same
    exact tabled.setEnv ⟨rfl, rfl, rfl, rfl, fun absent => absurd absent live⟩ fun _ => by rintro ⟨⟩
  | send found _ _ same =>
    subst same
    have there := tabled.listed.envid2env_live live found
    exact (tabled.setPmap _).setEnv ⟨rfl, rfl, rfl, rfl, fun absent => absurd absent there⟩
      fun _ => by rintro ⟨⟩
  | @exofork e k₁ allocated same =>
    subst same
    obtain ⟨-, -, root, envs⟩ := envAlloc_envs allocated
    have there : k₁.Live e := by
      rw [Kernel.Live, envs, update_self]
      exact Option.some_ne_none root
    exact (tabled.alloc allocated).setEnv
      ⟨rfl, rfl, rfl, rfl, fun absent => absurd absent there⟩ fun _ => by rintro ⟨⟩
  | @setStatus envid status e found low high same =>
    subst same
    have there := tabled.listed.envid2env_live live found
    refine tabled.setEnv ⟨rfl, rfl, rfl, rfl, fun absent => absurd absent there⟩ fun _ => ?_
    have nonzero : status ≠ 0 := keeps.resolve_left (by rw [found]; exact Option.some_ne_none e)
    have positive : status.toNat ≠ 0 := fun zero => nonzero (BitVec.eq_of_toNat_eq zero)
    obtain ⟨code, coded⟩ := Nat.exists_eq_succ_of_ne_zero positive
    rw [coded]
    change EnvStatus.ofCode (code + 1) ≠ .free
    unfold EnvStatus.ofCode
    split <;> first | contradiction | exact by simp
  | setTrapframe found same =>
    subst same
    exact tabled.setEnv ⟨rfl, rfl, rfl, rfl, fun _ => rfl⟩ tabled.busy
  | setUpcall found same =>
    subst same
    exact tabled.setEnv ⟨rfl, rfl, rfl, rfl, fun _ => rfl⟩ tabled.busy
  | dying found _ _ same =>
    subst same
    have there := tabled.listed.envid2env_live live found
    exact tabled.setEnv ⟨rfl, rfl, rfl, rfl, fun absent => absurd absent there⟩ fun _ => by simp
  | destroy _ _ freed => exact tabled.free freed
  | denied _ freed => exact (tabled.setPmap _).free freed

theorem Kernel.Listed.envSwitch (listed : k.Listed) {curenv : Option EnvIdx} {cpu : Nat}
    (ready : curenv = some e ∨ (k.envs e).envStatus = .runnable) :
    (Jos.envSwitch k curenv cpu e).Listed := by
  have pop {k₁ : Kernel npages} (listed : k₁.Listed) : (popTf k₁ cpu e).Listed :=
    listed.setEnv ⟨rfl, rfl, rfl, rfl, fun _ => rfl⟩
  have used {k₁ : Kernel npages} (listed : k₁.Listed) {slot : EnvIdx}
      (used : (k₁.envs slot).envStatus ≠ .free) (status : EnvStatus) :
      (k₁.setStatus slot status).Listed :=
    listed.setEnv ⟨rfl, rfl, rfl, rfl, fun absent => absurd (listed.idle absent) used⟩
  unfold Jos.envSwitch
  split
  · exact pop listed
  · rename_i differs
    have runnable := ready.resolve_left differs
    refine pop ?_
    cases curenv with
    | none => exact used listed (by rw [runnable]; exact nofun) _
    | some old =>
      simp only
      split
      · rename_i running
        have other : e ≠ old := fun same => differs (same ▸ rfl)
        have still : ((k.setStatus old .runnable).envs e).envStatus = .runnable := by
          have kept : (k.setStatus old .runnable).envs e = k.envs e :=
            update_of_ne other _ _
          rw [kept, runnable]
        exact used (used listed (by rw [running]; exact nofun) _) (by rw [still]; exact nofun) _
      · exact used listed (by rw [runnable]; exact nofun) _

theorem Kernel.Tabled.popTf (tabled : k.Tabled) (cpu : Nat) : (popTf k cpu e).Tabled :=
  tabled.setEnv ⟨rfl, rfl, rfl, rfl, fun _ => rfl⟩ tabled.busy

theorem Kernel.Tabled.envSwitch (tabled : k.Tabled) {curenv : Option EnvIdx} {cpu : Nat}
    (ready : curenv = some e ∨ (k.envs e).envStatus = .runnable) :
    (Jos.envSwitch k curenv cpu e).Tabled := by
  unfold Jos.envSwitch
  split
  · exact tabled.popTf cpu
  · rename_i differs
    have live : k.Live e := fun absent => by
      have idle := tabled.listed.idle absent
      rw [ready.resolve_left differs] at idle
      cases idle
    refine Kernel.Tabled.popTf ?_ cpu
    cases curenv with
    | none => exact tabled.setEnv ⟨rfl, rfl, rfl, rfl, fun absent => absurd absent live⟩ fun _ => by simp
    | some old =>
      simp only
      split
      · rename_i running
        have there : k.Live old := fun absent => by
          rw [tabled.listed.idle absent] at running
          cases running
        have stopped : (k.setStatus old .runnable).Tabled :=
          tabled.setEnv ⟨rfl, rfl, rfl, rfl, fun absent => absurd absent there⟩ fun _ => by simp
        have live' : (k.setStatus old .runnable).Live e := by
          have other : e ≠ old := fun same => differs (same ▸ rfl)
          simpa [Kernel.Live, Kernel.setStatus, Kernel.setEnv, update_of_ne other]
            using live
        exact stopped.setEnv ⟨rfl, rfl, rfl, rfl, fun absent => absurd absent live'⟩
          fun _ => by simp
      · exact tabled.setEnv ⟨rfl, rfl, rfl, rfl, fun absent => absurd absent live⟩ fun _ => by simp

theorem Kernel.Listed.step (listed : k.Listed) {event : KernelEvent}
    (ran : kernelStep k event = some k') : k'.Listed := by
  cases event with
  | create binary type =>
    obtain ⟨e, k₁, m, tf, allocated, rfl⟩ := envCreate_cases ran
    exact ((listed.alloc allocated).1.setPmap m).setEnv ⟨rfl, rfl, rfl, rfl, fun _ => rfl⟩
  | alloc parentId =>
    rcases kernelStep_alloc ran with rfl | ⟨e, allocated⟩
    · exact listed
    · exact (listed.alloc allocated).1
  | free e => exact listed.free ran
  | call c ambient call =>
    obtain ⟨live, outcome, called⟩ := kernelStep_call ran
    exact listed.effect live (syscall_effect called)
  | fault c =>
    obtain ⟨-, exit, handled⟩ := kernelStep_fault ran
    obtain ⟨m, ⟨-, freed⟩ | ⟨-, tf, rfl⟩⟩ := pageFaultHandler_cases handled
    · exact (listed.setPmap m).free freed
    · exact (listed.setPmap m).setEnv ⟨rfl, rfl, rfl, rfl, fun _ => rfl⟩
  | frame e tf =>
    cases ran
    exact listed.setEnv ⟨rfl, rfl, rfl, rfl, fun _ => rfl⟩
  | run curenv cpu e =>
    obtain ⟨ready, rfl⟩ := kernelStep_run ran
    exact listed.envSwitch ready

theorem Kernel.Tabled.step (tabled : k.Tabled) {event : KernelEvent} (keeps : KeepsStatus k event)
    (ran : kernelStep k event = some k') : k'.Tabled := by
  cases event with
  | create binary type =>
    obtain ⟨e, k₁, m, tf, allocated, rfl⟩ := envCreate_cases ran
    have after := (tabled.alloc allocated).setPmap m
    exact after.setEnv ⟨rfl, rfl, rfl, rfl, fun _ => rfl⟩ after.busy
  | alloc parentId =>
    rcases kernelStep_alloc ran with rfl | ⟨e, allocated⟩
    · exact tabled
    · exact tabled.alloc allocated
  | free e => exact tabled.free ran
  | call c ambient call =>
    obtain ⟨live, outcome, called⟩ := kernelStep_call ran
    exact tabled.effect live keeps (syscall_effect called)
  | fault c =>
    obtain ⟨-, exit, handled⟩ := kernelStep_fault ran
    obtain ⟨m, ⟨-, freed⟩ | ⟨-, tf, rfl⟩⟩ := pageFaultHandler_cases handled
    · exact (tabled.setPmap m).free freed
    · exact (tabled.setPmap m).setEnv ⟨rfl, rfl, rfl, rfl, fun _ => rfl⟩ tabled.busy
  | frame e tf =>
    cases ran
    exact tabled.setEnv ⟨rfl, rfl, rfl, rfl, fun _ => rfl⟩ tabled.busy
  | run curenv cpu e =>
    obtain ⟨ready, rfl⟩ := kernelStep_run ran
    exact tabled.envSwitch ready

end Jos
