import Jos.Kern.Event

/-! What each system call does to the environment table, said once for all later
use. Nothing here depends on the memory being well formed. -/

set_option autoImplicit false

namespace Jos

open Function

variable {npages : Nat} {k k' : Kernel npages} {c : EnvIdx} {envid : EnvId} {outcome : Outcome}

/-- The record of an environment that has begun to wait for a message. -/
def waitingEnv (env : Env npages) (dstva : Nat) : Env npages :=
  { env with
    envIpcDstva := if dstva < utop then dstva else env.envIpcDstva
    envIpcRecving := true
    envStatus := .notRunnable
    envTf := { env.envTf with tfRegs := { env.envTf.tfRegs with regRax := 0 } } }

def deliveredEnv (env : Env npages) (sender : EnvId) (value : BitVec 32)
    (perm : Option (BitVec 32)) : Env npages :=
  { env with
    envIpcRecving := false
    envIpcFrom := sender
    envIpcValue := value
    envIpcPerm := perm.getD env.envIpcPerm
    envStatus := .runnable }

/-- The record of a child of `sys_exofork`. -/
def forkedEnv (env : Env npages) (tf : Trapframe) : Env npages :=
  { env with
    envStatus := .notRunnable
    envTf := { tf with tfRegs := { tf.tfRegs with regRax := 0 } } }

/-- A page is sent along: both the sender and the receiver have given an address. -/
def SendsPage (k : Kernel npages) (dst : EnvIdx) (srcva : Nat) : Prop :=
  srcva < utop ∧ (k.envs dst).envIpcDstva < utop

instance (k : Kernel npages) (dst : EnvIdx) (srcva : Nat) : Decidable (SendsPage k dst srcva) :=
  inferInstanceAs (Decidable (_ ∧ _))

def Syscall.checks : Syscall → Bool
  | .cputs .. | .netTx .. | .netRx .. => true
  | _ => false

def Syscall.sends : Syscall → Bool
  | .ipcTrySend .. => true
  | _ => false

def Syscall.walks : Syscall → Bool
  | .cputs .. | .netTx .. | .netRx .. | .pageAlloc .. | .pageMap .. | .pageUnmap .. |
    .ipcTrySend .. => true
  | _ => false

/-- The state after a call of `c`, by its outcome. -/
inductive Effect (k : Kernel npages) (c : EnvIdx) (k' : Kernel npages) :
    Syscall → Outcome → Prop where
  /-- At most the memory has changed. -/
  | memory {call : Syscall} {value : Int} {m : Pmap npages} :
      k' = k.setPmap m → (call.sends = true → value < 0) → (call.walks = false → m = k.pmap) →
      Effect k c k' call (.returns value)
  | yield : k' = k → Effect k c k' .yield .yields
  | recv {dstva : Nat} : (dstva < utop → dstva % pgSize = 0) →
      k' = k.setEnv c (waitingEnv (k.envs c) dstva) → Effect k c k' (.ipcRecv dstva) .yields
  | send {envid : EnvId} {value : BitVec 32} {srcva : Nat} {perm : BitVec 32} {dst : EnvIdx}
      {m : Pmap npages} :
      envid2env k c envid false = some dst → (k.envs dst).envIpcRecving = true →
      envid ≠ (k.envs c).envId →
      k' = (k.setPmap m).setEnv dst (deliveredEnv (k.envs dst) (k.envs c).envId value
        (if SendsPage k dst srcva then some (perm ||| pteP.setWidth 32) else none)) →
      Effect k c k' (.ipcTrySend envid value srcva perm) (.returns 0)
  | exofork {e : EnvIdx} {k₁ : Kernel npages} :
      envAlloc k (k.envs c).envId = .ok (e, k₁) →
      k' = k₁.setEnv e (forkedEnv (k₁.envs e) (k₁.envs c).envTf) →
      Effect k c k' .exofork (.returns (k₁.envs e).envId.toInt)
  | setStatus {envid : EnvId} {status : BitVec 32} {e : EnvIdx} :
      envid2env k c envid true = some e → 0 ≤ status.toInt → status.toInt ≤ 4 →
      k' = k.setStatus e (EnvStatus.ofCode status.toNat) →
      Effect k c k' (.envSetStatus envid status) (.returns 0)
  | setTrapframe {envid : EnvId} {tf : Nat} {frame : Trapframe} {e : EnvIdx} :
      envid2env k c envid true = some e →
      k' = k.setEnv e { k.envs e with
        envTf := { frame with
          tfCs := frame.tfCs ||| 3
          tfEflags := frame.tfEflags ||| flIf } } →
      Effect k c k' (.envSetTrapframe envid tf) (.returns 0)
  | setUpcall {envid : EnvId} {func : BitVec 64} {e : EnvIdx} :
      envid2env k c envid true = some e →
      k' = k.setEnv e { k.envs e with envPgfaultUpcall := func } →
      Effect k c k' (.envSetPgfaultUpcall envid func) (.returns 0)
  | dying {envid : EnvId} {e : EnvIdx} :
      envid2env k c envid true = some e → (k.envs e).envStatus = .running → c ≠ e →
      k' = k.setStatus e .dying → Effect k c k' (.envDestroy envid) (.returns 0)
  | destroy {envid : EnvId} {e : EnvIdx} :
      envid2env k c envid true = some e → ¬ ((k.envs e).envStatus = .running ∧ c ≠ e) →
      envFree k e = some k' →
      Effect k c k' (.envDestroy envid) (if c = e then .exits else .returns 0)
  /-- The buffer may not be accessed. -/
  | denied {call : Syscall} {m : Pmap npages} : call.checks = true →
      envFree (k.setPmap m) c = some k' → Effect k c k' call .exits

theorem Kernel.setPmap_self : k.setPmap k.pmap = k := rfl

theorem pageInsert_nonpos {m m' : Pmap npages} {pml4e : Option (Fin npages)} {pp : Fin npages}
    {va : Nat} {perm : BitVec 12} {result : Int}
    (ran : pageInsert m pml4e pp va perm = some (result, m')) : result ≤ 0 := by
  unfold pageInsert at ran
  cases pml4e with
  | none =>
    simp only [Option.some.injEq, Prod.mk.injEq] at ran
    exact ran.1 ▸ le_rfl
  | some pml4e =>
    obtain ⟨⟨found, m₁⟩, -, ran⟩ := Option.bind_eq_some_iff.mp ran
    cases found with
    | none =>
      simp only [Option.pure_def, Option.some.injEq, Prod.mk.injEq] at ran
      exact ran.1 ▸ by decide
    | some slot =>
      simp only at ran
      split at ran
      · obtain ⟨old, -, ran⟩ := Option.bind_eq_some_iff.mp ran
        split at ran
        · simp only [Option.pure_def, Option.some.injEq, Prod.mk.injEq] at ran
          exact ran.1 ▸ le_rfl
        · obtain ⟨m₂, -, ran⟩ := Option.bind_eq_some_iff.mp ran
          simp only [Option.pure_def, Option.some.injEq, Prod.mk.injEq] at ran
          exact ran.1 ▸ le_rfl
      · simp only [Option.pure_def, Option.some.injEq, Prod.mk.injEq] at ran
        exact ran.1 ▸ le_rfl

theorem sysPageAlloc_memory {va : Nat} {perm : BitVec 32} {result : Int}
    (ran : sysPageAlloc k c envid va perm = some (result, k')) : ∃ m, k' = k.setPmap m := by
  have unchanged {value : Int} (same : some (value, k) = some (result, k')) :
      ∃ m, k' = k.setPmap m := ⟨k.pmap, (Prod.mk.inj (Option.some.inj same)).2.symm⟩
  unfold sysPageAlloc at ran
  split at ran
  · exact unchanged ran
  · split at ran
    · exact unchanged ran
    · split at ran
      · exact unchanged ran
      · split at ran
        · exact unchanged ran
        · obtain ⟨⟨code, m⟩, -, ran⟩ := Option.bind_eq_some_iff.mp ran
          exact ⟨m, (Prod.mk.inj (Option.some.inj ran)).2.symm⟩

theorem sysPageMap_memory {srcenvid dstenvid : EnvId} {srcva dstva : Nat} {perm : BitVec 32}
    {result : Int} (ran : sysPageMap k c srcenvid srcva dstenvid dstva perm = some (result, k')) :
    (∃ m, k' = k.setPmap m) ∧ result ≤ 0 := by
  have unchanged {value : Int} (m : Pmap npages) (negative : value ≤ 0)
      (same : some (value, k.setPmap m) = some (result, k')) :
      (∃ m, k' = k.setPmap m) ∧ result ≤ 0 :=
    ⟨⟨m, (Prod.mk.inj (Option.some.inj same)).2.symm⟩,
      (Prod.mk.inj (Option.some.inj same)).1 ▸ negative⟩
  unfold sysPageMap at ran
  split at ran
  · exact unchanged k.pmap (by decide) ran
  · split at ran
    · exact unchanged k.pmap (by decide) ran
    · split at ran
      · exact unchanged k.pmap (by decide) ran
      · split at ran
        · exact unchanged k.pmap (by decide) ran
        · obtain ⟨⟨found, m⟩, -, ran⟩ := Option.bind_eq_some_iff.mp ran
          cases found with
          | none => exact unchanged m (by decide) ran
          | some found =>
            simp only at ran
            split at ran
            · exact unchanged m (by decide) ran
            · obtain ⟨⟨code, m'⟩, inserted, ran⟩ := Option.bind_eq_some_iff.mp ran
              exact unchanged m' (pageInsert_nonpos inserted) ran

theorem sysPageUnmap_memory {va : Nat} {result : Int}
    (ran : sysPageUnmap k c envid va = some (result, k')) : ∃ m, k' = k.setPmap m := by
  unfold sysPageUnmap at ran
  split at ran
  · exact ⟨k.pmap, (Prod.mk.inj (Option.some.inj ran)).2.symm⟩
  · split at ran
    · exact ⟨k.pmap, (Prod.mk.inj (Option.some.inj ran)).2.symm⟩
    · obtain ⟨m, -, ran⟩ := Option.bind_eq_some_iff.mp ran
      exact ⟨m, (Prod.mk.inj (Option.some.inj ran)).2.symm⟩

theorem envDestroy_cases {e : EnvIdx} {destroyed : Destroyed}
    (ran : envDestroy k c e = some (destroyed, k')) :
    ((k.envs e).envStatus = .running ∧ c ≠ e ∧ destroyed = .returns ∧ k' = k.setStatus e .dying) ∨
      ¬ ((k.envs e).envStatus = .running ∧ c ≠ e) ∧ envFree k e = some k' ∧
        destroyed = if c = e then .exits else .returns := by
  unfold envDestroy at ran
  split at ran
  · rename_i running
    cases ran
    exact .inl ⟨running.1, running.2, rfl, rfl⟩
  · rename_i idle
    obtain ⟨k₁, freed, ran⟩ := Option.bind_eq_some_iff.mp ran
    cases ran
    exact .inr ⟨idle, freed, rfl⟩

theorem userMemAssert_cases {va len : Nat} {perm : BitVec 12} {passed : Bool}
    (ran : userMemAssert k c va len perm = some (passed, k')) :
    ∃ m, userMemCheck k.pmap (k.envs c).envPml4e va len (perm ||| pteU) = some (passed, m) ∧
      if passed then k' = k.setPmap m else envFree (k.setPmap m) c = some k' := by
  obtain ⟨⟨checked, m⟩, looked, ran⟩ := Option.bind_eq_some_iff.mp ran
  cases checked with
  | true =>
    cases ran
    exact ⟨m, looked, rfl⟩
  | false =>
    obtain ⟨⟨destroyed, k₁⟩, destroy, ran⟩ := Option.bind_eq_some_iff.mp ran
    cases ran
    refine ⟨m, looked, ?_⟩
    rcases envDestroy_cases destroy with ⟨-, other, -⟩ | ⟨-, freed, -⟩
    · exact absurd rfl other
    · exact freed

theorem checkedCall_effect {call : Syscall} {va len : Nat} {answer : Int}
    (checks : call.checks = true) (ran : checkedCall k c va len answer = some (outcome, k')) :
    Effect k c k' call outcome := by
  obtain ⟨⟨passed, k₁⟩, asserted, ran⟩ := Option.bind_eq_some_iff.mp ran
  cases ran
  obtain ⟨m, -, after⟩ := userMemAssert_cases asserted
  cases passed with
  | true =>
    refine .memory after (fun sends => ?_) fun still => ?_
    · cases call <;> simp_all [Syscall.checks, Syscall.sends]
    · cases call <;> simp_all [Syscall.checks, Syscall.walks]
  | false => exact .denied checks after

theorem sysExofork_effect {result : Int} (ran : sysExofork k c = (result, k')) :
    Effect k c k' .exofork (.returns result) := by
  unfold sysExofork at ran
  split at ran
  · obtain ⟨rfl, rfl⟩ := Prod.mk.inj ran
    exact .memory Kernel.setPmap_self.symm nofun fun _ => rfl
  · rename_i e k₁ allocated
    cases ran
    exact .exofork allocated rfl

def receivedEnv (env : Env npages) (sender : EnvId) (value perm : BitVec 32) : Env npages :=
  { deliveredEnv env sender value (some perm) with envStatus := env.envStatus }

section
variable {dst : EnvIdx} {value : BitVec 32} {srcva : Nat} {perm : BitVec 32} {result : Int}

theorem ipcDeliver_page (page : SendsPage k dst srcva)
    (ran : ipcDeliver k c dst value srcva perm = some (result, k')) :
    result = 0 ∧ ∃ m code,
      sysPageMap (k.setEnv dst (receivedEnv (k.envs dst) (k.envs c).envId value perm)) c
        (k.envs c).envId srcva (k.envs dst).envId (k.envs dst).envIpcDstva perm =
        some (code, (k.setEnv dst
          (receivedEnv (k.envs dst) (k.envs c).envId value perm)).setPmap m) ∧
      k' = (k.setPmap m).setEnv dst
        (deliveredEnv (k.envs dst) (k.envs c).envId value (some perm)) := by
  unfold ipcDeliver at ran
  simp only [Kernel.setEnv, update_self, update_idem] at ran
  have both : srcva < utop ∧ (k.envs dst).envIpcDstva < utop := page
  rw [if_pos both] at ran
  obtain ⟨⟨code, k₁⟩, mapped, ran⟩ := Option.bind_eq_some_iff.mp ran
  obtain ⟨⟨m, rfl⟩, nonpos⟩ := sysPageMap_memory mapped
  rw [if_neg (by omega)] at ran
  cases ran
  refine ⟨rfl, m, code, mapped, ?_⟩
  simp [Kernel.setStatus, Kernel.setEnv, Kernel.setPmap, deliveredEnv]

theorem ipcDeliver_plain (plain : ¬ SendsPage k dst srcva)
    (ran : ipcDeliver k c dst value srcva perm = some (result, k')) :
    result = 0 ∧ k' = k.setEnv dst (deliveredEnv (k.envs dst) (k.envs c).envId value none) := by
  unfold ipcDeliver at ran
  simp only [Kernel.setEnv, update_self] at ran
  have either : ¬ (srcva < utop ∧ (k.envs dst).envIpcDstva < utop) := plain
  rw [if_neg either] at ran
  cases ran
  refine ⟨rfl, ?_⟩
  simp [Kernel.setStatus, Kernel.setEnv, deliveredEnv]

/-- The part of `sys_ipc_try_send` after its checks always succeeds. -/
theorem ipcDeliver_eq (ran : ipcDeliver k c dst value srcva perm = some (result, k')) :
    result = 0 ∧ ∃ m, k' = (k.setPmap m).setEnv dst (deliveredEnv (k.envs dst) (k.envs c).envId
      value (if SendsPage k dst srcva then some perm else none)) := by
  by_cases page : SendsPage k dst srcva
  · obtain ⟨zero, m, code, -, after⟩ := ipcDeliver_page page ran
    exact ⟨zero, m, by rw [if_pos page, after]⟩
  · obtain ⟨zero, after⟩ := ipcDeliver_plain page ran
    exact ⟨zero, k.pmap, by rw [if_neg page, after, Kernel.setPmap_self]⟩

end

theorem sysIpcTrySend_effect {value : BitVec 32} {srcva : Nat} {perm : BitVec 32}
    {ambient : Ambient} {result : Int}
    (ran : sysIpcTrySend k c envid value srcva perm ambient = some (result, k')) :
    Effect k c k' (.ipcTrySend envid value srcva perm) (.returns result) := by
  have failed {value' : Int} (m : Pmap npages) (negative : value' < 0)
      (same : some (value', k.setPmap m) = some (result, k')) :
      Effect k c k' (.ipcTrySend envid value srcva perm) (.returns result) := by
    cases same
    exact .memory rfl (fun _ => negative) nofun
  unfold sysIpcTrySend at ran
  simp only at ran
  split at ran
  · exact failed k.pmap (by decide) ran
  · rename_i dst found
    split at ran
    · exact failed k.pmap (by decide) ran
    · rename_i waiting
      obtain ⟨⟨looked, m⟩, -, ran⟩ := Option.bind_eq_some_iff.mp ran
      simp only at ran
      split at ran
      · exact failed m (by decide) ran
      · obtain ⟨pte, -, ran⟩ := Option.bind_eq_some_iff.mp ran
        split at ran
        · exact failed m (by decide) ran
        · split at ran
          · exact failed m (by decide) ran
          · split at ran
            · cases ran
            · rename_i other
              obtain ⟨rfl, m', rfl⟩ := ipcDeliver_eq ran
              exact .send found (by simpa using waiting) other rfl

theorem sysIpcRecv_effect {dstva : Nat} (ran : sysIpcRecv k c dstva = (outcome, k')) :
    Effect k c k' (.ipcRecv dstva) outcome := by
  unfold sysIpcRecv at ran
  split at ran
  · obtain ⟨rfl, rfl⟩ := Prod.mk.inj ran
    exact .memory Kernel.setPmap_self.symm nofun fun _ => rfl
  · rename_i aligned
    cases ran
    refine .recv (fun low => by_contra fun odd => aligned ⟨low, odd⟩) ?_
    unfold waitingEnv
    split <;> rfl

theorem sysEnvDestroy_effect (ran : sysEnvDestroy k c envid = some (outcome, k')) :
    Effect k c k' (.envDestroy envid) outcome := by
  unfold sysEnvDestroy at ran
  split at ran
  · obtain ⟨rfl, rfl⟩ := Prod.mk.inj (Option.some.inj ran)
    exact .memory Kernel.setPmap_self.symm nofun fun _ => rfl
  · rename_i e found
    obtain ⟨⟨destroyed, k₁⟩, destroy, ran⟩ := Option.bind_eq_some_iff.mp ran
    cases ran
    rcases envDestroy_cases destroy with ⟨running, other, rfl, rfl⟩ | ⟨idle, freed, rfl⟩
    · exact .dying found running other rfl
    · have same : (if (if c = e then Destroyed.exits else .returns) = .exits then Outcome.exits
          else .returns 0) = if c = e then .exits else .returns 0 := by
        split <;> simp_all
      rw [same]
      exact .destroy found idle freed

theorem sysEnvSetStatus_effect {status : BitVec 32} {result : Int}
    (ran : sysEnvSetStatus k c envid status = (result, k')) :
    Effect k c k' (.envSetStatus envid status) (.returns result) := by
  unfold sysEnvSetStatus at ran
  split at ran
  · obtain ⟨rfl, rfl⟩ := Prod.mk.inj ran
    exact .memory Kernel.setPmap_self.symm nofun fun _ => rfl
  · rename_i e found
    split at ran
    · obtain ⟨rfl, rfl⟩ := Prod.mk.inj ran
      exact .memory Kernel.setPmap_self.symm nofun fun _ => rfl
    · obtain ⟨rfl, rfl⟩ := Prod.mk.inj ran
      exact .setStatus found (by omega) (by omega) rfl

theorem sysEnvSetTrapframe_effect {tf : Nat} {ambient : Ambient} {result : Int}
    (ran : sysEnvSetTrapframe k c envid tf ambient = some (result, k')) :
    Effect k c k' (.envSetTrapframe envid tf) (.returns result) := by
  have unchanged {value : Int} (same : some (value, k) = some (result, k')) :
      Effect k c k' (.envSetTrapframe envid tf) (.returns result) := by
    cases same
    exact .memory Kernel.setPmap_self.symm nofun fun _ => rfl
  unfold sysEnvSetTrapframe at ran
  split at ran
  · exact unchanged ran
  · split at ran
    · cases ran
    · split at ran
      · split at ran
        · cases ran
        · split at ran
          · exact unchanged ran
          · cases ran
      · rename_i frame _ e found
        cases ran
        exact .setTrapframe found rfl

theorem sysEnvSetPgfaultUpcall_effect {func : BitVec 64} {result : Int}
    (ran : sysEnvSetPgfaultUpcall k c envid func = (result, k')) :
    Effect k c k' (.envSetPgfaultUpcall envid func) (.returns result) := by
  unfold sysEnvSetPgfaultUpcall at ran
  split at ran
  · obtain ⟨rfl, rfl⟩ := Prod.mk.inj ran
    exact .memory Kernel.setPmap_self.symm nofun fun _ => rfl
  · rename_i e found
    cases ran
    exact .setUpcall found rfl

theorem syscall_effect {ambient : Ambient} {call : Syscall}
    (ran : syscall k c ambient call = some (outcome, k')) : Effect k c k' call outcome := by
  have returned {result : Option (Int × Kernel npages)}
      (ran : returning result = some (outcome, k')) :
      ∃ value, result = some (value, k') ∧ outcome = .returns value := by
    obtain ⟨⟨value, k₁⟩, here, same⟩ := Option.map_eq_some_iff.mp ran
    cases same
    exact ⟨value, here, rfl⟩
  have still {value : Int} (quiet : call.sends = false)
      (ran : some (Outcome.returns value, k) = some (outcome, k')) : Effect k c k' call outcome := by
    cases ran
    exact .memory Kernel.setPmap_self.symm (fun sends => by simp [quiet] at sends) fun _ => rfl
  cases call with
  | cputs s len => exact checkedCall_effect rfl ran
  | netTx buf size => exact checkedCall_effect rfl ran
  | netRx buf => exact checkedCall_effect rfl ran
  | cgetc => exact still rfl ran
  | getenvid => exact still rfl ran
  | timeMsec => exact still rfl ran
  | noSys => exact still rfl ran
  | envDestroy envid => exact sysEnvDestroy_effect ran
  | pageAlloc envid va perm =>
    obtain ⟨value, result, rfl⟩ := returned ran
    obtain ⟨m, rfl⟩ := sysPageAlloc_memory result
    exact .memory rfl nofun nofun
  | pageMap srcenvid srcva dstenvid dstva perm =>
    obtain ⟨value, result, rfl⟩ := returned ran
    obtain ⟨⟨m, rfl⟩, -⟩ := sysPageMap_memory result
    exact .memory rfl nofun nofun
  | pageUnmap envid va =>
    obtain ⟨value, result, rfl⟩ := returned ran
    obtain ⟨m, rfl⟩ := sysPageUnmap_memory result
    exact .memory rfl nofun nofun
  | exofork =>
    obtain ⟨value, result, rfl⟩ := returned ran
    exact sysExofork_effect (Option.some.inj result)
  | envSetStatus envid status =>
    obtain ⟨value, result, rfl⟩ := returned ran
    exact sysEnvSetStatus_effect (Option.some.inj result)
  | envSetTrapframe envid tf =>
    obtain ⟨value, result, rfl⟩ := returned ran
    exact sysEnvSetTrapframe_effect result
  | envSetPgfaultUpcall envid func =>
    obtain ⟨value, result, rfl⟩ := returned ran
    exact sysEnvSetPgfaultUpcall_effect (Option.some.inj result)
  | yield =>
    cases ran
    exact .yield rfl
  | ipcTrySend envid value srcva perm =>
    obtain ⟨code, result, rfl⟩ := returned ran
    exact sysIpcTrySend_effect result
  | ipcRecv dstva => exact sysIpcRecv_effect (Option.some.inj ran)

end Jos
