import Jos.Calls.Table

/-! What one call does to the status of an environment. -/

set_option autoImplicit false

namespace Jos

open Function

variable {npages : Nat} {k k' : Kernel npages} {c e : EnvIdx} {call : Syscall} {outcome : Outcome}

/-- The ways in which a call of `c` treats the slot `e`. -/
inductive Fate (k : Kernel npages) (c : EnvIdx) (k' : Kernel npages) (call : Syscall)
    (outcome : Outcome) (e : EnvIdx) : Prop where
  | same : (k'.envs e).envPml4e = (k.envs e).envPml4e →
      (k'.envs e).envStatus = (k.envs e).envStatus → Fate k c k' call outcome e
  | waits : e = c → outcome = .yields → (k'.envs e).envPml4e = (k.envs e).envPml4e →
      (k'.envs e).envStatus = .notRunnable → Fate k c k' call outcome e
  | woken {envid : EnvId} {value : BitVec 32} {srcva : Nat} {perm : BitVec 32} :
      call = .ipcTrySend envid value srcva perm → envid2env k c envid false = some e →
      (k.envs e).envIpcRecving = true → (k'.envs e).envPml4e = (k.envs e).envPml4e →
      (k'.envs e).envStatus = .runnable → Fate k c k' call outcome e
  | born : ¬ k.Live e → (k'.envs e).envStatus = .notRunnable → Fate k c k' call outcome e
  | marked {envid : EnvId} {status : BitVec 32} : call = .envSetStatus envid status →
      envid2env k c envid true = some e → 0 ≤ status.toInt → status.toInt ≤ 4 →
      (k'.envs e).envPml4e = (k.envs e).envPml4e →
      (k'.envs e).envStatus = EnvStatus.ofCode status.toNat → Fate k c k' call outcome e
  | dying {envid : EnvId} : call = .envDestroy envid → envid2env k c envid true = some e →
      (k.envs e).envStatus = .running → e ≠ c → (k'.envs e).envPml4e = (k.envs e).envPml4e →
      (k'.envs e).envStatus = .dying → Fate k c k' call outcome e
  | freed : (e = c ∧ outcome = .exits ∨ e ≠ c ∧ ∃ envid, call = .envDestroy envid ∧
      envid2env k c envid true = some e ∧ (k.envs e).envStatus ≠ .running) → ¬ k'.Live e →
      (k'.envs e).envStatus = .free → Fate k c k' call outcome e

theorem Effect.fate (effect : Effect k c k' call outcome) (listed : k.Listed) (e : EnvIdx) :
    Fate k c k' call outcome e := by
  have written {k₁ : Kernel npages} {slot : EnvIdx} {env : Env npages} :
      (k₁.setEnv slot env).envs e = if e = slot then env else k₁.envs e :=
    update_apply k₁.envs slot env e
  have gone {k₁ : Kernel npages} {slot : EnvIdx} (ran : envFree k₁ slot = some k') :
      k'.envs e = if e = slot then { k₁.envs slot with
        envPml4e := none, envCr3 := 0, envStatus := .free, envLink := k₁.envFreeList }
        else k₁.envs e := by
    rw [(envFree_envs ran).2.2, update_apply]
  cases effect with
  | memory same =>
    subst same
    exact .same rfl rfl
  | yield same =>
    subst same
    exact .same rfl rfl
  | recv _ same =>
    subst same
    by_cases here : e = c
    · subst here
      exact .waits rfl rfl (by rw [written, if_pos rfl]; rfl) (by rw [written, if_pos rfl]; rfl)
    · exact .same (by rw [written, if_neg here]) (by rw [written, if_neg here])
  | @send envid value srcva perm dst m found waiting _ same =>
    subst same
    by_cases here : e = dst
    · subst here
      exact .woken rfl found waiting (by rw [written, if_pos rfl]; rfl)
        (by rw [written, if_pos rfl]; rfl)
    · exact .same (by rw [written, if_neg here]; rfl) (by rw [written, if_neg here]; rfl)
  | @exofork other k₁ allocated same =>
    subst same
    by_cases here : e = other
    · subst here
      exact .born (not_not.mpr (listed.alloc allocated).2) (by rw [written, if_pos rfl]; rfl)
    · obtain ⟨-, -, root, envs⟩ := envAlloc_envs allocated
      have before : k₁.envs e = k.envs e := by rw [envs, update_of_ne here]
      exact .same (by rw [written, if_neg here, before]) (by rw [written, if_neg here, before])
  | @setStatus envid status other found low high same =>
    subst same
    by_cases here : e = other
    · subst here
      exact .marked rfl found low high (by rw [Kernel.setStatus, written, if_pos rfl])
        (by rw [Kernel.setStatus, written, if_pos rfl])
    · exact .same (by rw [Kernel.setStatus, written, if_neg here])
        (by rw [Kernel.setStatus, written, if_neg here])
  | @setTrapframe envid tf frame other found same =>
    subst same
    by_cases here : e = other
    · subst here
      exact .same (by rw [written, if_pos rfl]) (by rw [written, if_pos rfl])
    · exact .same (by rw [written, if_neg here]) (by rw [written, if_neg here])
  | @setUpcall envid func other found same =>
    subst same
    by_cases here : e = other
    · subst here
      exact .same (by rw [written, if_pos rfl]) (by rw [written, if_pos rfl])
    · exact .same (by rw [written, if_neg here]) (by rw [written, if_neg here])
  | @dying envid other found running differs same =>
    subst same
    by_cases here : e = other
    · subst here
      exact .dying rfl found running differs.symm (by rw [Kernel.setStatus, written, if_pos rfl])
        (by rw [Kernel.setStatus, written, if_pos rfl])
    · exact .same (by rw [Kernel.setStatus, written, if_neg here])
        (by rw [Kernel.setStatus, written, if_neg here])
  | @destroy envid other found idle freed =>
    by_cases here : e = other
    · subst here
      refine .freed ?_ (by rw [Kernel.Live, gone freed, if_pos rfl]; exact not_not.mpr rfl)
        (by rw [gone freed, if_pos rfl])
      by_cases self : e = c
      · exact .inl ⟨self, if_pos self.symm⟩
      · exact .inr ⟨self, envid, rfl, found, fun running => idle ⟨running, fun same => self same.symm⟩⟩
    · exact .same (by rw [gone freed, if_neg here]) (by rw [gone freed, if_neg here])
  | denied _ freed =>
    by_cases here : e = c
    · subst here
      exact .freed (.inl ⟨rfl, rfl⟩)
        (by rw [Kernel.Live, gone freed, if_pos rfl]; exact not_not.mpr rfl)
        (by rw [gone freed, if_pos rfl])
    · exact .same (by rw [gone freed, if_neg here]; rfl) (by rw [gone freed, if_neg here]; rfl)

end Jos
