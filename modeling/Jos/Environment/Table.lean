import Jos.Environment.Alloc

/-! What `env_alloc` and `env_free` do to the table of environments, in any
kernel state. -/

set_option autoImplicit false

namespace Jos

open Foundation Function

variable {npages : Nat} {k k' : Kernel npages} {e : EnvIdx}

theorem envSetupVm_envs (ran : envSetupVm k e = some k') :
    k'.envFreeList = k.envFreeList ∧ ∃ root, k'.envs =
      update k.envs e { k.envs e with envPml4e := some root, envCr3 := root.val } := by
  unfold envSetupVm at ran
  split at ran
  · cases ran
  · rename_i page m _
    cases ran
    exact ⟨rfl, page, rfl⟩

theorem envAlloc_envs {parentId : EnvId} (ran : envAlloc k parentId = .ok (e, k')) :
    k.envFreeList = some e ∧ k'.envFreeList = (k.envs e).envLink ∧
      ∃ root, k'.envs = update k.envs e (allocatedEnv (k.envs e) e parentId root) := by
  unfold envAlloc at ran
  split at ran
  · cases ran
  · rename_i head listed
    split at ran
    · cases ran
    · rename_i middle setup
      obtain ⟨-, root, envs⟩ := envSetupVm_envs setup
      simp only [Except.ok.injEq, Prod.mk.injEq] at ran
      obtain ⟨rfl, rfl⟩ := ran
      have here : middle.envs head =
          { k.envs head with envPml4e := some root, envCr3 := root.val } := by
        rw [envs, update_self]
      refine ⟨listed, by rw [here], root, ?_⟩
      change update middle.envs head _ = _
      rw [here, envs, update_idem]
      rfl

theorem envFree_envs (ran : envFree k e = some k') :
    (k.envs e).envPml4e ≠ none ∧ k'.envFreeList = some e ∧
      k'.envs = update k.envs e { k.envs e with
        envPml4e := none, envCr3 := 0, envStatus := .free, envLink := k.envFreeList } := by
  simp only [envFree, Option.bind_eq_bind, Option.bind_eq_some_iff] at ran
  obtain ⟨root, rooted, pdpt, -, m, -, page, -, m', -, top, -, m'', -, stored⟩ := ran
  cases stored
  rw [rooted]
  exact ⟨Option.some_ne_none root, rfl, rfl⟩

/-- The list of free slots holds the slots without page tables, each once, and
these have the status `ENV_FREE`. -/
structure Kernel.Listed (k : Kernel npages) : Prop where
  slots : ∃ slots, Chain (fun e => (k.envs e).envLink) k.envFreeList slots ∧
    ∀ e, e ∈ slots ↔ (k.envs e).envPml4e = none
  idle : ∀ {e}, (k.envs e).envPml4e = none → (k.envs e).envStatus = .free

theorem chain_envInit (k : Kernel npages) :
    Chain (fun e => ((envInit k).envs e).envLink) (envInit k).envFreeList
      (cellRange nenv 0 nenv) := by
  have bound : 0 + 1023 < nenv := by decide
  have last : ((envInit k).envs ⟨0 + 1023, bound⟩).envLink = none := by
    simp [envInit]
  have whole : Chain (fun e => ((envInit k).envs e).envLink) (cellAt nenv 0)
      (cellRange nenv 0 (1023 + 1) ++ []) :=
    chain_cellRange bound (fun _ _ _ => rfl) last
  rwa [List.append_nil] at whole

namespace Kernel.Listed

theorem init (k : Kernel npages) : (envInit k).Listed where
  slots := ⟨cellRange nenv 0 nenv, chain_envInit k, fun e =>
    iff_of_true (mem_cellRange.mpr ⟨Nat.zero_le _, by simp⟩) rfl⟩
  idle := fun _ => rfl

theorem alloc (listed : k.Listed) {parentId : EnvId} (ran : envAlloc k parentId = .ok (e, k')) :
    k'.Listed ∧ (k.envs e).envPml4e = none := by
  obtain ⟨head, rest, root, envs⟩ := envAlloc_envs ran
  obtain ⟨slots, chain, members⟩ := listed.slots
  rw [head] at chain
  obtain ⟨others, rfl, tail, fresh⟩ := chain.pop
  refine ⟨⟨⟨others, ?_, fun slot => ?_⟩, fun {slot} absent => ?_⟩,
    (members e).mp List.mem_cons_self⟩
  · rw [rest]
    refine tail.congr fun slot member => ?_
    have differs : slot ≠ e := ne_of_mem_of_not_mem member fresh
    rw [envs, update_of_ne differs]
  · rw [envs]
    by_cases same : slot = e
    · subst same
      rw [update_self]
      exact iff_of_false fresh (Option.some_ne_none root)
    · rw [update_of_ne same, ← members slot, List.mem_cons]
      exact (or_iff_right same).symm
  · rw [envs] at absent ⊢
    by_cases same : slot = e
    · subst same
      rw [update_self] at absent
      cases absent
    · rw [update_of_ne same] at absent ⊢
      exact listed.idle absent

theorem free (listed : k.Listed) (ran : envFree k e = some k') : k'.Listed := by
  obtain ⟨live, head, envs⟩ := envFree_envs ran
  obtain ⟨slots, chain, members⟩ := listed.slots
  refine ⟨⟨e :: slots, ?_, fun slot => ?_⟩, fun {slot} absent => ?_⟩
  · rw [head, envs]
    refine chain.push (fun member => live ((members e).mp member)) ?_ fun slot differs => ?_
    · rw [update_self]
    · rw [update_of_ne differs]
  · rw [envs]
    by_cases same : slot = e
    · subst same
      rw [update_self]
      exact iff_of_true List.mem_cons_self rfl
    · rw [update_of_ne same, ← members slot, List.mem_cons]
      exact or_iff_right same
  · rw [envs] at absent ⊢
    by_cases same : slot = e
    · subst same
      rw [update_self]
    · rw [update_of_ne same] at absent ⊢
      exact listed.idle absent

end Kernel.Listed

end Jos
