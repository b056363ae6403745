import Jos.Runs.Isolation

/-! What a failing system call leaves behind: nothing, but for the page tables
that a walk creates before the call fails, and for the page that `sys_page_alloc`
does not give back. -/

set_option autoImplicit false

namespace Jos

open Foundation

variable {npages : Nat} {platform : Platform npages} {managed : Set (Fin npages)}
  {k k' : Kernel npages} {g g' : Ledger npages} {c e : EnvIdx} {call : Syscall} {ambient : Ambient}

/-- The environments, the translations, the reference counts and the set of free
pages are the same. -/
structure Kernel.Untouched (k k' : Kernel npages) : Prop where
  envs : k'.envs = k.envs
  list : k'.envFreeList = k.envFreeList
  translations : ∀ e va, k'.pmap.translateIn (k'.envs e).envPml4e va =
    k.pmap.translateIn (k.envs e).envPml4e va
  refs : ∀ page, (k'.pmap.pages page).ppRef = (k.pmap.pages page).ppRef
  free : ∃ before after, k.pmap.FreeList before ∧ k'.pmap.FreeList after ∧
    ∀ page, page ∈ after ↔ page ∈ before

theorem Kernel.Untouched.refl (sound : Sound managed k g) : k.Untouched k :=
  ⟨rfl, rfl, fun _ _ => rfl, fun _ => rfl, g.free, g.free, sound.valid.pool.chain,
    sound.valid.pool.chain, fun _ => Iff.rfl⟩

/-- A walk that does not come to the end creates no table that stays: none is
missing, there is no page, or the first of two new tables is given back because
there is no page for the second. -/
def Kernel.Barren (k : Kernel npages) (e : EnvIdx) (va : Nat) : Prop :=
  ∀ root free, (k.envs e).envPml4e = some root → k.pmap.FreeList free →
    k.pmap.missing root va = 0 ∨ free.length = 0 ∨ k.pmap.missing root va = 3 ∧ free.length = 1

def Kernel.Traceless (k : Kernel npages) (c : EnvIdx) : Syscall → Prop
  | .pageAlloc envid va perm => (∃ e, pageAllocChecks k c envid va perm e) → k.pmap.FreeList []
  | .pageMap srcenvid srcva dstenvid dstva perm => ∀ src dst,
      PageMapChecks k c srcenvid srcva dstenvid dstva perm src dst →
        (k.pmap.translateIn (k.envs src).envPml4e srcva = none → k.Barren src srcva) ∧
        ∀ found, k.pmap.translateIn (k.envs src).envPml4e srcva = some found →
          found.writable = true ∨ perm &&& pteW.setWidth 32 = 0 → k.Barren dst dstva
  | .ipcTrySend envid _ srcva _ => ∀ dst, envid2env k c envid false = some dst →
      (k.envs dst).envIpcRecving = true → srcva < utop →
      k.pmap.translateIn (k.envs c).envPml4e srcva = none → k.Barren c srcva
  | _ => True

def Syscall.Listed : Syscall → Prop
  | .exofork | .envSetStatus .. | .envSetTrapframe .. | .envSetPgfaultUpcall .. | .pageAlloc .. |
    .pageMap .. | .pageUnmap .. | .ipcTrySend .. | .ipcRecv .. => True
  | _ => False

/-- The page tables of two states give the same translations when they hold the
same tables and leaves. -/
theorem Sound.sameTranslations {footprint : Footprint} (sound : Sound managed k g)
    (change : MemoryCall managed k g k' g' footprint) (table : g'.table = g.table)
    (nowhere : ∀ a t, ¬ footprint.stores a t) (e : EnvIdx) (va : Nat) :
    k'.pmap.translateIn (k'.envs e).envPml4e va = k.pmap.translateIn (k.envs e).envPml4e va := by
  rw [change.envs]
  cases rooted : (k.envs e).envPml4e with
  | none => rfl
  | some root =>
    have rooted' : k'.roots e = some root := by
      change (k'.envs e).envPml4e = some root
      rw [change.envs]
      exact rooted
    change k'.pmap.translate root va = k.pmap.translate root va
    by_cases user : pml4 va = pml4 uvpt
    · rw [sound.valid.translate_self rooted user, change.sound.valid.translate_self rooted' user]
      unfold Ledger.wanted
      rw [table]
    · rw [sound.valid.translate_env rooted user, change.sound.valid.translate_env rooted' user,
        change.keeps.leaves (by rw [Place.table_path user]; rfl) _ (nowhere _ _)]

/-- After a walk that finds nothing the state is as before if and only if the
walk was barren. -/
theorem Looked.untouched_iff {m' : Pmap npages} {va : Nat} (sound : Sound managed k g)
    (live : k.Live e) (looked : Looked managed k.roots k.pmap g m' g' (.root (some e)) va) :
    k.Untouched (k.setPmap m') ↔ k.Barren e va := by
  obtain ⟨root, rooted⟩ := live.root
  have here := sound.valid.top rooted
  have wanted : k.pmap.missing root va = g.wanted (.root (some e)) va :=
    sound.valid.missing_eq here rfl
  have change := looked.memoryCall sound
  constructor
  · intro same root' free rooted' listed
    cases rooted.symm.trans rooted'
    obtain rfl := listed.functional sound.valid.pool.chain
    rw [wanted]
    by_contra fertile
    have fewer := looked.shrinks fertile
    obtain ⟨before, after, listed, listed', equal⟩ := same.free
    obtain rfl := listed.functional sound.valid.pool.chain
    obtain rfl := listed'.functional looked.valid.pool.chain
    have more := (List.subperm_of_subset sound.valid.pool.chain.nodup
      fun page there => (equal page).mpr there).length_le
    omega
  · intro barren
    have quiet := barren root g.free rooted sound.valid.pool.chain
    rw [wanted] at quiet
    obtain ⟨table, free, refs⟩ := looked.quiet quiet
    refine ⟨rfl, rfl, sound.sameTranslations change table (fun _ _ => id), refs, g.free, g'.free,
      sound.valid.pool.chain, looked.valid.pool.chain, fun page => by rw [free]⟩

theorem untouched_iff_of_same (sound : Sound managed k g) (same : k' = k) {condition : Prop}
    (holds : condition) : k.Untouched k' ↔ condition := by
  subst same
  exact iff_of_true (.refl sound) holds

theorem Sound.sysIpcTrySend_unmapped (sound : Sound managed k g) (live : k.Live c) {envid : EnvId}
    {value : BitVec 32} {srcva : Nat} {perm : BitVec 32} {result : Int} {dst : EnvIdx}
    (found : envid2env k c envid false = some dst) (waiting : (k.envs dst).envIpcRecving = true)
    (low : srcva < utop) (none : k.pmap.translateIn (k.envs c).envPml4e srcva = none)
    (ran : Jos.sysIpcTrySend k c envid value srcva perm ambient = some (result, k')) :
    ∃ m' g', k' = k.setPmap m' ∧ Looked managed k.roots k.pmap g m' g' (.root (some c)) srcva := by
  obtain ⟨root, rooted⟩ := live.root
  rw [sound.translateIn live (Place.user_of_low low), leafTranslation_none] at none
  unfold Jos.sysIpcTrySend at ran
  simp only [found, waiting, not_true_eq_false, if_false] at ran
  obtain ⟨⟨lookup, m₁⟩, looked, ran⟩ := Option.bind_eq_some_iff.mp ran
  rw [rooted] at looked
  rcases lookup_mapped sound rooted low.le looked with
    ⟨rfl, -, g', spec⟩ | ⟨page, holder, -, -, -, -, leaf, maps⟩
  · rw [if_pos ⟨rfl, low⟩] at ran
    cases ran
    exact ⟨m₁, g', rfl, spec⟩
  · rw [leaf, maps.present] at none
    cases none

theorem unchanged_of_failed {result : Int} (listed : call.Listed) (walks : call.walks = false)
    (ran : syscall k c ambient call = some (.returns result, k')) (failed : result < 0) :
    k' = k := by
  have effect := syscall_effect ran
  generalize returned : Outcome.returns result = outcome at effect
  cases effect with
  | memory same _ untouched => rw [same, untouched walks, Kernel.setPmap_self]
  | exofork allocated =>
    obtain rfl := Outcome.returns.inj returned
    obtain ⟨-, -, root, envs⟩ := envAlloc_envs allocated
    rw [envs, Function.update_self] at failed
    exact absurd failed (not_lt.mpr (nextEnvId_spec _ _).1.le)
  | setStatus | setTrapframe | setUpcall | send =>
    obtain rfl := Outcome.returns.inj returned
    exact absurd failed (lt_irrefl 0)
  | dying | destroy => exact listed.elim
  | denied checks =>
    cases returned
  | _ => cases returned

end Jos
