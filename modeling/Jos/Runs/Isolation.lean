import Jos.Runs.KernelHalf

/-! What a call leaves alone in the environments that are neither the caller nor
its children. -/

set_option autoImplicit false

namespace Jos

open Function

variable {npages : Nat} {platform : Platform npages} {managed : Set (Fin npages)}
  {k k' : Kernel npages} {g g' : Ledger npages} {c e : EnvIdx} {call : Syscall} {ambient : Ambient}
  {outcome : Outcome}

structure Kernel.Unrelated (k : Kernel npages) (c e : EnvIdx) : Prop where
  live : k.Live e
  differs : e ≠ c
  parent : (k.envs e).envParentId ≠ (k.envs c).envId

def SharedBelow (va : Nat) : Prop := 2 ^ 39 ≤ va ∧ va < utop

instance (va : Nat) : Decidable (SharedBelow va) := inferInstanceAs (Decidable (_ ∧ _))

/-- The call maps nothing where tables are shared, and maps only into the address
space of the caller or of its children. -/
def Kernel.Confined (k : Kernel npages) (c : EnvIdx) : Syscall → Prop
  | .pageAlloc envid va perm => ∀ e, pageAllocChecks k c envid va perm e → ¬ SharedBelow va
  | .pageMap srcenvid srcva dstenvid dstva perm => ∀ src dst,
      PageMapChecks k c srcenvid srcva dstenvid dstva perm src dst →
        ¬ SharedBelow dstva ∧ ¬ k.Unrelated c dst
  | .pageUnmap envid va => ∀ e, envid2env k c envid true = some e → ¬ SharedBelow va
  | .ipcTrySend envid _ srcva _ => ∀ dst, envid2env k c envid false = some dst →
      (k.envs dst).envIpcRecving = true → SendsPage k dst srcva →
        ¬ SharedBelow (k.envs dst).envIpcDstva
  | _ => True

def OnlyIpc (env env' : Env npages) : Prop :=
  ∃ recving dstva value sender perm status, env' =
    { env with
      envIpcRecving := recving
      envIpcDstva := dstva
      envIpcValue := value
      envIpcFrom := sender
      envIpcPerm := perm
      envStatus := status }

def Kernel.SameLow (k k' : Kernel npages) (e : EnvIdx) (besides : Nat → Prop) : Prop :=
  ∀ va < utop, ¬ besides (va / pgSize) →
    k'.pmap.translateIn (k'.envs e).envPml4e va = k.pmap.translateIn (k.envs e).envPml4e va

/-- Unrelated environments keep their registers, their upcall, their status and
their address space, except that a successful send wakes its receiver. -/
def Kernel.Isolates (k : Kernel npages) (c : EnvIdx) (call : Syscall) (outcome : Outcome)
    (k' : Kernel npages) : Prop :=
  ∀ e, k.Unrelated c e →
    (k'.envs e).envTf = (k.envs e).envTf ∧
    (k'.envs e).envPgfaultUpcall = (k.envs e).envPgfaultUpcall ∧
    ((k'.envs e).envStatus = (k.envs e).envStatus ∧ k.SameLow k' e (fun _ => False) ∨
      outcome = .returns 0 ∧ (∃ envid value srcva perm, call = .ipcTrySend envid value srcva perm ∧
        envid2env k c envid false = some e) ∧ (k.envs e).envIpcRecving = true ∧
        OnlyIpc (k.envs e) (k'.envs e) ∧
        k.SameLow k' e (· = (k.envs e).envIpcDstva / pgSize))

theorem envid2env_related {envid : EnvId} (found : envid2env k c envid true = some e) :
    ¬ k.Unrelated c e := by
  rintro ⟨-, differs, parent⟩
  unfold envid2env at found
  split at found
  · exact differs (Option.some.inj found).symm
  · simp only at found
    split at found
    · cases found
    · split at found
      · cases found
      · rename_i allowed
        cases found
        exact allowed ⟨trivial, differs, parent⟩

theorem Effect.unrelated (effect : Effect k c k' call outcome) (listed : k.Listed)
    (unrelated : k.Unrelated c e) :
    k'.envs e = k.envs e ∨ outcome = .returns 0 ∧ ∃ envid value srcva perm sent,
      call = .ipcTrySend envid value srcva perm ∧ envid2env k c envid false = some e ∧
      (k.envs e).envIpcRecving = true ∧
      k'.envs e = deliveredEnv (k.envs e) (k.envs c).envId value sent := by
  have power {envid : EnvId} {other : EnvIdx} (found : envid2env k c envid true = some other) :
      e ≠ other := by
    rintro rfl
    exact envid2env_related found unrelated
  cases effect with
  | memory same =>
    subst same
    exact .inl rfl
  | yield same =>
    subst same
    exact .inl rfl
  | recv _ same =>
    subst same
    exact .inl (update_of_ne unrelated.differs _ _)
  | @send envid value srcva perm dst m found waiting _ same =>
    subst same
    by_cases target : e = dst
    · subst target
      exact .inr ⟨rfl, envid, value, srcva, perm, _, rfl, found, waiting,
        update_self _ _ _⟩
    · exact .inl (update_of_ne target _ _)
  | @exofork other k₁ allocated same =>
    subst same
    have differs : e ≠ other := by
      rintro rfl
      exact unrelated.live (listed.alloc allocated).2
    obtain ⟨-, -, root, envs⟩ := envAlloc_envs allocated
    refine .inl ((update_of_ne differs _ _).trans ?_)
    rw [envs, update_of_ne differs]
  | setStatus found _ _ same =>
    subst same
    exact .inl (update_of_ne (power found) _ _)
  | setTrapframe found same =>
    subst same
    exact .inl (update_of_ne (power found) _ _)
  | setUpcall found same =>
    subst same
    exact .inl (update_of_ne (power found) _ _)
  | dying found _ _ same =>
    subst same
    exact .inl (update_of_ne (power found) _ _)
  | destroy found _ freed =>
    rw [(envFree_envs freed).2.2]
    exact .inl (update_of_ne (power found) _ _)
  | denied _ freed =>
    rw [(envFree_envs freed).2.2]
    exact .inl (update_of_ne unrelated.differs _ _)

/-- Two environments share no leaf entry below UTOP outside the shared tables. -/
theorem Place.table_ne_of_unshared {other : EnvIdx} {va target : Nat} (differs : e ≠ other)
    (low : va < utop) (bound : target ≤ utop) (unshared : ¬ SharedBelow target) :
    (root (some e)).table va ≠ (root (some other)).table target := by
  intro same
  rcases Nat.lt_or_ge target (2 ^ 39) with own | high
  · have zero : pml4 target = 0 := by
      apply Fin.ext
      rw [pml4_eq, Nat.div_eq_of_lt own]
      rfl
    have owner := congrArg Place.owner same
    rw [@table_own other target (by rw [zero]; decide) (by rw [zero]; decide)] at owner
    rcases table_owner (root (some e)) va with own | shared
    · rw [own] at owner
      exact differs (Option.some.inj owner)
    · rw [shared] at owner
      cases owner
  · obtain rfl : target = utop := by
      by_contra inside
      exact unshared ⟨high, lt_of_le_of_ne bound inside⟩
    have user : pml4 utop ≠ pml4 uvpt := by decide
    exact table_ne_of_high (by decide) le_rfl (table_path user) low same.symm

theorem Place.table_ne_of_shared {va target : Nat} (own : target < 2 ^ 39)
    (shared : SharedBelow va) : (root (some e)).table target ≠ (root (some e)).table va := by
  intro same
  have zero : pml4 target = 0 := by
    apply Fin.ext
    rw [pml4_eq, Nat.div_eq_of_lt own]
    rfl
  have paths := congrArg Place.path same
  rw [table_path (user_of_low (lt_of_lt_of_le own (by decide))),
    table_path (user_of_low shared.2)] at paths
  injection paths with _ rest
  injection rest with _ rest
  injection rest with top _
  rw [zero] at top
  have value := congrArg Fin.val top
  rw [pml4_eq] at value
  obtain ⟨low, high⟩ := shared
  rw [utop_eq] at high
  change 0 = va / 2 ^ 39 % 512 at value
  omega

/-- A confined call stores to a leaf entry of an unrelated environment only when
it sends a page to it. -/
theorem callFootprint_unrelated {va : Nat} (confined : k.Confined c call)
    (unrelated : k.Unrelated c e) (low : va < utop)
    (stores : (callFootprint k k' c call).stores ((Place.root (some e)).table va) (ptx va)) :
    ∃ envid value srcva perm, call = .ipcTrySend envid value srcva perm ∧
      envid2env k c envid false = some e ∧ (k.envs e).envIpcRecving = true ∧
      va / pgSize = (k.envs e).envIpcDstva / pgSize := by
  have power {envid : EnvId} {other : EnvIdx} (found : envid2env k c envid true = some other) :
      e ≠ other := by
    rintro rfl
    exact envid2env_related found unrelated
  cases call with
  | cputs s len => exact absurd (Place.eq_of_table_owner stores.1) unrelated.differs
  | netTx buf size => exact absurd (Place.eq_of_table_owner stores.1) unrelated.differs
  | netRx buf => exact absurd (Place.eq_of_table_owner stores.1) unrelated.differs
  | envDestroy envid =>
    obtain ⟨other, ⟨found, -⟩, owner⟩ := stores
    exact absurd (Place.eq_of_table_owner owner) (power found)
  | exofork =>
    obtain ⟨other, dead, owner⟩ := stores
    obtain rfl := Place.eq_of_table_owner owner
    exact absurd unrelated.live dead
  | pageAlloc envid va' perm =>
    obtain ⟨other, checks, same, -⟩ := stores
    exact absurd same (Place.table_ne_of_unshared (power checks.1) low checks.2.2.2
      (confined other checks))
  | pageMap srcenvid srcva dstenvid dstva perm =>
    obtain ⟨src, -, none⟩ | ⟨dst, ⟨src, checks⟩, same, -⟩ := stores
    · cases none
    · obtain ⟨unshared, related⟩ := confined src dst checks
      have differs : e ≠ dst := by
        rintro rfl
        exact related unrelated
      exact absurd same (Place.table_ne_of_unshared differs low checks.dstRange.2 unshared)
  | pageUnmap envid va' =>
    obtain ⟨other, ⟨found, bound⟩, same, -⟩ := stores
    exact absurd same (Place.table_ne_of_unshared (power found) low bound.le
      (confined other found))
  | ipcTrySend envid value srcva perm =>
    obtain none | ⟨dst, ⟨found, waiting, page⟩, same, entry⟩ := stores
    · cases none
    · have unshared := confined dst found waiting page
      by_cases target : e = dst
      · subst target
        have own : (k.envs e).envIpcDstva < 2 ^ 39 := by
          by_contra high
          exact unshared ⟨not_lt.mp high, page.2⟩
        have own' : va < 2 ^ 39 := by
          by_contra high
          exact Place.table_ne_of_shared own ⟨not_lt.mp high, low⟩ same.symm
        exact ⟨envid, value, srcva, perm, rfl, found, waiting,
          Place.page_of_slot own' own same entry⟩
      · exact absurd same (Place.table_ne_of_unshared target low page.2.le unshared)
  | _ => cases stores

theorem Effect.failed {envid : EnvId} {value : BitVec 32} {srcva : Nat} {perm : BitVec 32}
    (effect : Effect k c k' (.ipcTrySend envid value srcva perm) outcome)
    (found : envid2env k c envid false = some e) (waiting : (k.envs e).envIpcRecving = true)
    (same : k'.envs e = k.envs e)
    (ran : syscall k c ambient (.ipcTrySend envid value srcva perm) = some (outcome, k')) :
    ∃ result < 0, sysIpcTrySend k c envid value srcva perm ambient = some (result, k') := by
  simp only [syscall, returning, Option.map_eq_some_iff] at ran
  obtain ⟨⟨result, k₁⟩, sent, equal⟩ := ran
  cases equal
  refine ⟨result, ?_, sent⟩
  cases effect with
  | memory _ negative => exact negative rfl
  | send found' _ _ written =>
    cases found.symm.trans found'
    change k₁ = _ at written
    have woken : (k₁.envs e).envIpcRecving = false := by
      rw [written]
      simp [Kernel.setEnv, deliveredEnv]
    change k₁.envs e = k.envs e at same
    rw [same, waiting] at woken
    cases woken

theorem Sound.sysIpcTrySend_failed (sound : Sound managed k g) (live : k.Live c) {envid : EnvId}
    {value : BitVec 32} {srcva : Nat} {perm : BitVec 32} {result : Int}
    (orderly : OrderlyCall k c (.ipcTrySend envid value srcva perm)) (failed : result < 0)
    (ran : Jos.sysIpcTrySend k c envid value srcva perm ambient = some (result, k')) :
    ∃ g', Change managed k g k' g' .walks := by
  cases sound.sysIpcTrySend live orderly ran with
  | rejected _ same =>
    subst same
    exact ⟨g, .refl sound⟩
  | notMapped _ _ _ _ same looked =>
    subst same
    exact ⟨_, (looked.memoryCall sound).change.mono Footprint.walk_le_walks⟩
  | plain | refused | noTable | done => exact absurd failed (lt_irrefl 0)

theorem Change.translateIn {footprint : Footprint} (sound : Sound managed k g)
    (change : Change managed k g k' g' footprint) (live : k.Live e) (live' : k'.Live e) {va : Nat}
    (low : va < utop)
    (outside : ¬ footprint.stores ((Place.root (some e)).table va) (ptx va)) :
    k'.pmap.translateIn (k'.envs e).envPml4e va = k.pmap.translateIn (k.envs e).envPml4e va := by
  have user := Place.user_of_low low
  rw [sound.translateIn live user, change.sound.translateIn live' user, leafOf, leafOf,
    change.keeps.leaves (by rw [Place.table_path user]; rfl) _ outside]

theorem sample_pageAlloc_beside (va : Nat) (aligned : va % pgSize = 0) (bound : va ≤ utop) :
    ∃ (k k' : Kernel 4096) (g g' : Ledger 4096) (c e : EnvIdx) (page : Fin 4096),
      Reached sample Orderly k ∧ Fresh sample k g 998 ∧ k.Live c ∧ k.Unrelated c e ∧
      page ∈ sample.managed ∧
      syscall k c ⟨none, 0, none⟩ (.pageAlloc 0 va permUser) = some (.returns 0, k') ∧
      MemoryCall sample.managed k g k' g' (.slot (.root (some c)) va) ∧
      leafOf k' g' c va = ⟨page.val, permUser.setWidth 12 ||| pteP⟩ := by
  obtain ⟨k, g, c, e, reached, fresh, live, live', differs, orphan⟩ :=
    sample_envs Orderly fun _ => trivial
  have unrelated : k.Unrelated c e := by
    refine ⟨live', differs.symm, fun parent => ?_⟩
    have positive := (fresh.sound.ids live).1
    rw [← parent, orphan] at positive
    exact absurd positive (by decide)
  obtain ⟨k', page, g', ran, managed, after, there, -⟩ :=
    fresh.pageAlloc (by decide) live aligned bound
  refine ⟨k, k', g, g', c, e, page, reached, fresh, live, unrelated, managed, ?_, after, there⟩
  simp only [syscall, ran, returning, Option.map_some]

def sharedBase : Nat := 2 ^ 39

end Jos
