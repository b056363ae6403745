import Jos.Environment.Alloc
import Jos.Kern.Event
import Jos.Memory.Alike

/-! Two kernels that differ in what destroyed environments have left behind: `env_alloc`
and `env_free` do the same to both. -/

set_option autoImplicit false

namespace Jos

open Foundation

variable {npages : Nat} {managed : Set (Fin npages)} {roots : EnvIdx → Option (Fin npages)}
  {m m' m₁ : Pmap npages} {g g' : Ledger npages} {page root pt pgdir pdpt : Fin npages}
  {e : EnvIdx} {i k : Index}

namespace Valid

section

variable (valid : Valid managed roots m g)

include valid

theorem freePtes_alike (alike : m.Alike m')
    (rooted : roots e = some root) (here : g.table ⟨some e, [k, i, 0]⟩ = some pt)
    (ran : freePtes (some root) pt i k m = some m₁) :
    ∃ m₁', freePtes (some root) pt i k m' = some m₁' ∧ m₁.Alike m₁' := by
  have loop := foldlM_related ran
    (fun m m' => m.Alike m' ∧ ∃ g, Valid managed roots m g ∧
      g.table ⟨some e, [k, i, 0]⟩ = some pt) ⟨alike, g, valid, here⟩ ?_
  · obtain ⟨m₁', ended, alike₁, -⟩ := loop
    exact ⟨m₁', ended, alike₁⟩
  rintro pteno - m m' m₁ ⟨alike, g, valid, here⟩ stepped
  have top := valid.top rooted
  simp only [alike.at_placed valid ⟨_, here⟩]
  obtain ⟨place, index, user⟩ := table_low (e := e) (i := i) (k := k) (t := Fin.ofNat 512 pteno)
  rcases valid.tree.leaf here mappable_low (t := Fin.ofNat 512 pteno) with empty | ⟨target, maps⟩
  · rw [empty] at stepped ⊢
    simp only [Pte.present_zero, Bool.false_eq_true, if_false, Option.some.injEq] at stepped ⊢
    subst stepped
    exact ⟨m', rfl, alike, g, valid, here⟩
  · rw [maps.present, if_pos rfl] at stepped ⊢
    obtain ⟨m₁', removed', alike₁⟩ := valid.pageRemove_alike alike top stepped
    have removed := valid.pageRemove_mapped rooted user (place.symm ▸ here) (index.symm ▸ maps)
    rw [index, stepped] at removed
    obtain ⟨m₂, dropped, rfl⟩ := Option.map_eq_some_iff.mp removed.symm
    obtain ⟨g₁, stored, tables, -⟩ := valid.unmap here mappable_low maps dropped
    exact ⟨m₁', removed', alike₁, g₁, stored.valid, by rw [tables, here]⟩

theorem freePde_alike (alike : m.Alike m')
    (rooted : roots e = some root) (here : g.table ⟨some e, [i, 0]⟩ = some pgdir)
    (ran : freePde (some root) pgdir i k m = some m₁) :
    ∃ m₁', freePde (some root) pgdir i k m' = some m₁' ∧ m₁.Alike m₁' := by
  have linked := valid.tree.link here (by simp) k
  rw [Place.child_cons] at linked
  unfold freePde at ran ⊢
  rw [alike.at_placed valid ⟨_, here⟩]
  cases there : g.table ⟨some e, [k, i, 0]⟩ with
  | none =>
    rw [there] at linked
    have empty : m.mem pgdir k = 0 := linked
    simp only [empty, Pte.present_zero, Bool.false_eq_true, if_false,
      Option.some.injEq] at ran ⊢
    subst ran
    exact ⟨m', rfl, alike⟩
  | some pt =>
    rw [there] at linked
    have full : m.mem pgdir k = ⟨pt.val, tablePerm⟩ := linked
    simp only [full, present_table, if_true, kaddr_val, Option.bind_eq_bind,
      Option.bind_some, pa2page_val] at ran ⊢
    obtain ⟨m₂, emptied, dropped⟩ := Option.bind_eq_some_iff.mp ran
    obtain ⟨m₂', emptied', alike₂⟩ := valid.freePtes_alike alike rooted there emptied
    obtain ⟨g₂, spec⟩ := freePtes_spec valid rooted there emptied
    rw [emptied', Option.bind_some]
    exact (alike₂.setEntry (pgdir, k) 0).pageDecref (spec.valid.pool.congr rfl rfl) dropped

theorem freePdpe_alike (alike : m.Alike m')
    (rooted : roots e = some root) (here : g.table ⟨some e, [0]⟩ = some pdpt)
    (ran : freePdpe (some root) pdpt i m = some m₁) :
    ∃ m₁', freePdpe (some root) pdpt i m' = some m₁' ∧ m₁.Alike m₁' := by
  have linked := valid.tree.link here (by simp) i
  rw [Place.child_cons] at linked
  unfold freePdpe at ran ⊢
  rw [alike.at_placed valid ⟨_, here⟩]
  cases there : g.table ⟨some e, [i, 0]⟩ with
  | none =>
    rw [there] at linked
    have empty : m.mem pdpt i = 0 := linked
    simp only [empty, Pte.present_zero, Bool.false_eq_true, if_false,
      Option.some.injEq] at ran ⊢
    subst ran
    exact ⟨m', rfl, alike⟩
  | some pgdir =>
    rw [there] at linked
    have full : m.mem pdpt i = ⟨pgdir.val, tablePerm⟩ := linked
    simp only [full, present_table, if_true, kaddr_val, Option.bind_eq_bind,
      Option.bind_some] at ran ⊢
    obtain ⟨m₂, looped, ran⟩ := Option.bind_eq_some_iff.mp ran
    obtain ⟨m₂', looped', alike₂, g₂, valid₂, here₂, -⟩ := foldlM_related looped
      (fun m m' => m.Alike m' ∧ ∃ g, Valid managed roots m g ∧
        g.table ⟨some e, [0]⟩ = some pdpt ∧ g.table ⟨some e, [i, 0]⟩ = some pgdir)
      ⟨alike, g, valid, here, there⟩ (by
        rintro pdeno - m m' m₁ ⟨alike, g, valid, here, there⟩ stepped
        obtain ⟨m₁', stepped', alike₁⟩ := valid.freePde_alike alike rooted there stepped
        obtain ⟨g₁, freed, -⟩ := freePde_spec valid rooted there stepped
        exact ⟨m₁', stepped', alike₁, g₁, freed.valid, freed.present here (by simp),
          freed.present there (by simp)⟩)
    rw [looped', Option.bind_some, alike₂.at_placed valid₂ ⟨_, here₂⟩]
    obtain ⟨target, found, dropped⟩ := Option.bind_eq_some_iff.mp ran
    rw [found, Option.bind_some]
    exact (alike₂.setEntry (pdpt, i) 0).pageDecref (valid₂.pool.congr rfl rfl) dropped

theorem freePdpes_alike (alike : m.Alike m')
    (rooted : roots e = some root) (here : g.table ⟨some e, [0]⟩ = some pdpt)
    (ran : ([0, 1, 2, 3] : List Index).foldlM (fun m i => freePdpe (some root) pdpt i m) m =
      some m₁) :
    ∃ m₁', ([0, 1, 2, 3] : List Index).foldlM (fun m i => freePdpe (some root) pdpt i m) m' =
      some m₁' ∧ m₁.Alike m₁' ∧ ∃ g₁, Valid managed roots m₁ g₁ ∧
        g₁.table (.root (some e)) = some root := by
  obtain ⟨m₁', looped', alike₁, g₁, valid₁, -⟩ := foldlM_related ran
    (fun m m' => m.Alike m' ∧ ∃ g, Valid managed roots m g ∧
      g.table ⟨some e, [0]⟩ = some pdpt) ⟨alike, g, valid, here⟩ (by
        rintro i - m m' m₁ ⟨alike, g, valid, here⟩ stepped
        obtain ⟨m₁', stepped', alike₁⟩ := valid.freePdpe_alike alike rooted here stepped
        obtain ⟨g₁, freed, -⟩ := freePdpe_spec valid rooted here stepped
        refine ⟨m₁', stepped', alike₁, g₁, freed.valid, freed.present here fun below => ?_⟩
        simpa using Place.below_length below)
  exact ⟨m₁', looped', alike₁, g₁, valid₁, valid₁.top rooted⟩

end

end Valid

/-- What a slot that holds no environment still says: everything else in it is left
over. -/
structure Env.Leftover (env env' : Env npages) : Prop where
  pml4e : env'.envPml4e = env.envPml4e
  id : env'.envId = env.envId
  link : env'.envLink = env.envLink
  status : env'.envStatus = env.envStatus

/-- What `env_alloc` does not set is as `env_init` has left it. -/
def Env.Blank (env : Env npages) : Prop :=
  env.envCpunum = 0 ∧ env.envIpcDstva = 0 ∧ env.envIpcValue = 0 ∧ env.envIpcFrom = 0 ∧
    env.envIpcPerm = 0

/-- The kernels differ at most in the contents of free pages and of free slots. -/
structure Kernel.Alike (k k' : Kernel npages) : Prop where
  pmap : k.pmap.Alike k'.pmap
  list : k'.envFreeList = k.envFreeList
  live : ∀ e, k.Live e → k'.envs e = k.envs e
  dead : ∀ e, ¬ k.Live e → (k.envs e).Leftover (k'.envs e)

namespace Kernel.Alike

variable {k k' k₁ : Kernel npages} {c : EnvIdx} {env env' : Env npages}

theorem leftover (alike : k.Alike k') (e : EnvIdx) : (k.envs e).Leftover (k'.envs e) := by
  by_cases live : k.Live e
  · rw [alike.live e live]
    exact ⟨rfl, rfl, rfl, rfl⟩
  · exact alike.dead e live

theorem roots_eq (alike : k.Alike k') : k'.roots = k.roots :=
  funext fun e => (alike.leftover e).pml4e

theorem live_iff (alike : k.Alike k') : k'.Live c ↔ k.Live c := by
  rw [Kernel.Live, Kernel.Live, (alike.leftover c).pml4e]

theorem setPmap (alike : k.Alike k') {m m' : Pmap npages} (pmap : m.Alike m') :
    (k.setPmap m).Alike (k'.setPmap m') :=
  ⟨pmap, alike.list, alike.live, alike.dead⟩

theorem setEnv_same : (k.setEnv e env).envs e = env := Function.update_self ..

theorem setEnv_other (differs : c ≠ e) : (k.setEnv e env).envs c = k.envs c :=
  Function.update_of_ne differs ..

section

variable (alike : k.Alike k')

include alike

theorem update (e : EnvIdx) (leftover : env.Leftover env')
    (same : env.envPml4e ≠ none → env' = env) : (k.setEnv e env).Alike (k'.setEnv e env') where
  pmap := alike.pmap
  list := alike.list
  live x live := by
    by_cases here : x = e
    · subst here
      rw [Kernel.Live, setEnv_same] at live
      rw [setEnv_same, setEnv_same, same live]
    · rw [Kernel.Live, setEnv_other here] at live
      rw [setEnv_other here, setEnv_other here, alike.live x live]
  dead x _ := by
    by_cases here : x = e
    · subst here
      rw [setEnv_same, setEnv_same]
      exact leftover
    · rw [setEnv_other here, setEnv_other here]
      exact alike.leftover x

theorem setEnv (e : EnvIdx) (env : Env npages) : (k.setEnv e env).Alike (k'.setEnv e env) :=
  alike.update e ⟨rfl, rfl, rfl, rfl⟩ fun _ => rfl

theorem setStatus (e : EnvIdx) (status : EnvStatus) :
    (k.setStatus e status).Alike (k'.setStatus e status) := by
  have leftover := alike.leftover e
  refine alike.update e ⟨leftover.pml4e, leftover.id, leftover.link, rfl⟩ fun live => ?_
  rw [alike.live e live]

theorem envid2env (idle : ∀ e, ¬ k.Live e → (k.envs e).envStatus = .free)
    (live : k.Live c) (envid : EnvId) (checkperm : Bool) :
    Jos.envid2env k' c envid checkperm = Jos.envid2env k c envid checkperm := by
  unfold Jos.envid2env
  dsimp only
  have leftover := alike.leftover (envx envid)
  by_cases there : k.Live (envx envid)
  · rw [alike.live _ there, alike.live _ live]
  · have free := idle _ there
    simp only [leftover.status, free, true_or, if_true]

theorem envFree (sound : Sound managed k g) {root : Fin npages}
    (rooted : (k.envs e).envPml4e = some root) (clean : Jos.Clean k.pmap root)
    (ran : Jos.envFree k e = some k₁) : ∃ k₁', Jos.envFree k' e = some k₁' ∧ k₁.Alike k₁' := by
  have valid := sound.valid
  have top := valid.top rooted
  have live : k.Live e := Kernel.live_of rooted
  simp only [Jos.envFree, alike.live e live, alike.list]
  simp only [Jos.envFree, rooted, Option.bind_eq_bind, Option.bind_some, sound.cr3 rooted,
    pa2page_val] at ran ⊢
  rw [alike.pmap.at_placed valid ⟨_, top⟩]
  obtain ⟨pdpt, first, ran⟩ := Option.bind_eq_some_iff.mp ran
  obtain ⟨m₁, looped, ran⟩ := Option.bind_eq_some_iff.mp ran
  obtain ⟨page, second, ran⟩ := Option.bind_eq_some_iff.mp ran
  obtain ⟨m₂, dropped, ran⟩ := Option.bind_eq_some_iff.mp ran
  obtain ⟨m₃, dropped', ran⟩ := Option.bind_eq_some_iff.mp ran
  cases ran
  obtain ⟨g₂, freed, -⟩ := sound.freeUser rooted clean first looped second dropped
  have looped' : ∃ m₁', ([0, 1, 2, 3] : List Index).foldlM
      (fun m i => freePdpe (some root) pdpt i m) k'.pmap = some m₁' ∧ m₁.Alike m₁' ∧
      ∃ g₁, Valid managed k.roots m₁ g₁ ∧ g₁.table (.root (some e)) = some root := by
    have linked := valid.tree.link top (by simp) 0
    rw [Place.child_first] at linked
    cases there : g.table ⟨some e, [0]⟩ with
    | some table =>
      have full : k.pmap.mem root 0 = ⟨table.val, tablePerm⟩ := by rw [linked, there]; rfl
      rw [full, kaddr_val] at first
      cases first
      exact valid.freePdpes_alike alike.pmap rooted there looped
    | none =>
      -- page 0 is never free, and no table is found in it
      have empty : k.pmap.mem root 0 = 0 := by rw [linked, there]; rfl
      have zero : pdpt.val = 0 := by
        rw [empty] at first
        unfold kaddr at first
        split at first
        · rw [← Option.some.inj first]
          rfl
        · cases first
      have outside := (sound.reserved pdpt zero).1
      have same : k'.pmap.mem pdpt = k.pmap.mem pdpt := alike.pmap.at_of valid fun listed =>
        outside (valid.pool.member pdpt listed).1
      rw [freeNothing (clean empty pdpt zero)] at looped
      cases looped
      refine ⟨k'.pmap, freeNothing fun i member => ?_, alike.pmap, g, valid, top⟩
      rw [same]
      exact clean empty pdpt zero i member
  obtain ⟨m₁', looped', alike₁, g₁, valid₁, top₁⟩ := looped'
  obtain ⟨m₂', dropped₂, alike₂⟩ := alike₁.pageDecref valid₁.pool dropped
  obtain ⟨m₃', dropped₃, alike₃⟩ :=
    (alike₂.setEntry (root, 0) 0).pageDecref freed.valid.pool dropped'
  refine ⟨_, by simp only [first, Option.bind_some, looped', alike₁.at_placed valid₁ ⟨_, top₁⟩,
    second, dropped₂, dropped₃]; rfl, ?_⟩
  obtain ⟨pmap, -, lives, deads⟩ := (alike.setPmap alike₃).setEnv e
    { k.envs e with envPml4e := none, envCr3 := 0, envStatus := .free, envLink := k.envFreeList }
  exact ⟨pmap, rfl, lives, deads⟩

theorem setupVm (valid : Valid managed k.roots k.pmap g)
    {rest : List (Fin npages)} (listed : g.free = root :: rest) :
    (k.pmap.setupVm root).Alike (k'.pmap.setupVm root) := by
  have first := (alike.pmap.take valid listed (.inl (rfl : true = true))).incRef root
  have bootRoot : k.pmap.bootPml4e ≠ root := by
    rintro rfl
    exact (valid.free_unused (by simp [listed])).unplaced ⟨_, valid.tree.bootRoot⟩
  have entries : ((k'.pmap.take root true).incRef root).entry
      (((k'.pmap.take root true).incRef root).bootPml4e, 1) =
      ((k.pmap.take root true).incRef root).entry
        (((k.pmap.take root true).incRef root).bootPml4e, 1) := by
    simp only [Pmap.entry, Pmap.incRef_mem, Pmap.incRef_boot, Pmap.take_boot, alike.pmap.boot,
      Pmap.take_mem_ne bootRoot]
    rw [alike.pmap.at_placed valid ⟨_, valid.tree.bootRoot⟩]
  simp only [Pmap.setupVm, entries]
  exact (first.setEntry _ _).setEntry _ _

theorem envAlloc (sound : Sound managed k g) (parentId : EnvId)
    (blank : ∀ e, k.envFreeList = some e → (k.envs e).Blank ∧ (k'.envs e).Blank) :
    match Jos.envAlloc k parentId with
    | .error result => Jos.envAlloc k' parentId = .error result
    | .ok (e, k₁) => ∃ k₁', Jos.envAlloc k' parentId = .ok (e, k₁') ∧ k₁.Alike k₁' ∧ k₁.Live e := by
  have valid := sound.valid
  have valid' : Valid managed k'.roots k'.pmap g := by
    rw [alike.roots_eq]
    exact alike.pmap.valid valid
  rw [envAlloc_eq parentId valid, envAlloc_eq parentId valid', alike.list]
  cases head : k.envFreeList with
  | none => rfl
  | some e =>
    cases listed : g.free with
    | nil => rfl
    | cons root rest =>
      have leftover := alike.leftover e
      obtain ⟨⟨cpunum, dstva, value, sender, perm⟩, cpunum', dstva', value', sender', perm'⟩ :=
        blank e head
      have same : allocatedEnv (k'.envs e) e parentId root =
          allocatedEnv (k.envs e) e parentId root := by
        simp only [allocatedEnv, leftover.id, leftover.link, cpunum, dstva, value, sender, perm,
          cpunum', dstva', value', sender', perm']
      obtain ⟨pmap, -, lives, deads⟩ := (alike.setPmap (alike.setupVm valid listed)).setEnv e
        (allocatedEnv (k.envs e) e parentId root)
      refine ⟨_, rfl, ⟨pmap, leftover.link, ?_, ?_⟩, ?_⟩
      · rw [same]
        exact lives
      · rw [same]
        exact deads
      · change (Function.update k.envs e (allocatedEnv (k.envs e) e parentId root) e).envPml4e ≠ none
        rw [Function.update_self]
        exact Option.some_ne_none root

end

end Kernel.Alike

end Jos
