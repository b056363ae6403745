import Jos.Calls.Effect
import Jos.Calls.Memory

/-! The calls on environments, the checks of user buffers and the creation of the
first environments, each on a sound kernel state. -/

set_option autoImplicit false

namespace Jos

open Foundation Function

variable {npages : Nat} {managed : Set (Fin npages)} {g g' : Ledger npages}
  {k k' k'' : Kernel npages} {c e : EnvIdx}

/-- A step that keeps the kernel state sound and acts within a footprint. -/
structure Change (managed : Set (Fin npages)) (k : Kernel npages) (g : Ledger npages)
    (k' : Kernel npages) (g' : Ledger npages) (footprint : Footprint) : Prop where
  sound : Sound managed k' g'
  keeps : Keeps managed k.pmap g k'.pmap g' footprint

section
variable {footprint footprint' : Footprint}

theorem Change.refl (sound : Sound managed k g) : Change managed k g k g footprint :=
  ⟨sound, .refl _ _⟩

theorem Change.mono (change : Change managed k g k' g' footprint) (more : footprint ≤ footprint') :
    Change managed k g k' g' footprint' :=
  ⟨change.sound, change.keeps.mono more⟩

theorem Change.trans {g'' : Ledger npages} (first : Change managed k g k' g' footprint)
    (second : Change managed k' g' k'' g'' footprint) : Change managed k g k'' g'' footprint :=
  ⟨second.sound, first.keeps.trans second.keeps⟩

theorem MemoryCall.change (call : MemoryCall managed k g k' g' footprint) :
    Change managed k g k' g' footprint :=
  ⟨call.sound, call.keeps⟩

end

/-- Two records of a slot with the same page table and the same identifier. -/
structure SameSpace (env env' : Env npages) : Prop where
  pml4e : env'.envPml4e = env.envPml4e
  cr3 : env'.envCr3 = env.envCr3
  link : env'.envLink = env.envLink
  id : env'.envId = env.envId
  idle : env.envPml4e = none → env'.envStatus = env.envStatus

theorem Kernel.roots_setEnv {env : Env npages} (same : env.envPml4e = (k.envs e).envPml4e) :
    (k.setEnv e env).roots = k.roots := by
  funext e'
  by_cases here : e' = e
  · subst here
    simpa [Kernel.roots, Kernel.setEnv] using same
  · simp [Kernel.roots, Kernel.setEnv, here]

theorem Sound.setEnv (sound : Sound managed k g) {env : Env npages}
    (same : SameSpace (k.envs e) env) : Sound managed (k.setEnv e env) g where
  valid := (Kernel.roots_setEnv same.pml4e).symm ▸ sound.valid
  shared := sound.shared
  cr3 {e' root} there := by
    by_cases here : e' = e
    · subst here
      simp only [Kernel.setEnv, update_self] at there ⊢
      rw [same.cr3]
      exact sound.cr3 (same.pml4e ▸ there)
    · simp only [Kernel.setEnv, update_of_ne here] at there ⊢
      exact sound.cr3 there
  slots := by
    obtain ⟨slots, chain, member⟩ := sound.slots
    refine ⟨slots, chain.congr fun e' _ => ?_, fun e' => ?_⟩
    · by_cases here : e' = e
      · subst here
        simpa [Kernel.setEnv] using same.link
      · simp [Kernel.setEnv, here]
    · by_cases here : e' = e
      · subst here
        simpa [Kernel.setEnv, same.pml4e] using member e'
      · simpa [Kernel.setEnv, here] using member e'
  idle {e'} there := by
    by_cases here : e' = e
    · subst here
      simp only [Kernel.setEnv, update_self] at there ⊢
      rw [same.pml4e] at there
      rw [same.idle there]
      exact sound.idle there
    · simp only [Kernel.setEnv, update_of_ne here] at there ⊢
      exact sound.idle there
  ids {e'} there := by
    by_cases here : e' = e
    · subst here
      simp only [Kernel.setEnv, update_self] at there ⊢
      rw [same.id]
      exact sound.ids (same.pml4e ▸ there)
    · simp only [Kernel.setEnv, update_of_ne here] at there ⊢
      exact sound.ids there
  reserved := sound.reserved

theorem Sound.setEnv_change (sound : Sound managed k g) {env : Env npages} {footprint : Footprint}
    (same : SameSpace (k.envs e) env) : Change managed k g (k.setEnv e env) g footprint :=
  ⟨sound.setEnv same, .refl _ _⟩

theorem Sound.envid2env_root (sound : Sound managed k g) (live : k.Live c) {envid : EnvId}
    {checkperm : Bool} (found : envid2env k c envid checkperm = some e) : k.Live e := by
  obtain ⟨root, rooted⟩ := sound.envid2env_live live found
  exact fun rootless => by simp [rootless] at rooted

/-- What `env_free` reads of physical page 0 does no harm. -/
def Kernel.Clean (k : Kernel npages) (e : EnvIdx) : Prop :=
  ∀ root, (k.envs e).envPml4e = some root → Jos.Clean k.pmap root

theorem Vacated.dead (vacated : Vacated managed k g k' g' e) : ¬ k'.Live e := by
  rw [Kernel.Live, vacated.envs, update_self, not_not]

theorem Sound.envFree_change (sound : Sound managed k g) (clean : k.Clean e)
    (ran : Jos.envFree k e = some k') :
    ∃ g', Change managed k g k' g' (.space e) ∧ Vacated managed k g k' g' e := by
  have rooted : ∃ root, (k.envs e).envPml4e = some root := by
    obtain ⟨root, there, -⟩ := Option.bind_eq_some_iff.mp ran
    exact ⟨root, there⟩
  obtain ⟨root, rooted⟩ := rooted
  obtain ⟨g', sound', vacated⟩ := sound.envFree rooted (clean root rooted) ran
  exact ⟨g', ⟨sound', vacated.keeps⟩, vacated⟩

namespace Footprint

def walks : Footprint := ⟨fun _ _ => False, fun _ => True⟩

theorem walk_le_walks {a : Place} {va : Nat} : walk a va ≤ walks :=
  ⟨fun _ _ => id, fun _ _ => trivial⟩

/-- Tables anywhere, and the address space of an environment that is gone
afterwards. -/
def ending (k' : Kernel npages) (e : EnvIdx) : Footprint :=
  ⟨fun a _ => a.owner = some e ∧ ¬ k'.Live e, fun _ => True⟩

theorem walks_le_ending : walks ≤ ending k' e :=
  ⟨fun _ _ => False.elim, fun _ => id⟩

theorem space_le_ending (dead : ¬ k'.Live e) : space e ≤ ending k' e :=
  ⟨fun _ _ own => ⟨own, dead⟩, fun _ _ => trivial⟩

end Footprint

section

variable (sound : Sound managed k g)

include sound

theorem Sound.userMemCheckLoop {root : Fin npages}
    (rooted : (k.envs c).envPml4e = some root) {perm : BitVec 12} {rounds va : Nat} {passed : Bool}
    {m' : Pmap npages}
    (ran : Jos.userMemCheckLoop k.pmap (some root) perm rounds va = some (passed, m')) :
    ∃ g', MemoryCall managed k g (k.setPmap m') g' .walks ∧
      ∀ {a page}, g.table a = some page → g'.table a = some page := by
  induction rounds generalizing k g va with
  | zero =>
    cases ran
    exact ⟨g, .refl sound, id⟩
  | succ rounds ih =>
    unfold Jos.userMemCheckLoop at ran
    split at ran
    · obtain ⟨rfl, rfl⟩ := Prod.mk.inj (Option.some.inj ran)
      exact ⟨g, .refl sound, id⟩
    · obtain ⟨⟨found, m₁⟩, looked, ran⟩ := Option.bind_eq_some_iff.mp ran
      have here := sound.valid.top rooted
      obtain ⟨g₁, spec⟩ := sound.valid.pageLookup_looked here rfl (.inl (by simp)) looked
      have first := (spec.memoryCall sound).mono Footprint.walk_le_walks
      have ended : ∃ g', MemoryCall managed k g (k.setPmap m₁) g' .walks ∧
          ∀ {a page}, g.table a = some page → g'.table a = some page :=
        ⟨g₁, first, spec.grows.table⟩
      cases found with
      | none =>
        cases ran
        exact ended
      | some found =>
        simp only at ran
        split at ran
        · obtain ⟨rfl, rfl⟩ := Prod.mk.inj (Option.some.inj ran)
          exact ended
        · obtain ⟨g₂, second, more⟩ := ih (k := k.setPmap m₁) first.sound rooted ran
          exact ⟨g₂, first.trans second, fun there => more (spec.grows.table there)⟩

/-- A first PML4 entry that is empty after tables have been made was empty before. -/
theorem Sound.empty_walks {root : Fin npages} {m' : Pmap npages}
    (after : MemoryCall managed k g (k.setPmap m') g' .walks)
    (more : ∀ {a page}, g.table a = some page → g'.table a = some page)
    (rooted : (k.envs c).envPml4e = some root) (empty : m'.mem root 0 = 0) :
    k.pmap.mem root 0 = 0 := by
  have here := sound.valid.top rooted
  rw [sound.valid.tree.link here (by simp) 0]
  cases there : g.table ((Place.root (some c)).child 0) with
  | none => rfl
  | some page =>
    have entry := after.sound.valid.tree.link (more here) (by simp) 0
    rw [more there] at entry
    exact absurd (entry.symm.trans empty) table_ne_zero

/-- Creating tables does not make a first PML4 entry empty, and leaves page 0. -/
theorem Sound.clean_walks {m' : Pmap npages}
    (after : MemoryCall managed k g (k.setPmap m') g' .walks)
    (more : ∀ {a page}, g.table a = some page → g'.table a = some page) (clean : k.Clean c) :
    (k.setPmap m').Clean c := by
  intro root rooted empty zero isZero i low
  have before := sound.empty_walks after more rooted empty
  obtain ⟨outside, other⟩ := sound.reserved zero isZero
  have same : m'.mem zero = k.pmap.mem zero := after.keeps.idle zero outside other
  change (m'.mem zero i).present = false
  rw [same]
  exact clean root rooted before zero isZero i low

theorem Sound.userMemAssert (live : k.Live c) (clean : k.Clean c)
    {va len : Nat} {perm : BitVec 12} {passed : Bool}
    (ran : Jos.userMemAssert k c va len perm = some (passed, k')) :
    ∃ g', Change managed k g k' g' (if passed then .walks else .ending k' c) ∧
      (passed = true → k'.Clean c ∧ k'.envs = k.envs ∧ k'.envFreeList = k.envFreeList) ∧
      (passed = false → ∃ m, Jos.envFree (k.setPmap m) c = some k') := by
  obtain ⟨root, rooted⟩ := live.root
  obtain ⟨m, checked, after⟩ := userMemAssert_cases ran
  rw [rooted] at checked
  obtain ⟨g₁, walked, more⟩ := sound.userMemCheckLoop rooted checked
  have still := sound.clean_walks walked more clean
  cases passed with
  | true =>
    have same : k' = k.setPmap m := after
    subst same
    exact ⟨g₁, walked.change, fun _ => ⟨still, rfl, rfl⟩, nofun⟩
  | false =>
    have freed : Jos.envFree (k.setPmap m) c = some k' := after
    obtain ⟨g₂, change, vacated⟩ := walked.sound.envFree_change still freed
    exact ⟨g₂, (walked.change.mono Footprint.walks_le_ending).trans
      (change.mono (Footprint.space_le_ending vacated.dead)), nofun, fun _ => ⟨m, freed⟩⟩

theorem Sound.checkedCall (live : k.Live c) (clean : k.Clean c)
    {va len : Nat} {answer : Int} {outcome : Outcome}
    (ran : Jos.checkedCall k c va len answer = some (outcome, k')) :
    ∃ g', Change managed k g k' g' (.ending k' c) := by
  obtain ⟨⟨passed, k₁⟩, asserted, ran⟩ := Option.bind_eq_some_iff.mp ran
  cases ran
  obtain ⟨g', change, -⟩ := sound.userMemAssert live clean asserted
  refine ⟨g', change.mono ?_⟩
  split
  · exact Footprint.walks_le_ending
  · exact ⟨fun _ _ => id, fun _ => id⟩

theorem Sound.pageFaultHandler (live : k.Live c) (clean : k.Clean c)
    {exit : Exit} (ran : Jos.pageFaultHandler k c = some (exit, k')) :
    ∃ g', Change managed k g k' g' (.ending k' c) := by
  have destroyed {k : Kernel npages} {g : Ledger npages} (sound : Sound managed k g)
      (clean : k.Clean c) (ran : destroyCurenv k c = some (exit, k')) :
      ∃ g', Change managed k g k' g' (.ending k' c) := by
    obtain ⟨⟨how, k₁⟩, destroy, ran⟩ := Option.bind_eq_some_iff.mp ran
    cases ran
    rcases envDestroy_cases destroy with ⟨-, other, -⟩ | ⟨-, freed, -⟩
    · exact absurd rfl other
    · obtain ⟨g', change, vacated⟩ := sound.envFree_change clean freed
      exact ⟨g', change.mono (Footprint.space_le_ending vacated.dead)⟩
  unfold Jos.pageFaultHandler at ran
  split at ran
  · exact destroyed sound clean ran
  · obtain ⟨⟨passed, k₁⟩, asserted, ran⟩ := Option.bind_eq_some_iff.mp ran
    obtain ⟨g₁, change, still, -⟩ := sound.userMemAssert live clean asserted
    simp only at ran
    split at ran
    · rename_i failed
      cases ran
      rw [if_neg failed] at change
      exact ⟨g₁, change⟩
    · rename_i accepted
      have accepted : passed = true := by simpa using accepted
      rw [if_pos accepted] at change
      have walked : Change managed k g k₁ g₁ (.ending k' c) :=
        change.mono Footprint.walks_le_ending
      split at ran
      · obtain ⟨g₂, freed⟩ := destroyed change.sound (still accepted).1 ran
        exact ⟨g₂, walked.trans freed⟩
      · obtain ⟨found, -, ran⟩ := Option.bind_eq_some_iff.mp ran
        split at ran
        · obtain ⟨rfl, rfl⟩ := Prod.mk.inj (Option.some.inj ran)
          exact ⟨g₁, walked.trans (change.sound.setEnv_change ⟨rfl, rfl, rfl, rfl, fun _ => rfl⟩)⟩
        · cases ran

end

end Jos
