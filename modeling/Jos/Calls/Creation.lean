import Jos.Calls.Environment

/-! `sys_exofork` and `env_create` on a sound kernel state. -/

set_option autoImplicit false

namespace Jos

open Foundation

variable {npages : Nat} {managed : Set (Fin npages)} {g g' : Ledger npages}
  {k k' k₁ : Kernel npages} {e : EnvIdx}

theorem Sound.envAlloc_change (sound : Sound managed k g) {parentId : EnvId}
    (ran : Jos.envAlloc k parentId = .ok (e, k')) :
    ∃ g', Change managed k g k' g' (.space e) ∧ Allocated managed k g k' g' e parentId := by
  obtain ⟨g', sound', allocated⟩ := sound.envAlloc ran
  exact ⟨g', ⟨sound', allocated.keeps⟩, allocated⟩

theorem Allocated.root {parentId : EnvId} (allocated : Allocated managed k g k' g' e parentId) :
    ∃ root, (k'.envs e).envPml4e = some root ∧
      k'.envs = Function.update k.envs e (allocatedEnv (k.envs e) e parentId root) := by
  obtain ⟨root, envs, -⟩ := allocated.envs
  exact ⟨root, by simp [envs, allocatedEnv], envs⟩

theorem Sound.sysExofork (sound : Sound managed k g) {parentId : EnvId} {tf : Trapframe}
    (allocated : Jos.envAlloc k parentId = .ok (e, k₁)) :
    ∃ g', Change managed k g (k₁.setEnv e (forkedEnv (k₁.envs e) tf)) g' (.space e) ∧
      Allocated managed k g k₁ g' e parentId := by
  obtain ⟨g', change, spec⟩ := sound.envAlloc_change allocated
  obtain ⟨root, rooted, -⟩ := spec.root
  exact ⟨g', change.trans (change.sound.setEnv_change
    ⟨rfl, rfl, rfl, rfl, fun rootless => by simp [rootless] at rooted⟩), spec⟩

/-- The pages of a region lie in the first slot of the PML4. -/
def LowRegion (va len : Nat) : Prop :=
  va / pgSize * pgSize + (len + pgSize) / pgSize * pgSize ≤ 2 ^ 39

instance (va len : Nat) : Decidable (LowRegion va len) := inferInstanceAs (Decidable (_ ≤ _))

def Binary.Low (binary : Binary) : Prop :=
  ∀ segment ∈ binary.segments, LowRegion segment.1 segment.2

theorem Footprint.slot_le_space {va : Nat} (low : va < 2 ^ 39) :
    Footprint.slot (.root (some e)) va ≤ .space e := by
  have first : pml4 va = 0 := Fin.ext (by rw [pml4_eq]; simp; omega)
  have own : ((Place.root (some e)).table va).owner = some e := by
    rw [Place.table_own (by simp [first]) (by rw [first]; decide)]
  refine ⟨?_, ?_⟩
  · rintro a t ⟨rfl, -⟩
    exact own
  · rintro o rfl
    exact own

section

variable (sound : Sound managed k g)

include sound

theorem Sound.regionAllocLoop {root : Fin npages}
    (rooted : (k.envs e).envPml4e = some root) {rounds va : Nat} {m' : Pmap npages}
    (low : va + rounds * pgSize ≤ 2 ^ 39)
    (ran : Jos.regionAllocLoop (some root) rounds va k.pmap = some m') :
    ∃ g', MemoryCall managed k g (k.setPmap m') g' (.space e) := by
  induction rounds generalizing k g va with
  | zero =>
    cases ran
    exact ⟨g, .refl sound⟩
  | succ rounds ih =>
    have size : pgSize = 4096 := rfl
    have here : va < 2 ^ 39 := by rw [Nat.succ_mul] at low; omega
    unfold Jos.regionAllocLoop at ran
    cases listed : g.free with
    | nil => simp [sound.valid.pageAlloc_empty listed] at ran
    | cons page rest =>
      rw [sound.valid.pageAlloc_eq listed] at ran
      obtain ⟨⟨code, m₁⟩, inserted, ran⟩ := Option.bind_eq_some_iff.mp ran
      have next : va + pgSize + rounds * pgSize ≤ 2 ^ 39 := by rw [Nat.succ_mul] at low; omega
      have bound : va ≤ utop := by rw [utop_eq]; omega
      have once : ∃ g₁, MemoryCall managed k g (k.setPmap m₁) g₁ (.space e) := by
        rcases sound.insertFresh rooted listed bound inserted with
          ⟨-, -, g₁, call, -⟩ | ⟨-, -, g₁, call, -⟩
        · exact ⟨g₁, call.mono (Footprint.slot_le_space here)⟩
        · exact ⟨g₁, (call.mono Footprint.walk_le_slot).mono (Footprint.slot_le_space here)⟩
      obtain ⟨g₁, first⟩ := once
      obtain ⟨g₂, second⟩ := ih (k := k.setPmap m₁) first.sound rooted next ran
      exact ⟨g₂, first.trans second⟩

theorem Sound.regionAlloc {root : Fin npages}
    (rooted : (k.envs e).envPml4e = some root) {va len : Nat} {m' : Pmap npages}
    (low : LowRegion va len) (ran : Jos.regionAlloc k.pmap (some root) va len = some m') :
    ∃ g', MemoryCall managed k g (k.setPmap m') g' (.space e) :=
  sound.regionAllocLoop rooted low ran

theorem Sound.loadSegments {root : Fin npages} {segments : List (Nat × Nat)}
    (rooted : (k.envs e).envPml4e = some root) (low : ∀ segment ∈ segments, LowRegion segment.1 segment.2)
    {m' : Pmap npages}
    (ran : segments.foldlM (fun m segment => Jos.regionAlloc m (some root) segment.1 segment.2) k.pmap =
      some m') :
    ∃ g', MemoryCall managed k g (k.setPmap m') g' (.space e) := by
  refine foldlM_invariant ran
    (fun _ m => ∃ g₁, MemoryCall managed k g (k.setPmap m) g₁ (.space e)) ⟨g, .refl sound⟩ ?_
  rintro done segment m m' ⟨rest, split⟩ ⟨g₁, before⟩ allocated
  have member : segment ∈ segments := by simp [split]
  obtain ⟨g₂, after⟩ := Sound.regionAlloc (k := k.setPmap m) before.sound rooted
    (low segment member) allocated
  exact ⟨g₂, before.trans after⟩

theorem Sound.loadIcode (live : k.Live e) {binary : Binary}
    (low : binary.Low) (ran : Jos.loadIcode k e binary = some k') :
    ∃ g', Change managed k g k' g' (.space e) ∧
      ∃ m tf, k' = (k.setPmap m).setEnv e { k.envs e with envTf := tf } := by
  obtain ⟨root, rooted⟩ := live.root
  unfold Jos.loadIcode at ran
  rw [rooted] at ran
  obtain ⟨m₁, loaded, ran⟩ := Option.bind_eq_some_iff.mp ran
  obtain ⟨m₂, stacked, ran⟩ := Option.bind_eq_some_iff.mp ran
  cases ran
  obtain ⟨g₁, first⟩ := sound.loadSegments rooted low loaded
  obtain ⟨g₂, second⟩ := Sound.regionAlloc (k := k.setPmap m₁) first.sound rooted
    (by decide) stacked
  have both := (first.trans second).change
  exact ⟨g₂, both.trans (both.sound.setEnv_change ⟨rfl, rfl, rfl, rfl, fun _ => rfl⟩), m₂, _, rfl⟩

theorem Sound.envCreate {binary : Binary} {type : EnvType}
    (low : binary.Low) (ran : Jos.envCreate k binary type = some k') :
    ∃ e g', Change managed k g k' g' (.space e) ∧ k.envFreeList = some e ∧
      (k.envs e).envPml4e = none ∧
      (∀ other, other ≠ e → k'.envs other = k.envs other) ∧
      (k'.envs e).envStatus = .runnable ∧ (k'.envs e).envIpcRecving = false ∧
      (k'.envs e).envIpcDstva = (k.envs e).envIpcDstva := by
  unfold Jos.envCreate at ran
  cases outcome : Jos.envAlloc k 0 with
  | error code =>
    rw [outcome] at ran
    cases ran
  | ok result =>
    obtain ⟨e, k₁⟩ := result
    obtain ⟨g₁, change, spec⟩ := sound.envAlloc_change outcome
    obtain ⟨root, rooted, envs⟩ := spec.root
    rw [outcome] at ran
    simp only at ran
    generalize typed : (if type = .fs then
      { { k₁.envs e with envType := type } with
        envTf := { (k₁.envs e).envTf with
          tfEflags := (k₁.envs e).envTf.tfEflags ||| flIoplMask } }
      else { k₁.envs e with envType := type }) = env at ran
    have same : SameSpace (k₁.envs e) env := by
      subst typed
      split <;> exact ⟨rfl, rfl, rfl, rfl, fun _ => rfl⟩
    have fields : env.envStatus = (k₁.envs e).envStatus ∧
        env.envIpcRecving = (k₁.envs e).envIpcRecving ∧
        env.envIpcDstva = (k₁.envs e).envIpcDstva := by
      subst typed
      split <;> exact ⟨rfl, rfl, rfl⟩
    have ready : Change managed k₁ g₁ (k₁.setEnv e env) g₁ (.space e) :=
      change.sound.setEnv_change same
    have live : (k₁.setEnv e env).Live e := by
      simp [Kernel.Live, Kernel.setEnv, same.pml4e, rooted]
    obtain ⟨g₂, loaded, m, tf, rfl⟩ := ready.sound.loadIcode live low ran
    refine ⟨e, g₂, (change.trans ready).trans loaded, spec.head, spec.fresh,
      fun other differs => ?_, ?_, ?_, ?_⟩
    · simp [Kernel.setEnv, Kernel.setPmap, envs, differs]
    · simp [Kernel.setEnv, Kernel.setPmap, fields.1, envs, allocatedEnv]
    · simp [Kernel.setEnv, Kernel.setPmap, fields.2.1, envs, allocatedEnv]
    · simp [Kernel.setEnv, Kernel.setPmap, fields.2.2, envs, allocatedEnv]

end

end Jos
