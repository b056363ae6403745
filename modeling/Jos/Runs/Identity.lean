import Jos.Foundation.Run
import Jos.Kern.Event
import Jos.Environment.Table

/-! Environment identifiers over runs of `env_alloc` and `env_free`. An
identifier comes back only when its slot has been handed out 2^19 - 1 more
times. -/

set_option autoImplicit false

namespace Jos

open Foundation Function

def generations : Nat := 2 ^ 19 - 1

private theorem clear_toNat (x : BitVec 32) :
    (x &&& ~~~(BitVec.ofNat 32 (nenv - 1))).toNat = x.toNat / 1024 * 1024 := by
  have bits : x &&& ~~~(BitVec.ofNat 32 (nenv - 1)) = x >>> 10 <<< 10 := by
    refine BitVec.eq_of_getLsbD_eq fun i small => ?_
    have mask : (1023#32).getLsbD i = decide (i < 10) := by
      rw [BitVec.getLsbD_ofNat, show 1023 = 2 ^ 10 - 1 from rfl, Nat.testBit_two_pow_sub_one]
      simp [small]
    change (x &&& ~~~1023#32).getLsbD i = _
    rw [BitVec.getLsbD_and, BitVec.getLsbD_not, mask, BitVec.getLsbD_shiftLeft,
      BitVec.getLsbD_ushiftRight]
    by_cases low : i < 10
    · simp [low]
    · have back : 10 + (i - 10) = i := by omega
      simp [low, small, back]
  have bound := x.isLt
  rw [bits, BitVec.toNat_shiftLeft, BitVec.toNat_ushiftRight, Nat.shiftLeft_eq,
    Nat.shiftRight_eq_div_pow]
  omega

/-- One allocation adds 1 to the generation; the one that would be negative as a
signed number becomes 1. -/
theorem nextEnvId_toNat {old : EnvId} {e : EnvIdx} {generation slot : Nat}
    (written : old.toNat = generation * 4096 + slot) (small : slot < 1024)
    (bound : generation ≤ generations) :
    (nextEnvId old e).toNat =
      (if generation < generations then generation + 1 else 1) * 4096 + e.val := by
  have range : e.val < 1024 := e.isLt
  have top : generations = 524287 := rfl
  have sum (base : BitVec 32) {q : Nat} (high : base.toNat = q * 4096) :
      (base ||| BitVec.ofNat 32 e.val).toNat = q * 4096 + e.val := by
    have shifted : q * 4096 = (q * 4) <<< 10 := by
      rw [Nat.shiftLeft_eq]
      omega
    have index : (BitVec.ofNat 32 e.val).toNat = e.val := by
      simp only [BitVec.toNat_ofNat]
      omega
    rw [BitVec.toNat_or, index, high, shifted, ← Nat.shiftLeft_add_eq_or_of_lt range]
  have added : (old + 1#32 <<< envGenShift).toNat = (generation + 1) * 4096 + slot := by
    have one : (1#32 <<< envGenShift).toNat = 4096 := by decide
    rw [BitVec.toNat_add, one, written]
    omega
  have cleared : ((old + 1#32 <<< envGenShift) &&& ~~~(BitVec.ofNat 32 (nenv - 1))).toNat =
      (generation + 1) * 4096 := by
    rw [clear_toNat, added]
    omega
  have signed : (((old + 1#32 <<< envGenShift) &&& ~~~(BitVec.ofNat 32 (nenv - 1))).toInt ≤ 0) ↔
      ¬ generation < generations := by
    rw [BitVec.toInt_eq_toNat_cond, cleared]
    split <;> omega
  unfold nextEnvId
  simp only
  by_cases more : generation < generations
  · rw [if_neg (by rw [signed]; exact not_not.mpr more), if_pos more]
    exact sum _ cleared
  · rw [if_pos (signed.mpr more), if_neg more]
    exact sum _ rfl

/-- The identifier of a slot that has been handed out a number of times. -/
def envIdAt (e : EnvIdx) : Nat → EnvId
  | 0 => 0
  | count + 1 => nextEnvId (envIdAt e count) e

theorem envIdAt_toNat (e : EnvIdx) (count : Nat) :
    (envIdAt e (count + 1)).toNat = (count % generations + 1) * 4096 + e.val := by
  have top : generations = 524287 := rfl
  induction count with
  | zero =>
    have written : (0 : EnvId).toNat = 0 * 4096 + 0 := rfl
    have next := nextEnvId_toNat (e := e) written (by decide) (Nat.zero_le _)
    rw [if_pos (by decide)] at next
    rw [Nat.zero_mod]
    exact next
  | succ count ih =>
    have less : count % generations < generations := Nat.mod_lt count (by decide)
    have next := nextEnvId_toNat (e := e) ih e.isLt less
    have round : (if count % generations + 1 < generations then count % generations + 1 + 1
        else 1) = (count + 1) % generations + 1 := by
      rw [top]
      split <;> omega
    rw [round] at next
    exact next

/-- Fewer than `generations` allocations later the identifier is another one. -/
theorem envIdAt_ne {e : EnvIdx} {first later : Nat} (some : 0 < first) (less : first < later)
    (near : later < first + generations) : envIdAt e later ≠ envIdAt e first := by
  obtain ⟨first, rfl⟩ := Nat.exists_eq_add_of_lt some
  obtain ⟨later, rfl⟩ := Nat.exists_eq_add_of_lt (some.trans less)
  intro same
  have values := congrArg BitVec.toNat same
  rw [Nat.zero_add, Nat.zero_add, envIdAt_toNat, envIdAt_toNat] at values
  have top : generations = 524287 := rfl
  rw [top] at near values
  omega

/-- Calls of `env_alloc` and of `env_free`. -/
inductive TableEvent where
  | alloc (parentId : EnvId)
  | free (e : EnvIdx)
deriving DecidableEq, Repr

variable {npages : Nat} {events : List TableEvent}

structure Census (npages : Nat) where
  kernel : Kernel npages
  handed : EnvIdx → Nat

/-- The state that `env_init` leaves. -/
def Census.init (k : Kernel npages) : Census npages := ⟨envInit k, fun _ => 0⟩

def censusStep (s : Census npages) : TableEvent → Option (Census npages)
  | .alloc parentId =>
    match envAlloc s.kernel parentId with
    | .error _ => some s
    | .ok (e, k) => some ⟨k, update s.handed e (s.handed e + 1)⟩
  | .free e => (envFree s.kernel e).map fun k => { s with kernel := k }

abbrev CensusRun (s : Census npages) (events : List TableEvent) (s' : Census npages) : Prop :=
  Along censusStep (fun _ _ => True) s events s'

abbrev HoldingRun (e : EnvIdx) (s : Census npages) (events : List TableEvent)
    (s' : Census npages) : Prop :=
  Along censusStep (fun _ event => event ≠ .free e) s events s'

variable {s s' : Census npages} {e : EnvIdx}

structure Census.Numbered (s : Census npages) : Prop where
  listed : s.kernel.Listed
  ids : ∀ e, (s.kernel.envs e).envId = envIdAt e (s.handed e)
  counted : ∀ {e}, s.kernel.Live e → 0 < s.handed e

theorem censusStep_cases {event : TableEvent} (stepped : censusStep s event = some s') :
    s' = s ∨
    (∃ parentId e root, envAlloc s.kernel parentId = .ok (e, s'.kernel) ∧
      s'.handed = update s.handed e (s.handed e + 1) ∧
      s'.kernel.envs = update s.kernel.envs e
        (allocatedEnv (s.kernel.envs e) e parentId root)) ∨
    (∃ e, event = .free e ∧ envFree s.kernel e = some s'.kernel ∧ s'.handed = s.handed ∧
      s'.kernel.envs = update s.kernel.envs e { s.kernel.envs e with
        envPml4e := none, envCr3 := 0, envStatus := .free,
        envLink := s.kernel.envFreeList }) := by
  cases event with
  | alloc parentId =>
    simp only [censusStep] at stepped
    cases ran : envAlloc s.kernel parentId with
    | error code =>
      rw [ran] at stepped
      exact .inl (Option.some.inj stepped).symm
    | ok result =>
      obtain ⟨e, k⟩ := result
      rw [ran] at stepped
      cases stepped
      obtain ⟨-, -, root, envs⟩ := envAlloc_envs ran
      exact .inr (.inl ⟨parentId, e, root, ran, rfl, envs⟩)
  | free e =>
    obtain ⟨k, ran, rfl⟩ := Option.map_eq_some_iff.mp stepped
    exact .inr (.inr ⟨e, rfl, ran, rfl, (envFree_envs ran).2.2⟩)

namespace Census.Numbered

theorem init (k : Kernel npages) : (Census.init k).Numbered where
  listed := .init k
  ids := fun _ => rfl
  counted := fun live => absurd rfl live

theorem step (numbered : s.Numbered) {event : TableEvent}
    (stepped : censusStep s event = some s') : s'.Numbered := by
  obtain rfl | ⟨parentId, e, root, ran, handed, envs⟩ | ⟨e, -, ran, handed, envs⟩ :=
    censusStep_cases stepped
  · exact numbered
  · refine ⟨(numbered.listed.alloc ran).1, fun slot => ?_, fun {slot} live => ?_⟩
    · rw [envs, handed]
      by_cases same : slot = e
      · subst same
        rw [update_self, update_self]
        change nextEnvId (s.kernel.envs slot).envId slot = _
        rw [numbered.ids slot]
        rfl
      · rw [update_of_ne same, update_of_ne same]
        exact numbered.ids slot
    · rw [handed]
      by_cases same : slot = e
      · subst same
        rw [update_self]
        exact Nat.succ_pos _
      · rw [Kernel.Live, envs, update_of_ne same] at live
        rw [update_of_ne same]
        exact numbered.counted live
  · refine ⟨numbered.listed.free ran, fun slot => ?_, fun {slot} live => ?_⟩
    · rw [envs, handed]
      by_cases same : slot = e
      · subst same
        rw [update_self]
        exact numbered.ids slot
      · rw [update_of_ne same]
        exact numbered.ids slot
    · rw [handed]
      by_cases same : slot = e
      · subst same
        rw [Kernel.Live, envs, update_self] at live
        exact absurd rfl live
      · rw [Kernel.Live, envs, update_of_ne same] at live
        exact numbered.counted live

theorem run (numbered : s.Numbered) (along : CensusRun s events s') : s'.Numbered :=
  along.preserves Census.Numbered numbered fun _ _ _ before _ stepped => before.step stepped

theorem spec (numbered : s.Numbered) (live : s.kernel.Live e) :
    0 < (s.kernel.envs e).envId.toInt ∧ envx (s.kernel.envs e).envId = e := by
  obtain ⟨count, handed⟩ := Nat.exists_eq_add_of_lt (numbered.counted live)
  rw [numbered.ids e, handed, Nat.zero_add]
  exact nextEnvId_spec _ e

end Census.Numbered

theorem HoldingRun.held (along : HoldingRun e s events s')
    (numbered : s.Numbered) (live : s.kernel.Live e) :
    s'.Numbered ∧ s'.kernel.Live e ∧ s'.handed e = s.handed e := by
  refine along.preserves (fun t => t.Numbered ∧ t.kernel.Live e ∧ t.handed e = s.handed e)
    ⟨numbered, live, rfl⟩ fun before event after holds spared stepped => ?_
  obtain ⟨numbered, live, same⟩ := holds
  refine ⟨numbered.step stepped, ?_⟩
  obtain rfl | ⟨parentId, slot, root, ran, handed, envs⟩ | ⟨slot, rfl, ran, handed, envs⟩ :=
    censusStep_cases stepped
  · exact ⟨live, same⟩
  · have differs : e ≠ slot := by
      rintro rfl
      exact live (numbered.listed.alloc ran).2
    rw [Kernel.Live, envs, handed, update_of_ne differs, update_of_ne differs]
    exact ⟨live, same⟩
  · have differs : e ≠ slot := by
      rintro rfl
      exact spared rfl
    rw [Kernel.Live, envs, handed, update_of_ne differs]
    exact ⟨live, same⟩

theorem CensusRun.freed (along : CensusRun s events s')
    (numbered : s.Numbered) (dead : ¬ s.kernel.Live e) :
    s'.Numbered ∧ s.handed e ≤ s'.handed e ∧ (s'.handed e = s.handed e → ¬ s'.kernel.Live e) := by
  refine along.preserves (fun t => t.Numbered ∧ s.handed e ≤ t.handed e ∧
    (t.handed e = s.handed e → ¬ t.kernel.Live e)) ⟨numbered, le_rfl, fun _ => dead⟩
    fun before event after holds _ stepped => ?_
  obtain ⟨numbered, grows, dead⟩ := holds
  refine ⟨numbered.step stepped, ?_⟩
  obtain rfl | ⟨parentId, slot, root, ran, handed, envs⟩ | ⟨slot, -, ran, handed, envs⟩ :=
    censusStep_cases stepped
  · exact ⟨grows, dead⟩
  · rw [Kernel.Live, envs, handed]
    by_cases same : e = slot
    · subst same
      rw [update_self]
      exact ⟨Nat.le_succ_of_le grows, fun equal => by omega⟩
    · rw [update_of_ne same, update_of_ne same]
      exact ⟨grows, dead⟩
  · rw [Kernel.Live, envs, handed]
    by_cases same : e = slot
    · subst same
      rw [update_self]
      exact ⟨grows, fun _ => not_not.mpr rfl⟩
    · rw [update_of_ne same]
      exact ⟨grows, dead⟩

/-- Identifiers of environments that are alive together differ and name their
slots, and the identifier of a freed environment is refused until its slot has
been handed out `generations` more times. -/
theorem envid2env_stale {k : Kernel npages} {events : List TableEvent}
    (along : CensusRun (.init k) events s) :
    (∀ e, (s.kernel.envs e).envStatus ≠ .free →
      0 < (s.kernel.envs e).envId.toInt ∧ envx (s.kernel.envs e).envId = e) ∧
    (∀ e e', (s.kernel.envs e).envStatus ≠ .free → (s.kernel.envs e').envStatus ≠ .free →
      (s.kernel.envs e).envId = (s.kernel.envs e').envId → e = e') ∧
    ∀ parentId e kernel (allocated held freed final : Census npages) holding later,
      envAlloc s.kernel parentId = .ok (e, kernel) →
      censusStep s (.alloc parentId) = some allocated →
      HoldingRun e allocated holding held → censusStep held (.free e) = some freed →
      CensusRun freed later final → final.handed e < freed.handed e + generations →
      ∀ curenv checkperm,
        envid2env final.kernel curenv (kernel.envs e).envId checkperm = none := by
  have numbered := (Census.Numbered.init k).run along
  have live {e : EnvIdx} (used : (s.kernel.envs e).envStatus ≠ .free) : s.kernel.Live e :=
    fun absent => used (numbered.listed.idle absent)
  refine ⟨fun e used => numbered.spec (live used), fun e e' used used' same => ?_, ?_⟩
  · have slot := (numbered.spec (live used)).2
    rw [same, (numbered.spec (live used')).2] at slot
    exact slot.symm
  · intro parentId e kernel allocated held freed final holding later ran stepped held_along
      released along near curenv checkperm
    obtain ⟨-, -, root, envs⟩ := envAlloc_envs ran
    have first := numbered.step stepped
    simp only [censusStep, ran, Option.some.injEq] at stepped
    subst stepped
    have begun : kernel.Live e := by
      rw [Kernel.Live, envs, update_self]
      exact Option.some_ne_none root
    obtain ⟨second, -, kept⟩ := held_along.held first begun
    have third := second.step released
    obtain ⟨after, gone, rfl⟩ := Option.map_eq_some_iff.mp released
    have dead : ¬ after.Live e := by
      rw [Kernel.Live, (envFree_envs gone).2.2, update_self]
      exact not_not.mpr rfl
    obtain ⟨last, grows, idle⟩ := along.freed third dead
    obtain ⟨positive, slot⟩ := first.spec begun
    have id := first.ids e
    have count := first.counted begun
    simp only at kept grows idle near positive slot id count
    rw [kept] at grows idle near
    have nonzero : (kernel.envs e).envId ≠ 0 := by
      intro zero
      rw [zero] at positive
      exact absurd positive (by decide)
    rw [envid2env, if_neg nonzero]
    simp only [slot]
    rcases grows.eq_or_lt with same | more
    · have free := last.listed.idle (not_not.mp (idle same.symm))
      rw [if_pos (.inl free)]
    · have other : (final.kernel.envs e).envId ≠ (kernel.envs e).envId := by
        rw [last.ids e, id]
        exact envIdAt_ne count more near
      rw [if_pos (.inr other)]

def twoPages : Kernel 2 where
  pmap := ⟨fun _ => ⟨none, 0⟩, some 1, 0, fun _ _ => 0⟩
  envs := fun _ => Env.zeroed 2
  envFreeList := none

/-- The first environment is allocated and freed again. -/
theorem twoPages_stale : ∃ (kernel : Kernel 2) (allocated freed : Census 2),
    envAlloc (Census.init twoPages).kernel 0 = .ok (0, kernel) ∧
    censusStep (.init twoPages) (.alloc 0) = some allocated ∧
    censusStep allocated (.free 0) = some freed ∧
    envid2env freed.kernel 1 (kernel.envs 0).envId true = none := by
  have ran : ∃ kernel, envAlloc (Census.init twoPages).kernel 0 = .ok (0, kernel) := ⟨_, rfl⟩
  obtain ⟨kernel, ran⟩ := ran
  have stepped : censusStep (.init twoPages) (.alloc 0) =
      some ⟨kernel, update (fun _ => 0) 0 1⟩ := by
    simp only [censusStep, ran]
    rfl
  have released : ∃ freed, censusStep ⟨kernel, update (fun _ => 0) 0 1⟩ (.free 0) =
      some freed := by
    cases ran
    exact ⟨_, rfl⟩
  obtain ⟨freed, released⟩ := released
  have none : freed.handed 0 < freed.handed 0 + generations :=
    Nat.lt_add_of_pos_right (by decide)
  exact ⟨kernel, _, freed, ran, stepped, released,
    (envid2env_stale (k := twoPages) .nil).2.2 0 0 kernel _ _ freed freed [] [] ran stepped .nil
      released .nil none 1 true⟩

end Jos
