import Jos.Calls.Table
import Jos.Runs.SelfMap

/-! The table of environments in every reachable state. A call that marks a slot
free is the only step that breaks it. -/

set_option autoImplicit false

namespace Jos

open Foundation

variable {npages : Nat} {platform : Platform npages} {k : Kernel npages} {g : Ledger npages}
  {e : EnvIdx}

/-- The list of free slots is exact, environments have identifiers that name
their slots and page tables, and a slot in use is not handed out. -/
structure Kernel.EnvTable (k : Kernel npages) : Prop where
  freeList : ∃ slots, Chain (fun e => (k.envs e).envLink) k.envFreeList slots ∧ slots.Nodup ∧
    ∀ e, e ∈ slots ↔ (k.envs e).envStatus = .free
  ids : ∀ e, (k.envs e).envStatus ≠ .free →
    0 < (k.envs e).envId.toInt ∧ envx (k.envs e).envId = e
  spaces : ∀ e, (k.envs e).envStatus ≠ .free → (k.envs e).envPml4e ≠ none
  handsOut : ∀ parentId e k', envAlloc k parentId = .ok (e, k') →
    (k.envs e).envStatus = .free ∧ (k.envs e).envPml4e = none

/-- The PML4 of an environment is met in no other address space and is not free. -/
def Kernel.OwnSpaces (k : Kernel npages) : Prop :=
  ∀ e root, (k.envs e).envStatus ≠ .free → (k.envs e).envPml4e = some root →
    (k.envs e).envCr3 = root.val ∧
    (∀ free, k.pmap.FreeList free → root ∉ free) ∧
    ∀ other top, other ≠ e → (k.envs other).envPml4e = some top →
      ∀ depth ≤ 3, ¬ k.pmap.TableAt top depth root

theorem Kernel.Tabled.free_iff (tabled : k.Tabled) :
    (k.envs e).envStatus = .free ↔ (k.envs e).envPml4e = none := by
  constructor
  · intro free
    by_contra live
    exact tabled.busy live free
  · exact tabled.listed.idle

theorem Kernel.Tabled.recorded (tabled : k.Tabled) : k.EnvTable where
  freeList := by
    obtain ⟨slots, chain, members⟩ := tabled.listed.slots
    exact ⟨slots, chain, chain.nodup, fun e => (members e).trans tabled.free_iff.symm⟩
  ids := fun e used => tabled.ids fun absent => used (tabled.free_iff.mpr absent)
  spaces := fun e used absent => used (tabled.free_iff.mpr absent)
  handsOut := fun parentId e k' ran => by
    have absent := (tabled.listed.alloc ran).2
    exact ⟨tabled.listed.idle absent, absent⟩

theorem Booted.tabled (booted : Booted platform k g) : k.Tabled where
  listed := ⟨booted.sound.slots, booted.sound.idle⟩
  busy := fun live => absurd live booted.dead
  ids := fun live => absurd live booted.dead

theorem Reached.tabled (reached : Reached platform KeepsStatus k) : k.Tabled := by
  refine Reachable.invariant reached Kernel.Tabled (fun start booted => ?_)
    fun before event after tabled keeps ran => tabled.step keeps ran
  obtain ⟨g, booted⟩ := boot_booted booted
  exact booted.tabled

theorem Reached.weaken {guard weaker : Kernel npages → KernelEvent → Prop}
    (reached : Reached platform guard k) (implied : ∀ k event, guard k event → weaker k event) :
    Reached platform weaker k := by
  obtain ⟨start, events, booted, along⟩ := reached
  exact ⟨start, events, booted, along.weaken implied⟩

theorem Sound.ownSpaces {managed : Set (Fin npages)} (sound : Sound managed k g) :
    k.OwnSpaces := by
  intro e root _ rooted
  have top := sound.valid.top rooted
  refine ⟨sound.cr3 rooted, fun free listed member => ?_, fun other above differs rooted' depth
    shallow met => ?_⟩
  · obtain rfl := listed.functional sound.valid.pool.chain
    exact sound.valid.not_free_of_placed ⟨_, top⟩ member
  · obtain ⟨a, here, -, owner⟩ := sound.valid.placed_of_tableAt (e := other) rooted' shallow met
    obtain rfl := sound.valid.tree.injective here top
    rcases owner with same | shared
    · exact differs (Option.some.inj same).symm
    · cases shared

/-- No step that keeps slots from being marked free damages the table. -/
theorem envTable (platform : Platform npages) (k : Kernel npages) :
    (Reached platform KeepsStatus k → k.EnvTable) ∧
    (Reached platform (fun k event => KeepsStatus k event ∧ Orderly k event) k →
      k.EnvTable ∧ k.OwnSpaces) := by
  refine ⟨fun reached => reached.tabled.recorded, fun reached => ⟨?_, ?_⟩⟩
  · exact (reached.weaken fun _ _ admitted => admitted.1).tabled.recorded
  · obtain ⟨g, sound⟩ := Reached.sound (reached.weaken fun _ _ admitted => admitted.2)
    exact sound.ownSpaces

theorem sample_envTable : ∃ k : Kernel 4096,
    Reached sample (fun k event => KeepsStatus k event ∧ Orderly k event) k ∧
      k.EnvTable ∧ k.OwnSpaces := by
  obtain ⟨k, g, e, reached, -⟩ :=
    sample_env (fun k event => KeepsStatus k event ∧ Orderly k event) fun _ => ⟨trivial, trivial⟩
  exact ⟨k, reached, (envTable sample k).2 reached⟩

/-- An environment marks itself free; its slot is not on the list then. -/
theorem free_not_envTable : ∃ k : Kernel 4096, Reached sample Orderly k ∧ ¬ k.EnvTable := by
  obtain ⟨k, g, e, ⟨start, events, booted, along⟩, fresh, live, -⟩ :=
    sample_env Orderly fun _ => trivial
  have stepped : kernelStep k (.call e ⟨none, 0, none⟩ (.envSetStatus 0 0)) =
      some (k.setStatus e .free) := by
    simp [kernelStep, live, syscall, returning, sysEnvSetStatus, envid2env, EnvStatus.ofCode]
  have orderly : Orderly k (.call e ⟨none, 0, none⟩ (.envSetStatus 0 0)) := trivial
  refine ⟨k.setStatus e .free, ⟨start, _, booted, along.snoc orderly stepped⟩, fun table => ?_⟩
  obtain ⟨slots, chain, members⟩ := fresh.sound.slots
  obtain ⟨slots', chain', -, members'⟩ := table.freeList
  have links : ∀ slot, ((k.setStatus e .free).envs slot).envLink = (k.envs slot).envLink := by
    intro slot
    by_cases same : slot = e
    · subst same
      simp [Kernel.setStatus, Kernel.setEnv]
    · simp [Kernel.setStatus, Kernel.setEnv, Function.update_of_ne same]
  obtain rfl := (chain'.congr fun slot _ => (links slot).symm).functional chain
  exact live ((members e).mp ((members' e).mpr (by simp [Kernel.setStatus, Kernel.setEnv])))

end Jos
