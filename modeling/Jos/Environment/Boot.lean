import Jos.Environment.Table
import Jos.Memory.Boot

/-! The kernel data after the boot: every slot of `envs` is free, and no
reference is held outside the tables. -/

set_option autoImplicit false

namespace Jos

open Foundation

variable {npages : Nat} {platform : Platform npages} {k : Kernel npages} {g : Ledger npages}

structure Booted (platform : Platform npages) (k : Kernel npages) (g : Ledger npages) : Prop where
  sound : Sound platform.managed k g
  spare : ∀ page, g.spare page = 0
  envs : ∀ e, ∃ link, k.envs e = { Env.zeroed npages with envLink := link }
  unmapped : ∀ {a t}, a.Mappable t → ∀ page ∈ platform.managed,
    ¬ (leafEntry k.pmap.mem g.table a t).Refers page
  idle : ∀ page, page ∉ platform.managed → page ≠ k.pmap.bootPml4e →
    k.pmap.mem page = platform.mem page
  refs : ∀ page, page ∉ platform.managed → (k.pmap.pages page).ppRef = 0

theorem Booting.booted {m : Pmap npages} (booting : Booting platform platform.bootPage m g)
    (shared : g.table ⟨none, [1]⟩ ≠ none) (k₀ : Kernel npages) :
    Booted platform ((envInit k₀).setPmap m) g where
  sound :=
    { valid := booting.valid
      shared := Option.ne_none_iff_exists'.mp shared
      cr3 := nofun
      slots := ⟨_, chain_envInit k₀, fun e =>
        ⟨fun _ => rfl, fun _ => mem_cellRange.mpr ⟨Nat.zero_le _, by simp⟩⟩⟩
      idle := fun _ => rfl
      ids := fun present => absurd rfl present
      reserved := fun page zero => by
        have hole := platform.hole
        have image := platform.image
        have order := platform.kernEnd_lt
        refine ⟨?_, ?_⟩
        · rintro (⟨low, -⟩ | high) <;> omega
        · change page ≠ m.bootPml4e
          rw [booting.pointer]
          rintro rfl
          have : platform.kernEnd = 0 := zero
          omega }
  spare := booting.spare
  envs e := ⟨_, rfl⟩
  unmapped := booting.unmapped
  idle page outside differs := booting.idle page outside (booting.pointer ▸ differs)
  refs := booting.refs

theorem boot_booted (ran : boot platform = some k) : ∃ g, Booted platform k g := by
  obtain ⟨m, g, inited, booting, shared, -⟩ := x64VmInit_booting platform
  simp only [boot, inited, Option.bind_eq_bind, Option.bind_some] at ran
  obtain ⟨⟨base, m'⟩, looped, ran⟩ := Option.bind_eq_some_iff.mp ran
  cases ran
  obtain ⟨-, g', booting', shared'⟩ := foldlM_invariant looped
    (fun _ (state : Nat × Pmap npages) => mmioBase ≤ state.1 ∧
      ∃ g, Booting platform platform.bootPage state.2 g ∧ g.table ⟨none, [1]⟩ ≠ none)
    ⟨le_rfl, g, booting, shared⟩
    (fun _ device state next _ ⟨low, _, booting, shared⟩ stepped =>
      booting.initDevice shared low stepped)
  exact ⟨g', booting'.booted shared' _⟩

/-- Without devices to look after, the boot succeeds and takes a known number of
pages at most. -/
theorem boot_plain (platform : Platform npages) (plain : platform.devices = []) :
    ∃ k g, boot platform = some k ∧ Booted platform k g ∧
      platform.initialFree.length ≤ g.free.length + kernelTables npages := by
  obtain ⟨m, g, inited, booting, shared, spent, -⟩ := x64VmInit_booting platform
  refine ⟨_, g, ?_, booting.booted shared
    { pmap := m, envs := fun _ => Env.zeroed npages, envFreeList := none }, spent⟩
  simp only [boot, inited, plain, Option.bind_eq_bind, Option.bind_some]
  rfl

end Jos
