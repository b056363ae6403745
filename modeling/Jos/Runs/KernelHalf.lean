import Jos.Runs.Sound

/-! The kernel half of the address spaces. Only a page mapped at UTOP itself,
which the page calls let through, changes what is there. -/

set_option autoImplicit false

namespace Jos

variable {npages : Nat} {platform : Platform npages} {managed : Set (Fin npages)}
  {k k' : Kernel npages} {g g' : Ledger npages} {c e : EnvIdx} {call : Syscall} {ambient : Ambient}

def Kernel.MapsUtop (k : Kernel npages) (c : EnvIdx) : Syscall → Prop
  | .pageAlloc envid va perm => va = utop ∧ ∃ e, pageAllocChecks k c envid va perm e
  | .pageMap srcenvid srcva dstenvid dstva perm =>
    dstva = utop ∧ ∃ src dst, PageMapChecks k c srcenvid srcva dstenvid dstva perm src dst
  | _ => False

/-- The leaf entries of the addresses below UTOP are not those of the addresses
from UTOP on. -/
theorem Place.table_ne_of_high {a : Place} {va low : Nat} (canonical : Canonical va)
    (high : utop ≤ va) (path : a.path = [pdx va, pdpe va, pml4 va]) (below : low < utop) :
    a ≠ (Place.root (some e)).table low := by
  rintro rfl
  obtain ⟨k, j, i, same, bounds⟩ := Place.table_low_of (e := e) below
  exact @not_low_of_canonical none va canonical high ⟨k, j, i, path ▸ same, bounds⟩

/-- A call that does not map at UTOP stores to no leaf entry from UTOP on,
except in address spaces that it makes or ends. -/
theorem callFootprint_high {a : Place} {t : Index} {va : Nat} (safe : ¬ k.MapsUtop c call)
    (canonical : Canonical va) (high : utop ≤ va) (path : a.path = [pdx va, pdpe va, pml4 va])
    (stores : (callFootprint k k' c call).stores a t) :
    ∃ e, a.owner = some e ∧ ¬ (k.Live e ∧ k'.Live e) := by
  have apart {e : EnvIdx} {low : Nat} (bound : low ≤ utop) (differs : low ≠ utop) :
      a ≠ (Place.root (some e)).table low :=
    Place.table_ne_of_high canonical high path (lt_of_le_of_ne bound differs)
  cases call with
  | cputs s len => exact ⟨c, stores.1, fun both => stores.2 both.2⟩
  | netTx buf size => exact ⟨c, stores.1, fun both => stores.2 both.2⟩
  | netRx buf => exact ⟨c, stores.1, fun both => stores.2 both.2⟩
  | envDestroy envid =>
    obtain ⟨e, ⟨-, dead⟩, owner⟩ := stores
    exact ⟨e, owner, fun both => dead both.2⟩
  | exofork =>
    obtain ⟨e, dead, owner⟩ := stores
    exact ⟨e, owner, fun both => dead both.1⟩
  | pageAlloc envid va' perm =>
    obtain ⟨e, checks, same, -⟩ := stores
    exact absurd same (apart checks.2.2.2 fun equal => safe ⟨equal, e, checks⟩)
  | pageMap srcenvid srcva dstenvid dstva perm =>
    obtain ⟨src, -, none⟩ | ⟨dst, ⟨src, checks⟩, same, -⟩ := stores
    · cases none
    · exact absurd same (apart checks.dstRange.2 fun equal => safe ⟨equal, src, dst, checks⟩)
  | pageUnmap envid va' =>
    obtain ⟨e, ⟨-, low⟩, same, -⟩ := stores
    exact absurd same (apart low.le low.ne)
  | ipcTrySend envid value srcva perm =>
    obtain none | ⟨dst, ⟨-, -, page⟩, same, -⟩ := stores
    · cases none
    · exact absurd same (apart page.2.le page.2.ne)
  | _ => cases stores

/-- Every translation from UTOP on, outside the self-map, is as it was. -/
def Kernel.SameHigh (k k' : Kernel npages) : Prop :=
  k'.pmap.bootPml4e = k.pmap.bootPml4e ∧
  ∀ va, Canonical va → utop ≤ va →
    k'.pmap.translate k'.pmap.bootPml4e va = k.pmap.translate k.pmap.bootPml4e va ∧
    ∀ e, k.Live e → k'.Live e → pml4 va ≠ pml4 uvpt →
      k'.pmap.translateIn (k'.envs e).envPml4e va = k.pmap.translateIn (k.envs e).envPml4e va

theorem Change.sameHigh (sound : Sound managed k g)
    (change : Change managed k g k' g' (callFootprint k k' c call))
    (safe : ¬ k.MapsUtop c call) : k.SameHigh k' := by
  refine ⟨change.keeps.boot, fun va canonical high => ⟨?_, fun e live live' user => ?_⟩⟩
  · rw [sound.valid.translate_boot, change.sound.valid.translate_boot,
      change.keeps.leaves (by rw [Place.table_boot]; rfl) _ fun stores => ?_]
    obtain ⟨e, owner, -⟩ :=
      callFootprint_high safe canonical high (by rw [Place.table_boot]) stores
    rw [Place.table_boot] at owner
    cases owner
  · have path := Place.table_path (e := e) user
    rw [sound.translateIn live user, change.sound.translateIn live' user, leafOf, leafOf,
      change.keeps.leaves (by rw [path]; rfl) _ fun stores => ?_]
    obtain ⟨other, owner, gone⟩ := callFootprint_high safe canonical high path stores
    rcases Place.table_owner (.root (some e)) va with own | shared
    · rw [own] at owner
      cases owner
      exact gone ⟨live, live'⟩
    · rw [shared] at owner
      cases owner

theorem sample_pageAlloc (va : Nat) (aligned : va % pgSize = 0) (bound : va ≤ utop) :
    ∃ (k k' : Kernel 4096) (g g' : Ledger 4096) (e : EnvIdx) (page : Fin 4096),
      Reached sample Orderly k ∧ Fresh sample k g 999 ∧ k.Live e ∧ page ∈ sample.managed ∧
      kernelStep k (.call e ⟨none, 0, none⟩ (.pageAlloc 0 va permUser)) = some k' ∧
      MemoryCall sample.managed k g k' g' (.slot (.root (some e)) va) ∧
      leafOf k' g' e va = ⟨page.val, permUser.setWidth 12 ||| pteP⟩ := by
  obtain ⟨k, g, e, reached, fresh, live, -⟩ := sample_env Orderly fun _ => trivial
  obtain ⟨k', page, g', ran, managed, after, there, -⟩ :=
    fresh.pageAlloc (by decide) live aligned bound
  refine ⟨k, k', g, g', e, page, reached, fresh, live, managed, ?_, after, there⟩
  simp only [kernelStep, if_pos live, syscall, ran, returning, Option.map_some]

end Jos
