import Jos.Memory.Insert
import Jos.Memory.Undo
import Jos.Runs.Sound

/-! `page_insert` and `page_remove` in the states that the kernel reaches. -/

set_option autoImplicit false

namespace Jos

open Pmap

variable {npages : Nat} {platform : Platform npages} {k : Kernel npages} {e : EnvIdx}
  {root : Fin npages}

/-- The free pages serve as the missing tables. Of the tables that two environments have, none is
shared but below entry 1 and the entry of UVPT. -/
theorem Reached.insert_meets (reached : Reached platform Orderly k)
    (rooted : (k.envs e).envPml4e = some root) (va : Nat)
    (plain : ¬ (pml4 va = 1 ∨ pml4 va = pml4 uvpt)) :
    ∃ free, k.pmap.FreeList free ∧
      (k.pmap.missing root va ≤ free.length → ∃ slot m' added rest,
        pml4eWalk k.pmap (some root) va true = some (some slot, m') ∧ free = added ++ rest ∧
        added.length = k.pmap.missing root va ∧
        k.pmap.Supplied m' root va added rest slot) ∧
      ∀ pp ∉ free, (k.pmap.pages pp).ppRef.toNat < 65535 → ∀ perm m',
        pageInsert k.pmap (some root) pp va perm = some (0, m') →
        (∃ added rest, free = added ++ rest ∧ added.length = k.pmap.missing root va ∧
          Inserted (fun i => i = 1 ∨ i = pml4 uvpt) k.pmap m'
            {root | ∃ e, (k.envs e).envPml4e = some root} root va pp perm added rest) ∧
        (0 < (k.pmap.pages pp).ppRef.toNat → k.pmap.translate root va = none →
          ∃ m'' added rest, pageRemove m' (some root) va = some m'' ∧ free = added ++ rest ∧
            added.length = k.pmap.missing root va ∧
            (∀ root' ∈ {root | ∃ e, (k.envs e).envPml4e = some root}, ∀ va',
              ¬ (pml4 va' = 1 ∨ pml4 va' = pml4 uvpt) →
              m''.translate root' va' = k.pmap.translate root' va') ∧
            ∀ page, page ∉ added → (m''.pages page).ppRef = (k.pmap.pages page).ppRef) := by
  obtain ⟨g, sound⟩ := reached.sound
  have forest := sound.valid.forest
  have tree := sound.valid.rooted rfl (sound.valid.top rooted)
  refine ⟨g.free, forest.listed, tree.supplied, fun pp unlisted bound perm m' ran => ?_⟩
  constructor
  · exact forest.pageInsert ⟨e, rooted⟩ plain unlisted bound ran
  · intro used unmapped
    exact forest.insert_remove ⟨e, rooted⟩ plain unlisted bound used unmapped ran

theorem sample_insert_meets : ∃ (k : Kernel 4096) (e : EnvIdx) (root : Fin 4096),
    Reached sample Orderly k ∧ (k.envs e).envPml4e = some root ∧
    ∃ free, k.pmap.FreeList free := by
  obtain ⟨k, g, e, reached, -, live, -⟩ := sample_env Orderly fun _ => trivial
  obtain ⟨root, rooted⟩ := Option.ne_none_iff_exists'.mp live
  obtain ⟨free, listed, -⟩ := reached.insert_meets rooted 0x800000 (by decide)
  exact ⟨k, e, root, reached, rooted, free, listed⟩

end Jos
