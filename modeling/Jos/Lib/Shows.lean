import Jos.Calls.Memory
import Jos.Lib.Space

/-! What user code takes the page calls to do is what the kernel does. -/

set_option autoImplicit false

namespace Jos

variable {npages : Nat} {managed : Set (Fin npages)} {k k' : Kernel npages} {g g' : Ledger npages}
  {w : World} {c e src dst : EnvIdx} {va srcva dstva : Nat} {perm : BitVec 32} {result : Int}

/-- The entries of `uvpt` are those of the page tables, below the second 512 GB. -/
def Shows (k : Kernel npages) (g : Ledger npages) (w : World) : Prop :=
  ∀ (e : EnvIdx) pn, pn * pgSize < 2 ^ 39 → (w.space e.val).uvpt pn =
    if (leafOf k g e (pn * pgSize)).present then some (leafOf k g e (pn * pgSize)) else none

theorem Place.table_first (low : va < 2 ^ 39) :
    (Place.root (some e)).table va = ⟨some e, [pdx va, pdpe va, pml4 va]⟩ := by
  have first : (pml4 va).val = 0 := by
    rw [pml4_eq]
    omega
  refine Place.table_own (fun shared => ?_) fun user => ?_
  · rw [shared] at first
    cases first
  · rw [user] at first
    cases first

theorem MemoryCall.leafOf_other (low : va < 2 ^ 39) {other : Nat} (low' : other < 2 ^ 39)
    (differ : ¬ (e = dst ∧ other / pgSize = va / pgSize))
    (call : MemoryCall managed k g k' g' (.slot (.root (some dst)) va)) :
    leafOf k' g' e other = leafOf k g e other := by
  refine call.keeps.leaves (by rw [Place.table_first low']; rfl) _ fun stored => differ ?_
  obtain ⟨tables, entries⟩ := stored
  have owners := congrArg Place.owner tables
  rw [Place.table_first low', Place.table_first low] at owners
  cases owners
  exact ⟨rfl, Place.page_of_slot low' low tables entries⟩

theorem Shows.stored {pn : Nat} {entry : Pte} (shows' : Shows k g w)
    (bound : entry.ppn < w.next) (low : pn * pgSize < 2 ^ 39)
    (call : MemoryCall managed k g k' g' (.slot (.root (some dst)) (pn * pgSize)))
    (leaf : leafOf k' g' dst (pn * pgSize) = entry) (present : entry.present = true) :
    Shows k' g' (w.insert dst.val pn entry bound) := by
  have page : 0 < pgSize := by decide
  intro e q small
  rw [World.insert_uvpt]
  split
  · rename_i here
    obtain rfl := Fin.ext here.1
    rw [here.2, leaf, present, if_pos rfl]
  · rename_i elsewhere
    rw [call.leafOf_other low small, shows' e q small]
    rintro ⟨rfl, pages⟩
    rw [Nat.mul_div_cancel _ page, Nat.mul_div_cancel _ page] at pages
    exact elsewhere ⟨rfl, pages⟩

/-- A `sys_page_map` that the kernel carries out. -/
theorem Shows.pageMap {pn q : Nat} (shows' : Shows k g w) (source : pn * pgSize < 2 ^ 39)
    (target : q * pgSize < 2 ^ 39)
    (ended : PageMapEnd managed k g k' src (pn * pgSize) dst (q * pgSize) perm result)
    (success : 0 ≤ result) :
    ∃ g', Shows k' g' (w.pageMap src.val pn dst.val q (perm.setWidth 12)) := by
  cases ended with
  | notMapped => exact absurd success (by decide)
  | readOnly => exact absurd success (by decide)
  | noTable => exact absurd success (by decide)
  | done refers _ call leaf =>
    have found : (w.space src.val).uvpt pn = some (leafOf k g src (pn * pgSize)) := by
      rw [shows' src pn source, if_pos refers.1]
    rw [World.pageMap_some found]
    exact ⟨_, shows'.stored _ target call (by rw [leaf, refers.2]) present_or⟩

/-- A `sys_page_alloc` that the kernel carries out, when the pages from `next` on
are free and are taken in order. -/
theorem Shows.pageAlloc {pn : Nat} {page : Fin npages} {rest : List (Fin npages)}
    (shows' : Shows k g w) (low : pn * pgSize < 2 ^ 39) (free : g.free = page :: rest)
    (next : page.val = w.next)
    (ended : PageAllocEnd managed k g k' dst (pn * pgSize) perm result) (success : 0 ≤ result) :
    ∃ g', Shows k' g' (w.pageAlloc dst.val pn (perm.setWidth 12)) := by
  cases ended with
  | noPage => exact absurd success (by decide)
  | noTable => exact absurd success (by decide)
  | done split _ call leaf =>
    obtain ⟨rfl, -⟩ := List.cons.inj (free.symm.trans split)
    rw [next] at leaf
    exact ⟨_, Shows.stored (w := w.grow) shows' _ low call leaf present_or⟩

/-- A `sys_page_unmap` after its checks. -/
theorem Shows.pageUnmap {pn : Nat} (sound : Sound managed k g) (shows' : Shows k g w)
    (low : pn * pgSize < 2 ^ 39) (ended : PageUnmapEnd managed k g k' dst (pn * pgSize)) :
    ∃ g', Shows k' g' (w.remove dst.val pn) := by
  have page : 0 < pgSize := by decide
  cases ended with
  | @notMapped m' g' absent same looked =>
    subst same
    refine ⟨g', fun e q small => ?_⟩
    have still : leafOf (k.setPmap m') g' e (q * pgSize) = leafOf k g e (q * pgSize) :=
      (looked.memoryCall sound).keeps.leaves (by rw [Place.table_first small]; rfl) _ id
    rw [World.remove_uvpt, still]
    split
    · rename_i here
      obtain rfl := Fin.ext here.1
      rw [here.2, absent]
      rfl
    · exact shows' e q small
  | @done g' call leaf =>
    refine ⟨g', fun e q small => ?_⟩
    rw [World.remove_uvpt]
    split
    · rename_i here
      obtain rfl := Fin.ext here.1
      rw [here.2, leaf]
      rfl
    · rename_i elsewhere
      rw [call.leafOf_other low small, shows' e q small]
      rintro ⟨rfl, pages⟩
      rw [Nat.mul_div_cancel _ page, Nat.mul_div_cancel _ page] at pages
      exact elsewhere ⟨rfl, pages⟩

end Jos
