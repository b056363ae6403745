import Mathlib.Logic.Function.Basic
import Jos.Inc.Mmu

/-! Address spaces as user code sees them: the tables at UVPT, the contents of the
pages, and what the page calls do to both. Whether the kernel carries out a call
is its answer, which is an input here. -/

set_option autoImplicit false

namespace Jos

open Function

def utext : Nat := 4 * ptSize
def utemp : Nat := 2 * ptSize
def pftemp : Nat := utemp + ptSize - pgSize

def pteShare : BitVec 12 := 0x400#12
def pteCow : BitVec 12 := 0x800#12

abbrev Page := Fin 4096 → BitVec 8

/-- What `uvpml4e`, `uvpde` and `uvpd` say of the presence of tables. -/
structure Tables where
  uvpml4e : Nat → Bool
  uvpde : Nat → Bool
  uvpd : Nat → Bool

def Tables.Reach (t : Tables) (pn : Nat) : Prop :=
  t.uvpml4e (pn / 512 / 512 / 512) = true ∧ t.uvpde (pn / 512 / 512) = true ∧
    t.uvpd (pn / 512) = true

instance (t : Tables) (pn : Nat) : Decidable (t.Reach pn) :=
  inferInstanceAs (Decidable (_ ∧ _ ∧ _))

def Tables.reach (t : Tables) (pn : Nat) : Tables where
  uvpml4e := update t.uvpml4e (pn / 512 / 512 / 512) true
  uvpde := update t.uvpde (pn / 512 / 512) true
  uvpd := update t.uvpd (pn / 512) true

theorem Tables.reach_self {t : Tables} {pn : Nat} (reached : t.Reach pn) : t.reach pn = t := by
  obtain ⟨root, directory, table⟩ := reached
  unfold reach
  rw [update_eq_self_iff.mpr root.symm, update_eq_self_iff.mpr directory.symm,
    update_eq_self_iff.mpr table.symm]

theorem Tables.Reach.reach {t : Tables} {q pn : Nat} (reached : t.Reach q) :
    (t.reach pn).Reach q := by
  obtain ⟨root, directory, table⟩ := reached
  unfold Tables.reach Reach
  simp only [update_apply]
  refine ⟨?_, ?_, ?_⟩ <;> split <;> first | rfl | assumption

theorem Tables.reach_reach {t : Tables} {pn : Nat} : (t.reach pn).Reach pn := by
  unfold Tables.reach Reach
  simp only [update_self, and_self]

/-- The tables and the present entries of `uvpt`, by virtual page number. -/
structure Space extends Tables where
  uvpt : Nat → Option Pte
  tabled : ∀ pn entry, uvpt pn = some entry → toTables.Reach pn

namespace Space

def empty : Space where
  uvpml4e _ := false
  uvpde _ := false
  uvpd _ := false
  uvpt _ := none
  tabled _ _ there := by cases there

def insert (s : Space) (pn : Nat) (entry : Pte) : Space where
  toTables := s.toTables.reach pn
  uvpt := update s.uvpt pn (some entry)
  tabled q other there := by
    rw [update_apply] at there
    split at there
    · rename_i same
      exact same ▸ Tables.reach_reach
    · exact (s.tabled q other there).reach

def remove (s : Space) (pn : Nat) : Space where
  toTables := s.toTables
  uvpt := update s.uvpt pn none
  tabled q other there := by
    rw [update_apply] at there
    split at there
    · cases there
    · exact s.tabled q other there

end Space

/-- The address spaces of all environments and the pages that they map. The pages
from `next` on are free. -/
structure World where
  space : Nat → Space
  mem : Nat → Page
  next : Nat
  mapped : ∀ e pn entry, (space e).uvpt pn = some entry → entry.ppn < next

namespace World

def empty : World := ⟨fun _ => .empty, fun _ _ => 0, 0, fun _ _ _ there => by cases there⟩

variable {w : World} {e other pn q : Nat} {entry : Pte}

def insert (w : World) (e pn : Nat) (entry : Pte) (bound : entry.ppn < w.next) : World where
  space := update w.space e ((w.space e).insert pn entry)
  mem := w.mem
  next := w.next
  mapped other q found there := by
    rw [update_apply] at there
    split at there
    · rename_i same
      subst same
      unfold Space.insert at there
      simp only [update_apply] at there
      split at there
      · rw [← Option.some.inj there]
        exact bound
      · exact w.mapped other q found there
    · exact w.mapped other q found there

def remove (w : World) (e pn : Nat) : World where
  space := update w.space e ((w.space e).remove pn)
  mem := w.mem
  next := w.next
  mapped other q found there := by
    rw [update_apply] at there
    split at there
    · rename_i same
      subst same
      unfold Space.remove at there
      simp only [update_apply] at there
      split at there
      · cases there
      · exact w.mapped other q found there
    · exact w.mapped other q found there

def grow (w : World) : World :=
  { w with
    next := w.next + 1
    mapped := fun e pn entry there => (w.mapped e pn entry there).trans (Nat.lt_succ_self _) }

def create (w : World) (e : Nat) : World where
  space := update w.space e .empty
  mem := w.mem
  next := w.next
  mapped other q found there := by
    rw [update_apply] at there
    split at there
    · cases there
    · exact w.mapped other q found there

def store (w : World) (ppn : Nat) (page : Page) : World :=
  { w with mem := update w.mem ppn page }

/-- `sys_page_alloc`. The page is not cleared. -/
def pageAlloc (w : World) (e pn : Nat) (perm : BitVec 12) : World :=
  w.grow.insert e pn ⟨w.next, perm ||| pteP⟩ (Nat.lt_succ_self _)

/-- `sys_page_map` -/
def pageMap (w : World) (src pn dst q : Nat) (perm : BitVec 12) : World :=
  match found : (w.space src).uvpt pn with
  | some entry => w.insert dst q ⟨entry.ppn, perm ||| pteP⟩ (w.mapped src pn entry found)
  | none => w

@[simp] theorem insert_mem {bound : entry.ppn < w.next} : (w.insert e pn entry bound).mem = w.mem :=
  rfl

@[simp] theorem insert_next {bound : entry.ppn < w.next} :
    (w.insert e pn entry bound).next = w.next := rfl

theorem store_mem {ppn : Nat} {page : Page} : (w.store ppn page).mem ppn = page :=
  update_self ..

theorem store_store {ppn : Nat} {page page' : Page} :
    (w.store ppn page).store ppn page' = w.store ppn page' := by
  unfold store
  simp only [update_idem]

theorem store_self {ppn : Nat} : w.store ppn (w.mem ppn) = w := by
  unfold store
  rw [update_eq_self]

theorem insert_uvpt {bound : entry.ppn < w.next} :
    ((w.insert e pn entry bound).space other).uvpt q =
      if other = e ∧ q = pn then some entry else (w.space other).uvpt q := by
  unfold insert
  simp only [update_apply]
  by_cases same : other = e
  · subst same
    simp only [if_true, true_and, Space.insert, update_apply]
  · simp [same]

theorem remove_uvpt : ((w.remove e pn).space other).uvpt q =
    if other = e ∧ q = pn then none else (w.space other).uvpt q := by
  unfold remove
  simp only [update_apply]
  by_cases same : other = e
  · subst same
    simp only [if_true, true_and, Space.remove, update_apply]
  · simp [same]

theorem create_uvpt : ((w.create e).space other).uvpt q =
    if other = e then none else (w.space other).uvpt q := by
  unfold create
  simp only [update_apply]
  by_cases same : other = e <;> simp [same, Space.empty]

theorem pageAlloc_uvpt {perm : BitVec 12} : ((w.pageAlloc e pn perm).space other).uvpt q =
    if other = e ∧ q = pn then some ⟨w.next, perm ||| pteP⟩ else (w.space other).uvpt q :=
  insert_uvpt

theorem pageMap_some {src dst : Nat} {perm : BitVec 12}
    (found : (w.space src).uvpt pn = some entry) :
    w.pageMap src pn dst q perm =
      w.insert dst q ⟨entry.ppn, perm ||| pteP⟩ (w.mapped src pn entry found) := by
  unfold pageMap
  split
  · rename_i other there
    cases there.symm.trans found
    rfl
  · rename_i none
    rw [found] at none
    cases none

theorem insert_tables {bound : entry.ppn < w.next}
    (tabled : other = e → (w.space other).Reach pn) :
    ((w.insert e pn entry bound).space other).toTables = (w.space other).toTables := by
  unfold insert
  simp only [update_apply]
  split
  · rename_i same
    subst same
    exact Tables.reach_self (tabled rfl)
  · rfl

theorem pageAlloc_tables {perm : BitVec 12} (tabled : other = e → (w.space other).Reach pn) :
    ((w.pageAlloc e pn perm).space other).toTables = (w.space other).toTables :=
  insert_tables tabled

end World

end Jos
