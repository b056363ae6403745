import Jos.Kern.Multiboot
import Jos.Runs.Stacks

/-! What the boot lets be seen: `pages[]` at UPAGES and `envs[]` at UENVS, which users can read,
and all of physical memory at KERNBASE. -/

set_option autoImplicit false

namespace Jos

variable {npages : Nat} {platform : Platform npages} {m : Pmap npages} {g : Ledger npages}

def Translation.physical (found : Translation) (va : Nat) : Nat := found.ppn * pgSize + va % pgSize

def Pmap.Shows (m : Pmap npages) (va pa : Nat) : Prop :=
  ∃ found, m.translate m.bootPml4e va = some found ∧ found.physical va = pa ∧
    found.user = true ∧ found.writable = false

def Pmap.Reaches (m : Pmap npages) (va pa : Nat) : Prop :=
  ∃ found, m.translate m.bootPml4e va = some found ∧ found.physical va = pa ∧
    found.user = false ∧ found.writable = true

/-- What `x64_vm_init` is for, on the windows of the user and of the kernel. -/
structure Visible (platform : Platform npages) (m : Pmap npages) : Prop where
  pages : ∀ i < npages, ∀ byte < pageInfoSize, m.Shows (upages + i * pageInfoSize + byte)
    (pagesPage platform.kernEnd * pgSize + i * pageInfoSize + byte)
  envs : ∀ i < nenv, ∀ byte < envSize, m.Shows (uenvs + i * envSize + byte)
    (envsPage npages platform.kernEnd * pgSize + i * envSize + byte)
  apart : uenvs + nenv * envSize ≤ upages ∧ upages + npages * pageInfoSize ≤ mmioBase
  physical : ∀ pa < npages * pgSize, m.Reaches (kernBase + pa) pa

theorem leafTranslation_window {ppn : Nat} : leafTranslation ⟨ppn, pteU ||| pteP⟩ =
    some ⟨ppn, tablePerm, tablePerm, tablePerm, pteU ||| pteP⟩ := by
  have present : Pte.present ⟨ppn, pteU ||| pteP⟩ := by
    change (pteU ||| pteP).getLsbD 0 = true
    decide
  rw [leafTranslation, if_pos present]

theorem Booting.shows (booting : Booting platform platform.bootPage m g) {va start page : Nat}
    (low : start ≤ va) (aligned : start % pgSize = 0)
    (leaf : bootLeaf m g va = ⟨page + (va - start) / pgSize, pteU ||| pteP⟩) :
    m.Shows va (page * pgSize + (va - start)) := by
  have translate : m.translate m.bootPml4e va = leafTranslation (bootLeaf m g va) :=
    booting.valid.translate_boot
  rw [leaf, leafTranslation_window] at translate
  refine ⟨_, translate, ?_, by simp only [Translation.user]; decide,
    by simp only [Translation.writable]; decide⟩
  have size : pgSize = 4096 := rfl
  rw [size] at aligned
  rw [Translation.physical, size]
  dsimp only
  omega

theorem Booting.reaches (booting : Booting platform platform.bootPage m g) {pa : Nat}
    (leaf : bootLeaf m g (kernBase + pa) = ⟨pa / pgSize, pteP ||| pteW⟩) :
    m.Reaches (kernBase + pa) pa := by
  have translate : m.translate m.bootPml4e (kernBase + pa) =
      leafTranslation (bootLeaf m g (kernBase + pa)) := booting.valid.translate_boot
  rw [leaf, leafTranslation_physical] at translate
  refine ⟨_, translate, ?_, by simp only [Translation.user]; decide,
    by simp only [Translation.writable]; decide⟩
  have size : pgSize = 4096 := rfl
  have base : kernBase = 134234112 * 4096 := by decide
  rw [Translation.physical, size, base]
  dsimp only
  omega

theorem windows_apart (platform : Platform npages) :
    uenvs + nenv * envSize ≤ upages ∧ upages + npages * pageInfoSize ≤ mmioBase := by
  have info : pageInfoSize = 16 := rfl
  have most : npages ≤ 3276800 := platform.limit.trans (by decide)
  have base : upages = 2 ^ 39 + 5 * 2 ^ 21 := by decide
  have top : mmioBase = 2 ^ 39 + 30 * 2 ^ 21 := by decide
  refine ⟨by decide, ?_⟩
  rw [info, base, top]
  omega

/-- All of `pages[]` is mapped when it ends where a page ends. -/
theorem Booting.visible (booting : Booting platform platform.bootPage m g)
    (mapped : KernelMapped platform m g) (windowed : Windowed platform m g)
    (whole : 256 ∣ npages) : Visible platform m := by
  have size : pgSize = 4096 := rfl
  refine ⟨fun i small byte inside => ?_, fun i small byte inside => ?_, windows_apart platform,
    fun pa inside => ?_⟩
  · have info : pageInfoSize = 16 := rfl
    have low : upages ≤ upages + i * pageInfoSize + byte := by omega
    have high : upages + i * pageInfoSize + byte <
        upages + npages * pageInfoSize / pgSize * pgSize := by
      obtain ⟨count, rfl⟩ := whole
      rw [info] at inside ⊢
      rw [size]
      omega
    have shows := booting.shows low (by decide) (windowed.pages _ low high)
    rwa [Nat.add_assoc, Nat.add_sub_cancel_left, ← Nat.add_assoc, ← Nat.add_assoc] at shows
  · have low : uenvs ≤ uenvs + i * envSize + byte := by omega
    have high : uenvs + i * envSize + byte < uenvs + nenv * envSize := by
      have bound := Nat.mul_le_mul_right envSize (Nat.succ_le_of_lt small)
      rw [Nat.succ_mul] at bound
      omega
    have shows := booting.shows low (by decide) (windowed.envs _ low high)
    rwa [Nat.add_assoc, Nat.add_sub_cancel_left, ← Nat.add_assoc, ← Nat.add_assoc] at shows
  · have leaf := mapped.physical (kernBase + pa) (Nat.le_add_right _ _) (by omega)
    rw [Nat.add_sub_cancel_left] at leaf
    exact booting.reaches leaf

/-- Of the last page of `pages[]`, nothing is mapped when it is not full. -/
theorem Booting.not_visible (booting : Booting platform platform.bootPage m g)
    (windowed : Windowed platform m g) (part : ¬ 256 ∣ npages) :
    m.translate m.bootPml4e (upages + (npages - 1) * pageInfoSize) = none := by
  have size : pgSize = 4096 := rfl
  have info : pageInfoSize = 16 := rfl
  have room := platform.room
  have apart := (windows_apart platform).2
  have behind := windowed.behind (upages + (npages - 1) * pageInfoSize)
    (by rw [size, info]; omega) (by rw [info] at apart ⊢; omega)
  have translate : m.translate m.bootPml4e (upages + (npages - 1) * pageInfoSize) =
      leafTranslation (bootLeaf m g (upages + (npages - 1) * pageInfoSize)) :=
    booting.valid.translate_boot
  rw [translate, behind]
  rfl

/-- The windows show all of their arrays exactly when `pages[]` is whole pages long. -/
theorem visible_iff (ample : kernelTables npages ≤ platform.initialFree.length)
    (ran : x64VmInit platform = some m) : Visible platform m ↔ 256 ∣ npages := by
  obtain ⟨m', g, ran', booting, -, -, mapped⟩ := x64VmInit_booting platform
  cases ran.symm.trans ran'
  obtain ⟨kernel, windowed⟩ := mapped ample
  refine ⟨fun visible => ?_, booting.visible kernel windowed⟩
  by_contra part
  have last : npages - 1 < npages := Nat.sub_lt (by have := platform.room; omega) Nat.one_pos
  obtain ⟨found, translate, -⟩ := visible.pages (npages - 1) last 0 (by decide)
  rw [Nat.add_zero, booting.not_visible windowed part] at translate
  cases translate

theorem sample_visible : ∃ m, x64VmInit sample = some m ∧ Visible sample m := by
  obtain ⟨m, g, ran, -⟩ := x64VmInit_booting sample
  exact ⟨m, ran, (visible_iff sample_ample ran).mpr (by decide)⟩

/-- A machine whose last page of `pages[]` has room for more. -/
def uneven : Platform 4100 where
  kernEnd := 1024
  bootPts := 257
  kstacks := 512
  mem := fun _ _ => 0
  devices := []
  hole := sample.hole
  image := sample.image
  room := by decide
  limit := by decide

def unevenMap : List MemoryMap := [⟨0, 0x9fc00, 1⟩, ⟨0x100000, 3844 * 4096, 1⟩]

/-- The last four elements of `pages[]` are not there for the user. -/
theorem uneven_not_visible : i386DetectMemory (some unevenMap) (fun _ => 0) = some (4100, 159) ∧
    ∃ m, x64VmInit uneven = some m ∧
      m.translate m.bootPml4e (upages + 4099 * pageInfoSize) = none ∧ ¬ Visible uneven m := by
  refine ⟨by decide, ?_⟩
  have ample : kernelTables 4100 ≤ uneven.initialFree.length := by
    rw [Platform.length_initialFree]
    decide
  obtain ⟨m, g, ran, booting, -, -, mapped⟩ := x64VmInit_booting uneven
  have absent := booting.not_visible (mapped ample).2 (by decide)
  refine ⟨m, ran, absent, fun visible => ?_⟩
  obtain ⟨found, translate, -⟩ := visible.pages 4099 (by decide) 0 (by decide)
  rw [Nat.add_zero, absent] at translate
  cases translate

end Jos
