import Jos.Foundation.Loop
import Jos.Kern.Boot
import Jos.Memory.Address

/-! The memory after the boot is well formed: the free list holds the pages that
`page_init` leaves on it, and the tables of the kernel half are in place. -/

set_option autoImplicit false

namespace Jos

open Foundation Function

variable {npages : Nat}

theorem pa2page_lt {i : Nat} (bound : i < npages) : pa2page npages i = some ⟨i, bound⟩ :=
  dif_pos bound

namespace Platform

variable (platform : Platform npages)

def kernE : Nat := firstFree npages platform.kernEnd

/-- The pages that `page_init` puts on the free list. -/
def managed : Set (Fin npages) :=
  {page | 1 ≤ page.val ∧ page.val < 160 ∧ page.val ≠ 7 ∨ platform.kernE ≤ page.val}

/-- The free list that `page_init` makes. -/
def initialFree : List (Fin npages) :=
  cellRange npages 1 6 ++ (cellRange npages 8 152 ++
    cellRange npages platform.kernE (npages - platform.kernE))

theorem kernEnd_lt : platform.kernEnd < platform.kernE := by
  have size : pgSize = 4096 := rfl
  unfold kernE firstFree envsPage pagesPage bootAlloc
  simp only [size]
  omega

theorem mem_initialFree {page : Fin npages} :
    page ∈ platform.initialFree ↔ page ∈ platform.managed := by
  have room : platform.kernE < npages := platform.room
  have bound := page.isLt
  have hole := platform.hole
  have image := platform.image
  have order := platform.kernEnd_lt
  have low : ioPhysMem / pgSize = 160 := by decide
  simp only [initialFree, managed, List.mem_append, mem_cellRange, Set.mem_ofPred_eq]
  omega

end Platform

/-- The links that `page_init` makes. -/
def initialLink (platform : Platform npages) (page : Fin npages) : Option (Fin npages) :=
  if page.val = 6 then pa2page npages 8
  else if page.val = platform.bootPts - 1 then pa2page npages (platform.bootPts + 5)
  else if page.val = 159 then pa2page npages platform.kernE
  else pa2page npages (page.val + 1)

theorem pageInit_eq (platform : Platform npages) (m : Pmap npages) :
    ∃ m', pageInit m platform.kernE platform.bootPts = some m' ∧
      m'.pageFreeList = pa2page npages 1 ∧ m'.bootPml4e = m.bootPml4e ∧ m'.mem = m.mem ∧
      ∀ page, (m'.pages page).ppRef = 0 ∧ (m'.pages page).ppLink = initialLink platform page := by
  have room : platform.kernE < npages := platform.room
  have hole := platform.hole
  have image := platform.image
  have order := platform.kernEnd_lt
  have low : ioPhysMem / pgSize = 160 := by decide
  have entry : mpentryPaddr / pgSize = 7 := by decide
  rw [low] at hole
  have first : 0 < npages := by omega
  have skip (m : Pmap npages) {page next : Nat} (here : page < npages) (there : next < npages) :
      skipPages m page next = some (m.setLink ⟨page, here⟩ (some ⟨next, there⟩)) := by
    simp [skipPages, pa2page_lt here, pa2page_lt there]
  have second : 0 + 1 < npages := by omega
  have p159 : 159 < npages := by omega
  have pts : platform.bootPts - 1 < npages := by omega
  have pte : platform.bootPts + 4 + 1 < npages := by omega
  have p6 : 6 < npages := by omega
  have p8 : 8 < npages := by omega
  have ran : pageInit m platform.kernE platform.bootPts =
      some (((({ m with pages := linkPages npages, pageFreeList := pa2page npages 1 }).setLink
        ⟨159, p159⟩ (some ⟨platform.kernE, room⟩)).setLink ⟨platform.bootPts - 1, pts⟩
        (some ⟨platform.bootPts + 4 + 1, pte⟩)).setLink ⟨6, p6⟩ (some ⟨8, p8⟩)) := by
    simp only [pageInit, low, entry, pa2page_lt first, Option.bind_eq_bind, Option.bind_some]
    rw [skip _ p159 room, Option.bind_some, skip _ pts pte, Option.bind_some, skip _ p6 p8]
    simp [linkPages, second, pa2page_lt second]
  refine ⟨_, ran, rfl, rfl, rfl, fun page => ⟨?_, ?_⟩⟩
  · rw [Pmap.setLink_ref, Pmap.setLink_ref, Pmap.setLink_ref]
    rfl
  · rw [Pmap.setLink_link, Pmap.setLink_link, Pmap.setLink_link]
    simp only [initialLink, Fin.ext_iff, pa2page_lt room, pa2page_lt pte, pa2page_lt p8]
    rfl

theorem Platform.pool (platform : Platform npages) {m : Pmap npages}
    (head : m.pageFreeList = pa2page npages 1)
    (pages : ∀ page, (m.pages page).ppRef = 0 ∧
      (m.pages page).ppLink = initialLink platform page) :
    Pool platform.managed m platform.initialFree := by
  have room : platform.kernE < npages := platform.room
  have hole := platform.hole
  have image := platform.image
  have order := platform.kernEnd_lt
  have low : ioPhysMem / pgSize = 160 := by decide
  rw [low] at hole
  have link (page : Fin npages) := (pages page).2
  have inOrder (page : Fin npages) (six : page.val ≠ 6) (pts : page.val ≠ platform.bootPts - 1)
      (last : page.val ≠ 159) : (m.pages page).ppLink = pa2page npages (page.val + 1) := by
    rw [link, initialLink, if_neg six, if_neg pts, if_neg last]
  have upper : Chain (fun page => (m.pages page).ppLink) (pa2page npages platform.kernE)
      (cellRange npages platform.kernE (npages - platform.kernE)) := by
    obtain ⟨count, length⟩ : ∃ count, npages - platform.kernE = count + 1 :=
      ⟨npages - platform.kernE - 1, by omega⟩
    have bound : platform.kernE + count < npages := by omega
    have last : (m.pages ⟨platform.kernE + count, bound⟩).ppLink = none := by
      rw [inOrder _ (by simp only; omega) (by simp only; omega) (by simp only; omega)]
      exact dif_neg (by simp only; omega)
    have whole : Chain (fun page => (m.pages page).ppLink) (pa2page npages platform.kernE)
        (cellRange npages platform.kernE (count + 1) ++ []) :=
      chain_cellRange bound (fun page _ _ => inOrder page (by omega) (by omega) (by omega)) last
    rwa [List.append_nil, ← length] at whole
  refine ⟨?_, fun page listed => ?_, fun page inside unlisted => ?_, fun page outside => ?_⟩
  · rw [head]
    have sixth : 1 + 5 < npages := by omega
    have last : 8 + 151 < npages := by omega
    refine chain_cellRange sixth
      (fun page _ below => inOrder page (by omega) (by omega) (by omega)) ?_
    rw [link, initialLink, if_pos rfl]
    refine chain_cellRange last
      (fun page above below => inOrder page (by omega) (by omega) (by omega)) ?_
    rw [link, initialLink, if_neg (by simp only; omega), if_neg (by simp only; omega), if_pos rfl]
    exact upper
  · exact ⟨platform.mem_initialFree.mp listed, (pages page).1⟩
  · exact absurd (platform.mem_initialFree.mpr inside) unlisted
  · rw [link]
    have low : ¬ (1 ≤ page.val ∧ page.val < 160 ∧ page.val ≠ 7 ∨ platform.kernE ≤ page.val) :=
      outside
    have found {i : Nat} (bound : i < npages) : pa2page npages i ≠ none := by
      rw [pa2page_lt bound]
      exact nofun
    unfold initialLink
    split
    · exact found (by omega)
    · split
      · exact found (by omega)
      · split
        · exact found room
        · exact found (by omega)

/-- The state of kern/pmap.c while the kernel half is being mapped: there are no
environments, no reference is held outside the tables, and nothing that the
allocator manages is mapped below UTOP. -/
structure Booting (platform : Platform npages) (boot : Fin npages) (m : Pmap npages)
    (g : Ledger npages) : Prop where
  valid : Valid platform.managed (fun _ => none) m g
  spare : ∀ page, g.spare page = 0
  unmapped : ∀ {a t}, a.Mappable t → ∀ page ∈ platform.managed,
    ¬ (leafEntry m.mem g.table a t).Refers page
  based : g.table ⟨none, [1]⟩ ≠ none ∨ 3 ≤ g.free.length
  pointer : m.bootPml4e = boot
  idle : ∀ page, page ∉ platform.managed → page ≠ boot → m.mem page = platform.mem page
  refs : ∀ page, page ∉ platform.managed → (m.pages page).ppRef = 0

/-- An entry that may be stored for an address of the kernel half. The page at
UTOP itself is within reach of the page calls. -/
def Storable (platform : Platform npages) (boot : Fin npages) (la : Nat) (entry : Pte) : Prop :=
  ¬ (entry.writable = true ∧ entry.user = true) ∧
    (la < utop + pgSize → entry.present = true ∧ entry.writable = false ∧
      ∃ page : Fin npages, entry.ppn = page.val ∧ page ∉ platform.managed ∧ page ≠ boot)

theorem pml4_kernel {la : Nat} (low : utop ≤ la) (high : la < uvpt) : pml4 la = 1 := by
  have top : uvpt = 2 ^ 40 := by decide
  rw [utop_eq] at low
  rw [top] at high
  refine Fin.ext ?_
  rw [pml4_eq]
  change _ = 1
  omega

/-- The leaf entry of an address under `boot_pml4e`. -/
def bootLeaf (m : Pmap npages) (g : Ledger npages) (va : Nat) : Pte :=
  leafEntry m.mem g.table ((Place.root none).table va) (ptx va)

theorem boot_slot_iff {va va' : Nat} (canonical : va < 2 ^ 48) (canonical' : va' < 2 ^ 48) :
    (Place.root none).table va = (Place.root none).table va' ∧ ptx va = ptx va' ↔
      va / pgSize = va' / pgSize := by
  have size : pgSize = 4096 := rfl
  rw [Place.table_boot, Place.table_boot, size]
  constructor
  · rintro ⟨tables, entries⟩
    injection tables with _ paths
    injection paths with third rest
    injection rest with second rest
    injection rest with first _
    have first := congrArg Fin.val first
    have second := congrArg Fin.val second
    have third := congrArg Fin.val third
    have entries := congrArg Fin.val entries
    rw [pml4_eq, pml4_eq] at first
    rw [pdpe_eq, pdpe_eq] at second
    rw [pdx_eq, pdx_eq] at third
    rw [ptx_eq, ptx_eq] at entries
    omega
  · intro same
    have first : pml4 va = pml4 va' := Fin.ext (by rw [pml4_eq, pml4_eq]; omega)
    have second : pdpe va = pdpe va' := Fin.ext (by rw [pdpe_eq, pdpe_eq]; omega)
    have third : pdx va = pdx va' := Fin.ext (by rw [pdx_eq, pdx_eq]; omega)
    have entries : ptx va = ptx va' := Fin.ext (by rw [ptx_eq, ptx_eq]; omega)
    rw [first, second, third]
    exact ⟨rfl, entries⟩

/-- The leaf entries after a run of pages has been mapped, all of them when there was
memory for the tables. -/
structure Remapped (m : Pmap npages) (g : Ledger npages) (m' : Pmap npages) (g' : Ledger npages)
    (la rounds pa : Nat) (perm : BitVec 12) (enough : Prop) : Prop where
  kept : ∀ va < 2 ^ 48, va / pgSize < la / pgSize ∨ la / pgSize + rounds ≤ va / pgSize →
    bootLeaf m' g' va = bootLeaf m g va
  set : enough → ∀ va < 2 ^ 48, la / pgSize ≤ va / pgSize → va / pgSize < la / pgSize + rounds →
    bootLeaf m' g' va = ⟨pa + (va / pgSize - la / pgSize), perm⟩

theorem not_mappable_kernel {owner : Option EnvIdx} {la : Nat} (low : utop + pgSize ≤ la)
    (high : la < uvpt) : ¬ Place.Mappable ⟨owner, [pdx la, pdpe la, pml4 la]⟩ (ptx la) := by
  have top : uvpt = 2 ^ 40 := by decide
  have size : pgSize = 4096 := rfl
  have first := pml4_eq la
  have second := pdpe_eq la
  have third := pdx_eq la
  have fourth := ptx_eq la
  rw [utop_eq, size] at low
  rw [top] at high
  rintro ⟨k, j, i, path, which⟩
  injection path with equal rest
  injection rest with equal' rest
  injection rest with equal'' _
  subst equal equal' equal''
  rcases which with zero | ⟨-, zero, less | ⟨four, zero'⟩⟩
  · have : (pml4 la).val = 0 := by rw [zero]; rfl
    omega
  · have : (pdpe la).val = 0 := by rw [zero]; rfl
    have : (pdx la).val < 4 := less
    omega
  · have : (pdpe la).val = 0 := by rw [zero]; rfl
    have : (pdx la).val = 4 := by rw [four]; rfl
    have : (ptx la).val = 0 := by rw [zero']; rfl
    omega

namespace Booting

variable {platform : Platform npages} {boot : Fin npages} {m m' : Pmap npages}
  {g g' : Ledger npages}

theorem table_deep {va : Nat} : ((Place.root none).table va).path.length = 3 := by
  rw [Place.table_boot]
  rfl

theorem grown (booting : Booting platform boot m g) {owner : Option EnvIdx}
    (valid : Valid platform.managed (fun _ => none) m' g') (grows : Grows owner m g m' g')
    (spare : g'.spare = g.spare) (based : g'.table ⟨none, [1]⟩ ≠ none) :
    Booting platform boot m' g' where
  valid := valid
  spare page := by rw [spare]; exact booting.spare page
  unmapped mappable page inside := by
    rw [grows.leaves mappable.length]
    exact booting.unmapped mappable page inside
  based := .inl based
  pointer := grows.boot.trans booting.pointer
  idle page outside differs := by
    have unlisted : page ∉ g.free := fun listed =>
      outside (booting.valid.pool.member page listed).1
    have unplaced : ¬ Placed g.table page := fun placed => differs
      ((booting.valid.placed_unmanaged outside placed).trans booting.pointer)
    rw [grows.idle page unlisted unplaced]
    exact booting.idle page outside differs
  refs page outside := by
    rw [grows.ref page fun listed => outside (booting.valid.pool.member page listed).1]
    exact booting.refs page outside

theorem store (booting : Booting platform boot m g) {la : Nat} {holder : Fin npages} {entry : Pte}
    (high : la < uvpt) (storable : Storable platform boot la entry)
    (here : g.table ((Place.root none).table la) = some holder) :
    Booting platform boot (m.setEntry (holder, ptx la) entry) g := by
  have valid := booting.valid
  have written {b : Place} {j : Index} :
      leafEntry (Memory.write m.mem (holder, ptx la) entry) g.table b j =
        if b = (Place.root none).table la ∧ j = ptx la then entry
        else leafEntry m.mem g.table b j := valid.tree.leafEntry_write here
  have deep : ((Place.root none).table la).path.length = 3 := by rw [Place.table_boot]; rfl
  have idle (page : Fin npages) (outside : page ∉ platform.managed) (differs : page ≠ boot) :
      Memory.write m.mem (holder, ptx la) entry page = platform.mem page := by
    rw [valid.write_idle here deep outside]
    exact booting.idle page outside differs
  by_cases mappable : ((Place.root none).table la).Mappable (ptx la)
  · have near : la < utop + pgSize := by
      by_contra far
      rw [Place.table_boot] at mappable
      exact not_mappable_kernel (not_lt.mp far) high mappable
    obtain ⟨present, readOnly, target, ppn, outside, notBoot⟩ := storable.2 near
    have maps : Maps platform.managed g.table entry target :=
      ⟨ppn, present, .inr readOnly, fun placed => notBoot
        ((valid.placed_unmanaged outside placed).trans booting.pointer)⟩
    have onto {m : Pmap npages} (valid : Valid platform.managed (fun _ => none) m g)
        (empty : m.mem holder (ptx la) = 0) :
        Valid platform.managed (fun _ => none) (m.setEntry (holder, ptx la) entry) g := by
      refine (valid.map here mappable empty maps fun inside => absurd inside outside).congr_spare
        g.spare fun page inside => ?_
      rw [Ledger.spend_spare, if_neg (by rintro rfl; exact outside inside), Nat.sub_zero]
    refine ⟨?_, booting.spare, fun {b j} other page inside => ?_, booting.based,
      booting.pointer, idle, booting.refs⟩
    · rcases valid.tree.leaf here mappable with empty | ⟨old, maps'⟩
      · exact onto valid empty
      · have outside' : old ∉ platform.managed := fun inside => booting.unmapped mappable old inside
          (by rw [leafEntry_some here]; exact maps'.refers.mpr rfl)
        have cleared := (valid.clear here mappable maps').congr_spare g.spare fun page inside => by
          rw [Ledger.give_spare, if_neg (by rintro rfl; exact outside' inside), Nat.add_zero]
        have stored := onto cleared Memory.write_same
        rwa [Pmap.setEntry_setEntry] at stored
    · rw [Pmap.setEntry_mem, written]
      split
      · rw [maps.refers]
        rintro rfl
        exact outside inside
      · exact booting.unmapped other page inside
  · refine ⟨valid.storeKernel here deep mappable storable.1, booting.spare,
      fun {b j} other page inside => ?_, booting.based, booting.pointer, idle, booting.refs⟩
    rw [Pmap.setEntry_mem, written, if_neg]
    · exact booting.unmapped other page inside
    · rintro ⟨rfl, rfl⟩
      exact mappable other

/-- The walk for an address of the kernel half. It fails only when there is
memory for no more than two tables. -/
theorem walk (booting : Booting platform boot m g) {la : Nat} (low : utop ≤ la)
    (high : la < uvpt) :
    (∃ m' g' page, pml4eWalk m (some boot) la true = some (some (page, ptx la), m') ∧
        g'.table ((Place.root none).table la) = some page ∧ Booting platform boot m' g' ∧
        g.free.length ≤ g'.free.length + g.wanted (.root none) la ∧
        g'.table ⟨none, [1]⟩ ≠ none ∧ ∀ va, bootLeaf m' g' va = bootLeaf m g va) ∨
      g.free.length < g.wanted (.root none) la ∧ g.table ⟨none, [1]⟩ ≠ none ∧
        ∃ m' g', pml4eWalk m (some boot) la true = some (none, m') ∧
          Booting platform boot m' g' ∧ g'.table ⟨none, [1]⟩ ≠ none ∧
          ∀ va, bootLeaf m' g' va = bootLeaf m g va := by
  have valid := booting.valid
  have here : g.table (.root none) = some boot := by
    rw [← booting.pointer]
    exact valid.tree.bootRoot
  have first : (Place.root none).child (pml4 la) = ⟨none, [1]⟩ := by
    rw [pml4_kernel low high]
    exact Place.child_none
  have bound : g.wanted (.root none) la ≤ 3 := Valid.missing_le
  rcases Nat.lt_or_ge g.free.length (g.wanted (.root none) la) with lacking | enough
  · right
    have present : g.table ⟨none, [1]⟩ ≠ none := booting.based.resolve_right (by omega)
    obtain ⟨shared, there⟩ := Option.ne_none_iff_exists'.mp present
    obtain ⟨m', g', walked, stuck⟩ := valid.pml4eWalk_full la here rfl (.inr (first ▸ present))
      lacking
    have known : g.wanted (.root none) la ≤ 2 := by
      unfold Ledger.wanted
      rw [Layout.missing, first, there]
      exact Valid.missing_le
    have after : g'.table ⟨none, [1]⟩ ≠ none := by
      rw [stuck.grows.table there]
      exact Option.some_ne_none _
    refine ⟨lacking, present, m', g', walked, booting.grown stuck.valid stuck.grows ?_ after, after,
      fun va => stuck.grows.leaves table_deep _⟩
    refine stuck.kept fun missing => ?_
    have three : g.wanted (.root none) la = 3 := missing.1
    omega
  · left
    obtain ⟨m', g', page, walked, there, created⟩ := valid.pml4eWalk_ok la here rfl enough
    have after : g'.table ⟨none, [1]⟩ ≠ none := by
      rw [Place.table_boot, pml4_kernel low high] at there
      obtain ⟨above, there⟩ := created.valid.tree.parent there
      obtain ⟨shared, there⟩ := created.valid.tree.parent there
      rw [there]
      exact Option.some_ne_none _
    refine ⟨m', g', page, walked, there,
      booting.grown created.valid created.grows created.spare after, ?_, after,
      fun va => created.grows.leaves table_deep _⟩
    have left : g'.free.length = g.free.length - g.wanted (.root none) la := by
      rw [created.free, List.length_drop]
      rfl
    omega

theorem table_next {la : Nat} (inside : la / pgSize % 512 + 1 < 512) :
    (Place.root none).table (la + pgSize) = (Place.root none).table la := by
  have size : pgSize = 4096 := rfl
  rw [size] at inside ⊢
  rw [Place.table_boot, Place.table_boot]
  have first : pml4 (la + 4096) = pml4 la := Fin.ext (by rw [pml4_eq, pml4_eq]; omega)
  have second : pdpe (la + 4096) = pdpe la := Fin.ext (by rw [pdpe_eq, pdpe_eq]; omega)
  have third : pdx (la + 4096) = pdx la := Fin.ext (by rw [pdx_eq, pdx_eq]; omega)
  rw [first, second, third]

theorem bootLeaf_store (booting : Booting platform boot m g) {la va : Nat} {holder : Fin npages}
    {entry : Pte} (here : g.table ((Place.root none).table la) = some holder)
    (canonical : la < 2 ^ 48) (canonical' : va < 2 ^ 48) :
    bootLeaf (m.setEntry (holder, ptx la) entry) g va =
      if va / pgSize = la / pgSize then entry else bootLeaf m g va := by
  unfold bootLeaf
  rw [Pmap.setEntry_mem, booting.valid.tree.leafEntry_write here]
  exact if_congr (boot_slot_iff canonical' canonical) rfl rfl

theorem one_le_chunks {offset rounds : Nat} : 1 ≤ (offset + (rounds + 1) + 511) / 512 := by
  omega

theorem remapped_cons {m₁ m₂ : Pmap npages} {g₁ : Ledger npages} {la rounds pa : Nat}
    {perm : BitVec 12} {enough enough' : Prop}
    (remapped : Remapped m₂ g₁ m' g' (la + pgSize) rounds (pa + 1) perm enough')
    (stored : ∀ va < 2 ^ 48, bootLeaf m₂ g₁ va =
      if va / pgSize = la / pgSize then ⟨pa, perm⟩ else bootLeaf m₁ g₁ va)
    (leaves : ∀ va, bootLeaf m₁ g₁ va = bootLeaf m g va) (implied : enough → enough') :
    Remapped m g m' g' la (rounds + 1) pa perm enough := by
  have next : (la + pgSize) / pgSize = la / pgSize + 1 := Nat.add_div_right la (by decide)
  refine ⟨fun va canonical outside => ?_, fun holds va canonical low high => ?_⟩
  · rw [remapped.kept va canonical (by omega), stored va canonical, if_neg (by omega), leaves]
  · by_cases first : va / pgSize = la / pgSize
    · rw [remapped.kept va canonical (by omega), stored va canonical, if_pos first, first,
        Nat.sub_self]
      rfl
    · rw [remapped.set (implied holds) va canonical (by omega) (by omega)]
      congr 1
      omega

/-- Mapping a region takes at most three pages for each page table that it
starts to use. -/
theorem bootMapLoop (booting : Booting platform boot m g) {perm : BitVec 12} {rounds la pa : Nat}
    (low : utop ≤ la) (high : la + rounds * pgSize ≤ uvpt)
    (storable : ∀ i < rounds, Storable platform boot (la + i * pgSize) ⟨pa + i, perm⟩) :
    ∃ m' g', Jos.bootMapLoop perm rounds la pa m = some m' ∧ Booting platform boot m' g' ∧
      (0 < rounds ∨ g.table ⟨none, [1]⟩ ≠ none → g'.table ⟨none, [1]⟩ ≠ none) ∧
      g.free.length ≤ g'.free.length + 3 * ((la / pgSize % 512 + rounds + 511) / 512) ∧
      (g.table ((Place.root none).table la) ≠ none →
        g.free.length ≤ g'.free.length + 3 * ((la / pgSize % 512 + rounds - 1) / 512)) ∧
      Remapped m g m' g' la rounds pa perm
        (3 * ((la / pgSize % 512 + rounds + 511) / 512) ≤ g.free.length ∨
          g.table ((Place.root none).table la) ≠ none ∧
            3 * ((la / pgSize % 512 + rounds - 1) / 512) ≤ g.free.length) := by
  induction rounds generalizing m g la pa with
  | zero =>
    exact ⟨m, g, rfl, booting, fun present => present.resolve_left (lt_irrefl 0),
      Nat.le_add_right _ _, fun _ => Nat.le_add_right _ _,
      ⟨fun _ _ _ => rfl, fun _ _ _ low high => absurd low (by omega)⟩⟩
  | succ rounds ih =>
    have size : pgSize = 4096 := rfl
    have room : la + (rounds * 4096 + 4096) ≤ uvpt := by rwa [size, Nat.succ_mul] at high
    have below : la < uvpt := by omega
    have bound : g.wanted (.root none) la ≤ 3 := Valid.missing_le
    have known (present : g.table ((Place.root none).table la) ≠ none) :
        g.wanted (.root none) la = 0 := by
      obtain ⟨page, there⟩ := Option.ne_none_iff_exists'.mp present
      rw [Place.table_boot] at there
      obtain ⟨pgdir, above⟩ := booting.valid.tree.parent there
      obtain ⟨pdpt, top⟩ := booting.valid.tree.parent above
      simp [Ledger.wanted, Layout.missing, Place.root, Place.child_none, there, above, top]
    rcases booting.walk low below with
      ⟨m₁, g₁, page, walked, there, booting₁, taken, shared, leaves⟩ |
      ⟨lacking, -, m₁, g₁, walked, booting₁, shared, leaves⟩
    · have stored : Booting platform boot (m₁.setEntry (page, ptx la) ⟨pa, perm⟩) g₁ :=
        booting₁.store below (by simpa using storable 0 (Nat.succ_pos _)) there
      have nextLow : utop ≤ la + pgSize := low.trans (Nat.le_add_right _ _)
      have nextHigh : la + pgSize + rounds * pgSize ≤ uvpt := by rw [size]; omega
      have nextStorable (i : Nat) (small : i < rounds) :
          Storable platform boot (la + pgSize + i * pgSize) ⟨pa + 1 + i, perm⟩ := by
        have next := storable (i + 1) (by omega)
        rwa [Nat.add_mul, Nat.one_mul, ← Nat.add_assoc, Nat.add_right_comm, ← Nat.add_assoc,
          Nat.add_right_comm pa] at next
      obtain ⟨m', g', ran, booting', kept, spent, spentKnown, remapped⟩ :=
        ih stored nextLow nextHigh nextStorable
      have later : g₁.free.length ≤
          g'.free.length + 3 * ((la / pgSize % 512 + rounds) / 512) := by
        by_cases inside : la / pgSize % 512 + 1 < 512
        · have spent := spentKnown (by rw [table_next inside, there]; exact Option.some_ne_none _)
          rw [size] at spent inside ⊢
          omega
        · rw [size] at spent inside ⊢
          omega
      refine ⟨m', g', ?_, booting', fun _ => kept (.inr shared), ?_, fun present => ?_, ?_⟩
      · rw [Jos.bootMapLoop, booting.pointer, walked]
        exact ran
      · omega
      · rw [known present] at taken
        omega
      · have canonical : la < 2 ^ 48 := below.trans (by decide)
        refine remapped_cons remapped
          (fun va canonical' => booting₁.bootLeaf_store there canonical canonical') leaves
          fun enough => ?_
        have rest : 3 * ((la / pgSize % 512 + rounds) / 512) ≤ g₁.free.length := by
          rcases enough with most | ⟨present, most⟩
          · omega
          · rw [known present] at taken
            omega
        by_cases inside : la / pgSize % 512 + 1 < 512
        · refine .inr ⟨by rw [table_next inside, there]; exact Option.some_ne_none _, ?_⟩
          rw [size] at rest inside ⊢
          omega
        · refine .inl ?_
          rw [size] at rest inside ⊢
          omega
    · have again : la + rounds * pgSize ≤ uvpt := by
        rw [size]
        exact le_trans (by gcongr; exact Nat.le_add_right _ _) room
      have few : g.free.length < 3 := lacking.trans_le bound
      obtain ⟨m', g', ran, booting', kept, -, -, remapped⟩ := ih booting₁ low again
        fun i small => storable i (Nat.lt_succ_of_lt small)
      have some : 1 ≤ (la / pgSize % 512 + (rounds + 1) + 511) / 512 := one_le_chunks
      refine ⟨m', g', ?_, booting', fun _ => kept (.inr shared), ?_, fun present => ?_, ?_⟩
      · rw [Jos.bootMapLoop, booting.pointer, walked]
        exact ran
      · calc g.free.length ≤ 3 * 1 := few.le
          _ ≤ 3 * ((la / pgSize % 512 + (rounds + 1) + 511) / 512) := Nat.mul_le_mul_left 3 some
          _ ≤ _ := Nat.le_add_left _ _
      · rw [known present] at lacking
        exact absurd lacking (Nat.not_lt_zero _)
      · refine ⟨fun va canonical outside => ?_, fun enough => ?_⟩
        · rw [remapped.kept va canonical (by omega), leaves]
        · rcases enough with most | ⟨present, -⟩
          · omega
          · rw [known present] at lacking
            exact absurd lacking (Nat.not_lt_zero _)

theorem bootMapRegion (booting : Booting platform boot m g) {perm : BitVec 12}
    {la size pa : Nat} (low : utop ≤ la) (high : la + size / pgSize * pgSize ≤ uvpt)
    (storable : ∀ i < size / pgSize, Storable platform boot (la + i * pgSize) ⟨pa + i, perm⟩) :
    ∃ m' g', Jos.bootMapRegion m la size pa perm = some m' ∧ Booting platform boot m' g' ∧
      (0 < size / pgSize ∨ g.table ⟨none, [1]⟩ ≠ none → g'.table ⟨none, [1]⟩ ≠ none) ∧
      g.free.length ≤
        g'.free.length + 3 * ((la / pgSize % 512 + size / pgSize + 511) / 512) ∧
      Remapped m g m' g' la (size / pgSize) pa perm
        (3 * ((la / pgSize % 512 + size / pgSize + 511) / 512) ≤ g.free.length) := by
  obtain ⟨m', g', ran, booting', shared, spent, -, remapped⟩ :=
    booting.bootMapLoop low high storable
  exact ⟨m', g', ran, booting', shared, spent, remapped.kept, fun enough =>
    remapped.set (.inl enough)⟩

end Booting

namespace Platform

variable (platform : Platform npages)

theorem kernEnd_lt_npages : platform.kernEnd < npages :=
  platform.kernEnd_lt.trans platform.room

/-- The page of `boot_pml4e`. -/
def bootPage : Fin npages := ⟨platform.kernEnd, platform.kernEnd_lt_npages⟩

theorem bootPage_unmanaged : platform.bootPage ∉ platform.managed := by
  have hole := platform.hole
  have image := platform.image
  have order := platform.kernEnd_lt
  have low : ioPhysMem / pgSize = 160 := by decide
  rintro (⟨-, small, -⟩ | large)
  · change platform.kernEnd < 160 at small
    omega
  · change platform.kernE ≤ platform.kernEnd at large
    omega

/-- Before anything is mapped, `boot_pml4e` is the only table. -/
theorem booting {m : Pmap npages} (head : m.pageFreeList = pa2page npages 1)
    (pages : ∀ page, (m.pages page).ppRef = 0 ∧
      (m.pages page).ppLink = initialLink platform page)
    (pointer : m.bootPml4e = platform.bootPage)
    (mem : m.mem = update platform.mem platform.bootPage fun _ => 0) :
    Booting platform platform.bootPage m
      ⟨update (fun _ => none) (.root none) (some platform.bootPage), fun _ => 0,
        platform.initialFree⟩ := by
  set table : Layout npages := update (fun _ => none) (.root none)
    (some platform.bootPage) with layout
  have only {a : Place} {page : Fin npages} (there : table a = some page) :
      a = .root none ∧ page = platform.bootPage := by
    by_cases top : a = .root none
    · subst top
      exact ⟨rfl, Option.some.inj (by simpa [layout] using there.symm)⟩
    · rw [layout, update_of_ne top] at there
      cases there
  have empty (i : Index) : m.mem platform.bootPage i = 0 := by
    rw [mem, update_self]
  have shallow {a : Place} {page : Fin npages} (there : table a = some page)
      (deep : a.path.length = 3) : False := by
    rw [(only there).1] at deep
    simp at deep
  have tree : Tree platform.managed (fun _ => none) m.bootPml4e m.mem table :=
    { root := fun e => update_of_ne (by simp [Place.root]) ..
      bootRoot := by rw [pointer, layout, update_self]
      shared := .inr fun _ => rfl
      injective := fun first second => (only first).1.trans (only second).1.symm
      parent := fun there => by simpa [Place.root] using (only there).1
      depth := fun there => by rw [(only there).1]; exact Nat.zero_le 3
      plain := fun there => by simpa [Place.root] using (only there).1
      link := fun there _ i => by
        obtain ⟨rfl, rfl⟩ := only there
        have below : Place.child (.root none) i ≠ .root none := by
          rw [Place.root, Place.child_none]
          simp
        rw [empty, layout, update_of_ne below]
        rfl
      leaf := fun there mappable => (shallow there mappable.length).elim
      kernel := fun there deep _ => (shallow there deep).elim
      tableManaged := fun there other => absurd (only there).1 other
      bootUnmanaged := pointer ▸ platform.bootPage_unmanaged }
  refine ⟨⟨tree, platform.pool head pages, fun page inside => ?_⟩, fun _ => rfl,
    fun {a t} mappable page _ => ?_, .inr ?_, pointer, fun page _ differs => ?_,
    fun page _ => (pages page).1⟩
  · have unused : Tree.Unused m.mem table page := by
      refine ⟨?_, fun there mappable => (shallow there mappable.length).elim⟩
      rintro ⟨a, there⟩
      obtain ⟨-, rfl⟩ := only there
      exact platform.bootPage_unmanaged inside
    rw [(pages page).1, uses_of_unused unused]
    rfl
  · have absent : table a = none := by
      by_contra present
      obtain ⟨holder, there⟩ := Option.ne_none_iff_exists'.mp present
      exact shallow there mappable.length
    rw [leafEntry_none absent]
    exact not_refers_zero
  · have bound : 1 + 6 ≤ npages := by
      have := platform.hole
      have := platform.image
      have := platform.kernEnd_lt_npages
      have low : ioPhysMem / pgSize = 160 := by decide
      omega
    change 3 ≤ platform.initialFree.length
    rw [initialFree, List.length_append, length_cellRange bound]
    omega
  · rw [mem, update_of_ne differs]

end Platform

def kernelTables (npages : Nat) : Nat :=
  3 * ((npages * pageInfoSize / pgSize + 511) / 512 + 1 + ncpuMax + (npages + 511) / 512)

def kstackBottom (i : Nat) : Nat := kstackTop - i * (kstkSize + kstkGap) - kstkSize

theorem kstackBottom_page {i : Nat} (small : i < ncpuMax) :
    kstackBottom i / pgSize = 2 ^ 27 + 2 ^ 14 - 16 - i * 24 := by
  have cpus : ncpuMax = 8 := rfl
  have stack : kstkSize = 16 * 4096 := rfl
  have gap : kstkGap = 8 * 4096 := rfl
  have top : kstackTop = 2 ^ 39 + 2 ^ 26 := by decide
  have size : pgSize = 4096 := rfl
  rw [kstackBottom, stack, gap, top, size]
  omega

/-- Flags that are not both writable and for the user may be stored behind the
page at UTOP, whatever they point to. -/
theorem storable_high {platform : Platform npages} {boot : Fin npages} {la ppn : Nat}
    {perm : BitVec 12} (high : utop + pgSize ≤ la)
    (limited : ¬ (perm.getLsbD 1 = true ∧ perm.getLsbD 2 = true)) :
    Storable platform boot la ⟨ppn, perm⟩ :=
  ⟨limited, fun near => absurd high (not_le.mpr near)⟩

namespace Booting

variable {platform : Platform npages} {boot : Fin npages} {m m' : Pmap npages}
  {g g' : Ledger npages}

theorem stack_chunk {i : Nat} (small : i < 8) : ((496 - i * 24) % 512 + 16 + 511) / 512 ≤ 1 := by
  omega

/-- The stacks of the processors lie below KERNBASE, each within what one page
table maps. -/
theorem stackRegion (booting : Booting platform boot m g) (shared : g.table ⟨none, [1]⟩ ≠ none)
    {i : Nat} (small : i < ncpuMax) (pa : Nat) :
    ∃ m' g', Jos.bootMapRegion m (kstackTop - i * (kstkSize + kstkGap) - kstkSize) kstkSize pa
        (pteW ||| pteP) = some m' ∧ Booting platform boot m' g' ∧
      g'.table ⟨none, [1]⟩ ≠ none ∧ g.free.length ≤ g'.free.length + 3 ∧
      Remapped m g m' g' (kstackBottom i) (kstkSize / pgSize) pa (pteW ||| pteP)
        (3 ≤ g.free.length) := by
  have cpus : ncpuMax = 8 := rfl
  have stack : kstkSize = 16 * 4096 := rfl
  have gap : kstkGap = 8 * 4096 := rfl
  have top : kstackTop = 2 ^ 39 + 2 ^ 26 := by decide
  have limit : uvpt = 2 ^ 40 := by decide
  have size : pgSize = 4096 := rfl
  have above : utop + pgSize ≤ kstackTop - i * (kstkSize + kstkGap) - kstkSize := by
    rw [utop_eq, stack, gap, top, size]
    omega
  have high : kstackTop - i * (kstkSize + kstkGap) - kstkSize + kstkSize / pgSize * pgSize ≤
      uvpt := by
    rw [stack, gap, top, limit, size]
    omega
  have page : (kstackTop - i * (kstkSize + kstkGap) - kstkSize) / pgSize =
      512 * (2 ^ 18 + 2 ^ 5 - 1) + (496 - i * 24) := by
    rw [stack, gap, top, size]
    omega
  have one : ((kstackTop - i * (kstkSize + kstkGap) - kstkSize) / pgSize % 512 +
      kstkSize / pgSize + 511) / 512 ≤ 1 := by
    rw [page, Nat.mul_add_mod]
    exact stack_chunk small
  have storable (j : Nat) (_ : j < kstkSize / pgSize) : Storable platform boot
      (kstackTop - i * (kstkSize + kstkGap) - kstkSize + j * pgSize) ⟨pa + j, pteW ||| pteP⟩ :=
    storable_high (above.trans (Nat.le_add_right _ _)) (by decide)
  obtain ⟨m', g', ran, booting', shared', spent, remapped⟩ := booting.bootMapRegion
    (le_trans (Nat.le_add_right _ _) above) high storable
  exact ⟨m', g', ran, booting', shared' (.inr shared), by omega, remapped.kept,
    fun enough => remapped.set (by omega)⟩

/-- The stacks of the first processors are mapped, and nothing between them. -/
structure Stacked (m : Pmap npages) (g : Ledger npages) (m' : Pmap npages) (g' : Ledger npages)
    (kstacks count : Nat) : Prop where
  kept : ∀ va < 2 ^ 48, (∀ i < count, va / pgSize < kstackBottom i / pgSize ∨
    kstackBottom i / pgSize + 16 ≤ va / pgSize) → bootLeaf m' g' va = bootLeaf m g va
  mapped : 3 * count ≤ g.free.length → ∀ i < count, ∀ va < 2 ^ 48,
    kstackBottom i / pgSize ≤ va / pgSize → va / pgSize < kstackBottom i / pgSize + 16 →
      bootLeaf m' g' va =
        ⟨kstacks + i * 16 + (va / pgSize - kstackBottom i / pgSize), pteW ||| pteP⟩

theorem Stacked.succ {m₁ : Pmap npages} {g₁ : Ledger npages} {kstacks count : Nat}
    (stacked : Stacked m g m₁ g₁ kstacks count) (small : count < ncpuMax)
    (spent : g.free.length ≤ g₁.free.length + 3 * count)
    (remapped : Remapped m₁ g₁ m' g' (kstackBottom count) 16 (kstacks + count * 16)
      (pteW ||| pteP) (3 ≤ g₁.free.length)) : Stacked m g m' g' kstacks (count + 1) := by
  have cpus : ncpuMax = 8 := rfl
  refine ⟨fun va canonical outside => ?_, fun enough i low va canonical above below => ?_⟩
  · rw [remapped.kept va canonical (outside count (Nat.lt_succ_self _))]
    exact stacked.kept va canonical fun i low => outside i (Nat.lt_succ_of_lt low)
  · rcases Nat.lt_succ_iff_lt_or_eq.mp low with earlier | rfl
    · have first := kstackBottom_page (earlier.trans small)
      have second := kstackBottom_page small
      rw [remapped.kept va canonical (by omega)]
      exact stacked.mapped (by omega) i earlier va canonical above below
    · exact remapped.set (by omega) va canonical above below

theorem memInitMp (booting : Booting platform boot m g) (shared : g.table ⟨none, [1]⟩ ≠ none)
    (kstacks : Nat) :
    ∃ m' g', Jos.memInitMp m kstacks = some m' ∧ Booting platform boot m' g' ∧
      g'.table ⟨none, [1]⟩ ≠ none ∧ g.free.length ≤ g'.free.length + 3 * ncpuMax ∧
      Stacked m g m' g' kstacks ncpuMax := by
  have whole : ∃ m', Jos.memInitMp m kstacks = some m' ∧ ∃ g', Booting platform boot m' g' ∧
      g'.table ⟨none, [1]⟩ ≠ none ∧
      g.free.length ≤ g'.free.length + 3 * (List.range ncpuMax).length ∧
      Stacked m g m' g' kstacks (List.range ncpuMax).length := by
    refine foldlM_total (fun done m' => ∃ g', Booting platform boot m' g' ∧
      g'.table ⟨none, [1]⟩ ≠ none ∧ g.free.length ≤ g'.free.length + 3 * done.length ∧
      Stacked m g m' g' kstacks done.length)
      ⟨g, booting, shared, Nat.le_add_right _ _, fun _ _ _ => rfl,
        fun _ i low => absurd low (Nat.not_lt_zero i)⟩ ?_
    rintro done i m₁ ⟨rest, split⟩ ⟨g₁, booting₁, shared₁, spent₁, stacked⟩
    have small : i < ncpuMax := List.mem_range.mp (by rw [split]; simp)
    have here : i = done.length := by
      have found := congrArg (fun list => list[done.length]?) split
      have bound : done.length < ncpuMax := by
        have length := congrArg List.length split
        rw [List.length_range, List.length_append, List.length_cons] at length
        omega
      simpa [List.getElem?_range bound, eq_comm] using found
    subst here
    obtain ⟨m₂, g₂, ran, booting₂, shared₂, spent₂, remapped⟩ := booting₁.stackRegion shared₁ small
      (kstacks + done.length * (kstkSize / pgSize))
    refine ⟨m₂, ran, g₂, booting₂, shared₂, ?_, ?_⟩
    · rw [List.length_append, List.length_singleton]
      omega
    · rw [List.length_append, List.length_singleton]
      exact stacked.succ small spent₁ remapped
  obtain ⟨m', ran, g', booting', shared', spent, stacked⟩ := whole
  rw [List.length_range] at spent stacked
  exact ⟨m', g', ran, booting', shared', spent, stacked⟩

end Booting

/-- Where the stacks and all of physical memory are mapped; nothing is between the stacks. -/
structure KernelMapped (platform : Platform npages) (m : Pmap npages) (g : Ledger npages) :
    Prop where
  stack : ∀ i < ncpuMax, ∀ va < 2 ^ 48, kstackBottom i / pgSize ≤ va / pgSize →
    va / pgSize < kstackBottom i / pgSize + 16 → bootLeaf m g va =
      ⟨platform.kstacks + i * 16 + (va / pgSize - kstackBottom i / pgSize), pteW ||| pteP⟩
  gap : ∀ va < kstackTop, kstackTop ≤ va + ncpuMax * (kstkSize + kstkGap) →
    (∀ i < ncpuMax, va / pgSize < kstackBottom i / pgSize ∨
      kstackBottom i / pgSize + 16 ≤ va / pgSize) → bootLeaf m g va = 0
  physical : ∀ va, kernBase ≤ va → va < kernBase + npages * pgSize →
    bootLeaf m g va = ⟨(va - kernBase) / pgSize, pteP ||| pteW⟩

/-- Where `pages[]` and `envs[]` are mapped, whole pages only, and nothing behind `pages[]`. -/
structure Windowed (platform : Platform npages) (m : Pmap npages) (g : Ledger npages) :
    Prop where
  pages : ∀ va, upages ≤ va → va < upages + npages * pageInfoSize / pgSize * pgSize →
    bootLeaf m g va = ⟨pagesPage platform.kernEnd + (va - upages) / pgSize, pteU ||| pteP⟩
  envs : ∀ va, uenvs ≤ va → va < uenvs + nenv * envSize → bootLeaf m g va =
    ⟨envsPage npages platform.kernEnd + (va - uenvs) / pgSize, pteU ||| pteP⟩
  behind : ∀ va, upages + npages * pageInfoSize / pgSize * pgSize ≤ va → va < mmioBase →
    bootLeaf m g va = 0

theorem bootLeaf_bare {m : Pmap npages} {page : Fin npages} {spare : Fin npages → Nat}
    {free : List (Fin npages)} (va : Nat) :
    bootLeaf m ⟨update (fun _ => none) (.root none) (some page), spare, free⟩ va = 0 := by
  have differs : (Place.root none).table va ≠ .root none := by
    rw [Place.table_boot]
    simp [Place.root]
  refine leafEntry_none ?_
  simp only [update_of_ne differs]

theorem windowed {platform : Platform npages} {m₁ m₂ m₃ m₄ m₅ : Pmap npages}
    {g₁ g₂ g₃ g₄ g₅ : Ledger npages} {enough₂ enough₃ enough₅ : Prop}
    (empty : ∀ va, bootLeaf m₁ g₁ va = 0)
    (remapped₂ : Remapped m₁ g₁ m₂ g₂ upages (npages * pageInfoSize / pgSize)
      (pagesPage platform.kernEnd) (pteU ||| pteP) enough₂) (ample₂ : enough₂)
    (remapped₃ : Remapped m₂ g₂ m₃ g₃ uenvs (nenv * envSize / pgSize)
      (envsPage npages platform.kernEnd) (pteU ||| pteP) enough₃) (ample₃ : enough₃)
    (stacked : Booting.Stacked m₃ g₃ m₄ g₄ platform.kstacks ncpuMax)
    (remapped₅ : Remapped m₄ g₄ m₅ g₅ kernBase npages 0 (pteP ||| pteW) enough₅) :
    Windowed platform m₅ g₅ := by
  have size : pgSize = 4096 := rfl
  have first : upages / 4096 = 2 ^ 27 + 5 * 2 ^ 9 := by decide
  have second : uenvs / 4096 = 2 ^ 27 + 4 * 2 ^ 9 := by decide
  have third : nenv * envSize = 72 * 4096 := by decide
  have last : kernBase / 4096 = 2 ^ 27 + 2 ^ 14 := by decide
  have base : upages = 2 ^ 39 + 5 * 2 ^ 21 := by decide
  have bottom : uenvs = 2 ^ 39 + 4 * 2 ^ 21 := by decide
  have top : mmioBase = 2 ^ 39 + 30 * 2 ^ 21 := by decide
  have below : npages * pageInfoSize / 4096 ≤ 12800 := by
    have most : npages ≤ 3276800 := platform.limit.trans (by decide)
    have info : pageInfoSize = 16 := rfl
    rw [info]
    omega
  rw [size] at remapped₂ remapped₃
  rw [third, Nat.mul_div_cancel _ (by decide)] at remapped₃
  -- below the MMIO region, only the two windows have been mapped
  have early (va : Nat) (low : va < mmioBase) : bootLeaf m₅ g₅ va = bootLeaf m₃ g₃ va := by
    have canonical : va < 2 ^ 48 := low.trans (by decide)
    rw [top] at low
    rw [remapped₅.kept va canonical (by rw [size]; omega),
      stacked.kept va canonical fun i small => ?_]
    rw [kstackBottom_page small, size]
    have cpus : ncpuMax = 8 := rfl
    omega
  refine ⟨fun va low high => ?_, fun va low high => ?_, fun va low high => ?_⟩
  · rw [base] at low high
    rw [size] at high
    have page : va / pgSize - upages / pgSize = (va - upages) / pgSize := by
      rw [size, first, base]
      omega
    rw [early va (by rw [top]; omega), remapped₃.kept va (by omega) (by rw [size]; omega),
      remapped₂.set ample₂ va (by omega) (by rw [size]; omega) (by rw [size]; omega), page]
  · rw [bottom] at low high
    rw [third] at high
    have page : va / pgSize - uenvs / pgSize = (va - uenvs) / pgSize := by
      rw [size, second, bottom]
      omega
    rw [early va (by rw [top]; omega),
      remapped₃.set ample₃ va (by omega) (by rw [size]; omega) (by rw [size]; omega), page]
  · have canonical : va < 2 ^ 48 := high.trans (by decide)
    rw [base] at low
    rw [size] at low
    rw [early va high, remapped₃.kept va canonical (by rw [size]; omega),
      remapped₂.kept va canonical (by rw [size]; omega), empty]

/-- The kernel half is mapped, unless the machine has less memory than the boot
assumes. -/
theorem x64VmInit_booting (platform : Platform npages) :
    ∃ m g, x64VmInit platform = some m ∧ Booting platform platform.bootPage m g ∧
      g.table ⟨none, [1]⟩ ≠ none ∧
      platform.initialFree.length ≤ g.free.length + kernelTables npages ∧
      (kernelTables npages ≤ platform.initialFree.length →
        KernelMapped platform m g ∧ Windowed platform m g) := by
  have size : pgSize = 4096 := rfl
  have info : pageInfoSize = 16 := rfl
  have limit : uvpt = 2 ^ 40 := by decide
  have top : upages = 2 ^ 39 + 5 * 2 ^ 21 := by decide
  have base : kernBase = 2 ^ 39 + 2 ^ 26 := by decide
  have most : npages ≤ 3276800 := platform.limit.trans (by decide)
  have readOnly : (pteU ||| pteP).getLsbD 1 = false := by decide
  have bootFound : pa2page npages platform.kernEnd = some platform.bootPage :=
    pa2page_lt platform.kernEnd_lt_npages
  set m₀ : Pmap npages := Pmap.clearPage
    ⟨fun _ => ⟨none, 0⟩, none, platform.bootPage, platform.mem⟩ platform.bootPage with start
  obtain ⟨m₁, inited, head, pointer, mem, pages⟩ := pageInit_eq platform m₀
  have booting₁ := platform.booting head pages pointer mem
  -- pages[], within the first page table of the user-readable half
  have low₂ : utop ≤ upages := by decide
  have high₂ : upages + npages * pageInfoSize / pgSize * pgSize ≤ uvpt := by
    rw [top, info, size, limit]
    omega
  have storable₂ (i : Nat) (_ : i < npages * pageInfoSize / pgSize) : Storable platform
      platform.bootPage (upages + i * pgSize) ⟨pagesPage platform.kernEnd + i, pteU ||| pteP⟩ :=
    storable_high (le_trans (by decide) (Nat.le_add_right _ _)) (by decide)
  obtain ⟨m₂, g₂, ran₂, booting₂, -, spent₂, remapped₂⟩ :=
    booting₁.bootMapRegion low₂ high₂ storable₂
  -- envs[], which starts at UTOP
  have low₃ : utop ≤ uenvs := le_rfl
  have high₃ : uenvs + nenv * envSize / pgSize * pgSize ≤ uvpt := by decide
  have storable₃ (i : Nat) (few : i < nenv * envSize / pgSize) : Storable platform
      platform.bootPage (uenvs + i * pgSize)
      ⟨envsPage npages platform.kernEnd + i, pteU ||| pteP⟩ := by
    have few : i < 72 := few
    have last : envsPage npages platform.kernEnd + 72 = platform.kernE := rfl
    have first : platform.kernEnd < pagesPage platform.kernEnd := by
      rw [pagesPage, bootAlloc, size]
      omega
    have second : pagesPage platform.kernEnd ≤ envsPage npages platform.kernEnd :=
      Nat.le_add_right _ _
    have room : platform.kernE < npages := platform.room
    have hole := platform.hole
    have image := platform.image
    have hole' : ioPhysMem / pgSize = 160 := by decide
    have bound : envsPage npages platform.kernEnd + i < npages := by omega
    have writable : ¬ (pteU ||| pteP).getLsbD 1 = true := by decide
    refine ⟨fun both => writable both.1, fun _ => ⟨present_or, readOnly,
      ⟨_, bound⟩, rfl, ?_, fun same => ?_⟩⟩
    · rintro (⟨-, small, -⟩ | large)
      · simp only at small
        omega
      · simp only at large
        omega
    · have equal : envsPage npages platform.kernEnd + i = platform.kernEnd := Fin.mk.inj same
      omega
  obtain ⟨m₃, g₃, ran₃, booting₃, shared₃, spent₃, remapped₃⟩ :=
    booting₂.bootMapRegion low₃ high₃ storable₃
  have shared₃ := shared₃ (.inl (by decide))
  have one : (uenvs / pgSize % 512 + nenv * envSize / pgSize + 511) / 512 = 1 := by decide
  -- the stacks
  obtain ⟨m₄, g₄, ran₄, booting₄, shared₄, spent₄, stacked⟩ :=
    booting₃.memInitMp shared₃ platform.kstacks
  -- all of physical memory
  have high₅ : kernBase + npages * pgSize / pgSize * pgSize ≤ uvpt := by
    rw [Nat.mul_div_cancel _ (by decide), base, size, limit]
    omega
  have storable₅ (i : Nat) (_ : i < npages * pgSize / pgSize) : Storable platform
      platform.bootPage (kernBase + i * pgSize) ⟨0 + i, pteP ||| pteW⟩ :=
    storable_high (le_trans (by decide) (Nat.le_add_right _ _)) (by decide)
  obtain ⟨m₅, g₅, ran₅, booting₅, shared₅, spent₅, remapped₅⟩ :=
    booting₄.bootMapRegion (by decide) high₅ storable₅
  refine ⟨m₅, g₅, ?_, booting₅, shared₅ (.inr shared₄), ?_, fun enough => ?_⟩
  · have inited : pageInit m₀ (firstFree npages platform.kernEnd) platform.bootPts = some m₁ :=
      inited
    simp only [x64VmInit, bootFound, Option.bind_eq_bind, Option.bind_some, ← start, inited, ran₂,
      ran₃, ran₄, ran₅]
  · have offset₂ : upages / pgSize % 512 = 0 := by decide
    have offset₅ : kernBase / pgSize % 512 = 0 := by decide
    rw [offset₂, Nat.zero_add] at spent₂
    rw [one] at spent₃
    rw [offset₅, Nat.zero_add, Nat.mul_div_cancel _ (by decide)] at spent₅
    unfold kernelTables
    simp only at spent₂
    omega
  · have offset₂ : upages / pgSize % 512 = 0 := by decide
    have offset₅ : kernBase / pgSize % 512 = 0 := by decide
    have cpus : ncpuMax = 8 := rfl
    rw [offset₂, Nat.zero_add] at spent₂
    rw [one] at spent₃
    rw [offset₅, Nat.zero_add, Nat.mul_div_cancel _ (by decide)] at spent₅ remapped₅
    unfold kernelTables at enough
    simp only at spent₂
    have first : upages / pgSize = 2 ^ 27 + 5 * 2 ^ 9 := by decide
    have second : uenvs / pgSize = 2 ^ 27 + 4 * 2 ^ 9 := by decide
    have third : nenv * envSize / pgSize = 72 := by decide
    have last : kernBase / pgSize = 2 ^ 27 + 2 ^ 14 := by decide
    have below : npages * pageInfoSize / pgSize ≤ 12800 := by rw [info, size]; omega
    refine ⟨⟨fun i small va canonical low high => ?_, fun va low high outside => ?_,
      fun va low high => ?_⟩, ?_⟩
    · have bottom := kstackBottom_page small
      rw [remapped₅.kept va canonical (by omega)]
      exact stacked.mapped (by omega) i small va canonical low high
    · have canonical : va < 2 ^ 48 := low.trans (by decide)
      have bottom : 2 ^ 27 + 2 ^ 14 - 192 ≤ va / 4096 := by
        have whole : ncpuMax * (kstkSize + kstkGap) = 192 * 4096 := by decide
        have top : kstackTop = 2 ^ 39 + 2 ^ 26 := by decide
        rw [whole, top] at high
        omega
      have top : va / 4096 < 2 ^ 27 + 2 ^ 14 := by
        have top : kstackTop = 2 ^ 39 + 2 ^ 26 := by decide
        rw [top] at low
        omega
      rw [size] at first second third last below
      rw [remapped₅.kept va canonical (by rw [size]; omega), stacked.kept va canonical outside,
        remapped₃.kept va canonical (by rw [size]; omega),
        remapped₂.kept va canonical (by rw [size]; omega), bootLeaf_bare]
    · rw [base] at low high
      rw [size] at high
      have canonical : va < 2 ^ 48 := by omega
      have above : kernBase / pgSize ≤ va / pgSize := by
        rw [last, size]
        omega
      have inside : va / pgSize < kernBase / pgSize + npages := by
        rw [last, size]
        omega
      have page : 0 + (va / pgSize - kernBase / pgSize) = (va - kernBase) / pgSize := by
        rw [last, base, size]
        omega
      rw [remapped₅.set (by omega) va canonical above inside, page]
    · have ample₂ : 3 * ((upages / pgSize % 512 + npages * pageInfoSize / pgSize + 511) / 512) ≤
          platform.initialFree.length := by
        rw [offset₂, Nat.zero_add]
        omega
      have ample₃ : 3 * ((uenvs / pgSize % 512 + nenv * envSize / pgSize + 511) / 512) ≤
          g₂.free.length := by
        rw [one]
        omega
      exact windowed bootLeaf_bare remapped₂ ample₂ remapped₃ ample₃ stacked remapped₅

namespace Booting

variable {platform : Platform npages} {boot : Fin npages} {m m' : Pmap npages}
  {g : Ledger npages}

theorem take (booting : Booting platform boot m g) (shared : g.table ⟨none, [1]⟩ ≠ none)
    {page : Fin npages} {rest : List (Fin npages)} (listed : g.free = page :: rest) :
    Booting platform boot (m.take page true) (g.setFree rest) := by
  have member : page ∈ g.free := by simp [listed]
  have unused := booting.valid.free_unused member
  refine ⟨booting.valid.take listed true, booting.spare, fun {a t} mappable other inside => ?_,
    .inl shared, by rw [Pmap.take_boot]; exact booting.pointer, fun other outside differs => ?_,
    fun other outside => by rw [Pmap.take_ref]; exact booting.refs other outside⟩
  · have same : leafEntry (m.take page true).mem g.table a t = leafEntry m.mem g.table a t := by
      unfold leafEntry
      cases there : g.table a with
      | none => rfl
      | some holder =>
        have differs : holder ≠ page := by
          rintro rfl
          exact unused.unplaced ⟨a, there⟩
        exact congrFun (Pmap.take_mem_ne differs) t
    rw [Ledger.setFree_table, same]
    exact booting.unmapped mappable other inside
  · rw [Pmap.take_mem_ne]
    · exact booting.idle other outside differs
    · rintro rfl
      exact outside (booting.valid.pool.member other member).1

theorem takeBuffers (booting : Booting platform boot m g) (shared : g.table ⟨none, [1]⟩ ≠ none)
    (count : Nat) :
    ∃ g', Booting platform boot (Jos.takeBuffers m count) g' ∧ g'.table ⟨none, [1]⟩ ≠ none := by
  induction count generalizing m g with
  | zero => exact ⟨g, booting, shared⟩
  | succ count ih =>
    cases listed : g.free with
    | nil =>
      rw [Jos.takeBuffers, booting.valid.pageAlloc_empty listed]
      exact ih booting shared
    | cons page rest =>
      rw [Jos.takeBuffers, booting.valid.pageAlloc_eq listed]
      exact ih (booting.take shared listed) shared

theorem initDevice (booting : Booting platform boot m g) (shared : g.table ⟨none, [1]⟩ ≠ none)
    {base base' : Nat} (low : mmioBase ≤ base) {device : Device}
    (ran : Jos.initDevice (base, m) device = some (base', m')) :
    mmioBase ≤ base' ∧ ∃ g', Booting platform boot m' g' ∧ g'.table ⟨none, [1]⟩ ≠ none := by
  cases device with
  | buffers count =>
    cases ran
    exact ⟨low, booting.takeBuffers shared count⟩
  | mmio pa size =>
    simp only [Jos.initDevice, mmioMapRegion] at ran
    split at ran
    · cases ran
    · rename_i inside
      obtain ⟨m₁, mapped, ran⟩ := Option.bind_eq_some_iff.mp ran
      obtain ⟨rfl, rfl⟩ := Prod.mk.inj (Option.some.inj ran)
      have page : pgSize = 4096 := rfl
      have lowest : mmioBase = 2 ^ 39 + 30 * 2 ^ 21 := by decide
      have highest : mmioLim = 2 ^ 39 + 31 * 2 ^ 21 := by decide
      have limit : uvpt = 2 ^ 40 := by decide
      have rounded : roundUp size ≤ size + 4095 := by
        refine le_trans (Nat.sub_le _ _) (le_trans (Nat.mod_le _ _) ?_)
        rw [page]
        omega
      have whole : roundUp size / pgSize * pgSize ≤ roundUp size := Nat.div_mul_le_self _ _
      have above : utop + pgSize ≤ base := by
        rw [lowest] at low
        rw [utop_eq, page]
        omega
      have high : base + roundUp size / pgSize * pgSize ≤ uvpt := by
        rw [highest] at inside
        rw [limit]
        omega
      have storable (i : Nat) (_ : i < roundUp size / pgSize) : Storable platform boot
          (base + i * pgSize) ⟨pa + i, ptePcd ||| ptePwt ||| pteW ||| pteP⟩ :=
        storable_high (above.trans (Nat.le_add_right _ _)) (by decide)
      obtain ⟨m₂, g₂, ran, booting₂, shared₂, -⟩ :=
        booting.bootMapRegion (le_trans (Nat.le_add_right _ _) above) high storable
      rw [mapped] at ran
      cases ran
      exact ⟨low.trans (Nat.le_add_right _ _), g₂, booting₂, shared₂ (.inr shared)⟩

end Booting

end Jos
