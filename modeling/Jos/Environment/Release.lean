import Jos.Environment.Sound
import Jos.Memory.Translation

/-! `env_free` does not panic when every page that the environment maps is one of the
allocator's, and puts on the free list the pages of which it gives up the last reference. -/

set_option autoImplicit false

namespace Jos

open Foundation

variable {npages : Nat} {managed tables : Set (Fin npages)} {roots : EnvIdx → Option (Fin npages)}
  {m m' m₁ m₂ : Pmap npages} {g g' : Ledger npages} {root pt pgdir pdpt page : Fin npages}
  {e : EnvIdx} {i k : Index}

/-- The pages mapped in the part of an address space that `env_free` clears are the
allocator's. -/
def Backed (managed : Set (Fin npages)) (mem : Memory npages) (table : Layout npages)
    (e : EnvIdx) : Prop :=
  ∀ (i k t : Index) (page : Fin npages),
    (leafEntry mem table ⟨some e, [k, i, 0]⟩ t).Refers page → page ∈ managed

theorem Stored.backed {a : Place} {t : Index} (stored : Stored managed roots m g m' g' a t 0)
    (backed : Backed managed m.mem g.table e) : Backed managed m'.mem g'.table e := by
  intro i k t' page refers
  rw [stored.leaves rfl] at refers
  split at refers
  · exact absurd refers not_refers_zero
  · exact backed i k t' page refers

theorem Freed.backed {gone : Place → Prop} (freed : Freed managed roots m g m' g' gone)
    (backed : Backed managed m.mem g.table e) : Backed managed m'.mem g'.table e := by
  intro i k t page refers
  by_cases out : gone ⟨some e, [k, i, 0]⟩
  · rw [leafEntry_none (freed.absent (.inl out))] at refers
    exact absurd refers not_refers_zero
  · rw [freed.leaves rfl out] at refers
    exact backed i k t page refers

/-- References are given up, to pages of the allocator only, and a page goes to the
free list with its last one. Nothing but the tables is written. -/
structure Releases (managed tables : Set (Fin npages)) (m m' : Pmap npages) : Prop where
  fewer : ∀ page, (m'.pages page).ppRef.toNat ≤ (m.pages page).ppRef.toNat
  kept : ∀ page, page ∉ managed → (m'.pages page).ppRef = (m.pages page).ppRef
  listed : ∀ {free free'}, m.FreeList free → m'.FreeList free' → ∀ page,
    page ∈ free' ↔ page ∈ free ∨ (m.pages page).ppRef ≠ 0 ∧ (m'.pages page).ppRef = 0
  memory : ∀ page, page ∉ tables → m'.mem page = m.mem page

def Ledger.Owned (g : Ledger npages) (e : EnvIdx) (tables : Set (Fin npages)) : Prop :=
  ∀ {path page}, g.table ⟨some e, path⟩ = some page → page ∈ tables

theorem Ledger.owned_univ (g : Ledger npages) : g.Owned e Set.univ := fun _ => Set.mem_univ _

theorem Freed.owned {gone : Place → Prop} (freed : Freed managed roots m g m' g' gone)
    (owned : g.Owned e tables) : g'.Owned e tables := fun there => owned (freed.table.mp there).1

theorem ref_zero {ref ref' : BitVec 16} (fewer : ref'.toNat ≤ ref.toNat) (none : ref = 0) :
    ref' = 0 := by
  subst none
  exact BitVec.eq_of_toNat_eq (Nat.le_zero.mp fewer)

namespace Releases

theorem refl : Releases managed tables m m where
  fewer _ := le_rfl
  kept _ _ := rfl
  listed before after page := by
    obtain rfl := before.functional after
    exact (or_iff_left fun both => both.1 both.2).symm
  memory _ _ := rfl

theorem trans (first : Releases managed tables m m₁) (second : Releases managed tables m₁ m₂)
    (middle : ∃ free, m₁.FreeList free) : Releases managed tables m m₂ where
  fewer page := (second.fewer page).trans (first.fewer page)
  kept page outside := (second.kept page outside).trans (first.kept page outside)
  listed before after page := by
    obtain ⟨free₁, there⟩ := middle
    have gone := ref_zero (second.fewer page)
    have gone' := ref_zero (first.fewer page)
    rw [second.listed there after, first.listed before there]
    tauto
  memory page outside := (second.memory page outside).trans (first.memory page outside)

theorem setEntry (releases : Releases managed tables m m') {slot : Slot npages} {entry : Pte}
    (inside : slot.1 ∈ tables) : Releases managed tables m (m'.setEntry slot entry) where
  fewer := releases.fewer
  kept := releases.kept
  listed := releases.listed
  memory page outside := by
    rw [Pmap.setEntry_mem, Memory.write_page (by rintro rfl; exact outside inside)]
    exact releases.memory page outside

end Releases

namespace Valid

section

variable (valid : Valid managed roots m g)

include valid

theorem used_of_uses (inside : page ∈ managed)
    (used : ¬ Tree.Unused m.mem g.table page) : (m.pages page).ppRef ≠ 0 := by
  intro none
  have count := valid.counted page inside
  have zero : (0 : BitVec 16).toNat = 0 := rfl
  rw [none, zero] at count
  exact used (unused_of_uses (by omega))

theorem dropRef_releases (inside : page ∈ managed)
    (used : (m.pages page).ppRef ≠ 0) : Releases managed tables m (m.dropRef page) := by
  have absent : page ∉ g.free := fun listed => used (valid.pool.member page listed).2
  have one : (1 : BitVec 16).toNat = 1 := rfl
  have positive : 0 < (m.pages page).ppRef.toNat := by
    rw [Nat.pos_iff_ne_zero, ne_eq, ← BitVec.toNat_zero (w := 16), BitVec.toNat_inj]
    exact used
  refine ⟨fun other => ?_, fun other outside => ?_, fun {free free'} before after other => ?_,
    fun other _ => by rw [Pmap.dropRef_mem]⟩
  · rw [Pmap.dropRef_ref]
    by_cases same : other = page
    · subst same
      rw [if_pos rfl, BitVec.toNat_sub, one]
      have bound := (m.pages other).ppRef.isLt
      omega
    · rw [if_neg same]
  · rw [Pmap.dropRef_ref, if_neg (by rintro rfl; exact outside inside)]
  · obtain rfl := valid.freeList_iff.mp before
    obtain rfl := after.functional (valid.pool.dropRef inside absent).chain
    rw [Pmap.dropRef_ref]
    by_cases last : (m.pages page).ppRef = 1
    · rw [if_pos last, List.mem_cons]
      by_cases same : other = page
      · subst same
        simp [last]
      · simp [same]
    · have more : (m.pages page).ppRef - 1 ≠ 0 := fun none => last (by bv_omega)
      rw [if_neg last]
      by_cases same : other = page
      · subst same
        rw [if_pos rfl]
        exact (or_iff_left fun both => more both.2).symm
      · rw [if_neg same]
        exact (or_iff_left fun both => both.1 both.2).symm

theorem freePtes_done (rooted : roots e = some root)
    (here : g.table ⟨some e, [k, i, 0]⟩ = some pt) (backed : Backed managed m.mem g.table e)
    (owned : g.Owned e tables) :
    ∃ m', freePtes (some root) pt i k m = some m' ∧ Releases managed tables m m' := by
  have own := here
  have loop : ∃ m', freePtes (some root) pt i k m = some m' ∧ Releases managed tables m m' ∧
      ∃ g', Valid managed roots m' g' ∧ g'.table ⟨some e, [k, i, 0]⟩ = some pt ∧
        Backed managed m'.mem g'.table e := by
    refine foldlM_total (fun _ m₁ => Releases managed tables m m₁ ∧ ∃ g₁,
      Valid managed roots m₁ g₁ ∧ g₁.table ⟨some e, [k, i, 0]⟩ = some pt ∧
      Backed managed m₁.mem g₁.table e) ⟨.refl, g, valid, here, backed⟩ ?_
    rintro done pteno m₁ - ⟨released, g₁, valid, here, backed⟩
    obtain ⟨place, index, user⟩ := table_low (e := e) (i := i) (k := k) (t := Fin.ofNat 512 pteno)
    rcases valid.tree.leaf here mappable_low (t := Fin.ofNat 512 pteno) with empty | ⟨target, maps⟩
    · refine ⟨m₁, ?_, released, g₁, valid, here, backed⟩
      rw [empty]
      rfl
    · have inside : target ∈ managed := by
        refine backed i k (Fin.ofNat 512 pteno) target ?_
        rw [leafEntry_some here]
        exact maps.refers.mpr rfl
      have dropped := valid.pageDecref_mapped here mappable_low maps inside
      have removed := valid.pageRemove_mapped rooted user (place.symm ▸ here) (index.symm ▸ maps)
      rw [index, dropped, Option.map_some] at removed
      obtain ⟨g', stored, tables, -⟩ := valid.unmap here mappable_low maps dropped
      have used : (m₁.pages target).ppRef ≠ 0 := valid.used_of_uses inside fun unused =>
        unused.unmapped here mappable_low maps.present maps.ppn
      refine ⟨_, ?_, (released.trans (valid.dropRef_releases inside used)
        ⟨_, valid.pool.chain⟩).setEntry (owned own), g', stored.valid, by rw [tables, here],
        stored.backed backed⟩
      rw [maps.present, if_pos rfl]
      exact removed
  obtain ⟨m', ran, released, -⟩ := loop
  exact ⟨m', ran, released⟩

theorem detach_releases {a : Place}
    (there : g.table a = some page) (owned : a ≠ .root none) : Releases managed tables m (m.dropRef page) :=
  have inside := valid.tree.tableManaged there owned
  valid.dropRef_releases inside (valid.used_of_uses inside fun unused => unused.unplaced ⟨a, there⟩)

theorem freePde_done (rooted : roots e = some root)
    (here : g.table ⟨some e, [i, 0]⟩ = some pgdir) (backed : Backed managed m.mem g.table e)
    (owned : g.Owned e tables) :
    ∃ m', freePde (some root) pgdir i k m = some m' ∧ Releases managed tables m m' := by
  have linked := valid.tree.link here (by simp) k
  rw [Place.child_cons] at linked
  cases there : g.table ⟨some e, [k, i, 0]⟩ with
  | none =>
    have empty : m.mem pgdir k = 0 := by rw [linked, there]; rfl
    exact ⟨m, by simp [freePde, empty], .refl⟩
  | some pt =>
    have full : m.mem pgdir k = ⟨pt.val, tablePerm⟩ := by rw [linked, there]; rfl
    obtain ⟨m₁, ran, released⟩ := valid.freePtes_done rooted there backed owned
    obtain ⟨g₁, emptied⟩ := freePtes_spec valid rooted there ran
    obtain ⟨g₂, dropped, -⟩ := emptied.freed (b := ⟨some e, [i, 0]⟩) Place.child_cons rfl (by simp)
      here (by simp) (fun special => by simpa using special.2.1) there
    have last : Releases managed tables _ _ := emptied.valid.detach_releases
      (a := ⟨some e, [k, i, 0]⟩) (by rw [emptied.table, there]) (by simp [Place.root])
    simp only [freePde, full, present_table, if_true, kaddr_val, Option.bind_eq_bind,
      Option.bind_some, pa2page_val, ran]
    exact ⟨_, dropped, (released.trans last ⟨_, emptied.valid.pool.chain⟩).setEntry (owned here)⟩

theorem freePdpe_done (rooted : roots e = some root)
    (here : g.table ⟨some e, [0]⟩ = some pdpt) (backed : Backed managed m.mem g.table e)
    (owned : g.Owned e tables) :
    ∃ m', freePdpe (some root) pdpt i m = some m' ∧ Releases managed tables m m' := by
  have linked := valid.tree.link here (by simp) i
  rw [Place.child_cons] at linked
  cases there : g.table ⟨some e, [i, 0]⟩ with
  | none =>
    have empty : m.mem pdpt i = 0 := by rw [linked, there]; rfl
    exact ⟨m, by simp [freePdpe, empty], .refl⟩
  | some pgdir =>
    have full : m.mem pdpt i = ⟨pgdir.val, tablePerm⟩ := by rw [linked, there]; rfl
    have loop : ∃ m₁, (List.range (pdenoLimit i)).foldlM
        (fun m pdeno => freePde (some root) pgdir i (Fin.ofNat 512 pdeno) m) m = some m₁ ∧
        Releases managed tables m m₁ ∧ ∃ g₁, Valid managed roots m₁ g₁ ∧
          g₁.table ⟨some e, [0]⟩ = some pdpt ∧ g₁.table ⟨some e, [i, 0]⟩ = some pgdir ∧
          Backed managed m₁.mem g₁.table e ∧ g₁.Owned e tables := by
      refine foldlM_total (fun _ m₁ => Releases managed tables m m₁ ∧ ∃ g₁,
        Valid managed roots m₁ g₁ ∧ g₁.table ⟨some e, [0]⟩ = some pdpt ∧
        g₁.table ⟨some e, [i, 0]⟩ = some pgdir ∧ Backed managed m₁.mem g₁.table e ∧
        g₁.Owned e tables) ⟨.refl, g, valid, here, there, backed, owned⟩ ?_
      rintro done pdeno m₁ - ⟨released, g₁, valid, here, there, backed, owned⟩
      obtain ⟨m₂, ran, next⟩ := valid.freePde_done (k := Fin.ofNat 512 pdeno) rooted there backed
        owned
      obtain ⟨g₂, freed, -⟩ := freePde_spec valid rooted there ran
      exact ⟨m₂, ran, released.trans next ⟨_, valid.pool.chain⟩, g₂, freed.valid,
        freed.present here (by simp), freed.present there (by simp), freed.backed backed,
        freed.owned owned⟩
    obtain ⟨m₁, ran, released, g₁, valid₁, here₁, there₁, -⟩ := loop
    have full₁ : m₁.mem pdpt i = ⟨pgdir.val, tablePerm⟩ := by
      rw [valid₁.tree.link here₁ (by simp) i, Place.child_cons, there₁]
      rfl
    obtain ⟨g₂, -, dropped, -⟩ := valid₁.detachFreed (a := ⟨some e, [0]⟩) (i := i) here₁ (by simp)
      (by simp) (fun special => by simpa using special.2.1)
      (by rw [Place.child_cons]; exact there₁)
    have last : Releases managed tables _ _ :=
      valid₁.detach_releases there₁ (by simp [Place.root])
    simp only [freePdpe, full, present_table, if_true, kaddr_val, Option.bind_eq_bind,
      Option.bind_some, ran, full₁, pa2page_val]
    exact ⟨_, dropped, (released.trans last ⟨_, valid₁.pool.chain⟩).setEntry (owned here)⟩

theorem freePdpes_done (rooted : roots e = some root)
    (here : g.table ⟨some e, [0]⟩ = some pdpt) (backed : Backed managed m.mem g.table e)
    (owned : g.Owned e tables) :
    ∃ m', ([0, 1, 2, 3] : List Index).foldlM (fun m i => freePdpe (some root) pdpt i m) m =
      some m' ∧ Releases managed tables m m' := by
  have loop : ∃ m', ([0, 1, 2, 3] : List Index).foldlM
      (fun m i => freePdpe (some root) pdpt i m) m = some m' ∧ Releases managed tables m m' ∧
      ∃ g', Valid managed roots m' g' ∧ g'.table ⟨some e, [0]⟩ = some pdpt ∧
        Backed managed m'.mem g'.table e ∧ g'.Owned e tables := by
    refine foldlM_total (fun _ m₁ => Releases managed tables m m₁ ∧ ∃ g₁,
      Valid managed roots m₁ g₁ ∧ g₁.table ⟨some e, [0]⟩ = some pdpt ∧
      Backed managed m₁.mem g₁.table e ∧ g₁.Owned e tables)
      ⟨.refl, g, valid, here, backed, owned⟩ ?_
    rintro done i m₁ - ⟨released, g₁, valid, here, backed, owned⟩
    obtain ⟨m₂, ran, next⟩ := valid.freePdpe_done (i := i) rooted here backed owned
    obtain ⟨g₂, freed, -⟩ := freePdpe_spec valid rooted here ran
    refine ⟨m₂, ran, released.trans next ⟨_, valid.pool.chain⟩, g₂, freed.valid,
      freed.present here fun below => ?_, freed.backed backed, freed.owned owned⟩
    simpa using Place.below_length below
  obtain ⟨m', ran, released, -⟩ := loop
  exact ⟨m', ran, released⟩

end

end Valid

/-- `env_free` succeeds. For an environment without a page directory pointer table it
gives up a reference to physical page 0, which must not be the last one. -/
theorem Sound.envFree_some {k : Kernel npages} (sound : Sound managed k g)
    (rooted : (k.envs e).envPml4e = some root) (clean : Clean k.pmap root)
    (spare : k.pmap.mem root 0 = 0 → ∀ zero : Fin npages, zero.val = 0 →
      (k.pmap.pages zero).ppRef ≠ 1)
    (backed : Backed managed k.pmap.mem g.table e) : ∃ k', Jos.envFree k e = some k' := by
  have valid := sound.valid
  have top := valid.top rooted
  have linked := valid.tree.link top (by simp) 0
  rw [Place.child_first] at linked
  -- the PDPT, or physical page 0 in its place
  have user : ∃ pdpt m₁ m₂, kaddr npages (k.pmap.mem root 0).ppn = some pdpt ∧
      ([0, 1, 2, 3] : List Index).foldlM (fun m i => freePdpe (some root) pdpt i m) k.pmap =
        some m₁ ∧ pa2page npages (m₁.mem root 0).ppn = some pdpt ∧
      pageDecref m₁ pdpt = some m₂ := by
    cases there : g.table ⟨some e, [0]⟩ with
    | some pdpt =>
      have full : k.pmap.mem root 0 = ⟨pdpt.val, tablePerm⟩ := by rw [linked, there]; rfl
      obtain ⟨m₁, looped, -⟩ := valid.freePdpes_done rooted there backed g.owned_univ
      obtain ⟨full₁, dropped, -⟩ := freeUser_spec valid rooted there looped
      exact ⟨pdpt, m₁, _, by rw [full, kaddr_val], looped, by rw [full₁, pa2page_val], dropped⟩
    | none =>
      have empty : k.pmap.mem root 0 = 0 := by rw [linked, there]; rfl
      let zero : Fin npages := ⟨0, Nat.zero_lt_of_lt root.isLt⟩
      have ppn : (k.pmap.mem root 0).ppn = zero.val := by
        rw [empty]
        rfl
      have nonzero : (k.pmap.pages zero).ppRef - 1 ≠ 0 := fun last =>
        spare empty zero rfl (by bv_omega)
      have dropped : pageDecref k.pmap zero =
          some (k.pmap.setRef zero ((k.pmap.pages zero).ppRef - 1)) := by
        simp only [pageDecref, Pmap.setRef_ref, if_true, if_neg nonzero]
      exact ⟨zero, k.pmap, _, by rw [ppn, kaddr_val], freeNothing (clean empty zero rfl),
        by rw [ppn, pa2page_val], dropped⟩
  obtain ⟨pdpt, m₁, m₂, first, looped, second, dropped⟩ := user
  obtain ⟨g₁, freed, -⟩ := sound.freeUser rooted clean first looped second dropped
  obtain ⟨g₂, uprooted, -⟩ := freed.valid.uproot (e := e) rooted
  simp only [Jos.envFree, rooted, Option.bind_eq_bind, Option.bind_some, first, looped, second,
    dropped, sound.cr3 rooted, pa2page_val, uprooted]
  exact ⟨_, rfl⟩

/-- What `env_free` gives up, when the first entry of the PML4 leads to a table. -/
theorem Sound.envFree_releases {k k' : Kernel npages} (sound : Sound managed k g)
    (rooted : (k.envs e).envPml4e = some root) (first : k.pmap.mem root 0 ≠ 0)
    (backed : Backed managed k.pmap.mem g.table e) (owned : g.Owned e tables)
    (ran : Jos.envFree k e = some k') :
    Releases managed tables k.pmap k'.pmap := by
  have valid := sound.valid
  have top := valid.top rooted
  have linked := valid.tree.link top (by simp) 0
  rw [Place.child_first] at linked
  cases there : g.table ⟨some e, [0]⟩ with
  | none => exact absurd (by rw [linked, there]; rfl) first
  | some pdpt =>
    have full : k.pmap.mem root 0 = ⟨pdpt.val, tablePerm⟩ := by rw [linked, there]; rfl
    simp only [Jos.envFree, rooted, Option.bind_eq_bind, Option.bind_some, sound.cr3 rooted,
      pa2page_val, full, kaddr_val] at ran
    obtain ⟨m₁, looped, ran⟩ := Option.bind_eq_some_iff.mp ran
    obtain ⟨full₁, dropped, g₂, freed₂, -⟩ := freeUser_spec valid rooted there looped
    obtain ⟨g₁, freed, -⟩ := freePdpes_spec valid rooted there looped
    obtain ⟨m₂, looped', released⟩ := valid.freePdpes_done rooted there backed owned
    obtain rfl : m₁ = m₂ := Option.some.inj (looped.symm.trans looped')
    simp only [full₁, pa2page_val, Option.bind_some, dropped] at ran
    obtain ⟨g₃, uprooted, -⟩ := freed₂.valid.uproot (e := e) rooted
    simp only [uprooted, Option.bind_some] at ran
    cases ran
    have there₁ : g₁.table ⟨some e, [0]⟩ = some pdpt := freed.present there <| by
      rintro ⟨i, _, below⟩
      simpa using Place.below_length below
    have user := released.trans (freed.valid.detach_releases there₁ (by simp [Place.root]))
      ⟨_, freed.valid.pool.chain⟩
    have cleared : Releases managed tables k.pmap ((m₁.dropRef pdpt).setEntry (root, 0) 0) :=
      user.setEntry (owned top)
    have last : Releases managed tables _ _ := freed₂.valid.detach_releases (freed₂.present top fun below => by
      simpa using Place.below_length below) (by simp [Place.root])
    exact cleared.trans last ⟨_, freed₂.valid.pool.chain⟩

end Jos
