import Jos.Environment.Free

/-! The kernel state as a whole: the memory is well formed with the page tables of
the environments as roots, and the free list of `envs` holds the slots that have
no page table. `env_alloc` and `env_free` keep this. -/

set_option autoImplicit false

namespace Jos

open Foundation Function

def Kernel.roots {npages : Nat} (k : Kernel npages) : EnvIdx → Option (Fin npages) :=
  fun e => (k.envs e).envPml4e

variable {npages : Nat} {managed : Set (Fin npages)} {roots : EnvIdx → Option (Fin npages)}
  {m m' : Pmap npages} {g g' : Ledger npages} {k k' : Kernel npages}

structure Sound (managed : Set (Fin npages)) (k : Kernel npages) (g : Ledger npages) : Prop where
  valid : Valid managed k.roots k.pmap g
  shared : ∃ page, g.table ⟨none, [1]⟩ = some page
  cr3 : ∀ {e root}, (k.envs e).envPml4e = some root → (k.envs e).envCr3 = root.val
  slots : ∃ slots, Chain (fun e => (k.envs e).envLink) k.envFreeList slots ∧
    ∀ e, e ∈ slots ↔ (k.envs e).envPml4e = none
  idle : ∀ {e}, (k.envs e).envPml4e = none → (k.envs e).envStatus = .free
  ids : ∀ {e}, (k.envs e).envPml4e ≠ none →
    0 < (k.envs e).envId.toInt ∧ envx (k.envs e).envId = e
  reserved : ∀ page : Fin npages, page.val = 0 → page ∉ managed ∧ page ≠ k.pmap.bootPml4e

/-- What `env_free` reads of physical page 0 when the first entry of the PML4 is
empty does not look like a page table. -/
def Clean (m : Pmap npages) (root : Fin npages) : Prop :=
  m.mem root 0 = 0 → ∀ zero : Fin npages, zero.val = 0 →
    ∀ i ∈ ([0, 1, 2, 3] : List Index), (m.mem zero i).present = false

theorem Pmap.setEntry_self {slot : Slot npages} {entry : Pte}
    (same : m.mem slot.1 slot.2 = entry) : m.setEntry slot entry = m := by
  subst same
  simp [Pmap.setEntry]

theorem Valid.uproot (valid : Valid managed roots m g) {e : EnvIdx} {root : Fin npages}
    (rooted : roots e = some root) :
    ∃ g', pageDecref m root = some (m.dropRef root) ∧
      Valid managed (update roots e none) (m.dropRef root) g' ∧
      g'.table = Tree.without (.root (some e)) g.table ∧
      (∀ other, g.spare other ≤ g'.spare other) ∧
      ((∀ i, g.table ⟨some e, [i]⟩ = none) → g'.spare = g.spare) := by
  have here := valid.top rooted
  have inside : root ∈ managed := valid.tree.tableManaged here (by simp [Place.root])
  have rootsLeft (e' : EnvIdx) : update roots e none e' =
      if Place.root (some e) = .root (some e') then none else roots e' := by
    by_cases same : e' = e
    · subst same
      simp
    · rw [update_of_ne same, if_neg]
      simpa [Place.root] using Ne.symm same
  have rest {a : Place} {page : Fin npages} (_ : g.table a = some page)
      (outside : ¬ (Place.root (some e)).Below a) (i : Index) : m.mem page i =
      if a.path.length < 3 ∧ a.child i = .root (some e) then 0 else m.mem page i := by
    rw [if_neg]
    rintro ⟨-, child⟩
    by_cases special : a.Special i
    · unfold Place.child at child
      rw [if_pos special] at child
      split at child
      · simp [Place.root] at child
      · exact outside (child ▸ Place.below_refl _)
    · rw [Place.child_plain special] at child
      simp [Place.root] at child
  obtain ⟨spare, pruned, more, credit, bare⟩ :=
    valid.prune here (by simp) rfl rfl rfl rootsLeft rest
  have dropped := pruned.dropRef inside (by simp only; omega)
  refine ⟨_, Pmap.pageDecref_eq (valid.pool.unlinked root inside
    (valid.not_free_of_placed ⟨_, here⟩)), dropped, rfl, fun other => ?_, fun alone => ?_⟩
  · refine le_trans ?_ (Ledger.spend_spare (g := ⟨_, spare, g.free⟩)).symm.le
    by_cases same : other = root
    · subst same
      simp only [if_true]
      omega
    · simpa [same] using more other
  · have exact' := bare (fun b below differs => ?_) fun t mappable => ?_
    · subst exact'
      funext other
      refine (Ledger.spend_spare (g := ⟨_, (g.give root).spare, g.free⟩)).trans ?_
      rw [Ledger.give_spare]
      omega
    · obtain ⟨owner, path⟩ := b
      rcases List.eq_nil_or_concat path with rfl | ⟨front, i, rfl⟩
      · have same : owner = some e := below.1
        exact absurd (by rw [same]; rfl) differs
      · have under : Place.Below ⟨some e, [i]⟩ ⟨owner, front.concat i⟩ :=
          ⟨below.1, front, by simp⟩
        exact valid.absent_below under (alone i)
    · simpa using mappable.length

/-- What `env_free` leaves. -/
structure Vacated (managed : Set (Fin npages)) (k : Kernel npages) (g : Ledger npages)
    (k' : Kernel npages) (g' : Ledger npages) (e : EnvIdx) : Prop where
  envs : k'.envs = update k.envs e
    { k.envs e with envPml4e := none, envCr3 := 0, envStatus := .free, envLink := k.envFreeList }
  list : k'.envFreeList = some e
  table : ∀ {a page}, g'.table a = some page ↔ g.table a = some page ∧ a.owner ≠ some e
  keeps : Keeps managed k.pmap g k'.pmap g' (.space e)
  tight : Covered k.pmap.mem g.table e → g'.spare = g.spare

theorem Sound.freeUser (sound : Sound managed k g) {e : EnvIdx} {root : Fin npages}
    (rooted : (k.envs e).envPml4e = some root) (clean : Clean k.pmap root)
    {pdpt : Fin npages} (first : kaddr npages (k.pmap.mem root 0).ppn = some pdpt)
    {m₁ m₂ : Pmap npages} {page : Fin npages}
    (looped : ([0, 1, 2, 3] : List Index).foldlM (fun m i => freePdpe (some root) pdpt i m) k.pmap =
      some m₁)
    (second : pa2page npages (m₁.mem root 0).ppn = some page)
    (dropped : pageDecref m₁ page = some m₂) :
    ∃ g', Freed managed k.roots k.pmap g (m₂.setEntry (root, 0) 0) g'
        (Place.Below ⟨some e, [0]⟩) ∧
      (Covered k.pmap.mem g.table e → g'.spare = g.spare) := by
  have valid := sound.valid
  have top := valid.top rooted
  have child : (Place.root (some e)).child 0 = ⟨some e, [0]⟩ := Place.child_first
  have linked := valid.tree.link top (by simp) 0
  rw [child] at linked
  cases there : g.table ⟨some e, [0]⟩ with
  | some table =>
    have full : k.pmap.mem root 0 = ⟨table.val, tablePerm⟩ := by rw [linked, there]; rfl
    rw [full, kaddr_val] at first
    cases first
    obtain ⟨full₁, ran, g', freed, tight⟩ := freeUser_spec valid rooted there looped
    rw [full₁, pa2page_val] at second
    cases second
    rw [ran] at dropped
    cases dropped
    exact ⟨g', freed, tight⟩
  | none =>
    have empty : k.pmap.mem root 0 = 0 := by rw [linked, there]; rfl
    have zero : pdpt.val = 0 := by
      rw [empty] at first
      unfold kaddr at first
      split at first
      · rw [← Option.some.inj first]
        rfl
      · cases first
    rw [freeNothing (clean empty pdpt zero)] at looped
    cases looped
    rw [empty] at first second
    obtain rfl : pdpt = page := Option.some.inj (first.symm.trans second)
    obtain ⟨outside, other⟩ := sound.reserved pdpt zero
    obtain ⟨valid₂, mem, boot, -⟩ := valid.dropRef_unmanaged outside dropped
    rw [Pmap.setEntry_self (by simpa [mem] using empty)]
    refine ⟨g, ⟨valid₂, ?_, fun _ _ t => by rw [mem], fun _ => le_rfl, boot,
      fun _ _ _ => by rw [mem]⟩, fun _ => rfl⟩
    intro a p
    constructor
    · intro found
      exact ⟨found, fun below => by
        rw [valid.absent_below below there] at found
        cases found⟩
    · exact And.left

theorem Sound.envFree (sound : Sound managed k g) {e : EnvIdx} {root : Fin npages}
    (rooted : (k.envs e).envPml4e = some root) (clean : Clean k.pmap root)
    (ran : envFree k e = some k') :
    ∃ g', Sound managed k' g' ∧ Vacated managed k g k' g' e := by
  simp only [Jos.envFree, rooted, Option.bind_eq_bind, Option.bind_some, sound.cr3 rooted,
    pa2page_val] at ran
  obtain ⟨pdpt, first, ran⟩ := Option.bind_eq_some_iff.mp ran
  obtain ⟨m₁, looped, ran⟩ := Option.bind_eq_some_iff.mp ran
  obtain ⟨page, second, ran⟩ := Option.bind_eq_some_iff.mp ran
  obtain ⟨m₂, dropped, ran⟩ := Option.bind_eq_some_iff.mp ran
  obtain ⟨m₃, dropped', ran⟩ := Option.bind_eq_some_iff.mp ran
  obtain ⟨g₁, freed, tight₁⟩ := sound.freeUser rooted clean first looped second dropped
  obtain ⟨g₂, ran₂, valid₂, tables, spares, tight₂⟩ := freed.valid.uproot (e := e) rooted
  rw [ran₂] at dropped'
  cases dropped'
  cases ran
  have rooted' : update k.roots e none = Kernel.roots ⟨(m₂.setEntry (root, 0) 0).dropRef root,
      update k.envs e
        { k.envs e with
          envPml4e := none, envCr3 := 0, envStatus := .free, envLink := k.envFreeList },
      some e⟩ := by
    funext e'
    by_cases same : e' = e <;> simp [Kernel.roots, same]
  have table {a : Place} {p : Fin npages} :
      g₂.table a = some p ↔ g.table a = some p ∧ a.owner ≠ some e := by
    rw [tables]
    constructor
    · intro found
      obtain ⟨found, outside⟩ := Tree.without_some found
      exact ⟨(freed.table.mp found).1, fun owned => outside (Place.below_root.mpr owned)⟩
    · rintro ⟨found, other⟩
      rw [Tree.without_of_not fun below => other (Place.below_root.mp below)]
      exact freed.present found fun below => other below.1
  refine ⟨g₂, ⟨?_, ?_, ?_, ?_, ?_, ?_, ?_⟩, ⟨rfl, rfl, table, ⟨?_, fun there => .inl (table.mp there).1, ?_, ?_, ?_⟩, ?_⟩⟩
  · exact rooted' ▸ valid₂
  · obtain ⟨shared, there⟩ := sound.shared
    exact ⟨shared, table.mpr ⟨there, by simp⟩⟩
  · intro e' root' there
    by_cases same : e' = e
    · subst same
      simp [Kernel.setEnv] at there
    · simp only [Kernel.setEnv, Kernel.setPmap, update_of_ne same] at there ⊢
      exact sound.cr3 there
  · obtain ⟨slots, chain, member⟩ := sound.slots
    refine ⟨e :: slots, ?_, fun e' => ?_⟩
    · refine chain.push (fun listed => ?_) (by simp [Kernel.setEnv]) fun old differs => ?_
      · rw [(member e).mp listed] at rooted
        cases rooted
      · simp [Kernel.setEnv, Kernel.setPmap, differs]
    · by_cases same : e' = e
      · subst same
        simp [Kernel.setEnv]
      · simp [Kernel.setEnv, Kernel.setPmap, same, member]
  · intro e' rootless
    by_cases same : e' = e
    · subst same
      simp [Kernel.setEnv]
    · simp only [Kernel.setEnv, Kernel.setPmap, update_of_ne same] at rootless ⊢
      exact sound.idle rootless
  · intro e' there
    by_cases same : e' = e
    · subst same
      simp [Kernel.setEnv] at there
    · simp only [Kernel.setEnv, Kernel.setPmap, update_of_ne same] at there ⊢
      exact sound.ids there
  · intro page zero
    have boot : (m₂.setEntry (root, 0) 0).bootPml4e = k.pmap.bootPml4e := freed.boot
    simp only [Kernel.setEnv, Kernel.setPmap, Pmap.dropRef_boot, boot]
    exact sound.reserved page zero
  · intro a deep t outside
    have other : a.owner ≠ some e := outside
    have before := freed.leaves deep (fun below => other below.1) t
    simp only [Kernel.setEnv, Kernel.setPmap, Pmap.dropRef_mem]
    rw [← before]
    refine leafEntry_congr ?_ t
    rw [tables, Tree.without_of_not fun below => other (Place.below_root.mp below)]
  · simp only [Kernel.setEnv, Kernel.setPmap, Pmap.dropRef_boot]
    exact freed.boot
  · intro page outside other
    simp only [Kernel.setEnv, Kernel.setPmap, Pmap.dropRef_mem]
    exact freed.idle page outside other
  · exact fun page _ => (freed.spare page).trans (spares page)
  · intro covered
    refine (tight₂ fun i => ?_).trans (tight₁ covered)
    by_cases zero : i = 0
    · subst zero
      exact freed.absent (.inl (Place.below_refl _))
    · exact freed.absent (.inr (covered.pml4 i zero))

end Jos
