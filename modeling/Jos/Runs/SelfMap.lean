import Jos.Runs.Sound

/-! What user code can write. Through the self-map at UVPT, whose entry is
writable, an environment can write its page tables; through any other address it
can write neither a page table nor the kernel. -/

set_option autoImplicit false

namespace Jos

variable {npages : Nat} {platform : Platform npages} {managed : Set (Fin npages)}
  {roots : EnvIdx → Option (Fin npages)} {m : Pmap npages} {g : Ledger npages}
  {k : Kernel npages} {e : EnvIdx} {managed : Set (Fin npages)}

/-- The page is a PML4, a PDPT, a page directory or a page table of some
environment. -/
def Kernel.TablePage (k : Kernel npages) (page : Fin npages) : Prop :=
  ∃ e root, (k.envs e).envPml4e = some root ∧ ∃ depth ≤ 3, k.pmap.TableAt root depth page

/-- The pages of the kernel image, of `boot_pml4e`, of `pages[]` and of `envs[]`. -/
def Platform.KernelPage (platform : Platform npages) (page : Fin npages) : Prop :=
  extPhysMem / pgSize ≤ page.val ∧ page.val < firstFree npages platform.kernEnd

/-- If the MMU lets the environment write at the address, then the page there is
neither a table nor the kernel's. -/
def Kernel.WriteSafe (platform : Platform npages) (k : Kernel npages) (e : EnvIdx) (va : Nat) :
    Prop :=
  ∀ found, k.pmap.translateIn (k.envs e).envPml4e va = some found → found.user = true →
    found.writable = true →
    ∀ page : Fin npages, page.val = found.ppn → ¬ k.TablePage page ∧ ¬ platform.KernelPage page

theorem Valid.placed_of_tableAt (valid : Valid managed roots m g) {root : Fin npages}
    (rooted : roots e = some root) {depth : Nat} (shallow : depth ≤ 3) {page : Fin npages}
    (met : m.TableAt root depth page) :
    ∃ a, g.table a = some page ∧ a.path.length ≤ depth ∧ (a.owner = some e ∨ a.owner = none) := by
  induction depth generalizing page with
  | zero =>
    subst met
    exact ⟨.root (some e), valid.top rooted, le_rfl, .inl rfl⟩
  | succ depth ih =>
    obtain ⟨above, i, met, next⟩ := met
    obtain ⟨a, here, short, owner⟩ := ih (Nat.le_of_succ_le shallow) met
    rw [(valid.next_eq here (by omega)).1] at next
    refine ⟨a.child i, next, (Place.child_length a i).trans (Nat.succ_le_succ short), ?_⟩
    exact (Place.child_owner a i).elim (fun same => same ▸ owner) .inr

theorem Sound.placed_of_tablePage (sound : Sound managed k g)
    {page : Fin npages} (table : k.TablePage page) : Placed g.table page := by
  obtain ⟨e, root, rooted, depth, shallow, met⟩ := table
  obtain ⟨a, here, -⟩ := sound.valid.placed_of_tableAt (e := e) rooted shallow met
  exact ⟨a, here⟩

theorem Platform.KernelPage.unmanaged {page : Fin npages} (kernel : platform.KernelPage page) :
    page ∉ platform.managed := by
  obtain ⟨low, high⟩ := kernel
  have first : extPhysMem / pgSize = 256 := by decide
  rintro (⟨-, small, -⟩ | large)
  · omega
  · exact absurd high (not_lt.mpr large)

/-- Outside the self-map, what the user may write is a page of the allocator that
is no table. -/
theorem Sound.writeSafe (sound : Sound managed k g)
    (live : k.Live e) {va : Nat} (outside : pml4 va ≠ pml4 uvpt) {found : Translation}
    (translated : k.pmap.translateIn (k.envs e).envPml4e va = some found)
    (user : found.user = true) (writable : found.writable = true) {page : Fin npages}
    (here : page.val = found.ppn) : page ∈ managed ∧ ¬ Placed g.table page := by
  rw [sound.translateIn live outside, leafTranslation] at translated
  split at translated
  · rename_i present
    cases translated
    set entry := leafOf k g e va with leaf
    have writes : entry.writable = true := by
      simp only [Translation.writable, Bool.and_eq_true] at writable
      exact writable.2
    have users : entry.user = true := by
      simp only [Translation.user, Bool.and_eq_true] at user
      exact user.2
    have deep : ((Place.root (some e)).table va).path.length = 3 := by
      rw [Place.table_path outside]
      rfl
    by_cases mappable : ((Place.root (some e)).table va).Mappable (ptx va)
    · rcases sound.valid.leaf_cases mappable with empty | ⟨holder, target, -, same, maps⟩
      · rw [leaf, leafOf, empty] at present
        cases present
      · have same : entry = k.pmap.mem holder (ptx va) := same
        rw [same] at here writes
        obtain rfl : page = target := Fin.ext (here.trans maps.ppn)
        exact ⟨maps.kind.resolve_right (by rw [writes]; decide), maps.unplaced⟩
    · cases there : g.table ((Place.root (some e)).table va) with
      | none =>
        rw [leaf, leafOf, leafEntry_none there] at present
        cases present
      | some holder =>
        have same : entry = k.pmap.mem holder (ptx va) := leafEntry_some there
        rw [same] at writes users
        exact absurd ⟨writes, users⟩ (sound.valid.tree.kernel there deep mappable)
  · cases translated

theorem Sound.not_writeSafe (sound : Sound managed k g)
    (live : k.Live e) {va : Nat} (self : pml4 va = pml4 uvpt) {found : Translation}
    (translated : k.pmap.translateIn (k.envs e).envPml4e va = some found) :
    found.user = true ∧ found.writable = true ∧
      ∃ page : Fin npages, page.val = found.ppn ∧ k.TablePage page := by
  obtain ⟨root, rooted⟩ := live.root
  rw [rooted, Pmap.translateIn, Option.bind_some] at translated
  have reaches := sound.valid.translate_self (e := e) rooted self
  rw [translated] at reaches
  obtain ⟨page, -, reaches⟩ := Option.bind_eq_some_iff.mp reaches.symm
  split at reaches
  · have same := Option.some.inj reaches
    have here : page.val = found.ppn := by rw [← same]
    have grants : tablePerm.getLsbD 2 = true ∧ tablePerm.getLsbD 1 = true := by decide
    refine ⟨by simp [← same, Translation.user, grants], by simp [← same, Translation.writable, grants],
      page, here, e, root, rooted, 3, le_rfl, ?_⟩
    -- the walk of the MMU starts with the PML4 in the place of a PDPT
    obtain ⟨pdpt, first, rest⟩ := Option.bind_eq_some_iff.mp translated
    obtain ⟨pgdir, second, rest⟩ := Option.bind_eq_some_iff.mp rest
    obtain ⟨pt, third, rest⟩ := Option.bind_eq_some_iff.mp rest
    split at rest
    · rename_i present
      have ppn : (k.pmap.mem pt (ptx va)).ppn = page.val := by
        rw [here, ← Option.some.inj rest]
      have top := sound.valid.top rooted
      rw [self, (sound.valid.next_eq top (by simp)).1, Place.child_self, top] at first
      cases first
      refine ⟨pt, ptx va, ⟨pgdir, pdx va, ⟨root, pdpe va, rfl, second⟩, third⟩, ?_⟩
      rw [Pmap.next, if_pos present, ppn, kaddr_val]
    · cases rest
  · cases reaches

/-- Exactly the mapped addresses of the self-map let user code write a table. -/
theorem writeSafe_iff (reached : Reached platform Orderly k) (live : k.Live e) (va : Nat) :
    k.WriteSafe platform e va ↔
      ¬ (pml4 va = pml4 uvpt ∧ k.pmap.translateIn (k.envs e).envPml4e va ≠ none) := by
  obtain ⟨g, sound⟩ := reached.sound
  constructor
  · rintro safe ⟨self, present⟩
    obtain ⟨found, translated⟩ := Option.ne_none_iff_exists'.mp present
    obtain ⟨user, writable, page, here, table⟩ := sound.not_writeSafe live self translated
    exact (safe found translated user writable page here).1 table
  · intro outside found translated user writable page here
    have user' : pml4 va ≠ pml4 uvpt := fun self =>
      outside ⟨self, by rw [translated]; exact Option.some_ne_none found⟩
    obtain ⟨inside, unplaced⟩ := sound.writeSafe live user' translated user writable here
    exact ⟨fun table => unplaced (sound.placed_of_tablePage table),
      fun kernel => kernel.unmanaged inside⟩

theorem sample_writeSafe : ∃ (k : Kernel 4096) (e : EnvIdx), Reached sample Orderly k ∧
    (k.WriteSafe sample e 0 ↔
      ¬ (pml4 0 = pml4 uvpt ∧ k.pmap.translateIn (k.envs e).envPml4e 0 ≠ none)) := by
  obtain ⟨k, g, e, reached, -, live, -⟩ := sample_env Orderly fun _ => trivial
  exact ⟨k, e, reached, writeSafe_iff reached live 0⟩

/-- The address at which the self-map shows the PML4 itself. -/
def uvpml4e : Nat := pgAddr 2 2 2 2 0

/-- An environment that has just been allocated can write its PML4. -/
theorem uvpml4e_not_writeSafe : ∃ (k : Kernel 4096) (e : EnvIdx), Reached sample Orderly k ∧
    k.Live e ∧ ¬ k.WriteSafe sample e uvpml4e := by
  obtain ⟨k, g, e, reached, fresh, live, -⟩ := sample_env Orderly fun _ => trivial
  refine ⟨k, e, reached, live, fun safe => ?_⟩
  have sound := fresh.sound
  have index : pml4 uvpt = 2 := by decide
  obtain ⟨first, second, third, fourth⟩ : pml4 uvpml4e = 2 ∧ pdpe uvpml4e = 2 ∧
      pdx uvpml4e = 2 ∧ ptx uvpml4e = 2 := indices_pgAddr (by decide)
  obtain ⟨root, rooted⟩ := live.root
  have top := sound.valid.top rooted
  have again : (Place.root (some e)).child 2 = .root (some e) := index ▸ Place.child_self
  have self : pml4 uvpml4e = pml4 uvpt := first.trans index.symm
  have translated := sound.valid.translate_self (e := e) rooted self
  have none : g.wanted (.root (some e)) uvpml4e = 0 := by
    simp [Ledger.wanted, Layout.missing, first, second, third, again, top]
  rw [second, third, fourth, again, again, again, top, Option.bind_some, if_pos none] at translated
  have mapped : k.pmap.translateIn (k.envs e).envPml4e uvpml4e =
      some ⟨root.val, tablePerm, tablePerm, tablePerm, tablePerm⟩ := by
    rw [rooted]
    exact translated
  obtain ⟨user, writable, page, here, table⟩ :=
    sound.not_writeSafe live self mapped
  exact (safe _ mapped user writable page here).1 table

end Jos
