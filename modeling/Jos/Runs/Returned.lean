import Jos.Runs.Crash
import Jos.Runs.References

/-! What `env_free` gives back: the pages that only the environment refers to, and one
count for each of its references to the others. -/

set_option autoImplicit false

namespace Jos

open Foundation Function

variable {npages : Nat} {platform : Platform npages} {managed : Set (Fin npages)}
  {k k' : Kernel npages} {g g' : Ledger npages} {e : EnvIdx} {root page : Fin npages}

namespace Kernel

/-- The page is the PML4 of the environment, or one of the tables below it. -/
def IsTable (k : Kernel npages) (e : EnvIdx) (page : Fin npages) : Prop :=
  ∃ root, (k.envs e).envPml4e = some root ∧ (page = root ∨
    ∃ i pdpt, (i ≠ 1 ∧ i ≠ pml4 uvpt) ∧ k.pmap.next root i = some pdpt ∧ (page = pdpt ∨
      ∃ j pgdir, k.pmap.next pdpt j = some pgdir ∧ (page = pgdir ∨
        ∃ l, k.pmap.next pgdir l = some page)))

/-- The virtual pages below UTOP at which the environment maps the page. -/
def mappings (k : Kernel npages) (e : EnvIdx) (page : Fin npages) : Set Nat :=
  {n | (e, n) ∈ k.leafRefs page}

open Classical in
/-- The references of an environment to a page: its mappings of it, and one more to each
of its tables. -/
noncomputable def held (k : Kernel npages) (e : EnvIdx) (page : Fin npages) : Nat :=
  (k.mappings e page).ncard + if k.IsTable e page then 1 else 0

/-- All that the environment owned has been given back, and nothing else: the free list
gains the pages to which it had the only references, and the others are counted without
its own. -/
structure Returned (managed : Set (Fin npages)) (k k' : Kernel npages) (e : EnvIdx) : Prop where
  listed : ∀ {free free'}, k.pmap.FreeList free → k'.pmap.FreeList free' → ∀ page,
    page ∈ free' ↔ page ∈ free ∨ page ∈ managed ∧ 0 < k.held e page ∧
      (k.pmap.pages page).ppRef.toNat = k.held e page
  counted : ∀ page ∈ managed,
    (k'.pmap.pages page).ppRef.toNat + k.held e page = (k.pmap.pages page).ppRef.toNat
  reserved : ∀ page, page ∉ managed → (k'.pmap.pages page).ppRef = (k.pmap.pages page).ppRef
  memory : ∀ page, ¬ k.IsTable e page → k'.pmap.mem page = k.pmap.mem page
  others : ∀ other, other ≠ e → k'.envs other = k.envs other ∧
    ∀ page, k.IsTable other page → k'.pmap.mem page = k.pmap.mem page

end Kernel

section
variable (sound : Sound managed k g)
include sound

theorem Sound.isTable_iff : k.IsTable e page ↔ ∃ path, g.table ⟨some e, path⟩ = some page := by
  have valid := sound.valid
  have down {root : Fin npages} (here : g.table (.root (some e)) = some root) {i : Index}
      (plain : i ≠ 1 ∧ i ≠ pml4 uvpt) {next : Fin npages} :
      k.pmap.next root i = some next ↔ g.table ⟨some e, [i]⟩ = some next := by
    rw [(valid.next_eq (i := i) here (by simp)).1,
      Place.child_plain fun special => special.2.2.elim plain.1 plain.2]
    rfl
  have below {i j : Index} {path : List Index} {table next : Fin npages}
      (there : g.table ⟨some e, i :: path⟩ = some table) (short : path.length < 2) :
      k.pmap.next table j = some next ↔ g.table ⟨some e, j :: i :: path⟩ = some next := by
    rw [(valid.next_eq (i := j) there (Nat.succ_lt_succ short)).1, Place.child_cons]
  constructor
  · rintro ⟨root, rooted, same | ⟨i, pdpt, plain, first, same | ⟨j, pgdir, second, same | ⟨l, third⟩⟩⟩⟩
    all_goals have here := valid.top rooted
    · exact ⟨[], same ▸ here⟩
    · exact ⟨[i], same ▸ (down here plain).mp first⟩
    · exact ⟨[j, i], same ▸ (below ((down here plain).mp first) (by simp)).mp second⟩
    · have there := (below ((down here plain).mp first) (by simp)).mp second
      exact ⟨[l, j, i], (below there (by simp)).mp third⟩
  · rintro ⟨path, there⟩
    obtain ⟨root, here⟩ := valid.tree.ancestor there
    have rooted : (k.envs e).envPml4e = some root := (valid.tree.root e).symm.trans here
    refine ⟨root, rooted, ?_⟩
    match path, there with
    | [], there => exact .inl (Option.some.inj (there.symm.trans here))
    | [i], there =>
      have plain := valid.tree.plain there
      exact .inr ⟨i, page, plain, (down here plain).mpr there, .inl rfl⟩
    | [j, i], there =>
      obtain ⟨pdpt, above⟩ := valid.tree.parent there
      have plain := valid.tree.plain above
      exact .inr ⟨i, pdpt, plain, (down here plain).mpr above,
        .inr ⟨j, page, (below above (by simp)).mpr there, .inl rfl⟩⟩
    | [l, j, i], there =>
      obtain ⟨pgdir, middle⟩ := valid.tree.parent there
      obtain ⟨pdpt, above⟩ := valid.tree.parent middle
      have plain := valid.tree.plain above
      exact .inr ⟨i, pdpt, plain, (down here plain).mpr above,
        .inr ⟨j, pgdir, (below above (by simp)).mpr middle,
          .inr ⟨l, (below middle (by simp)).mpr there⟩⟩⟩
    | _ :: _ :: _ :: _ :: _, there =>
      have depth := valid.tree.depth there
      simp at depth
      omega

theorem Sound.leafRefs_vacated (sound' : Sound managed k' g')
    (vacated : Vacated managed k g k' g' e) :
    k'.leafRefs page = k.leafRefs page \ {x | x.1 = e} := by
  ext ⟨other, n⟩
  rw [sound'.mem_leafRefs, Set.mem_sdiff, sound.mem_leafRefs]
  by_cases same : other = e
  · subst same
    exact iff_of_false (fun both => vacated.dead both.2.1) fun both => both.2 rfl
  · have live : k'.Live other ↔ k.Live other := by
      rw [Kernel.Live, Kernel.Live, vacated.envs, update_of_ne same]
    have leaf (low : n * pgSize < utop) : leafOf k' g' other (n * pgSize) =
        leafOf k g other (n * pgSize) := by
      refine vacated.keeps.leaves (Place.mappable_of_le low.le).length _ fun own => ?_
      have owner : ((Place.root (some other)).table (n * pgSize)).owner = some e := own
      rcases Place.table_owner (Place.root (some other)) (n * pgSize) with kept | none
      · rw [kept] at owner
        exact same (Option.some.inj owner)
      · rw [none] at owner
        cases owner
    constructor
    · rintro ⟨low, alive, refers⟩
      exact ⟨⟨low, live.mp alive, leaf low ▸ refers⟩, same⟩
    · rintro ⟨⟨low, alive, refers⟩, -⟩
      exact ⟨low, live.mpr alive, (leaf low).symm ▸ refers⟩

theorem Sound.mappings_ncard (sound' : Sound managed k' g')
    (vacated : Vacated managed k g k' g' e) :
    (k.leafRefs page).ncard = (k'.leafRefs page).ncard + (k.mappings e page).ncard := by
  have finite : (k.leafRefs page).Finite := by
    refine (Set.finite_univ.prod (Set.finite_lt_nat utop)).subset fun x there => ⟨trivial, ?_⟩
    have low : x.2 * pgSize < utop := there.1
    exact (Nat.le_mul_of_pos_right x.2 (by decide)).trans_lt low
  have own : k.leafRefs page ∩ {x | x.1 = e} = Prod.mk e '' k.mappings e page := by
    ext ⟨other, n⟩
    constructor
    · rintro ⟨there, rfl⟩
      exact ⟨n, there, rfl⟩
    · rintro ⟨n', there, same⟩
      cases same
      exact ⟨there, rfl⟩
  have split := Set.ncard_inter_add_ncard_sdiff_eq_ncard (k.leafRefs page) {x | x.1 = e} finite
  rw [own, Set.ncard_image_of_injective _ (Prod.mk_right_injective e),
    ← sound.leafRefs_vacated sound' vacated] at split
  omega

open Classical in
theorem Sound.placed_vacated (vacated : Vacated managed k g k' g' e) :
    (if Placed g.table page then 1 else 0) =
      (if Placed g'.table page then 1 else 0) + if k.IsTable e page then 1 else 0 := by
  by_cases placed : Placed g.table page
  · obtain ⟨⟨owner, path⟩, there⟩ := placed
    by_cases own : owner = some e
    · subst own
      have left : ¬ Placed g'.table page := by
        rintro ⟨a, again⟩
        obtain ⟨again, other⟩ := vacated.table.mp again
        exact other (congrArg Place.owner (sound.valid.tree.injective again there))
      rw [if_pos ⟨_, there⟩, if_neg left, if_pos (sound.isTable_iff.mpr ⟨path, there⟩)]
    · have other : ¬ k.IsTable e page := fun table => by
        obtain ⟨path', again⟩ := sound.isTable_iff.mp table
        exact own (congrArg Place.owner (sound.valid.tree.injective there again))
      rw [if_pos ⟨_, there⟩, if_pos ⟨_, vacated.table.mpr ⟨there, own⟩⟩, if_neg other]
  · have left : ¬ Placed g'.table page := fun ⟨a, there⟩ => placed ⟨a, (vacated.table.mp there).1⟩
    have other : ¬ k.IsTable e page := fun table => placed
      ((sound.isTable_iff.mp table).imp' (fun path => ⟨some e, path⟩) fun _ => id)
    rw [if_neg placed, if_neg left, if_neg other]

theorem Sound.counted_vacated (unshared : Unshared managed k g) (sound' : Sound managed k' g')
    (vacated : Vacated managed k g k' g' e) (tight : g'.spare = g.spare) (inside : page ∈ managed) :
    (k'.pmap.pages page).ppRef.toNat + k.held e page = (k.pmap.pages page).ppRef.toNat := by
  classical
  have unshared' : Unshared managed k' g' := by
    intro a t shared mappable page inside
    rw [vacated.keeps.leaves mappable.length t fun own => by
      have owner : a.owner = some e := own
      rw [shared] at owner
      cases owner]
    exact unshared shared mappable page inside
  have mappings : (k.leafRefs page).ncard = (k'.leafRefs page).ncard + (k.mappings e page).ncard :=
    sound.mappings_ncard sound' vacated
  have tables : (if Placed g.table page then 1 else 0) =
      (if Placed g'.table page then 1 else 0) + if k.IsTable e page then 1 else 0 :=
    sound.placed_vacated vacated
  rw [sound.leafRefs_ncard unshared inside, sound'.leafRefs_ncard unshared' inside] at mappings
  rw [sound.valid.counted page inside, sound'.valid.counted page inside, tight, uses, uses,
    Kernel.held, tables, mappings]
  omega

/-- `env_free` of an environment with a table of its own, whose mappings its loops reach. -/
theorem Sound.returned (unshared : Unshared managed k g) (live : k.Live e)
    (first : ∀ root, (k.envs e).envPml4e = some root → k.pmap.mem root 0 ≠ 0)
    (whole : k.InBounds e) (inside : ∀ va, va < 2 ^ 39 → ∀ found (page : Fin npages),
      k.view e va = some found → page.val = found.ppn → page ∈ managed) :
    ∃ k', Jos.envFree k e = some k' ∧ k.Returned managed k' e := by
  obtain ⟨root, rooted⟩ := live.root
  have backed := sound.backed live inside
  have clean : Jos.Clean k.pmap root := fun empty => absurd empty (first root rooted)
  obtain ⟨k', ran⟩ := sound.envFree_some rooted clean (fun empty => absurd empty (first root rooted))
    backed
  obtain ⟨g', sound', vacated⟩ := sound.envFree rooted clean ran
  have tight := vacated.tight (sound.covered live whole)
  have released : Releases managed {page | k.IsTable e page} k.pmap k'.pmap :=
    sound.envFree_releases rooted (first root rooted) backed
      (fun there => sound.isTable_iff.mpr ⟨_, there⟩) ran
  have counted (page : Fin npages) (inside : page ∈ managed) :=
    sound.counted_vacated unshared sound' vacated tight inside
  refine ⟨k', ran, ⟨fun before after page => ?_, counted, released.kept, released.memory,
    fun other differs => ⟨?_, fun page table => released.memory page fun own => ?_⟩⟩⟩
  · rw [released.listed before after]
    refine or_congr_right ⟨fun ⟨used, gone⟩ => ?_, fun ⟨inside, positive, only⟩ => ?_⟩
    · have inside : page ∈ managed := by
        by_contra outside
        exact used ((released.kept page outside).symm.trans gone)
      have count := counted page inside
      have zero : (0 : BitVec 16).toNat = 0 := rfl
      rw [gone, zero] at count
      have positive : (k.pmap.pages page).ppRef.toNat ≠ 0 := fun none =>
        used (BitVec.eq_of_toNat_eq none)
      exact ⟨inside, by omega, by omega⟩
    · have count := counted page inside
      refine ⟨fun none => ?_, BitVec.eq_of_toNat_eq ?_⟩
      · have zero : (0 : BitVec 16).toNat = 0 := rfl
        rw [none, zero] at only
        omega
      · change _ = 0
        omega
  · rw [vacated.envs, update_of_ne differs]
  · obtain ⟨path, there⟩ := sound.isTable_iff.mp table
    obtain ⟨path', again⟩ := sound.isTable_iff.mp own
    have place := congrArg Place.owner (sound.valid.tree.injective there again)
    exact differs (Option.some.inj place)

end

/-- The events after which the counts do not wrap and nothing is mapped into the half of
the address space that all environments share. -/
def Unmixed (k : Kernel npages) (event : KernelEvent) : Prop := Orderly k event ∧ Low k event

theorem Reached.unshared (reached : Reached platform Unmixed k) :
    ∃ g, Sound platform.managed k g ∧ Unshared platform.managed k g := by
  refine Reachable.invariant reached (fun k => ∃ g, Sound platform.managed k g ∧
    Unshared platform.managed k g) (fun start booted => ?_) fun before event after invariant keeping ran => ?_
  · obtain ⟨g, booted⟩ := boot_booted booted
    exact ⟨g, booted.sound, fun _ mappable => booted.unmapped mappable⟩
  · obtain ⟨g, sound, unshared⟩ := invariant
    obtain ⟨orderly, low⟩ := keeping
    obtain ⟨g', change, -⟩ := sound.step orderly ran
    refine ⟨g', change.sound, fun {a t} shared mappable page inside => ?_⟩
    rw [change.keeps.leaves mappable.length t fun stores => low.owner stores shared]
    exact unshared shared mappable page inside

theorem envFree_returned (reached : Reached platform Unmixed k) (live : k.Live e)
    (first : ∀ root, (k.envs e).envPml4e = some root → k.pmap.mem root 0 ≠ 0)
    (whole : k.InBounds e) (inside : ∀ va, va < 2 ^ 39 → ∀ found (page : Fin npages),
      k.view e va = some found → page.val = found.ppn → page ∈ platform.managed) :
    ∃ k', envFree k e = some k' ∧ k.Returned platform.managed k' e := by
  obtain ⟨g, sound, unshared⟩ := reached.unshared
  exact sound.returned unshared live first whole inside

/-- For an environment without a page directory pointer table, page 0 loses a count. -/
theorem Sound.envFree_bare (sound : Sound managed k g) (rooted : (k.envs e).envPml4e = some root)
    (clean : Jos.Clean k.pmap root) (empty : k.pmap.mem root 0 = 0) {zero : Fin npages}
    (isZero : zero.val = 0) (ran : Jos.envFree k e = some k') :
    (k'.pmap.pages zero).ppRef = (k.pmap.pages zero).ppRef - 1 := by
  have outside := (sound.reserved zero isZero).1
  have here := sound.valid.top rooted
  have differs : zero ≠ root := by
    rintro rfl
    exact outside (sound.valid.tree.tableManaged here (by simp [Place.root]))
  have ppn : (k.pmap.mem root 0).ppn = zero.val := by
    rw [empty, isZero]
    rfl
  simp only [Jos.envFree, rooted, Option.bind_eq_bind, Option.bind_some, sound.cr3 rooted,
    pa2page_val, ppn, kaddr_val, freeNothing (clean empty zero isZero)] at ran
  obtain ⟨m₂, dropped, ran⟩ := Option.bind_eq_some_iff.mp ran
  obtain ⟨m₃, dropped', ran⟩ := Option.bind_eq_some_iff.mp ran
  obtain ⟨g₁, freed, -⟩ := sound.freeUser rooted clean (by rw [ppn, kaddr_val])
    (freeNothing (clean empty zero isZero)) (by rw [ppn, pa2page_val]) dropped
  obtain ⟨g₂, uprooted, -⟩ := freed.valid.uproot (e := e) rooted
  rw [uprooted] at dropped'
  cases dropped'
  cases ran
  have kept : (m₂.pages zero).ppRef = (k.pmap.pages zero).ppRef - 1 := by
    unfold pageDecref at dropped
    simp only [Pmap.setRef_ref, if_true] at dropped
    split at dropped
    · have linked := sound.valid.pool.reserved zero outside
      simp [pageFree, Pmap.setRef_ref, Option.isSome_iff_ne_none, linked] at dropped
    · obtain rfl := Option.some.inj dropped
      exact Pmap.setRef_ref.trans (if_pos rfl)
  change ((((m₂.setEntry (root, 0) 0).dropRef root).pages zero).ppRef = _)
  rw [Pmap.dropRef_ref, if_neg differs]
  exact kept

theorem bare_not_returned : ∃ (k k' : Kernel 4096) (e : EnvIdx), Reached sample Unmixed k ∧
    k.Live e ∧ envFree k e = some k' ∧ ¬ k.Returned sample.managed k' e := by
  obtain ⟨k, g, e, reached, fresh, live, -, bare⟩ :=
    sample_bare Unmixed fun _ => ⟨trivial, trivial⟩
  have sound := fresh.sound
  obtain ⟨root, rooted⟩ := live.root
  have here := sound.valid.top rooted
  have empty : k.pmap.mem root 0 = 0 := by
    rw [sound.valid.tree.link here (by simp) 0, Place.child_first, bare]
    rfl
  obtain ⟨clean, spare, backed⟩ := sound.disposable rooted (fresh.expendable live bare)
  obtain ⟨k', ran⟩ := sound.envFree_some rooted clean spare backed
  refine ⟨k, k', e, reached, live, ran, fun returned => ?_⟩
  have idle := fresh.refs 0 (sound.reserved 0 rfl).1
  have kept := returned.reserved 0 (sound.reserved 0 rfl).1
  rw [sound.envFree_bare rooted clean empty rfl ran, idle] at kept
  exact absurd kept (by decide)

theorem Valid.pageLookup_bare {roots : EnvIdx → Option (Fin npages)} {m : Pmap npages}
    (valid : Valid managed roots m g) (rooted : roots e = some root)
    (bare : ∀ i path, g.table ⟨some e, i :: path⟩ = none) (room : 3 ≤ g.free.length) :
    ∃ m' g' p₁ p₂ p₃, pageLookup m (some root) 0 = some (none, m') ∧ Valid managed roots m' g' ∧
      g'.table = update (update (update g.table ⟨some e, [0]⟩ (some p₁))
        ⟨some e, [0, 0]⟩ (some p₂)) ⟨some e, [0, 0, 0]⟩ (some p₃) ∧
      ∀ t, m'.mem p₃ t = 0 := by
  obtain ⟨p₁, p₂, p₃, rest, listed⟩ : ∃ p₁ p₂ p₃ rest, g.free = p₁ :: p₂ :: p₃ :: rest := by
    match g.free, room with
    | p₁ :: p₂ :: p₃ :: rest, _ => exact ⟨p₁, p₂, p₃, rest, rfl⟩
  have top := valid.top rooted
  have absent : g.table ((Place.root (some e)).child 0) = none := by rw [Place.child_first, bare]
  have first := valid.create top (by simp) absent listed
  obtain ⟨ran₁, entry₁⟩ := valid.demandTable_fresh top (by simp) absent listed
  rw [Place.child_first] at first
  generalize m.create (root, 0) p₁ = m₁ at first ran₁ entry₁
  generalize made₁ : g.create ⟨some e, [0]⟩ p₁ (p₂ :: p₃ :: rest) = g₁ at first
  have there₁ : g₁.table ⟨some e, [0]⟩ = some p₁ := by
    rw [← made₁]
    exact update_self ..
  have absent₁ : g₁.table (Place.child ⟨some e, [0]⟩ 0) = none := by
    rw [Place.child_cons, ← made₁]
    exact (update_of_ne (by simp) ..).trans (bare _ _)
  have listed₁ : g₁.free = p₂ :: p₃ :: rest := by rw [← made₁]; rfl
  have second := first.valid.create there₁ (by simp) absent₁ listed₁
  obtain ⟨ran₂, entry₂⟩ := first.valid.demandTable_fresh there₁ (by simp) absent₁ listed₁
  rw [Place.child_cons] at second
  generalize m₁.create (p₁, 0) p₂ = m₂ at second ran₂ entry₂
  generalize made₂ : g₁.create ⟨some e, [0, 0]⟩ p₂ (p₃ :: rest) = g₂ at second
  have there₂ : g₂.table ⟨some e, [0, 0]⟩ = some p₂ := by
    rw [← made₂]
    exact update_self ..
  have absent₂ : g₂.table (Place.child ⟨some e, [0, 0]⟩ 0) = none := by
    rw [Place.child_cons, ← made₂, ← made₁]
    exact ((update_of_ne (by simp) ..).trans (update_of_ne (by simp) ..)).trans
      (bare _ _)
  have listed₂ : g₂.free = p₃ :: rest := by rw [← made₂]; rfl
  have third := second.valid.create there₂ (by simp) absent₂ listed₂
  obtain ⟨ran₃, entry₃⟩ := second.valid.demandTable_fresh there₂ (by simp) absent₂ listed₂
  rw [Place.child_cons] at third absent₂
  generalize m₂.create (p₂, 0) p₃ = m₃ at third ran₃ entry₃
  generalize made₃ : g₂.create ⟨some e, [0, 0, 0]⟩ p₃ rest = g₃ at third
  have there₃ : g₃.table ⟨some e, [0, 0, 0]⟩ = some p₃ := by
    rw [← made₃]
    exact update_self ..
  have clear (t : Index) : m₃.mem p₃ t = 0 := by
    have kept := third.grows.leaves (a := ⟨some e, [0, 0, 0]⟩) rfl t
    rwa [leafEntry_some there₃, leafEntry_none absent₂] at kept
  have indices : pml4 0 = 0 ∧ pdpe 0 = 0 ∧ pdx 0 = 0 ∧ ptx 0 = 0 := by decide
  obtain ⟨zero, zero', zero'', zero'''⟩ := indices
  refine ⟨m₃, g₃, p₁, p₂, p₃, ?_, third.valid, ?_, clear⟩
  · have empty : m₃.entry (p₃, 0) = 0 := clear 0
    simp only [pageLookup, pml4eWalk, pdpeWalk, pgdirWalk, zero, zero', zero'', zero''', ran₁, entry₁,
      ran₂, entry₂, ran₃, entry₃, kaddr_val, Option.bind_eq_bind, Option.bind_some, Option.pure_def,
      empty, Pte.present_zero, Bool.false_eq_true, if_false]
  · rw [← made₃, ← made₂, ← made₁]
    rfl

/-- The loops of `env_free` reach all of an address space with one table at each level,
each of them the first. -/
theorem Valid.inBounds_first (valid : Valid managed k.roots k.pmap g) {p₁ p₂ p₃ : Fin npages}
    (rooted : (k.envs e).envPml4e = some root) (there₁ : g.table ⟨some e, [0]⟩ = some p₁)
    (there₂ : g.table ⟨some e, [0, 0]⟩ = some p₂) (there₃ : g.table ⟨some e, [0, 0, 0]⟩ = some p₃)
    (absent : ∀ {i path}, i :: path ≠ [0] → i :: path ≠ [0, 0] → i :: path ≠ [0, 0, 0] →
      g.table ⟨some e, i :: path⟩ = none)
    (clear : ∀ t, k.pmap.mem p₃ t = 0) : k.InBounds e := by
  have top := valid.top rooted
  intro root' rooted'
  cases rooted.symm.trans rooted'
  refine ⟨fun i other shared self => ?_, fun pdpt first => ⟨fun i beyond => ?_, fun i pgdir second =>
    ⟨fun j beyond => ?_, fun j pt third => ?_⟩⟩⟩
  · rw [valid.tree.link top (by simp) i, Place.child_plain fun special => special.2.2.elim shared self]
    exact congrArg tableEntry (absent (by simpa using other) (by simp) (by simp))
  all_goals
    rw [(valid.next_eq top (by simp)).1, Place.child_first, there₁] at first
    cases first
  · have high : i ≠ 0 := by
      rintro rfl
      exact absurd beyond (by decide)
    rw [valid.tree.link there₁ (by simp) i, Place.child_cons]
    exact congrArg tableEntry (absent (by simp) (by simpa using high) (by simp))
  all_goals
    rw [(valid.next_eq there₁ (by simp)).1, Place.child_cons] at second
    have zero : i = 0 := by
      by_contra high
      rw [absent (by simp) (by simpa using high) (by simp)] at second
      cases second
    subst zero
    cases there₂.symm.trans second
  · have high : j ≠ 0 := by
      rintro rfl
      exact absurd beyond (by decide)
    rw [valid.tree.link there₂ (by simp) j, Place.child_cons]
    exact congrArg tableEntry (absent (by simp) (by simp) (by simpa using high))
  · rw [(valid.next_eq there₂ (by simp)).1, Place.child_cons] at third
    have zero : j = 0 := by
      by_contra high
      rw [absent (by simp) (by simp) (by simpa using high)] at third
      cases third
    subst zero
    cases there₃.symm.trans third
    exact clear 511

theorem sample_envFree_returned : ∃ (k : Kernel 4096) (e : EnvIdx), Reached sample Unmixed k ∧
    k.Live e ∧ ∃ k', envFree k e = some k' ∧ k.Returned sample.managed k' e := by
  obtain ⟨k, g, e, reached, fresh, live, -, bare⟩ :=
    sample_bare Unmixed fun _ => ⟨trivial, trivial⟩
  have sound := fresh.sound
  obtain ⟨root, rooted⟩ := live.root
  obtain ⟨m', g', p₁, p₂, p₃, ran, valid, tables, clear⟩ :=
    sound.valid.pageLookup_bare rooted bare (le_trans (by decide) fresh.room)
  have unmapped : k.view e 0 = none := sound.view_bare live bare (by decide)
  have called : syscall k e ⟨none, 0, none⟩ (.pageMap 0 0 0 0 permUser) =
      some (.returns (-eInval), k.setPmap m') := by
    have self : ∀ checkperm, envid2env k e 0#32 checkperm = some e := fun _ => rfl
    have allowed : permValid permUser = true := by decide
    simp [syscall, returning, sysPageMap, self, allowed, rooted, ran]
  have stepped : kernelStep k (.call e ⟨none, 0, none⟩ (.pageMap 0 0 0 0 permUser)) =
      some (k.setPmap m') := by
    simp only [kernelStep, if_pos live, called, Option.map_some]
  have unmixed : Unmixed k (.call e ⟨none, 0, none⟩ (.pageMap 0 0 0 0 permUser)) := by
    refine ⟨fun src dst checks found page mapped => ?_, fun src dst checks => by decide⟩
    obtain rfl : e = src := Option.some.inj checks.src
    rw [show k.pmap.translateIn (k.envs e).envPml4e 0 = none from unmapped] at mapped
    cases mapped
  have reached' : Reached sample Unmixed (k.setPmap m') := by
    obtain ⟨k₀, events, booted, along⟩ := reached
    exact ⟨k₀, _, booted, along.snoc unmixed stepped⟩
  have top := valid.top rooted
  have there₁ : g'.table ⟨some e, [0]⟩ = some p₁ := by simp [tables, update]
  have there₂ : g'.table ⟨some e, [0, 0]⟩ = some p₂ := by simp [tables, update]
  have there₃ : g'.table ⟨some e, [0, 0, 0]⟩ = some p₃ := by simp [tables, update]
  have absent {i : Index} {path : List Index} (first : i :: path ≠ [0]) (second : i :: path ≠ [0, 0])
      (third : i :: path ≠ [0, 0, 0]) : g'.table ⟨some e, i :: path⟩ = none := by
    rw [tables, update_of_ne (by simpa using third), update_of_ne (by simpa using second),
      update_of_ne (by simpa using first), bare]
  have whole : (k.setPmap m').InBounds e :=
    Valid.inBounds_first (k := k.setPmap m') valid rooted there₁ there₂ there₃ absent clear
  -- nothing is mapped after the walk either
  have user : pml4 0 ≠ pml4 uvpt := by decide
  have empty : (leafEntry k.pmap.mem g.table ((Place.root (some e)).table 0) (ptx 0)).present =
      false := by
    rw [Place.table_own (by decide) user, leafEntry_none (bare _ _)]
    rfl
  obtain ⟨m'', g'', again, looked⟩ := sound.valid.pageLookup_absent rooted user empty
  obtain rfl : m' = m'' := (Prod.mk.inj (Option.some.inj (ran.symm.trans again))).2
  have walked := looked.memoryCall sound
  refine ⟨k.setPmap m', e, reached', live,
    envFree_returned reached' live (fun root' rooted' empty => ?_) whole fun va low found page mapped => ?_⟩
  · obtain rfl := Option.some.inj (rooted.symm.trans rooted')
    have empty : m'.mem root 0 = 0 := empty
    rw [valid.tree.link top (by simp) 0, Place.child_first, there₁] at empty
    exact table_ne_zero empty
  · have below : va < utop := low.trans (by decide)
    have leaf : leafOf (k.setPmap m') g'' e va = leafOf k g e va :=
      walked.keeps.leaves (Place.mappable_of_le below.le).length _ id
    rw [walked.sound.view_leaf live (Place.user_of_low below), leaf,
      ← sound.view_leaf live (Place.user_of_low below), sound.view_bare live bare low] at mapped
    cases mapped

end Jos
