import Jos.Calls.Ipc
import Jos.Environment.Release

/-! The system calls that do not panic: what each of them needs to find in the memory of
the environments that it works on. -/

set_option autoImplicit false

namespace Jos

open Foundation Function

variable {npages : Nat} {managed : Set (Fin npages)} {roots : EnvIdx → Option (Fin npages)}
  {m m' : Pmap npages} {g g' : Ledger npages} {k k' : Kernel npages} {c e : EnvIdx}
  {root : Fin npages} {va : Nat}

/-- The page mapped at an address can be given up: it is one of the allocator's, or is
not referred to once only. -/
def Droppable (managed : Set (Fin npages)) (m : Pmap npages) (g : Ledger npages) (e : EnvIdx)
    (va : Nat) : Prop :=
  ∀ page, (leafEntry m.mem g.table ((Place.root (some e)).table va) (ptx va)).Refers page →
    page ∈ managed ∨ (m.pages page).ppRef ≠ 1

namespace Valid

section

variable (valid : Valid managed roots m g)

include valid

theorem ref_unmanaged {owner : Option EnvIdx}
    (grows : Grows owner m g m' g') {page : Fin npages} (outside : page ∉ managed) :
    (m'.pages page).ppRef = (m.pages page).ppRef :=
  grows.ref page fun listed => outside (valid.pool.member page listed).1

theorem droppable_looked {a : Place} {va' : Nat}
    (looked : Looked managed roots m g m' g' a va') (bound : va ≤ utop)
    (droppable : Droppable managed m g e va) : Droppable managed m' g' e va := by
  intro page refers
  rw [looked.grows.leaves (Place.mappable_of_le bound).length] at refers
  by_cases inside : page ∈ managed
  · exact .inl inside
  · refine .inr ?_
    rw [valid.ref_unmanaged looked.grows inside]
    exact (droppable page refers).resolve_left inside

theorem pageLookup_some (rooted : roots e = some root)
    (bound : va ≤ utop) : ∃ found m', pageLookup m (some root) va = some (found, m') := by
  have mappable := Place.mappable_of_le (e := e) bound
  have user := Place.mappable_user mappable
  rcases valid.leaf_cases mappable with empty | ⟨holder, page, here, leaf, maps⟩
  · obtain ⟨m', g', ran, -⟩ := valid.pageLookup_absent rooted user (by rw [empty]; rfl)
    exact ⟨_, m', ran⟩
  · obtain ⟨-, holder', here', ran⟩ := valid.pageLookup_present rooted user
      (by rw [leaf]; exact maps.present)
    cases here.symm.trans here'
    rw [maps.ppn, pa2page_val] at ran
    exact ⟨_, m, ran⟩

theorem pageRemove_some (rooted : roots e = some root)
    (bound : va ≤ utop) (droppable : Droppable managed m g e va) :
    ∃ m', pageRemove m (some root) va = some m' := by
  have mappable := Place.mappable_of_le (e := e) bound
  have user := Place.mappable_user mappable
  rcases valid.leaf_cases mappable with empty | ⟨holder, page, here, leaf, maps⟩
  · obtain ⟨m', g', ran, -⟩ := valid.pageRemove_absent rooted user (by rw [empty]; rfl)
    exact ⟨m', ran⟩
  · rw [valid.pageRemove_mapped rooted user here maps]
    rcases droppable page (leaf ▸ maps.refers.mpr rfl) with inside | more
    · rw [valid.pageDecref_mapped here mappable maps inside]
      exact ⟨_, rfl⟩
    · have nonzero : (m.pages page).ppRef - 1 ≠ 0 := fun last => more (by bv_omega)
      simp only [pageDecref, Pmap.setRef_ref, if_true, if_neg nonzero]
      exact ⟨_, rfl⟩

end

theorem entry_of_page {a : Place} {va' : Nat} (same : va / 4096 = va' / 4096) :
    a.table va = a.table va' ∧ ptx va = ptx va' := by
  have top : pml4 va = pml4 va' := Fin.ext (by rw [pml4_eq, pml4_eq]; omega)
  have second : pdpe va = pdpe va' := Fin.ext (by rw [pdpe_eq, pdpe_eq]; omega)
  have third : pdx va = pdx va' := Fin.ext (by rw [pdx_eq, pdx_eq]; omega)
  have last : ptx va = ptx va' := Fin.ext (by rw [ptx_eq, ptx_eq]; omega)
  exact ⟨by rw [Place.table, top, second, third, Place.table], last⟩

theorem userMemCheckLoop_present (valid : Valid managed roots m g) (rooted : roots e = some root)
    (user : pml4 va ≠ pml4 uvpt) {perm : BitVec 12} {rounds : Nat}
    (ran : userMemCheckLoop m (some root) perm (rounds + 1) va = some (true, m')) :
    (leafEntry m.mem g.table ((Place.root (some e)).table va) (ptx va)).present = true := by
  by_contra absent
  obtain ⟨m₁, g₁, looked, -⟩ := valid.pageLookup_absent rooted user (Bool.eq_false_iff.mpr absent)
  unfold userMemCheckLoop at ran
  split at ran
  · cases ran
  · simp only [looked, Option.bind_eq_bind, Option.bind_some] at ran
    cases ran

theorem user_of_ulim (low : va < ulim) : pml4 va ≠ pml4 uvpt := by
  have top : ulim < 2 * 2 ^ 39 := by decide
  have self : (pml4 uvpt).val = 2 := by decide
  intro same
  have index := congrArg Fin.val same
  rw [pml4_eq, self] at index
  omega

/-- What the kernel shares with every environment above UTOP is mapped to RAM. -/
def Ram (m : Pmap npages) (g : Ledger npages) (e : EnvIdx) (va : Nat) : Prop :=
  utop < va → va < ulim →
    (leafEntry m.mem g.table ((Place.root (some e)).table va) (ptx va)).present = true →
      (leafEntry m.mem g.table ((Place.root (some e)).table va) (ptx va)).ppn < npages

theorem userMemCheckLoop_some (valid : Valid managed roots m g) (rooted : roots e = some root)
    (perm : BitVec 12) (rounds va : Nat)
    (ram : ∀ va', va ≤ va' → va' < va + rounds * pgSize → Ram m g e va') :
    ∃ passed m', userMemCheckLoop m (some root) perm rounds va = some (passed, m') ∧
      ∀ page, page ∉ managed → (m'.pages page).ppRef = (m.pages page).ppRef := by
  induction rounds generalizing m g va with
  | zero => exact ⟨true, m, rfl, fun _ _ => rfl⟩
  | succ rounds ih =>
    unfold userMemCheckLoop
    by_cases high : va ≥ ulim
    · rw [if_pos high]
      exact ⟨false, m, rfl, fun _ _ => rfl⟩
    rw [if_neg high]
    have user : pml4 va ≠ pml4 uvpt := user_of_ulim (Nat.not_le.mp high)
    have looked : ∃ found m', pageLookup m (some root) va = some (found, m') := by
      by_cases bound : va ≤ utop
      · exact valid.pageLookup_some rooted bound
      cases present : (leafEntry m.mem g.table ((Place.root (some e)).table va)
          (ptx va)).present with
      | false =>
        obtain ⟨m', g', ran, -⟩ := valid.pageLookup_absent rooted user present
        exact ⟨_, m', ran⟩
      | true =>
        have inside := ram va le_rfl (Nat.lt_add_of_pos_right (Nat.mul_pos rounds.succ_pos (by decide)))
          (Nat.not_le.mp bound) (Nat.not_le.mp high) present
        obtain ⟨-, holder, here, ran⟩ := valid.pageLookup_present rooted user present
        rw [leafEntry_some here] at inside
        have page : pa2page npages (m.mem holder (ptx va)).ppn = some ⟨_, inside⟩ :=
          pa2page_val ⟨_, inside⟩
        rw [page] at ran
        exact ⟨_, m, ran⟩
    obtain ⟨found, m₁, looked⟩ := looked
    have here := valid.top rooted
    obtain ⟨g₁, spec⟩ := valid.pageLookup_looked here rfl (.inl (by simp)) looked
    have kept (page : Fin npages) (outside : page ∉ managed) :
        (m₁.pages page).ppRef = (m.pages page).ppRef := valid.ref_unmanaged spec.grows outside
    simp only [looked, Option.bind_eq_bind, Option.bind_some]
    cases found with
    | none => exact ⟨false, m₁, rfl, kept⟩
    | some pair =>
      dsimp only
      by_cases denied : (m₁.entry pair.2).perm &&& perm = 0
      · rw [if_pos denied]
        exact ⟨false, m₁, rfl, kept⟩
      rw [if_neg denied]
      have ram₁ : ∀ va', va + pgSize ≤ va' → va' < va + pgSize + rounds * pgSize →
          Ram m₁ g₁ e va' := by
        intro va' after before low high present
        have deep : ((Place.root (some e)).table va').path.length = 3 := by
          rw [Place.table_path (user_of_ulim high)]
          rfl
        rw [spec.grows.leaves deep] at present ⊢
        exact ram va' (by omega) (by rw [Nat.succ_mul]; omega) low high present
      obtain ⟨passed, m', ran, refs⟩ := ih spec.valid (va + pgSize) ram₁
      exact ⟨passed, m', ran, fun page outside => (refs page outside).trans (kept page outside)⟩

end Valid

theorem ended_ite {condition : Prop} [Decidable condition] {first second : Option (Int × Kernel npages)}
    (left : ∃ result k', first = some (result, k'))
    (right : ∃ result k', second = some (result, k')) :
    ∃ result k', (if condition then first else second) = some (result, k') := by
  split
  · exact left
  · exact right

namespace Sound

section

variable (sound : Sound managed k g)

include sound

theorem sysPageAlloc_some (live : k.Live c) {envid : EnvId} {perm : BitVec 32}
    (droppable : ∀ e, envid2env k c envid true = some e → va ≤ utop → Droppable managed k.pmap g e va) :
    ∃ result k', Jos.sysPageAlloc k c envid va perm = some (result, k') := by
  unfold Jos.sysPageAlloc
  cases found : envid2env k c envid true with
  | none => exact ⟨_, _, rfl⟩
  | some e =>
    obtain ⟨root, rooted⟩ := sound.envid2env_live live found
    dsimp only
    split
    · exact ⟨_, _, rfl⟩
    split
    · exact ⟨_, _, rfl⟩
    rename_i range
    have bound : va ≤ utop := by omega
    cases listed : g.free with
    | nil =>
      rw [sound.valid.pageAlloc_empty listed]
      exact ⟨_, _, rfl⟩
    | cons page rest =>
      rw [sound.valid.pageAlloc_eq listed, rooted]
      have mappable := Place.mappable_of_le (e := e) bound
      have taken := sound.take listed false .nowhere
      have leaf := taken.keeps.leaves mappable.length (ptx va) id
      obtain ⟨result, m, inserted⟩ := taken.sound.valid.pageInsert_some (e := e) rooted page
        (perm.setWidth 12 ||| pteP) mappable fun other refers => by
          refine (droppable e found bound other (leaf ▸ refers)).imp id fun more => ?_
          change ((k.pmap.take page false).pages other).ppRef ≠ 1
          rwa [Pmap.take_ref]
      have inserted : pageInsert (k.pmap.take page false) (some root) page va
          (perm.setWidth 12 ||| pteP) = some (result, m) := inserted
      simp only [inserted, Option.bind_eq_bind, Option.bind_some]
      exact ⟨_, _, rfl⟩

theorem sysPageMap_some (live : k.Live c) {srcenvid dstenvid : EnvId}
    {srcva dstva : Nat} {perm : BitVec 32}
    (droppable : ∀ dst, envid2env k c dstenvid false = some dst → dstva ≤ utop →
      Droppable managed k.pmap g dst dstva) :
    ∃ result k', Jos.sysPageMap k c srcenvid srcva dstenvid dstva perm = some (result, k') := by
  unfold Jos.sysPageMap
  cases foundSrc : envid2env k c srcenvid true with
  | none => exact ⟨_, _, rfl⟩
  | some src =>
    cases foundDst : envid2env k c dstenvid false with
    | none => exact ⟨_, _, rfl⟩
    | some dst =>
      obtain ⟨srcRoot, srcRooted⟩ := sound.envid2env_live live foundSrc
      obtain ⟨dstRoot, dstRooted⟩ := sound.envid2env_live live foundDst
      dsimp only
      split
      · exact ⟨_, _, rfl⟩
      split
      · exact ⟨_, _, rfl⟩
      rename_i range
      have dstBound : dstva ≤ utop := by omega
      have srcBound : srcva ≤ utop := by omega
      obtain ⟨found, m, looked⟩ := sound.valid.pageLookup_some srcRooted srcBound
      have here := sound.valid.top srcRooted
      obtain ⟨g₁, spec⟩ := sound.valid.pageLookup_looked here rfl (.inl (by simp)) looked
      simp only [srcRooted, looked, Option.bind_eq_bind, Option.bind_some]
      cases found with
      | none => exact ⟨_, _, rfl⟩
      | some pair =>
        obtain ⟨page, slot⟩ := pair
        dsimp only
        split
        · exact ⟨_, _, rfl⟩
        · obtain ⟨result, m₁, inserted⟩ := spec.valid.pageInsert_some (e := dst) dstRooted page
            (perm.setWidth 12) (Place.mappable_of_le dstBound)
            (sound.valid.droppable_looked spec dstBound (droppable dst foundDst dstBound))
          rw [dstRooted, inserted]
          exact ⟨_, _, rfl⟩

theorem sysPageUnmap_some (live : k.Live c) {envid : EnvId}
    (droppable : ∀ e, envid2env k c envid true = some e → va < utop →
      Droppable managed k.pmap g e va) :
    ∃ result k', Jos.sysPageUnmap k c envid va = some (result, k') := by
  unfold Jos.sysPageUnmap
  cases found : envid2env k c envid true with
  | none => exact ⟨_, _, rfl⟩
  | some e =>
    obtain ⟨root, rooted⟩ := sound.envid2env_live live found
    dsimp only
    split
    · exact ⟨_, _, rfl⟩
    · rename_i range
      have low : va < utop := by omega
      obtain ⟨m, removed⟩ := sound.valid.pageRemove_some rooted low.le (droppable e found low)
      rw [rooted, removed]
      exact ⟨_, _, rfl⟩

theorem ipcDeliver_some (live : k.Live c) {dst : EnvIdx}
    (target : k.Live dst) {value perm : BitVec 32} {srcva : Nat}
    (droppable : srcva < utop → (k.envs dst).envIpcDstva < utop →
      Droppable managed k.pmap g dst (k.envs dst).envIpcDstva) :
    ∃ result k', Jos.ipcDeliver k c dst value srcva perm = some (result, k') := by
  by_cases both : SendsPage k dst srcva
  · generalize record : receivedEnv (k.envs dst) (k.envs c).envId value perm = env
    have same : SameSpace (k.envs dst) env := record ▸ sameSpace_received
    have ready : Sound managed (k.setEnv dst env) g := sound.setEnv same
    have live' (x : EnvIdx) (live : k.Live x) : (k.setEnv dst env).Live x := by
      by_cases here : x = dst
      · subst here
        simpa only [Kernel.Live, Kernel.setEnv, update_self, same.pml4e] using live
      · simpa only [Kernel.Live, Kernel.setEnv, update_of_ne here] using live
    have id : ((k.setEnv dst env).envs dst).envId = (k.envs dst).envId := by
      simp only [Kernel.setEnv, update_self, same.id]
    have destination := ready.envid2env_self (c := c) (live' dst target) false (by simp)
    rw [id] at destination
    have mapped : ∃ code k₁, Jos.sysPageMap (k.setEnv dst env) c (k.envs c).envId srcva
        (k.envs dst).envId (k.envs dst).envIpcDstva perm = some (code, k₁) := by
      refine ready.sysPageMap_some (live' c live) fun other found _ => ?_
      rw [destination] at found
      split at found
      · cases found
      · obtain rfl := Option.some.inj found
        exact droppable both.1 both.2
    obtain ⟨code, k₁, mapped⟩ := mapped
    have nonpos := (sysPageMap_memory mapped).2
    have both : srcva < utop ∧ (k.envs dst).envIpcDstva < utop := both
    subst record
    unfold Jos.ipcDeliver
    simp only [Kernel.setEnv, update_self, update_idem]
    rw [if_pos both]
    simp only [Kernel.setEnv, receivedEnv] at mapped
    exact ⟨_, _, Option.bind_eq_some_iff.mpr
      ⟨(code, k₁), mapped, if_neg (Int.not_lt.mpr nonpos)⟩⟩
  · have plain : ¬ (srcva < utop ∧ (k.envs dst).envIpcDstva < utop) := both
    unfold Jos.ipcDeliver
    simp only [Kernel.setEnv, update_self, update_idem]
    rw [if_neg plain]
    exact ⟨_, _, rfl⟩

def Lands (m : Pmap npages) (pml4e : Option (Fin npages)) (va : Nat) : Prop :=
  ∃ slot m', pml4eWalk m pml4e va true = some (some slot, m') ∧ (m'.entry slot).present = true ∧
    (m'.entry slot).ppn < npages

theorem sysIpcTrySend_some (live : k.Live c) {envid : EnvId}
    {value perm : BitVec 32} {srcva : Nat} {ambient : Ambient}
    (others : envid = (k.envs c).envId → (k.envs c).envIpcRecving = false)
    (lands : ∀ dst, envid2env k c envid false = some dst → (k.envs dst).envIpcRecving = true →
      utop ≤ srcva → Lands k.pmap (k.envs c).envPml4e srcva)
    (droppable : ∀ dst, envid2env k c envid false = some dst → srcva < utop →
      (k.envs dst).envIpcDstva < utop → Droppable managed k.pmap g dst (k.envs dst).envIpcDstva) :
    ∃ result k', Jos.sysIpcTrySend k c envid value srcva perm ambient = some (result, k') := by
  unfold Jos.sysIpcTrySend
  cases found : envid2env k c envid false with
  | none => exact ⟨_, _, rfl⟩
  | some dst =>
    have target := sound.envid2env_root live found
    obtain ⟨root, rooted⟩ := live.root
    have here := sound.valid.top rooted
    dsimp only
    split
    · exact ⟨_, _, rfl⟩
    rename_i waiting
    have looked : ∃ page m, pageLookup k.pmap (k.envs c).envPml4e srcva = some (page, m) ∧
        (utop ≤ srcva → page.isSome) := by
      by_cases low : srcva < utop
      · obtain ⟨page, m, ran⟩ := sound.valid.pageLookup_some rooted low.le
        exact ⟨page, m, by rw [rooted]; exact ran, fun high => absurd low (Nat.not_lt.mpr high)⟩
      · obtain ⟨slot, m, walked, present, ram⟩ :=
          lands dst found (by simpa using waiting) (Nat.not_lt.mp low)
        rw [rooted] at walked
        refine ⟨some (⟨(m.entry slot).ppn, ram⟩, slot), m, ?_, fun _ => rfl⟩
        have page : pa2page npages (m.entry slot).ppn = some ⟨(m.entry slot).ppn, ram⟩ :=
          pa2page_val ⟨(m.entry slot).ppn, ram⟩
        simp only [pageLookup, rooted, walked, Option.bind_eq_bind, Option.bind_some, present,
          if_true, page]
        rfl
    obtain ⟨page, m, looked, mapped⟩ := looked
    have lookedAt : pageLookup k.pmap (some root) srcva = some (page, m) := rooted ▸ looked
    obtain ⟨g₁, spec⟩ := sound.valid.pageLookup_looked here rfl (.inl (by simp)) lookedAt
    have walked := spec.memoryCall sound
    simp only [looked, Option.bind_eq_bind, Option.bind_some]
    cases page with
    | none =>
      have low : srcva < utop := Nat.not_le.mp fun high => by simpa using mapped high
      rw [if_pos ⟨rfl, low⟩]
      exact ⟨_, _, rfl⟩
    | some pair =>
      have differs : envid ≠ ((k.setPmap m).envs c).envId := by
        intro own
        have self := sound.envid2env_self (c := c) live false (by simp)
        rw [show envid = (k.envs c).envId from own, self] at found
        split at found
        · cases found
        · obtain rfl := Option.some.inj found
          exact waiting (by simp [others own])
      dsimp only
      simp only [Option.bind_some]
      rw [if_neg differs]
      refine ended_ite ⟨_, _, rfl⟩ (ended_ite ⟨_, _, rfl⟩ (ended_ite ⟨_, _, rfl⟩ ?_))
      exact walked.sound.ipcDeliver_some live target fun low low' =>
        sound.valid.droppable_looked spec low'.le (droppable dst found low low')

end

/-- The pointer is to memory that the caller may write, and for a bad identifier so is
address 0. -/
theorem sysEnvSetTrapframe_some {envid : EnvId} {tf : Nat} {ambient : Ambient}
    (pointer : tf ≠ 0 → ambient.userTf ≠ none)
    (zero : tf ≠ 0 → envid2env k c envid true = none →
      ∃ found, k.pmap.translateIn (k.envs c).envPml4e 0 = some found ∧ found.writable = true) :
    ∃ result k', Jos.sysEnvSetTrapframe k c envid tf ambient = some (result, k') := by
  unfold Jos.sysEnvSetTrapframe
  by_cases null : tf = 0
  · rw [if_pos null]
    exact ⟨_, _, rfl⟩
  · obtain ⟨frame, given⟩ := Option.ne_none_iff_exists'.mp (pointer null)
    rw [if_neg null, given]
    dsimp only
    cases found : envid2env k c envid true with
    | some e => exact ⟨_, _, rfl⟩
    | none =>
      obtain ⟨entry, mapped, writable⟩ := zero null found
      simp only [mapped, writable, if_true]
      exact ⟨_, _, rfl⟩

/-- An environment can be destroyed: what it maps below UTOP is the allocator's, and
page 0 stands in for a missing page directory pointer table without harm. -/
structure Disposable (managed : Set (Fin npages)) (m : Pmap npages) (g : Ledger npages)
    (e : EnvIdx) (root : Fin npages) : Prop where
  clean : Clean m root
  spare : m.mem root 0 = 0 → ∀ zero : Fin npages, zero.val = 0 → (m.pages zero).ppRef ≠ 1
  backed : Backed managed m.mem g.table e

section

variable (sound : Sound managed k g)

include sound

theorem envDestroy_some (rooted : (k.envs e).envPml4e = some root)
    (disposable : ¬ ((k.envs e).envStatus = .running ∧ c ≠ e) →
      Disposable managed k.pmap g e root) :
    ∃ how k', Jos.envDestroy k c e = some (how, k') := by
  unfold Jos.envDestroy
  by_cases elsewhere : (k.envs e).envStatus = .running ∧ c ≠ e
  · rw [if_pos elsewhere]
    exact ⟨_, _, rfl⟩
  · obtain ⟨clean, spare, backed⟩ := disposable elsewhere
    obtain ⟨k', freed⟩ := sound.envFree_some rooted clean spare backed
    rw [if_neg elsewhere, freed]
    exact ⟨_, _, rfl⟩

section

variable (rooted : (k.envs c).envPml4e = some root)

include rooted

/-- What a caller maps and can be made to give up is the same after its buffer has been
checked. -/
theorem disposable_walks (walked : MemoryCall managed k g (k.setPmap m') g' .walks)
    (more : ∀ {a page}, g.table a = some page → g'.table a = some page)
    (refs : ∀ page, page ∉ managed → (m'.pages page).ppRef = (k.pmap.pages page).ppRef)
    (disposable : Disposable managed k.pmap g c root) : Disposable managed m' g' c root := by
  have clean : k.Clean c := by
    intro root' rooted'
    cases rooted.symm.trans rooted'
    exact disposable.clean
  refine ⟨sound.clean_walks walked more clean root rooted, fun empty zero first => ?_,
    fun i j t page refers => ?_⟩
  · rw [refs zero (sound.reserved zero first).1]
    exact disposable.spare (sound.empty_walks walked more rooted empty) zero first
  · have kept : leafEntry m'.mem g'.table ⟨some c, [j, i, 0]⟩ t =
        leafEntry k.pmap.mem g.table ⟨some c, [j, i, 0]⟩ t := walked.keeps.leaves rfl t id
    rw [kept] at refers
    exact disposable.backed i j t page refers

theorem userMemAssert_some
    (disposable : Disposable managed k.pmap g c root) (va len : Nat) (perm : BitVec 12)
    (ram : ∀ va', roundDown va ≤ va' → va' < roundUp ((roundDown va + len) % 2 ^ 64) →
      Valid.Ram k.pmap g c va') :
    ∃ passed k', Jos.userMemAssert k c va len perm = some (passed, k') ∧
      (passed = true → ∃ m g', userMemCheck k.pmap (some root) va len (perm ||| pteU) =
          some (true, m) ∧ k' = k.setPmap m ∧ MemoryCall managed k g k' g' .walks ∧
        Disposable managed k'.pmap g' c root) := by
  obtain ⟨passed, m, ran, refs⟩ := sound.valid.userMemCheckLoop_some (e := c) rooted
    (perm ||| pteU) ((roundUp ((roundDown va + len) % 2 ^ 64) - roundDown va) / pgSize) (roundDown va)
    fun va' after before => ram va' after (by
      have whole := Nat.div_mul_le_self
        (roundUp ((roundDown va + len) % 2 ^ 64) - roundDown va) pgSize
      omega)
  obtain ⟨g', walked, more⟩ := sound.userMemCheckLoop rooted ran
  have checked : userMemCheck k.pmap (some root) va len (perm ||| pteU) = some (passed, m) := ran
  have after := sound.disposable_walks rooted walked more refs disposable
  unfold Jos.userMemAssert
  simp only [rooted, checked, Option.bind_eq_bind, Option.bind_some]
  cases passed with
  | true => exact ⟨true, _, rfl, fun _ => ⟨m, g', rfl, rfl, walked, after⟩⟩
  | false =>
    obtain ⟨how, k₁, destroyed⟩ := walked.sound.envDestroy_some (c := c) rooted fun _ => after
    simp only [Bool.false_eq_true, if_false, destroyed, Option.bind_some]
    exact ⟨false, _, rfl, nofun⟩

theorem checkedCall_some
    (ram : ∀ va, Valid.Ram k.pmap g c va) (disposable : Disposable managed k.pmap g c root)
    (va len : Nat) (answer : Int) : ∃ outcome k', Jos.checkedCall k c va len answer = some (outcome, k') := by
  obtain ⟨passed, k₁, ran, -⟩ := sound.userMemAssert_some rooted disposable va len pteU
    fun va _ _ => ram va
  unfold Jos.checkedCall
  simp only [ran, Option.bind_eq_bind, Option.bind_some]
  exact ⟨_, _, rfl⟩

theorem destroyCurenv_some (disposable : Disposable managed k.pmap g c root) :
    ∃ exit k', Jos.destroyCurenv k c = some (exit, k') := by
  obtain ⟨how, k₁, ran⟩ := sound.envDestroy_some (c := c) rooted fun _ => disposable
  unfold Jos.destroyCurenv
  simp only [ran, Option.bind_eq_bind, Option.bind_some]
  exact ⟨_, _, rfl⟩

/-- The handler of page faults in user mode. The check of the exception stack lets a
page pass that is only readable. -/
theorem pageFaultHandler_some (disposable : Disposable managed k.pmap g c root)
    (writable : (k.envs c).envPgfaultUpcall ≠ 0 →
      (leafOf k g c (uxstackTop - pgSize)).present = true →
        (leafOf k g c (uxstackTop - pgSize)).writable = true) :
    ∃ exit k', Jos.pageFaultHandler k c = some (exit, k') := by
  unfold Jos.pageFaultHandler
  by_cases unhandled : (k.envs c).envPgfaultUpcall = 0
  · rw [if_pos unhandled]
    exact sound.destroyCurenv_some rooted disposable
  rw [if_neg unhandled]
  have below : roundUp ((roundDown (uxstackTop - pgSize) + pgSize) % 2 ^ 64) ≤ utop := by decide
  obtain ⟨passed, k₁, asserted, after⟩ := sound.userMemAssert_some rooted disposable
    (uxstackTop - pgSize) pgSize (pteW ||| pteU ||| pteP) fun va _ before high =>
      absurd (before.trans_le below) (Nat.not_lt.mpr high.le)
  simp only [asserted, Option.bind_eq_bind, Option.bind_some]
  cases passed with
  | false => exact ⟨_, _, rfl⟩
  | true =>
    obtain ⟨m, g₁, checked, rfl, walked, disposable₁⟩ := after rfl
    simp only [not_true_eq_false, if_false]
    have base : uxstackTop - pgSize + pgSize ≤ utop := by decide
    have user : pml4 (uxstackTop - pgSize) ≠ pml4 uvpt := by decide
    have present : (leafOf k g c (uxstackTop - pgSize)).present = true :=
      sound.valid.userMemCheckLoop_present (e := c) rooted user checked
    have stored := writable unhandled present
    have live : (k.setPmap m).Live c := Kernel.live_of (k := k.setPmap m) rooted
    generalize ((k.setPmap m).envs c).envTf.tfRsp.toNat = rsp
    by_cases overflow : (rsp < uxstackTop ∧ rsp > uxstackTop - pgSize) ∧
        rsp - utrapframeSize - 8 < uxstackTop - pgSize
    · rw [if_pos overflow]
      exact walked.sound.destroyCurenv_some rooted disposable₁
    rw [if_neg overflow]
    have within : (if rsp < uxstackTop ∧ rsp > uxstackTop - pgSize then
        rsp - utrapframeSize - 8 else uxstackTop - utrapframeSize) / 4096 =
        (uxstackTop - pgSize) / 4096 := by
      have top : uxstackTop = 4018143232 := rfl
      have size : utrapframeSize = 160 := rfl
      have page : pgSize = 4096 := rfl
      split <;> omega
    generalize (if rsp < uxstackTop ∧ rsp > uxstackTop - pgSize then
      rsp - utrapframeSize - 8 else uxstackTop - utrapframeSize) = utf at within ⊢
    obtain ⟨table, index⟩ := Valid.entry_of_page (a := .root (some c)) within
    have low : utf < utop := by
      have top : (uxstackTop - pgSize) / 4096 + 1 ≤ utop / 4096 := by decide
      omega
    have entry : leafOf (k.setPmap m) g₁ c utf = leafOf k g c (uxstackTop - pgSize) := by
      rw [leafOf, table, index]
      exact walked.keeps.leaves (Place.mappable_of_le (by decide)).length _ id
    have translated : (k.setPmap m).pmap.translateIn ((k.setPmap m).envs c).envPml4e utf =
        some ⟨(leafOf k g c (uxstackTop - pgSize)).ppn, tablePerm, tablePerm, tablePerm,
          (leafOf k g c (uxstackTop - pgSize)).perm⟩ := by
      rw [walked.sound.translateIn live (Place.user_of_low low), entry]
      exact if_pos present
    rw [translated]
    have written := (leafTranslation_writable (if_pos present)).trans stored
    simp only [Option.bind_some, written, if_true]
    exact ⟨_, _, rfl⟩

end

end

end Sound

end Jos
