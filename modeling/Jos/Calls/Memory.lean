import Jos.Environment.Alloc
import Jos.Kern.Syscall
import Jos.Memory.Translation

/-! The calls on pages: what `sys_page_alloc`, `sys_page_map` and
`sys_page_unmap` do to a sound kernel state. -/

set_option autoImplicit false

namespace Jos

open Foundation

variable {npages : Nat} {managed : Set (Fin npages)} {g g' : Ledger npages}
  {k k' : Kernel npages} {c : EnvIdx} {va : Nat}

/-- The leaf entry of an address of an environment, read from the ledger. -/
def leafOf (k : Kernel npages) (g : Ledger npages) (e : EnvIdx) (va : Nat) : Pte :=
  leafEntry k.pmap.mem g.table ((Place.root (some e)).table va) (ptx va)

theorem Sound.setPmap (sound : Sound managed k g) {m' : Pmap npages}
    (valid : Valid managed k.roots m' g')
    (table : ∀ {a page}, g.table a = some page → g'.table a = some page)
    (boot : m'.bootPml4e = k.pmap.bootPml4e) : Sound managed (k.setPmap m') g' where
  valid := valid
  shared := sound.shared.imp fun _ there => table there
  cr3 := sound.cr3
  slots := sound.slots
  idle := sound.idle
  ids := sound.ids
  reserved page zero := by
    have before := sound.reserved page zero
    rw [← boot] at before
    exact before

structure MemoryCall (managed : Set (Fin npages)) (k : Kernel npages) (g : Ledger npages)
    (k' : Kernel npages) (g' : Ledger npages) (footprint : Footprint) : Prop where
  sound : Sound managed k' g'
  keeps : Keeps managed k.pmap g k'.pmap g' footprint
  envs : k'.envs = k.envs
  list : k'.envFreeList = k.envFreeList

section
variable {footprint footprint' : Footprint}

theorem MemoryCall.refl (sound : Sound managed k g) : MemoryCall managed k g k g footprint :=
  ⟨sound, .refl _ _, rfl, rfl⟩

theorem MemoryCall.mono (call : MemoryCall managed k g k' g' footprint)
    (more : footprint ≤ footprint') : MemoryCall managed k g k' g' footprint' :=
  ⟨call.sound, call.keeps.mono more, call.envs, call.list⟩

theorem Looked.memoryCall {m' : Pmap npages} {a : Place} (sound : Sound managed k g)
    (looked : Looked managed k.roots k.pmap g m' g' a va) :
    MemoryCall managed k g (k.setPmap m') g' (.walk a va) :=
  ⟨sound.setPmap looked.valid looked.grows.table looked.grows.boot,
    looked.grows.keeps sound.valid, rfl, rfl⟩

theorem Stored.memoryCall {m' : Pmap npages} {a : Place} {entry : Pte}
    (sound : Sound managed k g)
    (stored : Stored managed k.roots k.pmap g m' g' (a.table va) (ptx va) entry) :
    MemoryCall managed k g (k.setPmap m') g' (.slot a va) :=
  ⟨sound.setPmap stored.valid stored.table stored.boot, stored.keeps, rfl, rfl⟩

theorem MemoryCall.trans {k'' : Kernel npages} {g'' : Ledger npages}
    (first : MemoryCall managed k g k' g' footprint)
    (second : MemoryCall managed k' g' k'' g'' footprint) :
    MemoryCall managed k g k'' g'' footprint :=
  ⟨second.sound, first.keeps.trans second.keeps, second.envs.trans first.envs,
    second.list.trans first.list⟩

end

theorem Sound.take (sound : Sound managed k g) {page : Fin npages} {rest : List (Fin npages)}
    (listed : g.free = page :: rest) (zero : Bool) (footprint : Footprint) :
    MemoryCall managed k g (k.setPmap (k.pmap.take page zero)) (g.setFree rest) footprint := by
  have member : page ∈ g.free := by simp [listed]
  have unplaced := (sound.valid.free_unused member).unplaced
  have inside := (sound.valid.pool.member page (by simp [listed])).1
  refine ⟨sound.setPmap (sound.valid.take listed zero) id Pmap.take_boot,
    ⟨fun {a} deep t _ => ?_, .inl, Pmap.take_boot, fun other outside _ => ?_, fun _ _ => le_rfl⟩, rfl, rfl⟩
  · change leafEntry (k.pmap.take page zero).mem g.table a t = _
    unfold leafEntry
    cases there : g.table a with
    | none => rfl
    | some holder =>
      exact congrFun (Pmap.take_mem_ne (by rintro rfl; exact unplaced ⟨a, there⟩)) t
  · exact Pmap.take_mem_ne (by rintro rfl; exact outside inside)

theorem Sound.envid2env_live (sound : Sound managed k g) (live : (k.envs c).envPml4e ≠ none)
    {envid : EnvId} {checkperm : Bool} {e : EnvIdx}
    (found : envid2env k c envid checkperm = some e) : ∃ root, (k.envs e).envPml4e = some root := by
  refine Option.ne_none_iff_exists'.mp fun rootless => ?_
  have status := sound.idle rootless
  unfold envid2env at found
  split at found
  · obtain rfl := Option.some.inj found
    exact live rootless
  · simp only at found
    split at found
    · cases found
    · rename_i known
      split at found
      · cases found
      · obtain rfl := Option.some.inj found
        exact known (.inl status)

theorem lookup_mapped (sound : Sound managed k g) {e : EnvIdx} {root : Fin npages}
    (rooted : (k.envs e).envPml4e = some root) (bound : va ≤ utop)
    {m' : Pmap npages} {found : Option (Fin npages × Slot npages)}
    (ran : pageLookup k.pmap (some root) va = some (found, m')) :
    (found = none ∧ (leafOf k g e va).present = false ∧
        ∃ g', Looked managed k.roots k.pmap g m' g' (.root (some e)) va) ∨
      ∃ page holder, found = some (page, (holder, ptx va)) ∧ m' = k.pmap ∧
        g.wanted (.root (some e)) va = 0 ∧
        g.table ((Place.root (some e)).table va) = some holder ∧
        leafOf k g e va = k.pmap.mem holder (ptx va) ∧
        Maps managed g.table (k.pmap.mem holder (ptx va)) page := by
  have valid := sound.valid
  have mappable := Place.mappable_of_le (e := e) bound
  have user := Place.mappable_user mappable
  rcases valid.leaf_cases mappable with empty | ⟨holder, page, here, leaf, maps⟩
  · have absent : (leafOf k g e va).present = false := by
      rw [leafOf, empty]
      rfl
    obtain ⟨m₁, g₁, ran₁, looked⟩ := valid.pageLookup_absent rooted user absent
    rw [ran] at ran₁
    injection ran₁ with same
    injection same with found memory
    subst found memory
    exact .inl ⟨rfl, absent, g₁, looked⟩
  · have present : (leafEntry k.pmap.mem g.table ((Place.root (some e)).table va)
        (ptx va)).present = true := by
      rw [leaf]
      exact maps.present
    obtain ⟨zero, holder', here', ran₁⟩ := valid.pageLookup_present rooted user present
    obtain rfl : holder = holder' := Option.some.inj (here.symm.trans here')
    rw [maps.ppn, pa2page_val, Option.map_some] at ran₁
    rw [ran] at ran₁
    injection ran₁ with same
    injection same with found memory
    subst found memory
    exact .inr ⟨page, holder, rfl, rfl, zero, here, leaf, maps⟩

theorem writable_setWidth {perm : BitVec 32} :
    (perm.setWidth 12).getLsbD 1 = false ↔ perm &&& pteW.setWidth 32 = 0 := by
  have bit : pteW.setWidth 32 = BitVec.twoPow 32 1 := by decide
  rw [bit, BitVec.and_twoPow]
  have nonzero : BitVec.twoPow 32 1 ≠ 0#32 := by decide
  cases set : perm[1] <;> simp [set, nonzero]

section

variable (sound : Sound managed k g)

include sound

theorem Sound.insertFresh {e : EnvIdx} {root page : Fin npages}
    {rest : List (Fin npages)} {zero : Bool} {perm : BitVec 12} {code : Int}
    {m' : Pmap npages} (rooted : (k.envs e).envPml4e = some root) (listed : g.free = page :: rest)
    (bound : va ≤ utop)
    (ran : pageInsert (k.pmap.take page zero) (some root) page va perm = some (code, m')) :
    (code = 0 ∧ g.wanted (.root (some e)) va ≤ rest.length ∧ ∃ g',
        MemoryCall managed k g (k.setPmap m') g' (.slot (.root (some e)) va) ∧
        leafOf (k.setPmap m') g' e va = ⟨page.val, perm ||| pteP⟩ ∧ g'.spare = g.spare ∧
        rest.length ≤ g'.free.length + g.wanted (.root (some e)) va) ∨
      (code = -eNoMem ∧ rest.length < g.wanted (.root (some e)) va ∧ ∃ g',
        MemoryCall managed k g (k.setPmap m') g' (.walk (.root (some e)) va) ∧
        (∀ other ∈ g'.free, other ∈ rest) ∧
        (¬ (g.wanted (.root (some e)) va = 3 ∧ rest.length = 2) → g'.spare = g.spare)) := by
  have member : page ∈ g.free := by simp [listed]
  have unused := sound.valid.free_unused member
  obtain ⟨inside, zeroRef⟩ := sound.valid.pool.member page member
  have distinct := sound.valid.pool.chain.nodup
  rw [listed] at distinct
  have after := (sound.take listed zero .nowhere).sound
  have mappable := Place.mappable_of_le (e := e) bound
  have room : ((k.pmap.take page zero).pages page).ppRef ≠ 65535#16 := by
    rw [Pmap.take_ref, zeroRef]
    decide
  rcases after.valid.pageInsert_spec (e := e) rooted mappable (List.nodup_cons.mp distinct).1
    unused.unplaced (.inl inside) (fun _ => .inl room) ran with
    ⟨rfl, enough, g', stored, left⟩ | ⟨rfl, lacking, g', looked⟩
  · exact .inl ⟨rfl, enough, g', (sound.take listed zero _).trans (stored.memoryCall after),
      (stored.leaves mappable.length _).trans (if_pos ⟨rfl, rfl⟩), stored.spare, left⟩
  · exact .inr ⟨rfl, lacking, g', (sound.take listed zero _).trans (looked.memoryCall after),
      looked.grows.free, looked.kept⟩

/-- The checks of `sys_page_alloc` that precede the allocation. -/
def pageAllocChecks (k : Kernel npages) (c : EnvIdx) (envid : EnvId) (va : Nat)
    (perm : BitVec 32) (e : EnvIdx) : Prop :=
  envid2env k c envid true = some e ∧ permValid perm = true ∧ va % pgSize = 0 ∧ va ≤ utop

/-- How `sys_page_alloc` ends after its checks. -/
inductive PageAllocEnd (managed : Set (Fin npages)) (k : Kernel npages) (g : Ledger npages)
    (k' : Kernel npages) (e : EnvIdx) (va : Nat) (perm : BitVec 32) : Int → Prop where
  | noPage : g.free = [] → k' = k → PageAllocEnd managed k g k' e va perm (-eNoMem)
  | noTable {page : Fin npages} {rest : List (Fin npages)} {g' : Ledger npages} :
      g.free = page :: rest → rest.length < g.wanted (.root (some e)) va →
      MemoryCall managed k g k' g' (.walk (.root (some e)) va) → (∀ other ∈ g'.free, other ∈ rest) →
      (¬ (g.wanted (.root (some e)) va = 3 ∧ rest.length = 2) → g'.spare = g.spare) →
      PageAllocEnd managed k g k' e va perm (-eNoMem)
  | done {page : Fin npages} {rest : List (Fin npages)} {g' : Ledger npages} :
      g.free = page :: rest → g.wanted (.root (some e)) va ≤ rest.length →
      MemoryCall managed k g k' g' (.slot (.root (some e)) va) →
      leafOf k' g' e va = ⟨page.val, perm.setWidth 12 ||| pteP⟩ → g'.spare = g.spare →
      PageAllocEnd managed k g k' e va perm 0

theorem Sound.sysPageAlloc (live : (k.envs c).envPml4e ≠ none)
    {envid : EnvId} {perm : BitVec 32} {result : Int}
    (ran : sysPageAlloc k c envid va perm = some (result, k')) :
    (result < 0 ∧ k' = k ∧ ¬ ∃ e, pageAllocChecks k c envid va perm e) ∨
      ∃ e, pageAllocChecks k c envid va perm e ∧ PageAllocEnd managed k g k' e va perm result := by
  unfold Jos.sysPageAlloc at ran
  cases found : envid2env k c envid true with
  | none =>
    simp only [found, Option.some.injEq, Prod.mk.injEq] at ran
    obtain ⟨rfl, rfl⟩ := ran
    refine .inl ⟨by decide, rfl, fun ⟨e, checks⟩ => ?_⟩
    rw [checks.1] at found
    cases found
  | some e =>
    simp only [found] at ran
    by_cases valid : permValid perm = true
    · by_cases range : va % pgSize ≠ 0 ∨ va > utop
      · rw [if_neg (by simpa using valid), if_pos range] at ran
        cases ran
        refine .inl ⟨by decide, rfl, fun ⟨e', checks⟩ => ?_⟩
        rcases range with align | high
        · exact align checks.2.2.1
        · exact absurd checks.2.2.2 (Nat.not_le_of_lt high)
      · rw [if_neg (by simpa using valid), if_neg range] at ran
        rw [not_or, not_not, Nat.not_lt] at range
        refine .inr ⟨e, ⟨found, valid, range⟩, ?_⟩
        obtain ⟨root, rooted⟩ := sound.envid2env_live live found
        cases listed : g.free with
        | nil =>
          rw [sound.valid.pageAlloc_empty listed] at ran
          cases ran
          exact .noPage listed rfl
        | cons page rest =>
          rw [sound.valid.pageAlloc_eq listed, rooted] at ran
          simp only at ran
          obtain ⟨⟨code, m₁⟩, inserted, ran⟩ := Option.bind_eq_some_iff.mp ran
          cases ran
          rcases sound.insertFresh rooted listed range.2 inserted with
            ⟨rfl, enough, g', call, leaf, spare, -⟩ | ⟨rfl, lacking, g', call, left, kept⟩
          · rw [BitVec.or_assoc, BitVec.or_self] at leaf
            exact .done listed enough call leaf spare
          · exact .noTable listed lacking call left kept
    · rw [if_pos (by simpa using valid)] at ran
      cases ran
      exact .inl ⟨by decide, rfl, fun ⟨e', checks⟩ => valid checks.2.1⟩

/-- The checks of `sys_page_map` that precede the lookup. -/
structure PageMapChecks (k : Kernel npages) (c : EnvIdx) (srcenvid : EnvId) (srcva : Nat)
    (dstenvid : EnvId) (dstva : Nat) (perm : BitVec 32) (src dst : EnvIdx) : Prop where
  src : envid2env k c srcenvid true = some src
  dst : envid2env k c dstenvid false = some dst
  perm : permValid perm = true
  dstRange : dstva % pgSize = 0 ∧ dstva ≤ utop
  srcRange : srcva % pgSize = 0 ∧ srcva ≤ utop

/-- How `sys_page_map` ends after its checks. -/
inductive PageMapEnd (managed : Set (Fin npages)) (k : Kernel npages) (g : Ledger npages)
    (k' : Kernel npages) (src : EnvIdx) (srcva : Nat) (dst : EnvIdx) (dstva : Nat)
    (perm : BitVec 32) : Int → Prop where
  | notMapped {m' : Pmap npages} {g' : Ledger npages} :
      (leafOf k g src srcva).present = false → k' = k.setPmap m' →
      Looked managed k.roots k.pmap g m' g' (.root (some src)) srcva →
      PageMapEnd managed k g k' src srcva dst dstva perm (-eInval)
  | readOnly : (leafOf k g src srcva).present = true → (leafOf k g src srcva).writable = false →
      perm &&& pteW.setWidth 32 ≠ 0 → k' = k →
      PageMapEnd managed k g k' src srcva dst dstva perm (-eInval)
  | noTable {m' : Pmap npages} {g' : Ledger npages} :
      (leafOf k g src srcva).present = true →
      ((leafOf k g src srcva).writable = true ∨ perm &&& pteW.setWidth 32 = 0) →
      k' = k.setPmap m' → g.free.length < g.wanted (.root (some dst)) dstva →
      Looked managed k.roots k.pmap g m' g' (.root (some dst)) dstva →
      PageMapEnd managed k g k' src srcva dst dstva perm (-eNoMem)
  | done {page : Fin npages} {g' : Ledger npages} :
      (leafOf k g src srcva).Refers page →
      g.wanted (.root (some dst)) dstva ≤ g.free.length →
      MemoryCall managed k g k' g' (.slot (.root (some dst)) dstva) →
      leafOf k' g' dst dstva = ⟨page.val, perm.setWidth 12 ||| pteP⟩ → g'.spare = g.spare →
      PageMapEnd managed k g k' src srcva dst dstva perm 0

/-- One more mapping of the page at `srcva` can be counted. -/
def RoomToMap (k : Kernel npages) (src : EnvIdx) (srcva : Nat) (dst : EnvIdx) (dstva : Nat) :
    Prop :=
  ∀ found (page : Fin npages), k.pmap.translateIn (k.envs src).envPml4e srcva = some found →
    found.ppn = page.val → (k.pmap.pages page).ppRef = 65535#16 →
    ∃ there, k.pmap.translateIn (k.envs dst).envPml4e dstva = some there ∧ there.ppn = page.val

theorem Sound.translateIn {e : EnvIdx}
    (live : (k.envs e).envPml4e ≠ none) (user : pml4 va ≠ pml4 uvpt) :
    k.pmap.translateIn (k.envs e).envPml4e va = leafTranslation (leafOf k g e va) := by
  obtain ⟨root, rooted⟩ := Option.ne_none_iff_exists'.mp live
  rw [rooted]
  exact sound.valid.translate_env rooted user

theorem RoomToMap.refers {src dst : EnvIdx} {srcva dstva : Nat}
    (room : RoomToMap k src srcva dst dstva) (srcLive : (k.envs src).envPml4e ≠ none)
    (dstLive : (k.envs dst).envPml4e ≠ none) (srcUser : pml4 srcva ≠ pml4 uvpt)
    (dstUser : pml4 dstva ≠ pml4 uvpt) {page : Fin npages}
    (refers : (leafOf k g src srcva).Refers page) :
    (k.pmap.pages page).ppRef ≠ 65535#16 ∨ (leafOf k g dst dstva).Refers page := by
  by_cases full : (k.pmap.pages page).ppRef = 65535#16
  · right
    obtain ⟨there, translated, same⟩ := room
      ⟨(leafOf k g src srcva).ppn, tablePerm, tablePerm, tablePerm, (leafOf k g src srcva).perm⟩
      page (by rw [sound.translateIn srcLive srcUser, leafTranslation, if_pos refers.1])
      refers.2 full
    rw [sound.translateIn dstLive dstUser, leafTranslation] at translated
    split at translated
    · rename_i present
      rw [← Option.some.inj translated] at same
      exact ⟨present, same⟩
    · cases translated
  · exact .inl full

theorem Sound.sysPageMap (live : (k.envs c).envPml4e ≠ none)
    {srcenvid dstenvid : EnvId} {srcva dstva : Nat} {perm : BitVec 32} {result : Int}
    (room : ∀ src dst, PageMapChecks k c srcenvid srcva dstenvid dstva perm src dst →
      RoomToMap k src srcva dst dstva)
    (ran : sysPageMap k c srcenvid srcva dstenvid dstva perm = some (result, k')) :
    (result < 0 ∧ k' = k ∧
        ¬ ∃ src dst, PageMapChecks k c srcenvid srcva dstenvid dstva perm src dst) ∨
      ∃ src dst, PageMapChecks k c srcenvid srcva dstenvid dstva perm src dst ∧
        PageMapEnd managed k g k' src srcva dst dstva perm result := by
  unfold Jos.sysPageMap at ran
  cases srcFound : envid2env k c srcenvid true with
  | none =>
    simp only [srcFound, Option.some.injEq, Prod.mk.injEq] at ran
    obtain ⟨rfl, rfl⟩ := ran
    refine .inl ⟨by decide, rfl, fun ⟨_, _, checks⟩ => ?_⟩
    rw [checks.src] at srcFound
    cases srcFound
  | some src =>
    cases dstFound : envid2env k c dstenvid false with
    | none =>
      simp only [srcFound, dstFound, Option.some.injEq, Prod.mk.injEq] at ran
      obtain ⟨rfl, rfl⟩ := ran
      refine .inl ⟨by decide, rfl, fun ⟨_, _, checks⟩ => ?_⟩
      rw [checks.dst] at dstFound
      cases dstFound
    | some dst =>
      simp only [srcFound, dstFound] at ran
      by_cases valid : permValid perm = true
      · by_cases range : (dstva % pgSize ≠ 0 ∨ dstva > utop) ∨ (srcva % pgSize ≠ 0 ∨ srcva > utop)
        · rw [if_neg (by simpa using valid), if_pos range] at ran
          cases ran
          refine .inl ⟨by decide, rfl, fun ⟨_, _, checks⟩ => ?_⟩
          have first := checks.dstRange
          have second := checks.srcRange
          omega
        · rw [if_neg (by simpa using valid), if_neg range] at ran
          have checks : PageMapChecks k c srcenvid srcva dstenvid dstva perm src dst :=
            ⟨srcFound, dstFound, valid, by omega, by omega⟩
          refine .inr ⟨src, dst, checks, ?_⟩
          obtain ⟨srcRoot, srcRooted⟩ := sound.envid2env_live live srcFound
          obtain ⟨dstRoot, dstRooted⟩ := sound.envid2env_live live dstFound
          rw [srcRooted, dstRooted] at ran
          obtain ⟨⟨found, m₁⟩, looked, ran⟩ := Option.bind_eq_some_iff.mp ran
          rcases lookup_mapped sound srcRooted checks.srcRange.2 looked with
            ⟨rfl, absent, g', spec⟩ | ⟨page, holder, rfl, rfl, zero, here, leaf, maps⟩
          · cases ran
            exact .notMapped absent rfl spec
          · have refers : (leafOf k g src srcva).Refers page := by
              rw [leaf]
              exact ⟨maps.present, maps.ppn⟩
            simp only at ran
            split at ran
            · rename_i denied
              cases ran
              refine .readOnly refers.1 ?_ denied.2 rfl
              rw [leaf]
              simpa [Pmap.entry] using denied.1
            · rename_i allowed
              obtain ⟨⟨code, m₂⟩, inserted, ran⟩ := Option.bind_eq_some_iff.mp ran
              cases ran
              have mappable := Place.mappable_of_le (e := dst) checks.dstRange.2
              have srcMappable := Place.mappable_of_le (e := src) checks.srcRange.2
              have kind : page ∈ managed ∨ (perm.setWidth 12).getLsbD 1 = false := by
                refine maps.kind.imp id fun clear => writable_setWidth.mpr ?_
                by_contra set
                exact allowed ⟨by simpa [Pmap.entry] using clear, set⟩
              have unlisted : page ∉ g.free := fun listed =>
                (sound.valid.free_unused listed).unmapped here srcMappable maps.present maps.ppn
              have space := (room src dst checks).refers sound (by simp [srcRooted])
                (by simp [dstRooted]) (Place.mappable_user srcMappable)
                (Place.mappable_user mappable) refers
              rcases sound.valid.pageInsert_spec (e := dst) dstRooted mappable unlisted
                maps.unplaced kind (fun _ => space) inserted with
                ⟨rfl, enough, g', stored, -⟩ | ⟨rfl, lacking, g', spec⟩
              · exact .done refers enough (stored.memoryCall sound)
                  ((stored.leaves mappable.length _).trans (if_pos ⟨rfl, rfl⟩)) stored.spare
              · refine .noTable refers.1 ?_ rfl lacking spec
                rw [leaf]
                by_cases clear : (k.pmap.mem holder (ptx srcva)).writable = true
                · exact .inl clear
                · refine .inr ?_
                  by_contra set
                  exact allowed ⟨by simpa [Pmap.entry] using clear, set⟩
      · rw [if_pos (by simpa using valid)] at ran
        cases ran
        exact .inl ⟨by decide, rfl, fun ⟨_, _, checks⟩ => valid checks.perm⟩

/-- How `sys_page_unmap` ends after its checks. -/
inductive PageUnmapEnd (managed : Set (Fin npages)) (k : Kernel npages) (g : Ledger npages)
    (k' : Kernel npages) (e : EnvIdx) (va : Nat) : Prop where
  | notMapped {m' : Pmap npages} {g' : Ledger npages} :
      (leafOf k g e va).present = false → k' = k.setPmap m' →
      Looked managed k.roots k.pmap g m' g' (.root (some e)) va →
      PageUnmapEnd managed k g k' e va
  | done {g' : Ledger npages} : MemoryCall managed k g k' g' (.slot (.root (some e)) va) →
      leafOf k' g' e va = 0 → g'.spare = g.spare → PageUnmapEnd managed k g k' e va

theorem Sound.sysPageUnmap (live : (k.envs c).envPml4e ≠ none) {envid : EnvId} {result : Int}
    (ran : sysPageUnmap k c envid va = some (result, k')) :
    (result < 0 ∧ k' = k) ∨
      result = 0 ∧ ∃ e, envid2env k c envid true = some e ∧ va < utop ∧
        PageUnmapEnd managed k g k' e va := by
  unfold Jos.sysPageUnmap at ran
  cases found : envid2env k c envid true with
  | none =>
    simp only [found, Option.some.injEq, Prod.mk.injEq] at ran
    exact .inl ⟨by rw [← ran.1]; decide, ran.2.symm⟩
  | some e =>
    simp only [found] at ran
    split at ran
    · simp only [Option.some.injEq, Prod.mk.injEq] at ran
      exact .inl ⟨by rw [← ran.1]; decide, ran.2.symm⟩
    · rename_i range
      have low : va < utop := by omega
      obtain ⟨root, rooted⟩ := sound.envid2env_live live found
      rw [rooted] at ran
      obtain ⟨m₁, removed, ran⟩ := Option.bind_eq_some_iff.mp ran
      cases ran
      refine .inr ⟨rfl, e, rfl, low, ?_⟩
      have mappable := Place.mappable_of_le (e := e) low.le
      have user := Place.mappable_user mappable
      rcases sound.valid.leaf_cases mappable with empty | ⟨holder, page, here, leaf, maps⟩
      · have absent : (leafOf k g e va).present = false := by
          rw [leafOf, empty]
          rfl
        obtain ⟨m₂, g₂, ran₂, looked⟩ := sound.valid.pageRemove_absent rooted user absent
        obtain rfl : m₁ = m₂ := Option.some.inj (removed.symm.trans ran₂)
        exact .notMapped absent rfl looked
      · rw [sound.valid.pageRemove_mapped rooted user here maps] at removed
        obtain ⟨m₂, dropped, rfl⟩ := Option.map_eq_some_iff.mp removed
        obtain ⟨g₂, stored, -⟩ := sound.valid.unmap here mappable maps dropped
        exact .done (stored.memoryCall sound)
          ((stored.leaves mappable.length _).trans (if_pos ⟨rfl, rfl⟩)) stored.spare

end

end Jos
