import Jos.Memory.Pages

/-! Mapping and unmapping a page: `page_remove` and `page_insert` on a
well-formed state. -/

set_option autoImplicit false

namespace Jos

open Foundation

variable {npages : Nat} {managed : Set (Fin npages)} {roots : EnvIdx → Option (Fin npages)}
  {m m' m'' : Pmap npages} {g g' g'' : Ledger npages} {a : Place} {holder target : Fin npages}

theorem Tree.leafEntry_write {boot : Fin npages} {mem : Memory npages} {table : Layout npages}
    (tree : Tree managed roots boot mem table) {a b : Place} {page : Fin npages} {t j : Index}
    {entry : Pte} (here : table a = some page) :
    leafEntry (mem.write (page, t) entry) table b j =
      if b = a ∧ j = t then entry else leafEntry mem table b j := by
  by_cases same : b = a ∧ j = t
  · obtain ⟨rfl, rfl⟩ := same
    rw [if_pos ⟨rfl, rfl⟩, leafEntry_some here]
    exact Memory.write_same
  · rw [if_neg same]
    unfold leafEntry
    cases there : table b with
    | none => rfl
    | some holder =>
      refine Memory.write_other fun slots => same ?_
      cases slots
      exact ⟨tree.injective there here, rfl⟩

/-- A leaf entry has been stored, and the references have been settled. At most
one page has been freed. -/
structure Stored (managed : Set (Fin npages)) (roots : EnvIdx → Option (Fin npages))
    (m : Pmap npages) (g : Ledger npages) (m' : Pmap npages) (g' : Ledger npages) (a : Place)
    (t : Index) (entry : Pte) : Prop where
  valid : Valid managed roots m' g'
  table : ∀ {b page}, g.table b = some page → g'.table b = some page
  fresh : ∀ {b page}, g'.table b = some page → g.table b = some page ∨ b.owner = a.owner
  leaves : ∀ {b}, b.path.length = 3 → ∀ j, leafEntry m'.mem g'.table b j =
    if b = a ∧ j = t then entry else leafEntry m.mem g.table b j
  spare : g'.spare = g.spare
  boot : m'.bootPml4e = m.bootPml4e
  idle : ∀ page, page ∉ managed → page ≠ m.bootPml4e → m'.mem page = m.mem page

theorem Stored.keeps {va : Nat} {entry : Pte}
    (stored : Stored managed roots m g m' g' (a.table va) (ptx va) entry) :
    Keeps managed m g m' g' (.slot a va) where
  leaves deep j outside := (stored.leaves deep j).trans (if_neg outside)
  fresh := stored.fresh
  boot := stored.boot
  idle := stored.idle
  spare page _ := by rw [stored.spare]

namespace Valid

section

variable (valid : Valid managed roots m g)

include valid

theorem congr_spare (spare : Fin npages → Nat)
    (same : ∀ page ∈ managed, spare page = g.spare page) :
    Valid managed roots m ⟨g.table, spare, g.free⟩ := by
  refine ⟨valid.tree, valid.pool, fun page inside => ?_⟩
  simp only [valid.counted page inside, same page inside]

theorem write_idle {holder page : Fin npages}
    {t : Index} {entry : Pte} (here : g.table a = some holder) (deep : a.path.length = 3)
    (outside : page ∉ managed) : Memory.write m.mem (holder, t) entry page = m.mem page := by
  refine Memory.write_page ?_
  rintro rfl
  refine outside (valid.tree.tableManaged here ?_)
  rintro rfl
  simp at deep

theorem unmap {t : Index} (here : g.table a = some holder) (mappable : a.Mappable t)
    (maps : Maps managed g.table (m.mem holder t) target)
    (ran : pageDecref m target = some m') :
    ∃ g', Stored managed roots m g (m'.setEntry (holder, t) 0) g' a t 0 ∧
      g'.table = g.table ∧ (∀ page, page ≠ target → (m'.pages page).ppRef = (m.pages page).ppRef) ∧
      (∀ page ∈ g'.free, page ∈ g.free ∨ page = target) ∧ g.free.length ≤ g'.free.length := by
  by_cases inside : target ∈ managed
  · have cleared := valid.clear here mappable maps
    have credit : 0 < (g.give target).spare target := by simp [Ledger.give]
    have dropped := cleared.dropRef inside credit
    rw [Pmap.dropRef_setEntry] at dropped
    have same : m' = m.dropRef target := by
      rw [Pmap.pageDecref_eq (m := m)
        (cleared.pool.unlinked target inside (cleared.not_free_of_spare credit))] at ran
      exact (Option.some.inj ran).symm
    subst same
    refine ⟨_, ⟨dropped, id, .inl, fun _ j => ?_, ?_, Pmap.dropRef_boot, fun page outside _ => ?_⟩,
      rfl, fun page differs => ?_, fun page there => ?_, ?_⟩
    · rw [Pmap.setEntry_mem, Pmap.dropRef_mem]
      exact valid.tree.leafEntry_write here
    · rw [Ledger.release_spare, Ledger.spend_give]
    · rw [Pmap.setEntry_mem, Pmap.dropRef_mem]
      exact valid.write_idle here mappable.length outside
    · rw [Pmap.dropRef_ref, if_neg differs]
    · change page ∈ ite _ _ _ at there
      split at there
      · exact (List.mem_cons.mp there).symm
      · exact .inl there
    · change _ ≤ (ite _ _ _ : List (Fin npages)).length
      split
      · exact Nat.le_succ _
      · exact le_rfl
  · obtain ⟨valid', mem, boot, refs⟩ := valid.dropRef_unmanaged inside ran
    have cleared := valid'.clear here mappable (mem ▸ maps)
    have settled := cleared.congr_spare g.spare fun page within => by
      rw [Ledger.give_spare, if_neg (by rintro rfl; exact inside within), Nat.add_zero]
    refine ⟨_, ⟨settled, id, .inl, fun _ j => ?_, rfl, boot, fun page outside _ => ?_⟩, rfl, refs,
      fun page there => .inl there, le_rfl⟩
    · rw [Pmap.setEntry_mem, mem]
      exact valid.tree.leafEntry_write here
    · rw [Pmap.setEntry_mem, mem]
      exact valid.write_idle here mappable.length outside

/-- `page_decref` panics only on a page that the allocator does not manage. -/
theorem pageDecref_mapped {t : Index} (here : g.table a = some holder)
    (mappable : a.Mappable t) (maps : Maps managed g.table (m.mem holder t) target)
    (inside : target ∈ managed) : pageDecref m target = some (m.dropRef target) :=
  Pmap.pageDecref_eq (m := m) ((valid.clear here mappable maps).pool.unlinked target inside
    ((valid.clear here mappable maps).not_free_of_spare (by simp [Ledger.give])))

theorem mapFresh
    {t : Index} {entry : Pte} (here : g.table a = some holder) (mappable : a.Mappable t)
    (empty : m.mem holder t = 0) (maps : Maps managed g.table entry target)
    (unlisted : target ∉ g.free) (room : target ∈ managed → (m.pages target).ppRef ≠ 65535#16) :
    Stored managed roots m g ((m.setEntry (holder, t) entry).incRef target) g a t entry := by
  have stored := (valid.incRef unlisted room).map here mappable empty maps
    (fun _ => by simp [Ledger.give])
  rw [Ledger.spend_give] at stored
  exact ⟨stored, id, .inl, fun _ j => valid.tree.leafEntry_write here, rfl, rfl,
    fun page outside _ => valid.write_idle here mappable.length outside⟩

theorem remap
    {t : Index} {entry : Pte} (here : g.table a = some holder) (mappable : a.Mappable t)
    (old : Maps managed g.table (m.mem holder t) target)
    (new : Maps managed g.table entry target) :
    Stored managed roots m g (m.setEntry (holder, t) entry) g a t entry := by
  have stored := (valid.clear here mappable old).map here mappable Memory.write_same new
    (fun _ => by simp [Ledger.give])
  rw [Ledger.spend_give, Pmap.setEntry_setEntry] at stored
  exact ⟨stored, id, .inl, fun _ j => valid.tree.leafEntry_write here, rfl, rfl,
    fun page outside _ => valid.write_idle here mappable.length outside⟩

end

end Valid

theorem Looked.stored {va : Nat} {t : Index} {entry : Pte}
    (looked : Looked managed roots m g m' g' a va) (valid : Valid managed roots m g)
    (kept : g'.spare = g.spare)
    (stored : Stored managed roots m' g' m'' g'' (a.table va) t entry) :
    Stored managed roots m g m'' g'' (a.table va) t entry where
  valid := stored.valid
  table here := stored.table (looked.grows.table here)
  fresh there := (stored.fresh there).elim looked.grows.fresh .inr
  leaves deep j := by rw [stored.leaves deep, looked.grows.leaves deep]
  spare := stored.spare.trans kept
  boot := stored.boot.trans looked.grows.boot
  idle page outside other := by
    have before := looked.grows.keeps valid
    rw [stored.idle page outside (before.boot ▸ other), before.idle page outside other]

theorem Stored.trans {t : Index} {first second : Pte}
    (before : Stored managed roots m g m' g' a t first)
    (after : Stored managed roots m' g' m'' g'' a t second) :
    Stored managed roots m g m'' g'' a t second where
  valid := after.valid
  table here := after.table (before.table here)
  fresh there := (after.fresh there).elim before.fresh .inr
  leaves deep j := by
    rw [after.leaves deep, before.leaves deep]
    split <;> rfl
  spare := after.spare.trans before.spare
  boot := after.boot.trans before.boot
  idle page outside other := by
    rw [after.idle page outside (before.boot ▸ other), before.idle page outside other]

namespace Valid

variable {e : EnvIdx} {root : Fin npages} {va : Nat}

section

variable (valid : Valid managed roots m g)

include valid

section

variable (rooted : roots e = some root)

include rooted

theorem pageRemove_absent (user : pml4 va ≠ pml4 uvpt)
    (absent : (leafEntry m.mem g.table ((Place.root (some e)).table va) (ptx va)).present = false) :
    ∃ m' g', pageRemove m (some root) va = some m' ∧
      Looked managed roots m g m' g' (.root (some e)) va := by
  obtain ⟨m', g', ran, looked⟩ := valid.pageLookup_absent rooted user absent
  exact ⟨m', g', by simp [pageRemove, ran], looked⟩

theorem pageRemove_mapped (user : pml4 va ≠ pml4 uvpt)
    (here : g.table ((Place.root (some e)).table va) = some holder)
    (maps : Maps managed g.table (m.mem holder (ptx va)) target) :
    pageRemove m (some root) va =
      (pageDecref m target).map fun m => m.setEntry (holder, ptx va) 0 := by
  have present : (leafEntry m.mem g.table ((Place.root (some e)).table va)
      (ptx va)).present = true := by
    rw [leafEntry_some here]
    exact maps.present
  obtain ⟨-, page, there, ran⟩ := valid.pageLookup_present rooted user present
  obtain rfl : page = holder := Option.some.inj (there.symm.trans here)
  rw [maps.ppn, pa2page_val] at ran
  simp only [pageRemove, ran, Option.map_some, Option.bind_eq_bind, Option.bind_some]
  cases pageDecref m target <;> rfl

/-- What `page_insert` leaves alone for a page that is not free and no table. -/
theorem pageInsert_spec {pp : Fin npages} {perm : BitVec 12}
    (mappable : ((Place.root (some e)).table va).Mappable (ptx va)) (unlisted : pp ∉ g.free)
    (unplaced : ¬ Placed g.table pp) (kind : pp ∈ managed ∨ perm.getLsbD 1 = false)
    (room : pp ∈ managed → (m.pages pp).ppRef ≠ 65535#16 ∨
      (leafEntry m.mem g.table ((Place.root (some e)).table va) (ptx va)).Refers pp)
    {result : Int} (ran : pageInsert m (some root) pp va perm = some (result, m')) :
    (result = 0 ∧ g.wanted (.root (some e)) va ≤ g.free.length ∧ ∃ g',
        Stored managed roots m g m' g' ((Place.root (some e)).table va) (ptx va)
          ⟨pp.val, perm ||| pteP⟩ ∧
        g.free.length ≤ g'.free.length + g.wanted (.root (some e)) va) ∨
      (result = -eNoMem ∧ g.free.length < g.wanted (.root (some e)) va ∧ ∃ g',
        Looked managed roots m g m' g' (.root (some e)) va) := by
  have user := Place.mappable_user mappable
  have here := valid.top rooted
  obtain ⟨slot, m₁, g₁, walked, looked, outcome⟩ := valid.pml4eWalk_looked va here rfl
    (.inl (by simp))
  rcases outcome with ⟨holder, rfl, there, enough, kept, drained⟩ | ⟨rfl, lacking⟩
  · left
    have left : g.free.length ≤ g₁.free.length + g.wanted (.root (some e)) va := by
      rw [drained, List.length_drop]
      omega
    have deep := mappable.length
    have before := looked.grows.leaves deep (ptx va)
    rw [leafEntry_some there] at before
    have unlisted' : pp ∉ g₁.free := fun listed => unlisted (looked.grows.free pp listed)
    have unplaced' : ¬ Placed g₁.table pp := fun placed =>
      (looked.grows.placed placed).elim unplaced unlisted
    have maps : Maps managed g₁.table ⟨pp.val, perm ||| pteP⟩ pp :=
      ⟨rfl, present_or, kind.imp id fun clear => writable_or.trans clear, unplaced'⟩
    simp only [pageInsert, walked, Option.bind_eq_bind, Option.bind_some] at ran
    rcases looked.valid.tree.leaf there mappable with empty | ⟨old, oldMaps⟩
    · have absent : (m₁.entry (holder, ptx va)).present = false := by
        simp [Pmap.entry, empty]
      rw [absent] at ran
      simp only [Bool.false_eq_true, if_false, Option.pure_def, Option.some.injEq,
        Prod.mk.injEq] at ran
      obtain ⟨rfl, rfl⟩ := ran
      have space : pp ∈ managed → (m₁.pages pp).ppRef ≠ 65535#16 := fun inside => by
        rw [looked.grows.ref pp unlisted]
        refine (room inside).resolve_right ?_
        rw [← before, empty]
        exact not_refers_zero
      exact ⟨rfl, enough, g₁, looked.stored valid kept
        (looked.valid.mapFresh there mappable empty maps unlisted' space), left⟩
    · have present : (m₁.entry (holder, ptx va)).present = true := oldMaps.present
      rw [present, if_pos rfl] at ran
      have found : pa2page npages (m₁.entry (holder, ptx va)).ppn = some old := by
        rw [Pmap.entry, oldMaps.ppn, pa2page_val]
      rw [found, Option.bind_some] at ran
      by_cases same : old = pp
      · subst same
        rw [if_pos rfl] at ran
        cases ran
        exact ⟨rfl, enough, g₁, looked.stored valid kept
          (looked.valid.remap there mappable oldMaps maps), left⟩
      · rw [if_neg same, looked.valid.pageRemove_mapped rooted user there oldMaps] at ran
        cases dropped : pageDecref m₁ old with
        | none => simp [dropped] at ran
        | some m₂ =>
          simp only [dropped, Option.map_some, Option.bind_some, Option.pure_def,
            Option.some.injEq, Prod.mk.injEq] at ran
          obtain ⟨rfl, rfl⟩ := ran
          obtain ⟨g₂, stored, tables, refs, freed, more⟩ :=
            looked.valid.unmap there mappable oldMaps dropped
          have space : pp ∈ managed → ((m₂.setEntry (holder, ptx va) 0).pages pp).ppRef ≠
              65535#16 := fun inside => by
            rw [Pmap.setEntry_pages, refs pp (Ne.symm same), looked.grows.ref pp unlisted]
            refine (room inside).resolve_right ?_
            rw [← before]
            exact fun refers => same (oldMaps.refers.mp refers).symm
          have again := stored.valid.mapFresh (tables ▸ there) mappable Memory.write_same
            (tables ▸ maps) (fun listed => (freed pp listed).elim unlisted' (Ne.symm same))
            space
          rw [Pmap.setEntry_setEntry] at again
          refine ⟨rfl, enough, g₂, looked.stored valid kept (stored.trans ?_),
            left.trans (Nat.add_le_add_right more _)⟩
          simpa [Pmap.setEntry_setEntry] using again
  · right
    simp only [pageInsert, walked, Option.bind_eq_bind, Option.bind_some, Option.pure_def,
      Option.some.injEq, Prod.mk.injEq] at ran
    obtain ⟨rfl, rfl⟩ := ran
    exact ⟨rfl, lacking, g₁, looked⟩

theorem pageInsert_fresh {pp : Fin npages} (perm : BitVec 12)
    (mappable : ((Place.root (some e)).table va).Mappable (ptx va)) (unlisted : pp ∉ g.free)
    (unplaced : ¬ Placed g.table pp) (inside : pp ∈ managed)
    (room : (m.pages pp).ppRef ≠ 65535#16)
    (empty : leafEntry m.mem g.table ((Place.root (some e)).table va) (ptx va) = 0)
    (enough : g.wanted (.root (some e)) va ≤ g.free.length) :
    ∃ m' g', pageInsert m (some root) pp va perm = some (0, m') ∧
      Stored managed roots m g m' g' ((Place.root (some e)).table va) (ptx va)
        ⟨pp.val, perm ||| pteP⟩ ∧ g'.free = g.free.drop (g.wanted (.root (some e)) va) := by
  have here := valid.top rooted
  obtain ⟨slot, m₁, g₁, walked, looked, outcome⟩ := valid.pml4eWalk_looked va here rfl
    (.inl (by simp))
  rcases outcome with ⟨holder, rfl, there, -, kept, left⟩ | ⟨-, lacking⟩
  · have before := looked.grows.leaves mappable.length (ptx va)
    rw [leafEntry_some there, empty] at before
    have unplaced' : ¬ Placed g₁.table pp := fun placed =>
      (looked.grows.placed placed).elim unplaced unlisted
    have maps : Maps managed g₁.table ⟨pp.val, perm ||| pteP⟩ pp :=
      ⟨rfl, present_or, .inl inside, unplaced'⟩
    have stored := looked.valid.mapFresh there mappable before maps
      (fun listed => unlisted (looked.grows.free pp listed))
      (fun _ => by rwa [looked.grows.ref pp unlisted])
    refine ⟨_, g₁, ?_, looked.stored valid kept stored, left⟩
    simp [pageInsert, walked, Pmap.entry, before]
  · omega

/-- `page_insert` panics only if it gives up the last reference to a page that
the allocator does not manage. -/
theorem pageInsert_some (pp : Fin npages) (perm : BitVec 12)
    (mappable : ((Place.root (some e)).table va).Mappable (ptx va))
    (droppable : ∀ page : Fin npages,
      (leafEntry m.mem g.table ((Place.root (some e)).table va) (ptx va)).Refers page →
      page ∈ managed ∨ (m.pages page).ppRef ≠ 1) :
    ∃ result m', pageInsert m (some root) pp va perm = some (result, m') := by
  have user := Place.mappable_user mappable
  have here := valid.top rooted
  obtain ⟨slot, m₁, g₁, walked, looked, outcome⟩ := valid.pml4eWalk_looked va here rfl
    (.inl (by simp))
  simp only [pageInsert, walked, Option.bind_eq_bind, Option.bind_some]
  rcases outcome with ⟨holder, rfl, there, -⟩ | ⟨rfl, -⟩
  · have before := looked.grows.leaves mappable.length (ptx va)
    rw [leafEntry_some there] at before
    rcases valid.leaf_cases mappable with empty | ⟨holder', old, here', leaf, maps⟩
    · have absent : (m₁.entry (holder, ptx va)).present = false := by
        rw [Pmap.entry, before, empty]
        rfl
      simp only [absent]
      exact ⟨_, _, rfl⟩
    · -- what is mapped already needs no new tables
      obtain ⟨rfl, rfl⟩ := looked.same (valid.wanted_of_table user here')
      obtain rfl : holder' = holder := Option.some.inj (here'.symm.trans there)
      have present : (m₁.entry (holder', ptx va)).present = true := maps.present
      have found : pa2page npages (m₁.entry (holder', ptx va)).ppn = some old := by
        rw [Pmap.entry, maps.ppn, pa2page_val]
      simp only [present, if_true, found, Option.bind_some]
      by_cases same : old = pp
      · rw [if_pos same]
        exact ⟨_, _, rfl⟩
      · rw [if_neg same, valid.pageRemove_mapped rooted user there maps]
        obtain ⟨m₂, dropped⟩ : ∃ m₂, pageDecref m₁ old = some m₂ := by
          by_cases inside : old ∈ managed
          · exact ⟨_, valid.pageDecref_mapped there mappable maps inside⟩
          · have more : (m₁.pages old).ppRef ≠ 1 :=
              (droppable old (leaf ▸ maps.refers.mpr rfl)).resolve_left inside
            have nonzero : (m₁.pages old).ppRef - 1 ≠ 0 := fun zero => more (by bv_omega)
            exact ⟨_, by simp only [pageDecref, Pmap.setRef_ref, if_true, if_neg nonzero]; rfl⟩
        rw [dropped]
        exact ⟨_, _, rfl⟩
  · exact ⟨_, _, rfl⟩

end

end

end Valid

end Jos
