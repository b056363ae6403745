import Jos.Memory.Translation

/-! Two memories that differ in what lies in free pages: the functions of kern/pmap.c
do the same to both. -/

set_option autoImplicit false

namespace Jos

open Foundation Function

variable {npages : Nat} {managed : Set (Fin npages)} {roots : EnvIdx → Option (Fin npages)}
  {m m' m₁ : Pmap npages} {g g' : Ledger npages} {page holder root : Fin npages}
  {slot : Slot npages} {entry : Pte} {free : List (Fin npages)}

/-- The states differ at most in the contents of pages on the free list. -/
structure Pmap.Alike (m m' : Pmap npages) : Prop where
  same : m' = { m with mem := m'.mem }
  mem : ∀ page, (∀ free, m.FreeList free → page ∉ free) → m'.mem page = m.mem page

namespace Pmap

theorem freeList_setRef {ref : BitVec 16} : (m.setRef page ref).FreeList free ↔ m.FreeList free := by
  have links : (fun p => ((m.setRef page ref).pages p).ppLink) = fun p => (m.pages p).ppLink :=
    funext fun _ => setRef_link
  simp only [FreeList, links, setRef_list]

namespace Alike

theorem refl (m : Pmap npages) : m.Alike m := ⟨rfl, fun _ _ => rfl⟩

section

variable (alike : m.Alike m')

include alike

theorem pages : m'.pages = m.pages := by rw [alike.same]
theorem list : m'.pageFreeList = m.pageFreeList := by rw [alike.same]
theorem boot : m'.bootPml4e = m.bootPml4e := by rw [alike.same]

theorem freeList : m'.FreeList free ↔ m.FreeList free := by
  rw [FreeList, FreeList, alike.pages, alike.list]

theorem symm : m'.Alike m where
  same := by rw [alike.same]
  mem page hidden := (alike.mem page fun free listed => hidden free (alike.freeList.mpr listed)).symm

theorem setEntry (slot : Slot npages) (entry : Pte) :
    (m.setEntry slot entry).Alike (m'.setEntry slot entry) where
  same := by rw [alike.same]; rfl
  mem page hidden := by
    have before := alike.mem page hidden
    rw [setEntry_mem, setEntry_mem]
    unfold Memory.write
    by_cases here : page = slot.1
    · subst here
      rw [update_self, update_self, before]
    · rw [update_of_ne here, update_of_ne here, before]

theorem setRef (page : Fin npages) (ref : BitVec 16) :
    (m.setRef page ref).Alike (m'.setRef page ref) where
  same := by rw [alike.same]; rfl
  mem other hidden :=
    alike.mem other fun free listed => hidden free (freeList_setRef.mpr listed)

theorem incRef (page : Fin npages) : (m.incRef page).Alike (m'.incRef page) := by
  unfold Pmap.incRef
  rw [alike.pages]
  exact alike.setRef page _

theorem at_of (valid : Valid managed roots m g) (used : page ∉ g.free) : m'.mem page = m.mem page :=
  alike.mem page fun _ listed => valid.freeList_iff.mp listed ▸ used

theorem at_placed (valid : Valid managed roots m g)
    (placed : Placed g.table page) : m'.mem page = m.mem page :=
  alike.at_of valid (valid.not_free_of_placed placed)

theorem valid (valid : Valid managed roots m g) : Valid managed roots m' g :=
  valid.scratch alike.pages alike.list alike.boot fun _ placed => alike.at_placed valid placed

/-- The page at the head of the list is taken, and has been cleared or was the same. -/
theorem take (valid : Valid managed roots m g) {rest : List (Fin npages)}
    (listed : g.free = page :: rest) {zero : Bool} (same : zero = true ∨ m'.mem page = m.mem page) :
    (m.take page zero).Alike (m'.take page zero) where
  same := by
    rw [alike.same]
    cases zero <;> rfl
  mem other hidden := by
    by_cases here : other = page
    · subst here
      cases zero with
      | true => rw [take_mem_same, take_mem_same]
      | false => exact same.resolve_left nofun
    · rw [take_mem_ne here, take_mem_ne here]
      refine alike.at_of valid fun there => ?_
      rw [listed] at there
      exact hidden rest (valid.take listed zero).pool.chain
        ((List.mem_cons.mp there).resolve_left here)

theorem insertAtBegining (list : m.FreeList free)
    (absent : page ∉ free) (unlinked : (m.pages page).ppLink = none) :
    (Jos.insertAtBegining m page).Alike (Jos.insertAtBegining m' page) where
  same := by
    rw [alike.same]
    unfold Jos.insertAtBegining
    dsimp only
    split <;> rfl
  mem other hidden := by
    rw [insertAtBegining_mem, insertAtBegining_mem]
    refine alike.mem other fun free' listed there => ?_
    obtain rfl := listed.functional list
    refine hidden (page :: free') ?_ (List.mem_cons_of_mem _ there)
    rw [FreeList, insertAtBegining_list]
    refine list.push absent ?_ fun old differs => ?_
    · rw [insertAtBegining_link unlinked, if_pos rfl]
    · rw [insertAtBegining_link unlinked, if_neg differs]

theorem pageDecref (pool : Pool managed m free) (ran : Jos.pageDecref m page = some m₁) :
    ∃ m₁', Jos.pageDecref m' page = some m₁' ∧ m₁.Alike m₁' := by
  have before := alike.setRef page ((m.pages page).ppRef - 1)
  unfold Jos.pageDecref at ran ⊢
  rw [alike.pages]
  dsimp only at ran ⊢
  rw [before.pages]
  split at ran
  · rename_i last
    rw [setRef_ref, if_pos rfl] at last
    have used : page ∉ free := by
      intro there
      rw [(pool.member page there).2] at last
      exact absurd last (by decide)
    unfold pageFree at ran ⊢
    rw [before.pages]
    split at ran
    · cases ran
    · rename_i zero
      split at ran
      · cases ran
      · rename_i unlinked
        cases ran
        have zero' := not_not.mp zero
        refine ⟨Jos.insertAtBegining (m'.setRef page ((m.pages page).ppRef - 1)) page, ?_, ?_⟩
        · rw [if_pos zero', if_neg zero, if_neg unlinked]
        · exact before.insertAtBegining (freeList_setRef.mpr pool.chain) used
            (Option.not_isSome_iff_eq_none.mp unlinked)
  · rename_i more
    cases ran
    exact ⟨_, if_neg more, before⟩

end

end Alike

end Pmap

section Walk

variable {a : Place} {va : Nat} {e : EnvIdx}

section

variable (valid : Valid managed roots m g)

include valid

section

variable (alike : m.Alike m')

include alike

theorem Valid.demandTable_alike
    (here : g.table a = some holder) (short : a.path.length < 3) (i : Index) :
    demandTable m (holder, i) true = none ∧ demandTable m' (holder, i) true = none ∨
      ∃ new, ∃ page : Fin npages, ∃ m₁ m₁' g₁,
        demandTable m (holder, i) true = some (new, m₁) ∧
        demandTable m' (holder, i) true = some (new, m₁') ∧
        m₁.entry (holder, i) = ⟨page.val, tablePerm⟩ ∧
        m₁'.entry (holder, i) = ⟨page.val, tablePerm⟩ ∧ Valid managed roots m₁ g₁ ∧
        g₁.table (a.child i) = some page ∧ m₁.Alike m₁' := by
  have valid' := alike.valid valid
  cases there : g.table (a.child i) with
  | some page =>
    obtain ⟨ran, linked⟩ := valid.demandTable_found here short there true
    obtain ⟨ran', linked'⟩ := valid'.demandTable_found here short there true
    exact .inr ⟨none, page, m, m', g, ran, ran', linked, linked', valid, there, alike⟩
  | none =>
    cases listed : g.free with
    | nil =>
      exact .inl ⟨valid.demandTable_full here short there listed,
        valid'.demandTable_full here short there listed⟩
    | cons page rest =>
      obtain ⟨ran, linked⟩ := valid.demandTable_fresh here short there listed
      obtain ⟨ran', linked'⟩ := valid'.demandTable_fresh here short there listed
      exact .inr ⟨some page, page, _, _, _, ran, ran', linked, linked',
        (valid.create here short there listed).valid, update_self ..,
        ((alike.take valid listed (.inl rfl)).incRef page).setEntry _ _⟩

theorem Valid.pgdirWalk_alike
    (here : g.table a = some holder) (short : a.path.length < 3) (va : Nat) :
    ∃ found m₁ m₁' g₁, pgdirWalk m holder va true = some (found, m₁) ∧
      pgdirWalk m' holder va true = some (found, m₁') ∧ Valid managed roots m₁ g₁ ∧
      m₁.Alike m₁' := by
  rcases valid.demandTable_alike alike here short (pdx va) with ⟨full, full'⟩ |
    ⟨new, page, m₁, m₁', g₁, ran, ran', linked, linked', valid₁, -, alike₁⟩
  · exact ⟨none, m, m', g, by simp [pgdirWalk, full], by simp [pgdirWalk, full'], valid, alike⟩
  · exact ⟨some (page, ptx va), m₁, m₁', g₁, by simp [pgdirWalk, ran, linked, kaddr_val],
      by simp [pgdirWalk, ran', linked', kaddr_val], valid₁, alike₁⟩

theorem Valid.pdpeWalk_alike
    (here : g.table a = some holder) (short : a.path.length < 2) (va : Nat) :
    ∃ found m₁ m₁' g₁, pdpeWalk m holder va true = some (found, m₁) ∧
      pdpeWalk m' holder va true = some (found, m₁') ∧ Valid managed roots m₁ g₁ ∧
      m₁.Alike m₁' := by
  have deeper := Place.child_length a (pdpe va)
  rcases valid.demandTable_alike alike here (by omega) (pdpe va) with ⟨full, full'⟩ |
    ⟨new, page, m₁, m₁', g₁, ran, ran', linked, linked', valid₁, there, alike₁⟩
  · exact ⟨none, m, m', g, by simp [pdpeWalk, full], by simp [pdpeWalk, full'], valid, alike⟩
  · obtain ⟨found, m₂, m₂', g₂, walked, walked', valid₂, alike₂⟩ :=
      valid₁.pgdirWalk_alike alike₁ there (by omega) va
    exact ⟨found, m₂, m₂', g₂, by simp [pdpeWalk, ran, linked, kaddr_val, walked],
      by simp [pdpeWalk, ran', linked', kaddr_val, walked'], valid₂, alike₂⟩

theorem Valid.pml4eWalk_alike
    (here : g.table a = some root) (top : a.path = []) {found : Option (Slot npages)}
    (ran : pml4eWalk m (some root) va true = some (found, m₁)) :
    ∃ m₁', pml4eWalk m' (some root) va true = some (found, m₁') ∧ m₁.Alike m₁' := by
  have deeper := Place.child_length a (pml4 va)
  rcases valid.demandTable_alike alike here (by simp [top]) (pml4 va) with ⟨full, full'⟩ |
    ⟨new, page, m₂, m₂', g₂, made, made', linked, linked', valid₂, there, alike₂⟩
  · simp only [pml4eWalk, full, Option.some.injEq, Prod.mk.injEq] at ran
    obtain ⟨rfl, rfl⟩ := ran
    exact ⟨m', by simp [pml4eWalk, full'], alike⟩
  · obtain ⟨slot, m₃, m₃', g₃, walked, walked', valid₃, alike₃⟩ :=
      valid₂.pdpeWalk_alike alike₂ there (by simp only [top, List.length_nil] at deeper; omega) va
    simp only [pml4eWalk, made, linked, kaddr_val, walked, Option.bind_eq_bind,
      Option.bind_some] at ran
    simp only [pml4eWalk, made', linked', kaddr_val, walked', Option.bind_eq_bind,
      Option.bind_some]
    cases slot with
    | some slot =>
      cases ran
      exact ⟨m₃', rfl, alike₃⟩
    | none =>
      cases new with
      | none =>
        cases ran
        exact ⟨m₃', rfl, alike₃⟩
      | some table =>
        -- the table of the top level is given back
        obtain ⟨m₄, dropped, ended⟩ := Option.bind_eq_some_iff.mp ran
        obtain ⟨m₄', dropped', alike₄⟩ := alike₃.pageDecref valid₃.pool dropped
        cases ended
        exact ⟨_, by simp [dropped'], alike₄.setEntry _ _⟩

section

variable (here : g.table (.root (some e)) = some root)

include here

theorem Valid.pageLookup_alike {found : Option (Fin npages × Slot npages)}
    (ran : pageLookup m (some root) va = some (found, m₁)) :
    ∃ m₁', pageLookup m' (some root) va = some (found, m₁') ∧ m₁.Alike m₁' ∧
      ∀ page slot, found = some (page, slot) → m₁'.entry slot = m₁.entry slot := by
  obtain ⟨slot, m₂, g₂, walked, looked, outcome⟩ := valid.pml4eWalk_looked va here rfl
    (.inl (by simp))
  obtain ⟨m₂', walked', alike₂⟩ := valid.pml4eWalk_alike alike here rfl walked
  simp only [pageLookup, walked, Option.bind_eq_bind, Option.bind_some] at ran
  simp only [pageLookup, walked', Option.bind_eq_bind, Option.bind_some]
  rcases outcome with ⟨table, rfl, there, -⟩ | ⟨rfl, -⟩
  · have entries : m₂'.entry (table, ptx va) = m₂.entry (table, ptx va) :=
      congrFun (alike₂.at_placed looked.valid ⟨_, there⟩) _
    simp only [entries] at ran ⊢
    split at ran
    · rename_i present
      obtain ⟨page, target, ended⟩ := Option.bind_eq_some_iff.mp ran
      cases ended
      refine ⟨m₂', by simp [present, target], alike₂, ?_⟩
      rintro page slot same
      cases same
      exact entries
    · rename_i absent
      cases ran
      exact ⟨m₂', by simp [absent], alike₂, by simp⟩
  · obtain ⟨rfl, rfl⟩ := Prod.mk.inj (Option.some.inj ran)
    exact ⟨m₂', rfl, alike₂, by simp⟩

theorem Valid.pageRemove_alike (ran : pageRemove m (some root) va = some m₁) :
    ∃ m₁', pageRemove m' (some root) va = some m₁' ∧ m₁.Alike m₁' := by
  obtain ⟨⟨found, m₂⟩, looked, ran⟩ := Option.bind_eq_some_iff.mp ran
  obtain ⟨m₂', looked', alike₂, -⟩ := valid.pageLookup_alike alike here looked
  obtain ⟨g₂, valid₂⟩ := valid.pageLookup_looked here rfl (.inl (by simp)) looked
  simp only [pageRemove, looked', Option.bind_eq_bind, Option.bind_some]
  cases found with
  | none =>
    cases ran
    exact ⟨m₂', rfl, alike₂⟩
  | some pair =>
    obtain ⟨m₃, dropped, ended⟩ := Option.bind_eq_some_iff.mp ran
    obtain ⟨m₃', dropped', alike₃⟩ := alike₂.pageDecref valid₂.valid.pool dropped
    cases ended
    exact ⟨_, by simp [dropped'], alike₃.setEntry _ _⟩

theorem Valid.pageInsert_alike {perm : BitVec 12} {result : Int}
    (ran : pageInsert m (some root) page va perm = some (result, m₁)) :
    ∃ m₁', pageInsert m' (some root) page va perm = some (result, m₁') ∧ m₁.Alike m₁' := by
  obtain ⟨slot, m₂, g₂, walked, looked, outcome⟩ := valid.pml4eWalk_looked va here rfl
    (.inl (by simp))
  obtain ⟨m₂', walked', alike₂⟩ := valid.pml4eWalk_alike alike here rfl walked
  simp only [pageInsert, walked, Option.bind_eq_bind, Option.bind_some] at ran
  simp only [pageInsert, walked', Option.bind_eq_bind, Option.bind_some]
  rcases outcome with ⟨table, rfl, there, -⟩ | ⟨rfl, -⟩
  · have entries : m₂'.entry (table, ptx va) = m₂.entry (table, ptx va) :=
      congrFun (alike₂.at_placed looked.valid ⟨_, there⟩) _
    simp only [entries] at ran ⊢
    split at ran
    · rename_i present
      obtain ⟨old, target, ran⟩ := Option.bind_eq_some_iff.mp ran
      simp only [present, if_true, target, Option.bind_some]
      split at ran
      · rename_i again
        cases ran
        exact ⟨_, by simp [again], alike₂.setEntry _ _⟩
      · rename_i other
        obtain ⟨m₃, removed, ended⟩ := Option.bind_eq_some_iff.mp ran
        obtain ⟨m₃', removed', alike₃⟩ :=
          looked.valid.pageRemove_alike alike₂ (looked.grows.table here) removed
        cases ended
        exact ⟨_, by simp [other, removed'], (alike₃.setEntry _ _).incRef _⟩
    · rename_i absent
      cases ran
      exact ⟨_, by simp [absent], (alike₂.setEntry _ _).incRef _⟩
  · obtain ⟨rfl, rfl⟩ := Prod.mk.inj (Option.some.inj ran)
    exact ⟨m₂', rfl, alike₂⟩

end

end

theorem Valid.pageInsert_contents (rooted : roots e = some root)
    (mappable : ((Place.root (some e)).table va).Mappable (ptx va)) (unlisted : page ∉ g.free)
    (unplaced : ¬ Placed g.table page) {perm : BitVec 12} {result : Int}
    (ran : pageInsert m (some root) page va perm = some (result, m₁)) :
    m₁.mem page = m.mem page := by
  have user := Place.mappable_user mappable
  have here := valid.top rooted
  obtain ⟨slot, m₂, g₂, walked, looked, outcome⟩ := valid.pml4eWalk_looked va here rfl
    (.inl (by simp))
  have kept : m₂.mem page = m.mem page := looked.grows.idle page unlisted unplaced
  rcases outcome with ⟨holder, rfl, there, -⟩ | ⟨rfl, -⟩
  · simp only [pageInsert, walked, Option.bind_eq_bind, Option.bind_some] at ran
    have other : page ≠ holder := by
      rintro rfl
      exact (looked.grows.placed ⟨_, there⟩).elim unplaced unlisted
    have stored (m : Pmap npages) (entry : Pte) :
        (m.setEntry (holder, ptx va) entry).mem page = m.mem page := by
      rw [Pmap.setEntry_mem]
      exact Memory.write_page other
    rcases looked.valid.tree.leaf there mappable with empty | ⟨old, maps⟩
    · have absent : (m₂.entry (holder, ptx va)).present = false := by simp [Pmap.entry, empty]
      rw [absent, if_neg Bool.false_ne_true] at ran
      cases ran
      rw [Pmap.incRef_mem, stored, kept]
    · have present : (m₂.entry (holder, ptx va)).present = true := maps.present
      have target : pa2page npages (m₂.entry (holder, ptx va)).ppn = some old := by
        rw [Pmap.entry, maps.ppn, pa2page_val]
      rw [present, if_pos rfl, target, Option.bind_some] at ran
      split at ran
      · obtain ⟨rfl, rfl⟩ := Prod.mk.inj (Option.some.inj ran)
        rw [stored, kept]
      · rw [looked.valid.pageRemove_mapped rooted user there maps] at ran
        obtain ⟨m₃, removed, ended⟩ := Option.bind_eq_some_iff.mp ran
        obtain ⟨m₄, dropped, rfl⟩ := Option.map_eq_some_iff.mp removed
        cases ended
        have same : m₄.mem = m₂.mem := Pmap.pageDecref_mem dropped
        rw [Pmap.incRef_mem, stored, stored, same, kept]
  · simp only [pageInsert, walked, Option.bind_eq_bind, Option.bind_some] at ran
    cases ran
    exact kept

theorem Valid.userMemCheckLoop_alike (alike : m.Alike m')
    (here : g.table (.root (some e)) = some root) {perm : BitVec 12} {rounds : Nat} {passed : Bool}
    (ran : userMemCheckLoop m (some root) perm rounds va = some (passed, m₁)) :
    ∃ m₁', userMemCheckLoop m' (some root) perm rounds va = some (passed, m₁') ∧ m₁.Alike m₁' := by
  induction rounds generalizing m m' g va with
  | zero =>
    cases ran
    exact ⟨m', rfl, alike⟩
  | succ rounds ih =>
    unfold userMemCheckLoop at ran ⊢
    split at ran
    · rename_i high
      cases ran
      exact ⟨m', if_pos high, alike⟩
    · rename_i low
      rw [if_neg low]
      obtain ⟨⟨found, m₂⟩, looked, ran⟩ := Option.bind_eq_some_iff.mp ran
      obtain ⟨m₂', looked', alike₂, entries⟩ := valid.pageLookup_alike alike here looked
      obtain ⟨g₂, valid₂⟩ := valid.pageLookup_looked here rfl (.inl (by simp)) looked
      simp only [looked', Option.bind_eq_bind, Option.bind_some]
      cases found with
      | none =>
        cases ran
        exact ⟨m₂', rfl, alike₂⟩
      | some pair =>
        obtain ⟨page, slot⟩ := pair
        simp only [entries page slot rfl] at ran ⊢
        split at ran
        · rename_i denied
          cases ran
          exact ⟨m₂', if_pos denied, alike₂⟩
        · rename_i allowed
          rw [if_neg allowed]
          exact ih valid₂.valid alike₂ (valid₂.grows.table here) ran

end

end Walk

end Jos
