import Jos.Memory.Ledger

/-! The stores to tables, each as one step on a well-formed state. -/

set_option autoImplicit false

namespace Jos

open Function

variable {npages : Nat} {managed : Set (Fin npages)} {roots : EnvIdx → Option (Fin npages)}
  {m : Pmap npages} {g : Ledger npages} {a : Place} {holder page : Fin npages}

theorem Pmap.setEntry_setEntry {slot : Slot npages} {first second : Pte} :
    (m.setEntry slot first).setEntry slot second = m.setEntry slot second := by
  simp [Pmap.setEntry]

theorem Pmap.dropRef_setEntry {page : Fin npages} {slot : Slot npages} {entry : Pte} :
    (m.setEntry slot entry).dropRef page = (m.dropRef page).setEntry slot entry := by
  unfold dropRef
  split
  · rename_i last
    rw [if_pos (show (m.pages page).ppRef = 1 from last)]
    unfold insertAtBegining
    simp only [setRef_list, setEntry_list]
    cases m.pageFreeList <;> rfl
  · rename_i more
    rw [if_neg (show ¬ (m.pages page).ppRef = 1 from more)]
    rfl

theorem Pool.congr {m' : Pmap npages} {free : List (Fin npages)} (pool : Pool managed m free)
    (pages : m'.pages = m.pages) (list : m'.pageFreeList = m.pageFreeList) :
    Pool managed m' free := by
  obtain ⟨chain, member, unlinked, reserved⟩ := pool
  rw [← pages, ← list] at chain
  rw [← pages] at member unlinked reserved
  exact ⟨chain, member, unlinked, reserved⟩

namespace Valid

section

variable (valid : Valid managed roots m g)

include valid

theorem scratch {m' : Pmap npages}
    (pages : m'.pages = m.pages) (list : m'.pageFreeList = m.pageFreeList)
    (boot : m'.bootPml4e = m.bootPml4e)
    (same : ∀ page, Placed g.table page → m'.mem page = m.mem page) :
    Valid managed roots m' g := by
  refine ⟨?_, valid.pool.congr pages list, fun page inside => ?_⟩
  · rw [boot]
    exact valid.tree.scratch same
  · rw [pages, uses_scratch same]
    exact valid.counted page inside

theorem attach {i : Index} (here : g.table a = some holder) (short : a.path.length < 3)
    (absent : g.table (a.child i) = none) (allocated : page ∈ managed)
    (unused : Tree.Unused m.mem g.table page) (zero : ∀ j, m.mem page j = 0)
    (credit : 0 < g.spare page) :
    Valid managed roots (m.setEntry (holder, i) ⟨page.val, tablePerm⟩)
      ((g.spend page).setTable (update g.table (a.child i) (some page))) := by
  refine ⟨?_, valid.pool.congr rfl rfl, fun other inside => ?_⟩
  · exact valid.tree.attach here short absent allocated unused zero
  · have count := valid.counted other inside
    have used := Tree.uses_update (Memory.write m.mem (holder, i) ⟨page.val, tablePerm⟩)
      absent unused (fun {b p t} there mappable => by
        refine Memory.write_other fun same => ?_
        cases same
        have deep := mappable.length
        rw [valid.tree.injective there here] at deep
        omega)
      (fun t _ => by
        rw [Memory.write_page, zero]
        rintro rfl
        exact unused.unplaced ⟨a, here⟩) other
    simp only [Pmap.setEntry_pages, Pmap.setEntry_mem, Ledger.setTable_table,
      Ledger.setTable_spare]
    rw [used, Ledger.spend_spare, count]
    by_cases same : other = page
    · subst same
      simp only [if_true]
      omega
    · simp [same]

/-- A subtree is cut off. The reference to its top is held by no table then, and
so are the references from inside it. -/
theorem prune {top : Place} {page : Fin npages}
    (here : g.table top = some page) (owned : top.owner ≠ none) {m' : Pmap npages}
    {roots' : EnvIdx → Option (Fin npages)} (pages : m'.pages = m.pages)
    (list : m'.pageFreeList = m.pageFreeList) (boot : m'.bootPml4e = m.bootPml4e)
    (rootsLeft : ∀ e, roots' e = if top = .root (some e) then none else roots e)
    (rest : ∀ {a page}, g.table a = some page → ¬ top.Below a → ∀ i,
      m'.mem page i = if a.path.length < 3 ∧ a.child i = top then 0 else m.mem page i) :
    ∃ spare, Valid managed roots' m' ⟨Tree.without top g.table, spare, g.free⟩ ∧
      (∀ other, g.spare other ≤ spare other) ∧ g.spare page < spare page ∧
      ((∀ a, top.Below a → a ≠ top → g.table a = none) →
        (∀ t, top.Mappable t → m.mem page t = 0) → spare = (g.give page).spare) := by
  refine ⟨fun other => g.spare other +
      (uses m.mem g.table other - uses m'.mem (Tree.without top g.table) other),
    ⟨?_, valid.pool.congr pages list, fun other inside => ?_⟩, fun other => ?_, ?_, ?_⟩
  · rw [boot]
    exact valid.tree.prune owned rootsLeft rest
  · have count := valid.counted other inside
    have fewer : uses m'.mem (Tree.without top g.table) other ≤ uses m.mem g.table other :=
      Tree.uses_without_le rest other
    rw [pages]
    simp only
    omega
  · exact Nat.le_add_right _ _
  · simp only [valid.tree.uses_placed ⟨top, here⟩, valid.tree.uses_without_top here rest]
    omega
  · intro alone clear
    funext other
    rw [Ledger.give_spare]
    by_cases same : other = page
    · subst same
      rw [valid.tree.uses_placed ⟨top, here⟩, valid.tree.uses_without_top here rest, if_pos rfl]
    · rw [Tree.uses_without_bare here rest alone clear same, Nat.sub_self, if_neg same]

theorem plant {e : EnvIdx} {page : Fin npages}
    (rootless : roots e = none) (shared : ∃ p, g.table ⟨none, [1]⟩ = some p)
    (allocated : page ∈ managed) (unused : Tree.Unused m.mem g.table page)
    (contents : ∀ i, m.mem page i =
      if i = 1 then tableEntry (g.table ⟨none, [1]⟩)
      else if i = pml4 uvpt then ⟨page.val, tablePerm⟩ else 0)
    (credit : 0 < g.spare page) :
    Valid managed (update roots e (some page)) m
      ((g.spend page).setTable (update g.table (.root (some e)) (some page))) := by
  refine ⟨valid.tree.plant rootless shared allocated unused contents, valid.pool,
    fun other inside => ?_⟩
  have count := valid.counted other inside
  have absent := valid.tree.absent_of_root rootless []
  have used := Tree.uses_update m.mem (a := .root (some e)) absent unused
    (fun _ _ => rfl) (fun t mappable => by simpa using mappable.length) other
  simp only [Ledger.setTable_table, Ledger.setTable_spare]
  rw [used, Ledger.spend_spare, count]
  by_cases same : other = page
  · subst same
    simp only [if_true]
    omega
  · simp [same]

theorem clear {holder target : Fin npages}
    {t : Index} (here : g.table a = some holder) (mappable : a.Mappable t)
    (maps : Maps managed g.table (m.mem holder t) target) :
    Valid managed roots (m.setEntry (holder, t) 0) (g.give target) := by
  refine ⟨?_, valid.pool.congr rfl rfl, fun other inside => ?_⟩
  · exact valid.tree.store here mappable.length (fun _ => .inl rfl) fun unmappable =>
      absurd mappable unmappable
  · have count := valid.counted other inside
    have used := Tree.uses_store m.mem here mappable 0 other
    rw [if_neg not_refers_zero, if_congr maps.refers rfl rfl] at used
    simp only [Pmap.setEntry_pages, Pmap.setEntry_mem, Ledger.give_table]
    rw [Ledger.give_spare]
    omega

theorem map {holder target : Fin npages}
    {t : Index} {entry : Pte} (here : g.table a = some holder) (mappable : a.Mappable t)
    (empty : m.mem holder t = 0) (maps : Maps managed g.table entry target)
    (credit : target ∈ managed → 0 < g.spare target) :
    Valid managed roots (m.setEntry (holder, t) entry) (g.spend target) := by
  refine ⟨?_, valid.pool.congr rfl rfl, fun other inside => ?_⟩
  · exact valid.tree.store here mappable.length (fun _ => .inr ⟨target, maps⟩) fun unmappable =>
      absurd mappable unmappable
  · have count := valid.counted other inside
    have used := Tree.uses_store m.mem here mappable entry other
    rw [empty, if_neg not_refers_zero, if_congr maps.refers rfl rfl] at used
    simp only [Pmap.setEntry_pages, Pmap.setEntry_mem, Ledger.spend_table]
    rw [Ledger.spend_spare]
    by_cases same : other = target
    · subst same
      have := credit inside
      simp only [if_true] at used ⊢
      omega
    · simp only [if_neg same] at used ⊢
      omega

theorem storeKernel {holder : Fin npages}
    {t : Index} {entry : Pte} (here : g.table a = some holder) (deep : a.path.length = 3)
    (unmappable : ¬ a.Mappable t) (limited : ¬ (entry.writable = true ∧ entry.user = true)) :
    Valid managed roots (m.setEntry (holder, t) entry) g := by
  refine ⟨?_, valid.pool.congr rfl rfl, fun other inside => ?_⟩
  · exact valid.tree.store here deep (fun mappable => absurd mappable unmappable) fun _ => limited
  · have same : uses (Memory.write m.mem (holder, t) entry) g.table other = uses m.mem g.table other := by
      refine uses_congr (fun slot => ?_) Iff.rfl
      have kept {b : Place} (there : g.table b = some slot.1) (mappable : b.Mappable slot.2) :
          Memory.write m.mem (holder, t) entry slot.1 slot.2 = m.mem slot.1 slot.2 := by
        refine Memory.write_other fun equal => ?_
        obtain ⟨page, index⟩ := Prod.mk.inj equal
        rw [page] at there
        rw [valid.tree.injective there here, index] at mappable
        exact unmappable mappable
      constructor
      · rintro ⟨b, there, mappable, refers⟩
        exact ⟨b, there, mappable, kept there mappable ▸ refers⟩
      · rintro ⟨b, there, mappable, refers⟩
        exact ⟨b, there, mappable, (kept there mappable).symm ▸ refers⟩
    simp only [Pmap.setEntry_pages, Pmap.setEntry_mem]
    rw [same]
    exact valid.counted other inside

theorem absent_below {top b : Place} (below : top.Below b)
    (absent : g.table top = none) : g.table b = none := by
  obtain ⟨owner, path⟩ := b
  obtain ⟨same, front, whole⟩ := below
  simp only at same whole
  subst same whole
  induction front with
  | nil => exact absent
  | cons i front ih => exact valid.tree.absent_child ih i

/-- An entry of a table of an environment is cleared, and with it the subtree
behind the entry is cut off. -/
theorem cut {i : Index}
    (here : g.table a = some holder) (short : a.path.length < 3) (owned : a.owner ≠ none)
    (plain : ¬ a.Special i) (there : g.table (a.child i) = some page) :
    ∃ spare, Valid managed roots (m.setEntry (holder, i) 0)
        ⟨Tree.without (a.child i) g.table, spare, g.free⟩ ∧
      (∀ other, g.spare other ≤ spare other) ∧ g.spare page < spare page ∧
      ((∀ b, (a.child i).Below b → b ≠ a.child i → g.table b = none) →
        (∀ t, (a.child i).Mappable t → m.mem page t = 0) → spare = (g.give page).spare) := by
  have spot := Place.child_plain plain
  refine valid.prune there (by rw [spot]; exact owned) rfl rfl rfl (fun e => ?_) ?_
  · rw [if_neg (by rw [spot]; simp [Place.root])]
  · intro b p elsewhere outside j
    by_cases same : p = holder ∧ j = i
    · obtain ⟨rfl, rfl⟩ := same
      obtain rfl := valid.tree.injective elsewhere here
      rw [if_pos ⟨short, rfl⟩]
      exact Memory.write_same
    · rw [if_neg]
      · exact Memory.write_other fun slots => same (Prod.mk.inj slots)
      · rintro ⟨-, child⟩
        by_cases special : b.Special j
        · rw [spot] at child outside
          unfold Place.child at child
          rw [if_pos special] at child
          split at child
          · exact owned (congrArg Place.owner child).symm
          · exact outside (child ▸ Place.below_refl _)
        · rw [Place.child_plain special, spot] at child
          injection child with owners paths
          injection paths with index path
          have equal : b = a := by
            cases a
            cases b
            simp_all
          subst equal
          exact same ⟨Option.some.inj (elsewhere.symm.trans here), index⟩

/-- The subtree behind an entry is cut off and the reference to its top table is
given up. -/
theorem detach {i : Index} (here : g.table a = some holder) (short : a.path.length < 3)
    (owned : a.owner ≠ none) (plain : ¬ a.Special i) (there : g.table (a.child i) = some page) :
    ∃ g', pageDecref m page = some (m.dropRef page) ∧
      pageDecref (m.setEntry (holder, i) 0) page =
        some ((m.dropRef page).setEntry (holder, i) 0) ∧
      Valid managed roots ((m.dropRef page).setEntry (holder, i) 0) g' ∧
      g'.table = Tree.without (a.child i) g.table ∧
      g'.free = (if (m.pages page).ppRef = 1 then page :: g.free else g.free) ∧
      (∀ other, g.spare other ≤ g'.spare other) ∧
      ((∀ b, (a.child i).Below b → b ≠ a.child i → g.table b = none) →
        (∀ t, (a.child i).Mappable t → m.mem page t = 0) → g'.spare = g.spare) := by
  obtain ⟨spare, cut, more, credit, bare⟩ := valid.cut here short owned plain there
  have inside : page ∈ managed := valid.tree.tableManaged there (by
    rw [Place.child_plain plain]
    simp [Place.root])
  have unlinked := valid.pool.unlinked page inside (valid.not_free_of_placed ⟨_, there⟩)
  have dropped := cut.dropRef inside (by simp only; omega)
  rw [Pmap.dropRef_setEntry] at dropped
  refine ⟨_, Pmap.pageDecref_eq unlinked, ?_, dropped, rfl, rfl, fun other => ?_, fun alone clear => ?_⟩
  · rw [Pmap.pageDecref_eq (m := m.setEntry (holder, i) 0) unlinked, Pmap.dropRef_setEntry]
  · refine le_trans ?_ (Ledger.spend_spare (g := ⟨_, spare, g.free⟩)).symm.le
    by_cases same : other = page
    · subst same
      simp only [if_true]
      omega
    · simpa [same] using more other
  · have exact' := bare alone clear
    subst exact'
    funext other
    refine (Ledger.spend_spare (g := ⟨_, (g.give page).spare, g.free⟩)).trans ?_
    rw [Ledger.give_spare]
    omega

end

end Valid

end Jos
