import Jos.Foundation.Loop
import Jos.Kern.Env
import Jos.Memory.Mapping

/-! The loops of `env_free` on a well-formed state: which tables and mappings of
the environment they remove, and which they leave behind. -/

set_option autoImplicit false

namespace Jos

open Foundation

variable {npages : Nat} {managed : Set (Fin npages)} {roots : EnvIdx → Option (Fin npages)}
  {m m' m'' : Pmap npages} {g g' g'' : Ledger npages} {e : EnvIdx} {a : Place}

theorem leafEntry_congr {mem : Memory npages} {table table' : Layout npages}
    (same : table' a = table a) (t : Index) :
    leafEntry mem table' a t = leafEntry mem table a t := by
  unfold leafEntry
  rw [same]

theorem table_low {i k t : Index} :
    (Place.root (some e)).table (pgAddr 0 i k t 0) = ⟨some e, [k, i, 0]⟩ ∧
      ptx (pgAddr 0 i k t 0) = t ∧ pml4 (pgAddr 0 i k t 0) ≠ pml4 uvpt := by
  obtain ⟨top, second, third, last⟩ := indices_pgAddr (m := 0) (p := i) (d := k) (t := t) (o := 0)
    (by decide)
  have user : pml4 (pgAddr 0 i k t 0) ≠ pml4 uvpt := by
    rw [top]
    decide
  refine ⟨?_, last, user⟩
  rw [Place.table_own (by rw [top]; decide) user, top, second, third]

theorem mappable_low {owner : Option EnvIdx} {i k t : Index} :
    Place.Mappable ⟨owner, [k, i, 0]⟩ t := ⟨k, i, 0, rfl, .inl rfl⟩

structure Emptied (managed : Set (Fin npages)) (roots : EnvIdx → Option (Fin npages))
    (m : Pmap npages) (g : Ledger npages) (m' : Pmap npages) (g' : Ledger npages) (a : Place)
    (done : List Nat) : Prop where
  valid : Valid managed roots m' g'
  table : g'.table = g.table
  spare : g'.spare = g.spare
  leaves : ∀ {b}, b.path.length = 3 → ∀ j : Index, leafEntry m'.mem g'.table b j =
    if b = a ∧ j.val ∈ done then 0 else leafEntry m.mem g.table b j
  boot : m'.bootPml4e = m.bootPml4e
  idle : ∀ page, page ∉ managed → page ≠ m.bootPml4e → m'.mem page = m.mem page

theorem Emptied.step {done : List Nat} {pteno : Nat} (small : pteno < 512)
    (emptied : Emptied managed roots m g m' g' a done)
    (stored : Stored managed roots m' g' m'' g'' a (Fin.ofNat 512 pteno) 0)
    (tables : g''.table = g'.table) :
    Emptied managed roots m g m'' g'' a (done ++ [pteno]) where
  valid := stored.valid
  table := tables.trans emptied.table
  spare := stored.spare.trans emptied.spare
  leaves {b} deep j := by
    have index : j = Fin.ofNat 512 pteno ↔ j.val = pteno := by
      rw [Fin.ext_iff, Fin.val_ofNat, Nat.mod_eq_of_lt small]
    rw [stored.leaves deep, emptied.leaves deep]
    simp only [index, List.mem_append, List.mem_singleton]
    by_cases inside : b = a <;> by_cases here : j.val = pteno <;> simp [inside, here]
  boot := stored.boot.trans emptied.boot
  idle page outside other := by
    rw [stored.idle page outside (emptied.boot ▸ other), emptied.idle page outside other]

theorem freePtes_spec (valid : Valid managed roots m g) {root pt : Fin npages}
    {i k : Index} (rooted : roots e = some root) (here : g.table ⟨some e, [k, i, 0]⟩ = some pt)
    (ran : freePtes (some root) pt i k m = some m') :
    ∃ g', Emptied managed roots m g m' g' ⟨some e, [k, i, 0]⟩ (List.range 511) := by
  refine foldlM_invariant ran
    (fun done m₁ => ∃ g₁, Emptied managed roots m g m₁ g₁ ⟨some e, [k, i, 0]⟩ done)
    ⟨g, valid, rfl, rfl, fun _ j => by simp, rfl, fun _ _ _ => rfl⟩ ?_
  rintro done pteno m₁ m₂ ⟨rest, split⟩ ⟨g₁, emptied⟩ stepped
  have member : pteno ∈ List.range 511 := by simp [split]
  have small : pteno < 512 := by
    have := List.mem_range.mp member
    omega
  obtain ⟨place, index, user⟩ := table_low (e := e) (i := i) (k := k) (t := Fin.ofNat 512 pteno)
  have there : g₁.table ⟨some e, [k, i, 0]⟩ = some pt := by rw [emptied.table, here]
  rcases emptied.valid.tree.leaf there mappable_low (t := Fin.ofNat 512 pteno) with empty |
    ⟨target, maps⟩
  · -- nothing is mapped here, and the entry is clear already
    rw [empty] at stepped
    simp only [Pte.present_zero, Bool.false_eq_true, if_false, Option.some.injEq] at stepped
    subst stepped
    refine ⟨g₁, emptied.step small ⟨emptied.valid, id, .inl, fun {b} deep j => ?_, rfl, rfl,
      fun _ _ _ => rfl⟩ rfl⟩
    by_cases spot : b = ⟨some e, [k, i, 0]⟩ ∧ j = Fin.ofNat 512 pteno
    · obtain ⟨rfl, rfl⟩ := spot
      rw [if_pos ⟨rfl, rfl⟩, leafEntry_some there, empty]
    · rw [if_neg spot]
  · rw [maps.present, if_pos rfl] at stepped
    have removed := emptied.valid.pageRemove_mapped rooted user (place.symm ▸ there)
      (index.symm ▸ maps)
    rw [index] at removed
    rw [removed] at stepped
    obtain ⟨m₃, dropped, rfl⟩ := Option.map_eq_some_iff.mp stepped
    obtain ⟨g₂, stored, tables, -⟩ := emptied.valid.unmap there mappable_low maps dropped
    exact ⟨g₂, emptied.step small stored tables⟩

/-- Some tables of an environment, with everything mapped in them, are gone. -/
structure Freed (managed : Set (Fin npages)) (roots : EnvIdx → Option (Fin npages))
    (m : Pmap npages) (g : Ledger npages) (m' : Pmap npages) (g' : Ledger npages)
    (gone : Place → Prop) : Prop where
  valid : Valid managed roots m' g'
  table : ∀ {a page}, g'.table a = some page ↔ g.table a = some page ∧ ¬ gone a
  leaves : ∀ {a}, a.path.length = 3 → ¬ gone a → ∀ t,
    leafEntry m'.mem g'.table a t = leafEntry m.mem g.table a t
  spare : ∀ page, g.spare page ≤ g'.spare page
  boot : m'.bootPml4e = m.bootPml4e
  idle : ∀ page, page ∉ managed → page ≠ m.bootPml4e → m'.mem page = m.mem page

namespace Freed

variable {gone gone' : Place → Prop}

theorem refl (valid : Valid managed roots m g) (absent : ∀ a, gone a → g.table a = none) :
    Freed managed roots m g m g gone where
  valid := valid
  table {a page} := by
    constructor
    · intro there
      exact ⟨there, fun out => by rw [absent a out] at there; cases there⟩
    · exact And.left
  leaves _ _ _ := rfl
  spare _ := le_rfl
  boot := rfl
  idle _ _ _ := rfl

theorem trans (first : Freed managed roots m g m' g' gone)
    (second : Freed managed roots m' g' m'' g'' gone') :
    Freed managed roots m g m'' g'' fun a => gone a ∨ gone' a where
  valid := second.valid
  table {a page} := by
    rw [second.table, first.table]
    tauto
  leaves deep left t := by
    rw [second.leaves deep (fun out => left (.inr out)), first.leaves deep fun out =>
      left (.inl out)]
  spare page := (first.spare page).trans (second.spare page)
  boot := second.boot.trans first.boot
  idle page outside other := by
    rw [second.idle page outside (first.boot ▸ other), first.idle page outside other]

section

variable (freed : Freed managed roots m g m' g' gone)

include freed

theorem congr (same : ∀ a page, g.table a = some page → (gone' a ↔ gone a)) :
    Freed managed roots m g m' g' gone' where
  valid := freed.valid
  table {a page} := by
    rw [freed.table]
    constructor <;> rintro ⟨there, left⟩
    · exact ⟨there, fun out => left ((same a page there).mp out)⟩
    · exact ⟨there, fun out => left ((same a page there).mpr out)⟩
  leaves {a} deep left t := by
    cases there : g.table a with
    | some page => exact freed.leaves deep (fun out => left ((same a page there).mpr out)) t
    | none =>
      have none : g'.table a = none := by
        cases there' : g'.table a with
        | none => rfl
        | some page =>
          rw [(freed.table.mp there').1] at there
          cases there
      rw [leafEntry_none there, leafEntry_none none]
  spare := freed.spare
  boot := freed.boot
  idle := freed.idle

theorem absent (out : gone a ∨ g.table a = none) : g'.table a = none := by
  cases there : g'.table a with
  | none => rfl
  | some page =>
    obtain ⟨before, left⟩ := freed.table.mp there
    rcases out with out | out
    · exact absurd out left
    · rw [out] at before
      cases before

theorem present {page : Fin npages}
    (there : g.table a = some page) (left : ¬ gone a) : g'.table a = some page :=
  freed.table.mpr ⟨there, left⟩

end

end Freed

theorem Valid.detachFreed (valid : Valid managed roots m g)
    {holder page : Fin npages} {i : Index} (here : g.table a = some holder)
    (short : a.path.length < 3) (owned : a.owner ≠ none) (plain : ¬ a.Special i)
    (there : g.table (a.child i) = some page) :
    ∃ g', pageDecref m page = some (m.dropRef page) ∧
      pageDecref (m.setEntry (holder, i) 0) page =
        some ((m.dropRef page).setEntry (holder, i) 0) ∧
      Freed managed roots m g ((m.dropRef page).setEntry (holder, i) 0) g' (a.child i).Below ∧
      ((∀ b, (a.child i).Below b → b ≠ a.child i → g.table b = none) →
        (∀ t, (a.child i).Mappable t → m.mem page t = 0) → g'.spare = g.spare) := by
  obtain ⟨g', ran, ran', detached, tables, -, spares, bare⟩ :=
    valid.detach here short owned plain there
  refine ⟨g', ran, ran', ⟨detached, ?_, ?_, spares, ?_, ?_⟩, bare⟩
  · intro b p
    rw [tables]
    constructor
    · exact Tree.without_some
    · rintro ⟨found, outside⟩
      rw [Tree.without_of_not outside, found]
  · intro b deep outside t
    rw [Pmap.setEntry_mem, Pmap.dropRef_mem]
    unfold leafEntry
    rw [tables, Tree.without_of_not outside]
    cases found : g.table b with
    | none => rfl
    | some p =>
      refine Memory.write_other fun slots => ?_
      cases slots
      rw [valid.tree.injective found here] at deep
      omega
  · rw [Pmap.setEntry_boot, Pmap.dropRef_boot]
  · intro p outside other
    rw [Pmap.setEntry_mem, Memory.write_page, Pmap.dropRef_mem]
    rintro rfl
    refine outside (valid.tree.tableManaged here ?_)
    rintro rfl
    exact owned rfl

theorem Valid.below_deep (valid : Valid managed roots m g) {a b : Place} {page : Fin npages}
    (deep : a.path.length = 3) (there : g.table b = some page) : a.Below b ↔ b = a := by
  constructor
  · intro inside
    have bound := valid.tree.depth there
    exact Place.below_eq inside (by omega)
  · rintro rfl
    exact Place.below_refl _

theorem Emptied.freed {done : List Nat}
    (emptied : Emptied managed roots m g m' g' a done) {holder page : Fin npages} {b : Place}
    {i : Index} (child : b.child i = a) (deep : a.path.length = 3) (short : b.path.length < 3)
    (here : g.table b = some holder) (owned : b.owner ≠ none) (plain : ¬ b.Special i)
    (there : g.table a = some page) :
    ∃ g'', pageDecref (m'.setEntry (holder, i) 0) page =
        some ((m'.dropRef page).setEntry (holder, i) 0) ∧
      Freed managed roots m g ((m'.dropRef page).setEntry (holder, i) 0) g'' (· = a) ∧
      ((∀ t : Index, t.val ∉ done → leafEntry m.mem g.table a t = 0) → g''.spare = g.spare) := by
  subst child
  obtain ⟨g'', -, ran, freed, bare⟩ := emptied.valid.detachFreed (emptied.table ▸ here) short
    owned plain (emptied.table ▸ there)
  have freed : Freed managed roots m' g' _ g'' (· = b.child i) :=
    freed.congr fun c p found => (emptied.valid.below_deep deep found).symm
  refine ⟨g'', ran, ⟨freed.valid, ?_, ?_, ?_, ?_, ?_⟩, fun clear => ?_⟩
  · intro c p
    rw [freed.table, emptied.table]
  · intro c deeper differs t
    rw [freed.leaves deeper differs, emptied.leaves deeper, if_neg fun both => differs both.1]
  · exact fun p => (congrFun emptied.spare p).symm.le.trans (freed.spare p)
  · exact freed.boot.trans emptied.boot
  · intro p outside other
    rw [freed.idle p outside (emptied.boot ▸ other), emptied.idle p outside other]
  · rw [← emptied.spare]
    refine bare (fun c inside differs => ?_) fun t _ => ?_
    · cases found : g'.table c with
      | none => rfl
      | some p => exact absurd ((emptied.valid.below_deep deep found).mp inside) differs
    · have now := emptied.leaves deep t
      rw [leafEntry_some (emptied.table ▸ there)] at now
      rw [now]
      by_cases within : t.val ∈ done
      · rw [if_pos ⟨rfl, within⟩]
      · rw [if_neg fun both => within both.2, clear t within]

theorem freePde_spec (valid : Valid managed roots m g) {root pgdir : Fin npages}
    {i k : Index} (rooted : roots e = some root) (here : g.table ⟨some e, [i, 0]⟩ = some pgdir)
    (ran : freePde (some root) pgdir i k m = some m') :
    ∃ g', Freed managed roots m g m' g' (· = ⟨some e, [k, i, 0]⟩) ∧
      (leafEntry m.mem g.table ⟨some e, [k, i, 0]⟩ 511 = 0 → g'.spare = g.spare) := by
  have linked := valid.tree.link here (by simp) k
  rw [Place.child_cons] at linked
  cases there : g.table ⟨some e, [k, i, 0]⟩ with
  | none =>
    have empty : m.mem pgdir k = 0 := by rw [linked, there]; rfl
    simp only [freePde, empty, Pte.present_zero, Bool.false_eq_true, if_false,
      Option.some.injEq] at ran
    subst ran
    exact ⟨g, .refl valid fun a same => same ▸ there, fun _ => rfl⟩
  | some pt =>
    have full : m.mem pgdir k = ⟨pt.val, tablePerm⟩ := by rw [linked, there]; rfl
    simp only [freePde, full, present_table, if_true, kaddr_val, Option.bind_eq_bind,
      Option.bind_some, pa2page_val] at ran
    obtain ⟨m₁, emptied, ran⟩ := Option.bind_eq_some_iff.mp ran
    obtain ⟨g₁, emptied⟩ := freePtes_spec valid rooted there emptied
    obtain ⟨g₂, dropped, freed, exact'⟩ := emptied.freed (b := ⟨some e, [i, 0]⟩)
      Place.child_cons rfl (by simp) here (by simp)
      (fun special => by simpa using special.2.1) there
    rw [dropped] at ran
    cases ran
    refine ⟨g₂, freed, fun last => exact' fun t outside => ?_⟩
    have value : t = 511 := by
      refine Fin.ext ?_
      have := t.isLt
      simp only [List.mem_range] at outside
      change t.val = 511
      omega
    rw [value, last]

/-- What the loops of `env_free` do not reach is not there: PML4 entries other
than the first, PDPT entries from 4 on, page tables from the limit on, and the
last mapping of every page table. -/
structure Covered (mem : Memory npages) (table : Layout npages) (e : EnvIdx) : Prop where
  pml4 : ∀ i, i ≠ 0 → table ⟨some e, [i]⟩ = none
  pdpe : ∀ i : Index, 3 < i.val → table ⟨some e, [i, 0]⟩ = none
  pde : ∀ i k : Index, i.val ≤ 3 → pdenoLimit i ≤ k.val → table ⟨some e, [k, i, 0]⟩ = none
  pte : ∀ i k : Index, leafEntry mem table ⟨some e, [k, i, 0]⟩ 511 = 0

theorem pdenoLimit_le {i : Index} : pdenoLimit i ≤ 511 := by
  unfold pdenoLimit
  split <;> decide

theorem freePdes_spec (valid : Valid managed roots m g) {root pgdir : Fin npages}
    {i : Index} (rooted : roots e = some root) (here : g.table ⟨some e, [i, 0]⟩ = some pgdir)
    {limit : Nat} (small : limit ≤ 512)
    (ran : (List.range limit).foldlM
      (fun m pdeno => freePde (some root) pgdir i (Fin.ofNat 512 pdeno) m) m = some m') :
    ∃ g', Freed managed roots m g m' g' (fun a => ∃ k : Index, k.val < limit ∧
        a = ⟨some e, [k, i, 0]⟩) ∧
      ((∀ k, leafEntry m.mem g.table ⟨some e, [k, i, 0]⟩ 511 = 0) → g'.spare = g.spare) := by
  have loop := foldlM_invariant ran
    (fun done m₁ => ∃ g₁, Freed managed roots m g m₁ g₁ (fun a => ∃ k : Index, k.val ∈ done ∧
        a = ⟨some e, [k, i, 0]⟩) ∧
      ((∀ k, leafEntry m.mem g.table ⟨some e, [k, i, 0]⟩ 511 = 0) → g₁.spare = g.spare))
    ⟨g, .refl valid (by simp), fun _ => rfl⟩ ?_
  · simpa only [List.mem_range] using loop
  · rintro done pdeno m₁ m₂ ⟨rest, split⟩ ⟨g₁, freed, exact₁⟩ stepped
    have member : pdeno ∈ List.range limit := by simp [split]
    have value : (Fin.ofNat 512 pdeno).val = pdeno :=
      Nat.mod_eq_of_lt ((List.mem_range.mp member).trans_le small)
    have there := freed.present here fun ⟨k, _, same⟩ => by simp at same
    obtain ⟨g₂, freed₂, exact₂⟩ := freePde_spec freed.valid rooted there stepped
    refine ⟨g₂, (freed.trans freed₂).congr fun a page found => ?_, fun last => ?_⟩
    · constructor
      · rintro ⟨k, within, rfl⟩
        rcases List.mem_append.mp within with within | within
        · exact .inl ⟨k, within, rfl⟩
        · refine .inr ?_
          rw [Fin.ext (value.trans (List.mem_singleton.mp within).symm)]
      · rintro (⟨k, within, rfl⟩ | rfl)
        · exact ⟨k, List.mem_append_left _ within, rfl⟩
        · exact ⟨_, List.mem_append_right _ (by rw [value]; exact List.mem_singleton_self _), rfl⟩
    · refine (exact₂ ?_).trans (exact₁ last)
      by_cases again : ∃ k : Index, k.val ∈ done ∧
          (⟨some e, [Fin.ofNat 512 pdeno, i, 0]⟩ : Place) = ⟨some e, [k, i, 0]⟩
      · exact leafEntry_none (freed.absent (.inl again))
      · rw [freed.leaves rfl again, last]

theorem freePdpe_spec (valid : Valid managed roots m g) {root pdpt : Fin npages}
    {i : Index} (rooted : roots e = some root) (here : g.table ⟨some e, [0]⟩ = some pdpt)
    (ran : freePdpe (some root) pdpt i m = some m') :
    ∃ g', Freed managed roots m g m' g' (Place.Below ⟨some e, [i, 0]⟩) ∧
      ((∀ k : Index, pdenoLimit i ≤ k.val → g.table ⟨some e, [k, i, 0]⟩ = none) →
        (∀ k, leafEntry m.mem g.table ⟨some e, [k, i, 0]⟩ 511 = 0) → g'.spare = g.spare) := by
  have linked := valid.tree.link here (by simp) i
  rw [Place.child_cons] at linked
  cases there : g.table ⟨some e, [i, 0]⟩ with
  | none =>
    have empty : m.mem pdpt i = 0 := by rw [linked, there]; rfl
    simp only [freePdpe, empty, Pte.present_zero, Bool.false_eq_true, if_false,
      Option.some.injEq] at ran
    subst ran
    exact ⟨g, .refl valid fun a below => valid.absent_below below there, fun _ _ => rfl⟩
  | some pgdir =>
    have full : m.mem pdpt i = ⟨pgdir.val, tablePerm⟩ := by rw [linked, there]; rfl
    simp only [freePdpe, full, present_table, if_true, kaddr_val, Option.bind_eq_bind,
      Option.bind_some] at ran
    obtain ⟨m₁, looped, ran⟩ := Option.bind_eq_some_iff.mp ran
    obtain ⟨g₁, freed, exact₁⟩ := freePdes_spec valid rooted there
      (pdenoLimit_le.trans (by decide)) looped
    have here₁ := freed.present here fun ⟨k, _, same⟩ => by simp at same
    have there₁ := freed.present there fun ⟨k, _, same⟩ => by simp at same
    have full₁ : m₁.mem pdpt i = ⟨pgdir.val, tablePerm⟩ := by
      rw [freed.valid.tree.link here₁ (by simp) i, Place.child_cons, there₁]
      rfl
    obtain ⟨g₂, -, dropped, freed₂, bare⟩ := freed.valid.detachFreed (a := ⟨some e, [0]⟩)
      (i := i) here₁ (by simp) (by simp) (fun special => by simpa using special.2.1)
      (by rw [Place.child_cons]; exact there₁)
    rw [Place.child_cons] at freed₂ bare
    rw [full₁] at ran
    simp only [pa2page_val, Option.bind_some, dropped, Option.some.injEq] at ran
    subst ran
    refine ⟨g₂, (freed.trans freed₂).congr fun a page found => ?_, fun beyond last => ?_⟩
    · constructor
      · exact .inr
      · rintro (⟨k, -, rfl⟩ | below)
        · exact Place.below_path_cons (Place.below_refl _)
        · exact below
    · refine (bare (fun b below differs => ?_) fun t mappable => ?_).trans (exact₁ last)
      · -- one level below the page directory, every table is in the range or absent
        cases found : g₁.table b with
        | none => rfl
        | some page =>
          obtain ⟨found, left⟩ := freed.table.mp found
          obtain ⟨owner, path⟩ := b
          obtain ⟨same, front, whole⟩ := below
          simp only at same whole
          subst same whole
          have bound := valid.tree.depth found
          cases front with
          | nil => exact absurd rfl differs
          | cons k front =>
            cases front with
            | cons => simp at bound; omega
            | nil =>
              exfalso
              by_cases inside : k.val < pdenoLimit i
              · exact left ⟨k, inside, rfl⟩
              · have none := beyond k (Nat.le_of_not_lt inside)
                exact Option.some_ne_none _ (found.symm.trans none)
      · simpa using mappable.length

theorem freePdpes_spec (valid : Valid managed roots m g) {root pdpt : Fin npages}
    (rooted : roots e = some root) (here : g.table ⟨some e, [0]⟩ = some pdpt)
    (ran : ([0, 1, 2, 3] : List Index).foldlM (fun m i => freePdpe (some root) pdpt i m) m =
      some m') :
    ∃ g', Freed managed roots m g m' g' (fun a => ∃ i : Index, i.val ≤ 3 ∧
        Place.Below ⟨some e, [i, 0]⟩ a) ∧
      (Covered m.mem g.table e → g'.spare = g.spare) := by
  have loop := foldlM_invariant ran
    (fun done m₁ => ∃ g₁, Freed managed roots m g m₁ g₁ (fun a => ∃ i ∈ done,
        Place.Below ⟨some e, [i, 0]⟩ a) ∧ (Covered m.mem g.table e → g₁.spare = g.spare))
    ⟨g, .refl valid (by simp), fun _ => rfl⟩ ?_
  · obtain ⟨g', freed, exact'⟩ := loop
    refine ⟨g', freed.congr fun a page _ => exists_congr fun i => and_congr_left fun _ => ?_,
      exact'⟩
    constructor
    · intro low
      have := i.isLt
      simp only [List.mem_cons, List.not_mem_nil, or_false, Fin.ext_iff]
      change i.val = 0 ∨ i.val = 1 ∨ i.val = 2 ∨ i.val = 3
      omega
    · simp only [List.mem_cons, List.not_mem_nil, or_false]
      rintro (rfl | rfl | rfl | rfl) <;> decide
  · rintro done i m₁ m₂ ⟨rest, split⟩ ⟨g₁, freed, exact₁⟩ stepped
    have low : i.val ≤ 3 := by
      have member : i ∈ ([0, 1, 2, 3] : List Index) := by simp [split]
      simp only [List.mem_cons, List.not_mem_nil, or_false] at member
      rcases member with rfl | rfl | rfl | rfl <;> decide
    have there := freed.present here fun ⟨j, _, below⟩ => by
      simpa using Place.below_length below
    obtain ⟨g₂, freed₂, exact₂⟩ := freePdpe_spec freed.valid rooted there stepped
    refine ⟨g₂, (freed.trans freed₂).congr fun a page _ => ?_, fun covered => ?_⟩
    · constructor
      · rintro ⟨j, within, below⟩
        rcases List.mem_append.mp within with within | within
        · exact .inl ⟨j, within, below⟩
        · exact .inr (List.mem_singleton.mp within ▸ below)
      · rintro (⟨j, within, below⟩ | below)
        · exact ⟨j, List.mem_append_left _ within, below⟩
        · exact ⟨i, List.mem_append_right _ (List.mem_singleton_self i), below⟩
    · refine (exact₂ (fun k beyond => freed.absent (.inr (covered.pde i k low beyond)))
        fun k => ?_).trans (exact₁ covered)
      by_cases again : ∃ j ∈ done, Place.Below ⟨some e, [j, 0]⟩ ⟨some e, [k, i, 0]⟩
      · exact leafEntry_none (freed.absent (.inl again))
      · rw [freed.leaves rfl again, covered.pte i k]

theorem Place.below_pdpt {b : Place} (below : Place.Below ⟨some e, [0]⟩ b) :
    b = ⟨some e, [0]⟩ ∨ ∃ i, Place.Below ⟨some e, [i, 0]⟩ b := by
  obtain ⟨owner, path⟩ := b
  obtain ⟨same, front, whole⟩ := below
  simp only at same whole
  subst same whole
  rcases List.eq_nil_or_concat front with rfl | ⟨front, i, rfl⟩
  · exact .inl rfl
  · exact .inr ⟨i, rfl, front, by simp⟩

/-- The user half of an address space, when the first entry of the PML4 leads to
a PDPT. -/
theorem freeUser_spec (valid : Valid managed roots m g) {root pdpt : Fin npages}
    (rooted : roots e = some root) (here : g.table ⟨some e, [0]⟩ = some pdpt)
    (ran : ([0, 1, 2, 3] : List Index).foldlM (fun m i => freePdpe (some root) pdpt i m) m =
      some m') :
    m'.mem root 0 = ⟨pdpt.val, tablePerm⟩ ∧ pageDecref m' pdpt = some (m'.dropRef pdpt) ∧
    ∃ g', Freed managed roots m g ((m'.dropRef pdpt).setEntry (root, 0) 0) g'
        (Place.Below ⟨some e, [0]⟩) ∧
      (Covered m.mem g.table e → g'.spare = g.spare) := by
  obtain ⟨g₁, freed, exact₁⟩ := freePdpes_spec valid rooted here ran
  have top := valid.top rooted
  have child : (Place.root (some e)).child 0 = ⟨some e, [0]⟩ := Place.child_first
  have short {i : Index} {a : Place} (below : Place.Below ⟨some e, [i, 0]⟩ a) :
      2 ≤ a.path.length := by simpa using Place.below_length below
  have top₁ := freed.present top fun ⟨i, _, below⟩ => by simpa using short below
  have here₁ := freed.present here fun ⟨i, _, below⟩ => by simpa using short below
  have full : m'.mem root 0 = ⟨pdpt.val, tablePerm⟩ := by
    rw [freed.valid.tree.link top₁ (by simp) 0, child, here₁]
    rfl
  obtain ⟨g₂, dropped, -, freed₂, bare⟩ := freed.valid.detachFreed top₁ (by simp) (by simp)
    Place.plain_first (child.symm ▸ here₁)
  rw [child] at freed₂ bare
  refine ⟨full, dropped, g₂, (freed.trans freed₂).congr fun a page _ => ?_, fun covered => ?_⟩
  · constructor
    · exact .inr
    · rintro (⟨i, -, below⟩ | below)
      · exact ⟨below.1, (List.suffix_cons i [0]).trans below.2⟩
      · exact below
  · refine (bare (fun b below differs => ?_) fun t mappable => ?_).trans (exact₁ covered)
    · obtain ⟨i, inside⟩ := (Place.below_pdpt below).resolve_left differs
      by_cases low : i.val ≤ 3
      · exact freed.absent (.inl ⟨i, low, inside⟩)
      · exact freed.absent (.inr (valid.absent_below inside
          (covered.pdpe i (Nat.lt_of_not_le low))))
    · simpa using mappable.length

/-- When the first entry is empty, page 0 is taken for the PDPT. Its first words
being clear, the loops find nothing in it. -/
theorem freeNothing {root zero : Fin npages} {m : Pmap npages}
    (clear : ∀ i ∈ ([0, 1, 2, 3] : List Index), (m.mem zero i).present = false) :
    ([0, 1, 2, 3] : List Index).foldlM (fun m i => freePdpe (some root) zero i m) m = some m := by
  have step {i : Index} (inside : i ∈ ([0, 1, 2, 3] : List Index)) :
      freePdpe (some root) zero i m = some m := by
    simp [freePdpe, clear i inside]
  simp [step]

end Jos
