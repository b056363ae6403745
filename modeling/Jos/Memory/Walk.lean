import Jos.Memory.Steps

/-! The walkers of kern/pmap.c on a well-formed state: how many tables a walk has
to create, what it leaves alone, and what becomes of it when memory runs out on
the way. -/

set_option autoImplicit false

namespace Jos

open Foundation Function

variable {npages : Nat} {managed : Set (Fin npages)} {roots : EnvIdx → Option (Fin npages)}
  {m m' m'' : Pmap npages} {g g' g'' : Ledger npages} {a : Place} {holder page : Fin npages}

/-- The leaf entry at a place, empty when the page table does not exist. -/
def leafEntry (mem : Memory npages) (table : Layout npages) (a : Place) (t : Index) : Pte :=
  match table a with
  | none => 0
  | some page => mem page t

theorem leafEntry_some {mem : Memory npages} {table : Layout npages} {t : Index}
    {page : Fin npages} (here : table a = some page) : leafEntry mem table a t = mem page t := by
  simp [leafEntry, here]

theorem leafEntry_none {mem : Memory npages} {table : Layout npages} {t : Index}
    (absent : table a = none) : leafEntry mem table a t = 0 := by
  simp [leafEntry, absent]

/-- The number of tables missing on the way from a place along some indices. -/
def Layout.missing (table : Layout npages) : Place → List Index → Nat
  | _, [] => 0
  | a, i :: rest =>
    match table (a.child i) with
    | some _ => missing table (a.child i) rest
    | none => rest.length + 1

/-- What the creation of tables in the tree of one owner leaves alone. -/
structure Grows (owner : Option EnvIdx) (m : Pmap npages) (g : Ledger npages) (m' : Pmap npages)
    (g' : Ledger npages) : Prop where
  table : ∀ {a page}, g.table a = some page → g'.table a = some page
  fresh : ∀ {a page}, g'.table a = some page → g.table a = some page ∨ a.owner = owner
  placed : ∀ {page}, Placed g'.table page → Placed g.table page ∨ page ∈ g.free
  leaves : ∀ {a}, a.path.length = 3 → ∀ t,
    leafEntry m'.mem g'.table a t = leafEntry m.mem g.table a t
  spare : ∀ page, g.spare page ≤ g'.spare page
  boot : m'.bootPml4e = m.bootPml4e
  ref : ∀ page, page ∉ g.free → (m'.pages page).ppRef = (m.pages page).ppRef
  free : ∀ page, page ∈ g'.free → page ∈ g.free
  idle : ∀ page, page ∉ g.free → ¬ Placed g.table page → m'.mem page = m.mem page

namespace Grows

variable {owner : Option EnvIdx}

theorem refl (m : Pmap npages) (g : Ledger npages) : Grows owner m g m g :=
  ⟨id, .inl, .inl, fun _ _ => rfl, fun _ => le_rfl, rfl, fun _ _ => rfl, fun _ => id, fun _ _ _ => rfl⟩

theorem trans (first : Grows owner m g m' g') (second : Grows owner m' g' m'' g'') :
    Grows owner m g m'' g'' where
  table here := second.table (first.table here)
  fresh there := (second.fresh there).elim first.fresh .inr
  placed there := (second.placed there).elim first.placed fun listed => .inr (first.free _ listed)
  leaves deep t := (second.leaves deep t).trans (first.leaves deep t)
  spare page := (first.spare page).trans (second.spare page)
  boot := second.boot.trans first.boot
  ref page absent := (second.ref page fun listed => absent (first.free page listed)).trans
    (first.ref page absent)
  free page listed := first.free page (second.free page listed)
  idle page absent unplaced := by
    rw [second.idle page (fun listed => absent (first.free page listed)), first.idle page absent
      unplaced]
    exact fun there => (first.placed there).elim unplaced absent

end Grows

/-- A number of tables have been created, each from the page at the head of the
free list. -/
structure Created (managed : Set (Fin npages)) (roots : EnvIdx → Option (Fin npages))
    (owner : Option EnvIdx) (m : Pmap npages) (g : Ledger npages) (m' : Pmap npages)
    (g' : Ledger npages) (count : Nat) : Prop where
  valid : Valid managed roots m' g'
  grows : Grows owner m g m' g'
  spare : g'.spare = g.spare
  free : g'.free = g.free.drop count

theorem Created.refl {owner : Option EnvIdx} (valid : Valid managed roots m g) :
    Created managed roots owner m g m g 0 :=
  ⟨valid, .refl m g, rfl, rfl⟩

theorem Created.trans {owner : Option EnvIdx} {first second : Nat}
    (before : Created managed roots owner m g m' g' first)
    (after : Created managed roots owner m' g' m'' g'' second) :
    Created managed roots owner m g m'' g'' (first + second) :=
  ⟨after.valid, before.grows.trans after.grows, after.spare.trans before.spare, by
    rw [after.free, before.free, List.drop_drop]⟩

theorem kaddr_val (page : Fin npages) : kaddr npages page.val = some page := by
  simp [kaddr]

theorem pa2page_val (page : Fin npages) : pa2page npages page.val = some page := by
  simp [pa2page]

/-- The state after `demandTable` has created a table. -/
def Pmap.create (m : Pmap npages) (slot : Slot npages) (page : Fin npages) : Pmap npages :=
  ((m.take page true).incRef page).setEntry slot ⟨page.val, tablePerm⟩

def Ledger.create (g : Ledger npages) (a : Place) (page : Fin npages)
    (rest : List (Fin npages)) : Ledger npages :=
  ⟨update g.table a (some page), g.spare, rest⟩

namespace Valid

section

variable (valid : Valid managed roots m g)

include valid

theorem create {i : Index} {rest : List (Fin npages)} (here : g.table a = some holder)
    (short : a.path.length < 3) (absent : g.table (a.child i) = none)
    (listed : g.free = page :: rest) :
    Created managed roots a.owner m g (m.create (holder, i) page)
      (g.create (a.child i) page rest) 1 := by
  have member : page ∈ g.free := by simp [listed]
  have unused := valid.free_unused member
  have inside := (valid.pool.member page member).1
  have zeroRef := (valid.pool.member page member).2
  have distinct := valid.pool.chain.nodup
  rw [listed] at distinct
  have notRest := (List.nodup_cons.mp distinct).1
  have notHolder : holder ≠ page := fun same => unused.unplaced ⟨a, same ▸ here⟩
  have counted := (valid.take listed true).incRef notRest fun _ => by
    rw [Pmap.take_ref, zeroRef]
    decide
  have plain := valid.tree.plain_of_absent here absent
  have stillUnused : Tree.Unused ((m.take page true).incRef page).mem g.table page :=
    ⟨unused.unplaced, fun {b p t} there mappable => by
      rw [Pmap.incRef_mem, Pmap.take_mem_ne (by rintro rfl; exact unused.unplaced ⟨b, there⟩)]
      exact unused.unmapped there mappable⟩
  have attached := counted.attach here short absent inside stillUnused
    (fun j => by rw [Pmap.incRef_mem, Pmap.take_mem_same]) (by simp [Ledger.give])
  rw [Ledger.spend_give] at attached
  refine ⟨attached, ⟨?_, ?_, ?_, ?_, fun _ => le_rfl, ?_, ?_, ?_, ?_⟩, rfl, ?_⟩
  · intro b p there
    exact (update_of_ne (by rintro rfl; rw [absent] at there; cases there) _ _).trans there
  · intro b p there
    by_cases new : b = a.child i
    · right
      rw [new, Place.child_plain plain]
    · exact .inl ((update_of_ne new ..).symm.trans there)
  · intro p placed
    exact ((Tree.placed_update absent).mp placed).elim (fun same => .inr (same ▸ member)) .inl
  · intro b deep t
    by_cases new : b = a.child i
    · subst new
      have new : (g.create (a.child i) page rest).table (a.child i) = some page :=
        update_self ..
      rw [leafEntry_none absent, leafEntry_some new]
      refine (congrFun (Memory.write_page (Ne.symm notHolder)) t).trans ?_
      rw [Pmap.incRef_mem, Pmap.take_mem_same]
    · have same : (g.create (a.child i) page rest).table b = g.table b :=
        update_of_ne new ..
      cases there : g.table b with
      | none => rw [leafEntry_none there, leafEntry_none (same.trans there)]
      | some p =>
        rw [leafEntry_some there, leafEntry_some (same.trans there)]
        refine (Memory.write_other fun slots => ?_).trans ?_
        · obtain ⟨rfl, -⟩ := Prod.mk.inj slots
          rw [valid.tree.injective there here] at deep
          omega
        · rw [Pmap.incRef_mem, Pmap.take_mem_ne (by rintro rfl; exact unused.unplaced ⟨b, there⟩)]
  · simp [Pmap.create]
  · intro p missing
    have other : p ≠ page := fun same => missing (same ▸ member)
    simp [Pmap.create, Pmap.incRef_ref, other]
  · intro p there
    rw [listed]
    exact List.mem_cons_of_mem _ there
  · intro p missing unplaced
    refine (Memory.write_page ?_).trans ?_
    · rintro rfl
      exact unplaced ⟨a, here⟩
    rw [Pmap.incRef_mem, Pmap.take_mem_ne (by rintro rfl; exact missing member)]
  · rw [listed]
    rfl

theorem demandTable_found
    {i : Index} (here : g.table a = some holder) (short : a.path.length < 3)
    (there : g.table (a.child i) = some page) (create : Bool) :
    demandTable m (holder, i) create = some (none, m) ∧
      m.entry (holder, i) = ⟨page.val, tablePerm⟩ := by
  have linked : m.mem holder i = ⟨page.val, tablePerm⟩ := by
    rw [valid.tree.link here short i, there]
    rfl
  have nonzero : m.entry (holder, i) ≠ 0 := by
    simpa [Pmap.entry, linked] using table_ne_zero
  exact ⟨by rw [demandTable, if_neg nonzero], linked⟩

theorem demandTable_full {holder : Fin npages}
    {i : Index} (here : g.table a = some holder) (short : a.path.length < 3)
    (absent : g.table (a.child i) = none) (empty : g.free = []) :
    demandTable m (holder, i) true = none := by
  have zero : m.entry (holder, i) = 0 := by
    simp [Pmap.entry, valid.tree.link here short i, absent, tableEntry]
  rw [demandTable, if_pos zero, valid.pageAlloc_empty empty]
  rfl

theorem demandTable_fresh {i : Index} {rest : List (Fin npages)} (here : g.table a = some holder)
    (short : a.path.length < 3) (absent : g.table (a.child i) = none)
    (listed : g.free = page :: rest) :
    demandTable m (holder, i) true = some (some page, m.create (holder, i) page) ∧
      (m.create (holder, i) page).entry (holder, i) = ⟨page.val, tablePerm⟩ := by
  have zero : m.entry (holder, i) = 0 := by
    simp [Pmap.entry, valid.tree.link here short i, absent, tableEntry]
  refine ⟨?_, Memory.write_same⟩
  rw [demandTable, if_pos zero, valid.pageAlloc_eq listed]
  rfl

theorem missing_create {holder : Fin npages}
    {i : Index} (here : g.table a = some holder) (absent : g.table (a.child i) = none)
    (page : Fin npages) (rest : List (Fin npages)) (indices : List Index) :
    Layout.missing (g.create (a.child i) page rest).table (a.child i) indices =
      indices.length := by
  have plain := valid.tree.plain_of_absent here absent
  cases indices with
  | nil => rfl
  | cons j indices =>
    have none : (g.create (a.child i) page rest).table ((a.child i).child j) = none := by
      rw [Place.child_plain plain] at absent ⊢
      rw [Place.child_cons]
      refine (update_of_ne (by simp) ..).trans ?_
      exact valid.tree.absent_child absent j
    simp [Layout.missing, none]

theorem demandTable_ok {holder : Fin npages}
    {i : Index} {indices : List Index} {owner : Option EnvIdx} (here : g.table a = some holder)
    (short : a.path.length < 3) (enough : g.table.missing a (i :: indices) ≤ g.free.length)
    (owned : g.table (a.child i) = none → a.owner = owner) :
    ∃ m' g' new page count, demandTable m (holder, i) true = some (new, m') ∧
      m'.entry (holder, i) = ⟨page.val, tablePerm⟩ ∧ g'.table (a.child i) = some page ∧
      Created managed roots owner m g m' g' count ∧
      g.table.missing a (i :: indices) = count + g'.table.missing (a.child i) indices := by
  cases there : g.table (a.child i) with
  | some page =>
    obtain ⟨ran, linked⟩ := valid.demandTable_found here short there true
    exact ⟨m, g, none, page, 0, ran, linked, there, .refl valid, by
      simp [Layout.missing, there]⟩
  | none =>
    cases listed : g.free with
    | nil => simp [Layout.missing, there, listed] at enough
    | cons page rest =>
      obtain ⟨ran, linked⟩ := valid.demandTable_fresh here short there listed
      refine ⟨_, _, some page, page, 1, ran, linked, update_self ..,
        owned there ▸ valid.create here short there listed, ?_⟩
      rw [valid.missing_create here there]
      simp [Layout.missing, there, Nat.add_comm]

end

variable {a : Place} {holder : Fin npages}

section

variable (valid : Valid managed roots m g)

include valid

theorem owner_absent {i : Index} (here : g.table a = some holder)
    (absent : g.table (a.child i) = none) (j l : Index) :
    a.owner = (a.child i).owner ∧ a.owner = ((a.child i).child j).owner ∧
      a.owner = (((a.child i).child j).child l).owner := by
  rw [Place.child_plain (valid.tree.plain_of_absent here absent), Place.child_cons,
    Place.child_cons]
  exact ⟨rfl, rfl, rfl⟩

theorem pgdirWalk_ok (va : Nat)
    (here : g.table a = some holder) (short : a.path.length < 3) (enough : g.table.missing a [pdx va] ≤ g.free.length) :
    ∃ m' g' page, pgdirWalk m holder va true = some (some (page, ptx va), m') ∧
      g'.table (a.child (pdx va)) = some page ∧
      Created managed roots (a.child (pdx va)).owner m g m' g' (g.table.missing a [pdx va]) := by
  obtain ⟨m', g', new, page, count, ran, linked, there, created, total⟩ :=
    valid.demandTable_ok here short enough fun absent => (valid.owner_absent here absent 0 0).1
  refine ⟨m', g', page, ?_, there, total ▸ created⟩
  simp [pgdirWalk, ran, linked, kaddr_val]

theorem pgdirWalk_full (va : Nat)
    (here : g.table a = some holder) (short : a.path.length < 3) (lacking : g.free.length < g.table.missing a [pdx va]) :
    pgdirWalk m holder va true = some (none, m) ∧ g.free = [] := by
  cases there : g.table (a.child (pdx va)) with
  | some page => simp [Layout.missing, there] at lacking
  | none =>
    have empty : g.free = [] := by simpa [Layout.missing, there] using lacking
    exact ⟨by simp [pgdirWalk, valid.demandTable_full here short there empty], empty⟩

theorem pdpeWalk_ok (va : Nat)
    (here : g.table a = some holder) (short : a.path.length < 2) (enough : g.table.missing a [pdpe va, pdx va] ≤ g.free.length) :
    ∃ m' g' page, pdpeWalk m holder va true = some (some (page, ptx va), m') ∧
      g'.table ((a.child (pdpe va)).child (pdx va)) = some page ∧
      Created managed roots ((a.child (pdpe va)).child (pdx va)).owner m g m' g'
        (g.table.missing a [pdpe va, pdx va]) := by
  obtain ⟨m', g', new, page, count, ran, linked, there, created, total⟩ :=
    valid.demandTable_ok here (by omega) enough fun absent =>
      (valid.owner_absent here absent _ 0).2.1
  have deeper := Place.child_length a (pdpe va)
  obtain ⟨m'', g'', leaf, walked, found, more⟩ := created.valid.pgdirWalk_ok va there
    (by omega) (by rw [created.free, List.length_drop]; omega)
  refine ⟨m'', g'', leaf, ?_, found, total ▸ created.trans more⟩
  simp [pdpeWalk, ran, linked, kaddr_val, walked]

theorem pdpeWalk_full (va : Nat)
    (here : g.table a = some holder) (short : a.path.length < 2) (lacking : g.free.length < g.table.missing a [pdpe va, pdx va]) :
    ∃ m' g', pdpeWalk m holder va true = some (none, m') ∧
      Created managed roots ((a.child (pdpe va)).child (pdx va)).owner m g m' g' g.free.length ∧
      (g.free = [] → m' = m ∧ g' = g) := by
  cases there : g.table (a.child (pdpe va)) with
  | some page =>
    obtain ⟨ran, linked⟩ := valid.demandTable_found here (by omega) there true
    have deeper := Place.child_length a (pdpe va)
    obtain ⟨walked, empty⟩ := valid.pgdirWalk_full va there (by omega)
      (by simpa [Layout.missing, there] using lacking)
    refine ⟨m, g, ?_, by simpa [empty] using Created.refl valid, fun _ => ⟨rfl, rfl⟩⟩
    simp [pdpeWalk, ran, linked, kaddr_val, walked]
  | none =>
    cases listed : g.free with
    | nil =>
      refine ⟨m, g, ?_, Created.refl valid, fun _ => ⟨rfl, rfl⟩⟩
      simp [pdpeWalk, valid.demandTable_full here (by omega) there listed]
    | cons page rest =>
      obtain ⟨ran, linked⟩ := valid.demandTable_fresh here (by omega) there listed
      have created := valid.create here (by omega) there listed
      rw [(valid.owner_absent here there (pdx va) 0).2.1] at created
      have deeper := Place.child_length a (pdpe va)
      have last : rest = [] := by simpa [Layout.missing, there, listed] using lacking
      have missing := valid.missing_create here there page rest [pdx va]
      obtain ⟨walked, -⟩ := created.valid.pgdirWalk_full va (update_self ..)
        (by omega) (by rw [missing, created.free, listed]; simp [last])
      refine ⟨_, _, ?_, by simpa [last] using created, fun empty => by cases empty⟩
      simp [pdpeWalk, ran, linked, kaddr_val, walked]

theorem pml4eWalk_ok (va : Nat) (here : g.table a = some holder) (top : a.path = [])
    (enough : g.table.missing a [pml4 va, pdpe va, pdx va] ≤ g.free.length) :
    ∃ m' g' page, pml4eWalk m (some holder) va true = some (some (page, ptx va), m') ∧
      g'.table (a.table va) = some page ∧
      Created managed roots (a.table va).owner m g m' g'
        (g.table.missing a [pml4 va, pdpe va, pdx va]) := by
  obtain ⟨m', g', new, page, count, ran, linked, there, created, total⟩ :=
    valid.demandTable_ok here (by simp [top]) enough fun absent =>
      (valid.owner_absent here absent _ _).2.2
  have deeper := Place.child_length a (pml4 va)
  obtain ⟨m'', g'', leaf, walked, found, more⟩ := created.valid.pdpeWalk_ok va there
    (by simp only [top, List.length_nil] at deeper; omega) (by rw [created.free, List.length_drop]; omega)
  refine ⟨m'', g'', leaf, ?_, found, total ▸ created.trans more⟩
  simp [pml4eWalk, ran, linked, kaddr_val, walked]

end

end Valid

/-- A walk that found no memory. Nothing is left of it when there was none at
all, or when the one table created was that of the top level. Of three missing
tables with two free pages, the page directory is lost. -/
structure Stuck (managed : Set (Fin npages)) (roots : EnvIdx → Option (Fin npages))
    (owner : Option EnvIdx) (m : Pmap npages) (g : Ledger npages) (m' : Pmap npages)
    (g' : Ledger npages) (missing : Nat) : Prop where
  valid : Valid managed roots m' g'
  grows : Grows owner m g m' g'
  quiet : g.free.length = 0 ∨ missing = 3 ∧ g.free.length = 1 →
    g'.table = g.table ∧ g'.free = g.free ∧ ∀ page, (m'.pages page).ppRef = (m.pages page).ppRef
  shrinks : ¬ (g.free.length = 0 ∨ missing = 3 ∧ g.free.length = 1) →
    g'.free.length < g.free.length
  kept : ¬ (missing = 3 ∧ g.free.length = 2) → g'.spare = g.spare

namespace Valid

variable {a : Place} {holder : Fin npages}

theorem missing_le {table : Layout npages} {indices : List Index} :
    table.missing a indices ≤ indices.length := by
  induction indices generalizing a with
  | nil => exact le_rfl
  | cons i indices ih =>
    unfold Layout.missing
    split
    · exact ih.trans (Nat.le_succ _)
    · exact le_rfl

/-- The top-level table that the walk has just created is given back, and what
was created below it is lost. -/
theorem undo (valid : Valid managed roots m g) {i : Index} {page : Fin npages}
    {rest : List (Fin npages)} (here : g.table a = some holder) (top : a.path = [])
    (owned : a.owner ≠ none) (absent : g.table (a.child i) = none)
    (listed : g.free = page :: rest)
    (created : Created managed roots a.owner (m.create (holder, i) page)
      (g.create (a.child i) page rest) m' g' rest.length)
    (still : rest = [] → m' = m.create (holder, i) page ∧ g' = g.create (a.child i) page rest)
    (few : rest.length ≤ 1) :
    ∃ g'', pageDecref m' page = some (m'.dropRef page) ∧
      Stuck managed roots a.owner m g ((m'.dropRef page).setEntry (holder, i) 0) g'' 3 := by
  have short : a.path.length < 3 := by simp [top]
  have plain := valid.tree.plain_of_absent here absent
  have spot := Place.child_plain plain
  have member : page ∈ g.free := by simp [listed]
  have first := valid.create here short absent listed
  have grows := first.grows.trans created.grows
  have atHolder := grows.table here
  have atChild : g'.table (a.child i) = some page :=
    created.grows.table (update_self ..)
  have distinct := valid.pool.chain.nodup
  rw [listed] at distinct
  have notRest := (List.nodup_cons.mp distinct).1
  have refs : (m'.pages page).ppRef = 1 := by
    rw [created.grows.ref page notRest]
    have zeroRef := (valid.pool.member page member).2
    simp [Pmap.create, Pmap.incRef_ref, zeroRef]
  obtain ⟨g'', ran, -, detached, tables, list, spares, bare⟩ :=
    created.valid.detach atHolder short owned plain atChild
  have emptied : g'.free = [] := by
    rw [created.free]
    exact List.drop_length
  rw [refs, if_pos rfl, emptied] at list
  have outside {b : Place} {p : Fin npages} (there : g.table b = some p) :
      ¬ (a.child i).Below b := fun below => by
    rw [valid.absent_below below absent] at there
    cases there
  refine ⟨g'', ran, detached, ⟨?_, ?_, ?_, ?_, ?_, ?_, ?_, ?_, ?_⟩, ?_, ?_, ?_⟩
  · intro b p there
    rw [tables, Tree.without_of_not (outside there)]
    exact grows.table there
  · intro b p there
    rw [tables] at there
    exact grows.fresh (Tree.without_some there).1
  · intro p placed
    rw [tables] at placed
    exact grows.placed (Tree.placed_without placed)
  · intro b deep t
    by_cases below : (a.child i).Below b
    · rw [leafEntry_none (by rw [tables, Tree.without_of_below below]),
        leafEntry_none (valid.absent_below below absent)]
    · rw [← grows.leaves deep t]
      unfold leafEntry
      rw [tables, Tree.without_of_not below]
      cases there : g'.table b with
      | none => rfl
      | some p =>
        refine (Memory.write_other fun slots => ?_).trans (by rw [Pmap.dropRef_mem])
        cases slots
        rw [created.valid.tree.injective there atHolder] at deep
        omega
  · exact fun p => (grows.spare p).trans (spares p)
  · rw [Pmap.setEntry_boot, Pmap.dropRef_boot]
    exact grows.boot
  · intro p missing
    rw [Pmap.setEntry_pages, Pmap.dropRef_ref, if_neg (by rintro rfl; exact missing member)]
    exact grows.ref p missing
  · intro p there
    rw [list, List.mem_singleton] at there
    exact there ▸ member
  · intro p missing unplaced
    rw [Pmap.setEntry_mem, Memory.write_page (by rintro rfl; exact unplaced ⟨a, here⟩),
      Pmap.dropRef_mem]
    exact grows.idle p missing unplaced
  · rintro (none | ⟨-, one⟩)
    · rw [listed] at none
      cases none
    · have last : rest = [] := by simpa [listed] using one
      refine ⟨?_, by rw [list, listed, last], fun p => ?_⟩
      · funext b
        rw [tables, (still last).2]
        by_cases below : (a.child i).Below b
        · rw [Tree.without_of_below below, valid.absent_below below absent]
        · rw [Tree.without_of_not below]
          refine update_of_ne (fun same => below ?_) ..
          rw [same]
          exact Place.below_refl _
      rw [Pmap.setEntry_pages, Pmap.dropRef_ref, refs]
      by_cases same : p = page
      · subst same
        rw [if_pos rfl, (valid.pool.member p member).2]
        rfl
      · rw [if_neg same]
        by_cases listedToo : p ∈ g.free
        · rw [listed, last, List.mem_singleton] at listedToo
          exact absurd listedToo same
        · exact grows.ref p listedToo
  · intro more
    have left : rest ≠ [] := fun last => more (.inr ⟨rfl, by simp [listed, last]⟩)
    have := List.length_pos_iff.mpr left
    rw [list, listed]
    simpa using this
  · intro notTwo
    have last : rest = [] := by
      rw [listed] at notTwo
      cases rest with
      | nil => rfl
      | cons q rest => exact absurd ⟨rfl, by simpa using few⟩ notTwo
    obtain ⟨rfl, rfl⟩ := still last
    rw [bare]
    · exact first.spare
    · intro b below differs
      refine (update_of_ne differs ..).trans (valid.absent_below below absent)
    · intro t mappable
      have length := mappable.length
      rw [spot, top] at length
      simp at length

theorem pml4eWalk_full (valid : Valid managed roots m g) (va : Nat)
    (here : g.table a = some holder) (top : a.path = [])
    (based : a.owner ≠ none ∨ g.table (a.child (pml4 va)) ≠ none)
    (lacking : g.free.length < g.table.missing a [pml4 va, pdpe va, pdx va]) :
    ∃ m' g', pml4eWalk m (some holder) va true = some (none, m') ∧
      Stuck managed roots (a.table va).owner m g m' g'
        (g.table.missing a [pml4 va, pdpe va, pdx va]) := by
  have short : a.path.length < 3 := by simp [top]
  have deeper := Place.child_length a (pml4 va)
  have shallow : (a.child (pml4 va)).path.length < 2 := by
    simp only [top, List.length_nil] at deeper
    omega
  cases there : g.table (a.child (pml4 va)) with
  | some page =>
    obtain ⟨ran, linked⟩ := valid.demandTable_found here short there true
    have missing : g.table.missing a [pml4 va, pdpe va, pdx va] =
        g.table.missing (a.child (pml4 va)) [pdpe va, pdx va] := by
      simp [Layout.missing, there]
    have bound : g.table.missing (a.child (pml4 va)) [pdpe va, pdx va] ≤ 2 := missing_le
    obtain ⟨m', g', walked, created, still⟩ := valid.pdpeWalk_full va there shallow
      (missing ▸ lacking)
    refine ⟨m', g', by simp [pml4eWalk, ran, linked, kaddr_val, walked],
      created.valid, created.grows, ?_, ?_, fun _ => created.spare⟩
    · rintro (none | ⟨three, -⟩)
      · obtain ⟨rfl, rfl⟩ := still (List.length_eq_zero_iff.mp none)
        exact ⟨rfl, rfl, fun _ => rfl⟩
      · omega
    · intro more
      rw [created.free, List.length_drop]
      omega
  | none =>
    have owned : a.owner ≠ none := based.resolve_right fun present => present there
    have missing : g.table.missing a [pml4 va, pdpe va, pdx va] = 3 := by
      simp [Layout.missing, there]
    rw [missing] at lacking ⊢
    cases listed : g.free with
    | nil =>
      refine ⟨m, g, ?_, valid, .refl m g, fun _ => ⟨rfl, rfl, fun _ => rfl⟩, ?_, fun _ => rfl⟩
      · simp [pml4eWalk, valid.demandTable_full here short there listed]
      · intro more
        simp [listed] at more
    | cons page rest =>
      obtain ⟨ran, linked⟩ := valid.demandTable_fresh here short there listed
      have first := valid.create here short there listed
      have few : rest.length ≤ 1 := by
        simp only [listed, List.length_cons] at lacking
        omega
      have missing' := valid.missing_create here there page rest [pdpe va, pdx va]
      have left : (g.create (a.child (pml4 va)) page rest).free = rest := rfl
      obtain ⟨m', g', walked, created, still⟩ := first.valid.pdpeWalk_full va
        (update_self ..) shallow (by rw [missing', left]; simp; omega)
      have same : a.owner = (a.table va).owner := (valid.owner_absent here there _ _).2.2
      change Created managed roots (a.table va).owner .. at created
      rw [← same] at created ⊢
      obtain ⟨g'', dropped, stuck⟩ := valid.undo here top owned there listed created still few
      refine ⟨_, g'', ?_, stuck⟩
      simp [pml4eWalk, ran, linked, kaddr_val, walked, dropped]

end Valid

end Jos
