import Jos.Memory.Walk

/-! `page_lookup`, `page_remove` and `page_insert` on a well-formed state. -/

set_option autoImplicit false

namespace Jos

open Foundation

variable {npages : Nat} {managed : Set (Fin npages)} {roots : EnvIdx → Option (Fin npages)}
  {m m' m'' : Pmap npages} {g g' g'' : Ledger npages}

/-- The leaf entries that an operation may store to, and the owners in whose trees
it may create tables. -/
structure Footprint where
  stores : Place → Index → Prop
  grows : Option EnvIdx → Prop

namespace Footprint

def nowhere : Footprint := ⟨fun _ _ => False, fun _ => False⟩

def walk (a : Place) (va : Nat) : Footprint := ⟨fun _ _ => False, (· = (a.table va).owner)⟩

def slot (a : Place) (va : Nat) : Footprint :=
  ⟨fun b t => b = a.table va ∧ t = ptx va, (· = (a.table va).owner)⟩

def space (e : EnvIdx) : Footprint := ⟨fun a _ => a.owner = some e, (· = some e)⟩

instance : LE Footprint :=
  ⟨fun first second => (∀ a t, first.stores a t → second.stores a t) ∧
    ∀ o, first.grows o → second.grows o⟩

variable {footprint : Footprint}

theorem nowhere_le : nowhere ≤ footprint := ⟨fun _ _ => False.elim, fun _ => False.elim⟩

theorem walk_le_slot {a : Place} {va : Nat} : walk a va ≤ slot a va :=
  ⟨fun _ _ => False.elim, fun _ => id⟩

end Footprint

structure Keeps (managed : Set (Fin npages)) (m : Pmap npages) (g : Ledger npages)
    (m' : Pmap npages) (g' : Ledger npages) (footprint : Footprint) : Prop where
  leaves : ∀ {a}, a.path.length = 3 → ∀ t, ¬ footprint.stores a t →
    leafEntry m'.mem g'.table a t = leafEntry m.mem g.table a t
  fresh : ∀ {a page}, g'.table a = some page → g.table a = some page ∨ footprint.grows a.owner
  boot : m'.bootPml4e = m.bootPml4e
  idle : ∀ page, page ∉ managed → page ≠ m.bootPml4e → m'.mem page = m.mem page
  spare : ∀ page ∈ managed, g.spare page ≤ g'.spare page

namespace Keeps

variable {footprint footprint' : Footprint}

theorem refl (m : Pmap npages) (g : Ledger npages) : Keeps managed m g m g footprint :=
  ⟨fun _ _ _ => rfl, .inl, rfl, fun _ _ _ => rfl, fun _ _ => le_rfl⟩

theorem trans (first : Keeps managed m g m' g' footprint)
    (second : Keeps managed m' g' m'' g'' footprint) : Keeps managed m g m'' g'' footprint where
  leaves deep t outside := (second.leaves deep t outside).trans (first.leaves deep t outside)
  fresh there := (second.fresh there).elim first.fresh .inr
  boot := second.boot.trans first.boot
  idle page outside other :=
    (second.idle page outside (first.boot ▸ other)).trans (first.idle page outside other)
  spare page inside := (first.spare page inside).trans (second.spare page inside)

theorem mono (keeps : Keeps managed m g m' g' footprint) (more : footprint ≤ footprint') :
    Keeps managed m g m' g' footprint' :=
  { keeps with
    leaves := fun deep t outside => keeps.leaves deep t fun there => outside (more.1 _ _ there)
    fresh := fun there => (keeps.fresh there).imp id (more.2 _) }

end Keeps

theorem Valid.placed_unmanaged (valid : Valid managed roots m g) {page : Fin npages}
    (outside : page ∉ managed) (placed : Placed g.table page) : page = m.bootPml4e := by
  obtain ⟨a, there⟩ := placed
  by_contra other
  by_cases top : a = .root none
  · subst top
    exact other (Option.some.inj (there.symm.trans valid.tree.bootRoot))
  · exact outside (valid.tree.tableManaged there top)

theorem Grows.keeps {a : Place} {va : Nat} (grows : Grows (a.table va).owner m g m' g')
    (valid : Valid managed roots m g) : Keeps managed m g m' g' (.walk a va) where
  leaves deep t _ := grows.leaves deep t
  fresh := grows.fresh
  boot := grows.boot
  idle page outside other := grows.idle page
    (fun listed => outside (valid.pool.member page listed).1)
    fun placed => other (valid.placed_unmanaged outside placed)
  spare page _ := grows.spare page

def Ledger.wanted (g : Ledger npages) (a : Place) (va : Nat) : Nat :=
  g.table.missing a [pml4 va, pdpe va, pdx va]

/-- What the creation of tables for an address comes to, whether or not there is
memory for all of them. -/
structure Looked (managed : Set (Fin npages)) (roots : EnvIdx → Option (Fin npages))
    (m : Pmap npages) (g : Ledger npages) (m' : Pmap npages) (g' : Ledger npages)
    (a : Place) (va : Nat) : Prop where
  valid : Valid managed roots m' g'
  grows : Grows (a.table va).owner m g m' g'
  same : g.wanted a va = 0 → m' = m ∧ g' = g
  quiet : g.wanted a va = 0 ∨ g.free.length = 0 ∨ g.wanted a va = 3 ∧ g.free.length = 1 →
    g'.table = g.table ∧ g'.free = g.free ∧ ∀ page, (m'.pages page).ppRef = (m.pages page).ppRef
  shrinks : ¬ (g.wanted a va = 0 ∨ g.free.length = 0 ∨ g.wanted a va = 3 ∧ g.free.length = 1) →
    g'.free.length < g.free.length
  kept : ¬ (g.wanted a va = 3 ∧ g.free.length = 2) → g'.spare = g.spare

section
variable {a : Place} {va : Nat}

theorem Stuck.looked (stuck : Stuck managed roots (a.table va).owner m g m' g' (g.wanted a va))
    (lacking : g.free.length < g.wanted a va) : Looked managed roots m g m' g' a va where
  valid := stuck.valid
  grows := stuck.grows
  same none := by omega
  quiet still := stuck.quiet (still.resolve_left (by omega))
  shrinks moved := stuck.shrinks fun still => moved (.inr still)
  kept := stuck.kept

theorem Looked.refl (valid : Valid managed roots m g) (none : g.wanted a va = 0) :
    Looked managed roots m g m g a va :=
  ⟨valid, .refl m g, fun _ => ⟨rfl, rfl⟩, fun _ => ⟨rfl, rfl, fun _ => rfl⟩,
    fun moved => absurd (.inl none) moved, fun _ => rfl⟩

theorem Created.looked
    (created : Created managed roots (a.table va).owner m g m' g' (g.wanted a va))
    (enough : g.wanted a va ≤ g.free.length) (some : 0 < g.wanted a va) :
    Looked managed roots m g m' g' a va where
  valid := created.valid
  grows := created.grows
  same none := by omega
  quiet still := by omega
  shrinks _ := by
    rw [created.free, List.length_drop]
    omega
  kept _ := created.spare

end

namespace Valid

variable {a : Place} {root : Fin npages} {va : Nat}

section

variable (valid : Valid managed roots m g)

include valid

theorem pml4eWalk_found (here : g.table a = some root)
    (top : a.path = []) (found : g.wanted a va = 0) (create : Bool) :
    ∃ page, g.table (a.table va) = some page ∧
      pml4eWalk m (some root) va create = some (some (page, ptx va), m) := by
  unfold Ledger.wanted at found
  have first := Place.child_length a (pml4 va)
  have second := Place.child_length (a.child (pml4 va)) (pdpe va)
  simp only [top, List.length_nil] at first
  cases there : g.table (a.child (pml4 va)) with
  | none => simp [Layout.missing, there] at found
  | some pdpt =>
    cases there' : g.table ((a.child (pml4 va)).child (pdpe va)) with
    | none => simp [Layout.missing, there, there'] at found
    | some pgdir =>
      cases there'' : g.table (a.table va) with
      | none => simp_all [Layout.missing, Place.table]
      | some page =>
        obtain ⟨ran, linked⟩ := valid.demandTable_found here (by simp [top]) there create
        obtain ⟨ran', linked'⟩ := valid.demandTable_found there (by omega) there' create
        obtain ⟨ran'', linked''⟩ := valid.demandTable_found there' (by omega) there'' create
        refine ⟨page, rfl, ?_⟩
        simp [pml4eWalk, pdpeWalk, pgdirWalk, ran, linked, ran', linked', ran'', linked'',
          kaddr_val]

/-- Every walk with `create` set, with or without memory enough. -/
theorem pml4eWalk_looked (va : Nat) (here : g.table a = some root)
    (top : a.path = []) (based : a.owner ≠ none ∨ g.table (a.child (pml4 va)) ≠ none) :
    ∃ found m' g', pml4eWalk m (some root) va true = some (found, m') ∧
      Looked managed roots m g m' g' a va ∧
      ((∃ page, found = some (page, ptx va) ∧ g'.table (a.table va) = some page ∧
          g.wanted a va ≤ g.free.length ∧ g'.spare = g.spare ∧
          g'.free = g.free.drop (g.wanted a va)) ∨
        (found = none ∧ g.free.length < g.wanted a va)) := by
  by_cases enough : g.wanted a va ≤ g.free.length
  · by_cases none : g.wanted a va = 0
    · obtain ⟨page, there, ran⟩ := valid.pml4eWalk_found here top none true
      exact ⟨_, m, g, ran, .refl valid none,
        .inl ⟨page, rfl, there, enough, rfl, by rw [none, List.drop_zero]⟩⟩
    · obtain ⟨m', g', page, ran, there, created⟩ := valid.pml4eWalk_ok va here top enough
      exact ⟨_, m', g', ran, created.looked enough (Nat.pos_of_ne_zero none),
        .inl ⟨page, rfl, there, enough, created.spare, created.free⟩⟩
  · have lacking := Nat.lt_of_not_le enough
    obtain ⟨m', g', ran, stuck⟩ := valid.pml4eWalk_full va here top based lacking
    exact ⟨_, m', g', ran, stuck.looked lacking, .inr ⟨rfl, lacking⟩⟩

theorem wanted_of_table {e : EnvIdx} {page : Fin npages}
    (user : pml4 va ≠ pml4 uvpt) (there : g.table ((Place.root (some e)).table va) = some page) :
    g.wanted (.root (some e)) va = 0 := by
  unfold Ledger.wanted
  by_cases shared : pml4 va = 1
  · rw [Place.table_shared shared] at there
    obtain ⟨pgdir, above⟩ := valid.tree.parent there
    obtain ⟨pdpt, top⟩ := valid.tree.parent above
    simp [Layout.missing, shared, Place.child_none, there, above, top]
  · have plain : ¬ (Place.root (some e)).Special (pml4 va) := fun special =>
      special.2.2.elim shared user
    rw [Place.table_own shared user] at there
    obtain ⟨pgdir, above⟩ := valid.tree.parent there
    obtain ⟨pdpt, top⟩ := valid.tree.parent above
    simp [Layout.missing, Place.child_plain plain, Place.child_cons, there, above, top]

theorem pageLookup_looked (here : g.table a = some root)
    (top : a.path = []) (based : a.owner ≠ none ∨ g.table (a.child (pml4 va)) ≠ none)
    {found : Option (Fin npages × Slot npages)}
    (ran : pageLookup m (some root) va = some (found, m')) :
    ∃ g', Looked managed roots m g m' g' a va := by
  obtain ⟨slot, m'', g'', walked, looked, -⟩ := valid.pml4eWalk_looked va here top based
  refine ⟨g'', ?_⟩
  have same : m' = m'' := by
    cases slot with
    | none => simp_all [pageLookup]
    | some slot =>
      simp only [pageLookup, walked, Option.bind_eq_bind, Option.bind_some] at ran
      split at ran
      · obtain ⟨page, -, ended⟩ := Option.bind_eq_some_iff.mp ran
        simp_all
      · simp_all
  exact same ▸ looked

end

section leaf
variable {e : EnvIdx}

/-- A page that is not mapped is not found; the lookup may have created tables. -/
theorem pageLookup_absent (valid : Valid managed roots m g) (rooted : roots e = some root)
    (user : pml4 va ≠ pml4 uvpt)
    (absent : (leafEntry m.mem g.table ((Place.root (some e)).table va) (ptx va)).present = false) :
    ∃ m' g', pageLookup m (some root) va = some (none, m') ∧
      Looked managed roots m g m' g' (.root (some e)) va := by
  have here := valid.top rooted
  obtain ⟨slot, m', g', walked, looked, outcome⟩ := valid.pml4eWalk_looked va here rfl
    (.inl (by simp))
  refine ⟨m', g', ?_, looked⟩
  rcases outcome with ⟨page, rfl, there, -⟩ | ⟨rfl, -⟩
  · have deep : ((Place.root (some e)).table va).path.length = 3 := by
      by_cases shared : pml4 va = 1
      · simp [Place.table_shared shared]
      · simp [Place.table_own shared user]
    have entry : (m'.entry (page, ptx va)).present = false := by
      rw [← looked.grows.leaves deep, leafEntry_some there] at absent
      exact absent
    simp [pageLookup, walked, entry]
  · simp [pageLookup, walked]

theorem pageLookup_present (valid : Valid managed roots m g) (rooted : roots e = some root)
    (user : pml4 va ≠ pml4 uvpt)
    (present : (leafEntry m.mem g.table ((Place.root (some e)).table va) (ptx va)).present = true) :
    g.wanted (.root (some e)) va = 0 ∧
    ∃ page, g.table ((Place.root (some e)).table va) = some page ∧
      pageLookup m (some root) va =
        (pa2page npages (m.mem page (ptx va)).ppn).map fun found =>
          (some (found, (page, ptx va)), m) := by
  have here := valid.top rooted
  cases there : g.table ((Place.root (some e)).table va) with
  | none => simp [leafEntry_none there] at present
  | some page =>
    have zero := valid.wanted_of_table user there
    obtain ⟨page', there', walked⟩ := valid.pml4eWalk_found here rfl zero true
    obtain rfl : page = page' := Option.some.inj (there.symm.trans there')
    rw [leafEntry_some there] at present
    refine ⟨zero, page, rfl, ?_⟩
    simp only [pageLookup, walked, Option.bind_eq_bind, Option.bind_some, Pmap.entry, present,
      if_true]
    cases pa2page npages (m.mem page (ptx va)).ppn <;> rfl

theorem leaf_cases (valid : Valid managed roots m g) {a : Place} {t : Index}
    (mappable : a.Mappable t) :
    leafEntry m.mem g.table a t = 0 ∨
      ∃ page target, g.table a = some page ∧ leafEntry m.mem g.table a t = m.mem page t ∧
        Maps managed g.table (m.mem page t) target := by
  cases there : g.table a with
  | none => exact .inl (leafEntry_none there)
  | some page =>
    rw [leafEntry_some there]
    rcases valid.tree.leaf there mappable with empty | ⟨target, maps⟩
    · exact .inl empty
    · exact .inr ⟨page, target, rfl, rfl, maps⟩

end leaf

end Valid

theorem Place.mappable_user {e : EnvIdx} {va : Nat}
    (mappable : ((Place.root (some e)).table va).Mappable (ptx va)) : pml4 va ≠ pml4 uvpt := by
  intro self
  obtain ⟨k, j, i, path, which⟩ := mappable
  unfold Place.table at path
  rw [self, Place.child_self] at path
  by_cases shared : pdpe va = 1
  · rw [shared, Place.child_shared, Place.child_none] at path
    simp at path
  · have first := Place.child_length (Place.root (some e)) (pdpe va)
    have second := Place.child_length ((Place.root (some e)).child (pdpe va)) (pdx va)
    rw [path] at second
    simp only [Place.root_path, List.length_nil, List.length_cons] at first second
    omega

end Jos
