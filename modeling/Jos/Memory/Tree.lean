import Mathlib.Data.Set.Basic
import Jos.Memory.Place

/-! The trees of page tables in physical memory. A layout says which page is the
table at which place; the trees are well formed when every table entry says the
same, and when every leaf entry that a page call can write maps a page that is
not a table. -/

set_option autoImplicit false

namespace Jos

open Function

variable {npages : Nat} {page : Fin npages}

abbrev Memory (npages : Nat) := Fin npages → Index → Pte

abbrev Layout (npages : Nat) := Place → Option (Fin npages)

def Memory.write (mem : Memory npages) (slot : Slot npages) (entry : Pte) : Memory npages :=
  update mem slot.1 (update (mem slot.1) slot.2 entry)

namespace Memory

variable {mem : Memory npages} {slot : Slot npages} {entry : Pte}

@[simp] theorem write_same {page : Fin npages} {i : Index} :
    mem.write (page, i) entry page i = entry := by
  simp [write]

theorem write_other {i : Index} (differs : (page, i) ≠ slot) :
    mem.write slot entry page i = mem page i := by
  by_cases here : page = slot.1
  · subst here
    have index : i ≠ slot.2 := fun same => differs (by rw [same])
    simp [write, index]
  · simp [write, here]

theorem write_page (differs : page ≠ slot.1) : mem.write slot entry page = mem page := by
  simp [write, differs]

@[simp] theorem write_write {again : Pte} :
    (mem.write slot entry).write slot again = mem.write slot again := by
  simp [write]

end Memory

def tableEntry : Option (Fin npages) → Pte
  | none => 0
  | some page => ⟨page.val, tablePerm⟩

def Placed (table : Layout npages) (page : Fin npages) : Prop := ∃ a, table a = some page

/-- A leaf entry that maps a page. Only pages that the allocator manages are
mapped writable, and no table is mapped. -/
structure Maps (managed : Set (Fin npages)) (table : Layout npages) (entry : Pte)
    (page : Fin npages) : Prop where
  ppn : entry.ppn = page.val
  present : entry.present = true
  kind : page ∈ managed ∨ entry.writable = false
  unplaced : ¬ Placed table page

/-- The trees of tables rooted at `boot_pml4e` and at the PML4 of every
environment that has one. -/
structure Tree (managed : Set (Fin npages)) (roots : EnvIdx → Option (Fin npages))
    (boot : Fin npages) (mem : Memory npages) (table : Layout npages) : Prop where
  root : ∀ e, table (.root (some e)) = roots e
  bootRoot : table (.root none) = some boot
  shared : (∃ page, table ⟨none, [1]⟩ = some page) ∨ ∀ e, roots e = none
  injective : ∀ {a b page}, table a = some page → table b = some page → a = b
  parent : ∀ {owner i path page}, table ⟨owner, i :: path⟩ = some page →
    ∃ above, table ⟨owner, path⟩ = some above
  depth : ∀ {a page}, table a = some page → a.path.length ≤ 3
  plain : ∀ {e i page}, table ⟨some e, [i]⟩ = some page → i ≠ 1 ∧ i ≠ pml4 uvpt
  link : ∀ {a page}, table a = some page → a.path.length < 3 → ∀ i,
    mem page i = tableEntry (table (a.child i))
  leaf : ∀ {a page t}, table a = some page → a.Mappable t →
    mem page t = 0 ∨ ∃ target, Maps managed table (mem page t) target
  kernel : ∀ {a page t}, table a = some page → a.path.length = 3 → ¬ a.Mappable t →
    ¬ ((mem page t).writable = true ∧ (mem page t).user = true)
  tableManaged : ∀ {a page}, table a = some page → a ≠ .root none → page ∈ managed
  bootUnmanaged : boot ∉ managed

namespace Tree

variable {managed : Set (Fin npages)} {roots : EnvIdx → Option (Fin npages)}
  {boot : Fin npages} {mem : Memory npages} {table : Layout npages}

section

variable (tree : Tree managed roots boot mem table)

include tree

theorem ancestor {owner : Option EnvIdx}
    {path : List Index} (here : table ⟨owner, path⟩ = some page) :
    ∃ root, table (.root owner) = some root := by
  induction path generalizing page with
  | nil => exact ⟨page, here⟩
  | cons i path ih =>
    obtain ⟨above, there⟩ := tree.parent here
    exact ih there

theorem absent_of_root {e : EnvIdx}
    (rootless : roots e = none) (path : List Index) : table ⟨some e, path⟩ = none := by
  cases here : table ⟨some e, path⟩ with
  | none => rfl
  | some page =>
    obtain ⟨root, there⟩ := tree.ancestor here
    rw [tree.root, rootless] at there
    cases there

theorem absent_child {owner : Option EnvIdx}
    {path : List Index} (absent : table ⟨owner, path⟩ = none) (i : Index) :
    table ⟨owner, i :: path⟩ = none := by
  cases here : table ⟨owner, i :: path⟩ with
  | none => rfl
  | some page =>
    obtain ⟨above, there⟩ := tree.parent here
    rw [absent] at there
    cases there

theorem plain_of_absent {a : Place} {i : Index} (here : table a = some page)
    (absent : table (a.child i) = none) : ¬ a.Special i := by
  intro special
  obtain ⟨owned, path, which⟩ := special
  cases a with
  | mk owner path' =>
    cases owner with
    | none => exact owned rfl
    | some e =>
      simp only at path
      subst path
      have rooted := tree.root e
      rcases which with rfl | rfl
      · rcases tree.shared with ⟨shared, there⟩ | rootless
        · have spot := Place.child_shared (e := e)
          unfold Place.root at spot
          rw [spot, there] at absent
          cases absent
        · rw [rootless e] at rooted
          exact Option.some_ne_none _ (here.symm.trans rooted)
      · have spot := Place.child_self (e := e)
        unfold Place.root at spot
        rw [spot, here] at absent
        cases absent

theorem entry_of_absent {a b : Place}
    {page other : Fin npages} {i j : Index} (here : table a = some page)
    (absent : table (a.child i) = none) (there : table b = some other)
    (same : b.child j = a.child i) : b = a ∧ j = i := by
  have plain := tree.plain_of_absent here absent
  have plain' := tree.plain_of_absent there (same ▸ absent)
  rw [Place.child_plain plain, Place.child_plain plain'] at same
  cases a
  cases b
  simp_all

theorem scratch {mem' : Memory npages} (same : ∀ page, Placed table page → mem' page = mem page) :
    Tree managed roots boot mem' table := by
  have same {a : Place} {page : Fin npages} (here : table a = some page) :
      mem' page = mem page := same page ⟨a, here⟩
  exact
    { tree with
      link := fun here short i => by rw [same here]; exact tree.link here short i
      leaf := fun here mappable => by rw [same here]; exact tree.leaf here mappable
      kernel := fun here deep unmappable => by
        rw [same here]; exact tree.kernel here deep unmappable }

end

structure Unused (mem : Memory npages) (table : Layout npages) (page : Fin npages) : Prop where
  unplaced : ¬ Placed table page
  unmapped : ∀ {a holder t}, table a = some holder → a.Mappable t →
    (mem holder t).present = true → (mem holder t).ppn ≠ page.val

theorem maps_update {a : Place} {page target : Fin npages} {entry : Pte}
    (maps : Maps managed table entry target) (differs : target ≠ page) :
    Maps managed (update table a (some page)) entry target :=
  { maps with
    unplaced := by
      rintro ⟨b, there⟩
      by_cases here : b = a
      · subst here
        exact differs (Option.some.inj (by simpa using there.symm))
      · exact maps.unplaced ⟨b, by simpa [here] using there⟩ }

theorem leaf_update (tree : Tree managed roots boot mem table) {a b : Place}
    {page holder : Fin npages} {t : Index} (unused : Unused mem table page)
    (there : table b = some holder) (mappable : b.Mappable t) :
    mem holder t = 0 ∨ ∃ target,
      Maps managed (update table a (some page)) (mem holder t) target := by
  rcases tree.leaf there mappable with empty | ⟨target, maps⟩
  · exact .inl empty
  · refine .inr ⟨target, maps_update maps fun same => ?_⟩
    exact unused.unmapped there mappable maps.present (by rw [maps.ppn, same])

theorem attach (tree : Tree managed roots boot mem table) {a : Place} {holder page : Fin npages}
    {i : Index} (here : table a = some holder) (short : a.path.length < 3)
    (absent : table (a.child i) = none) (allocated : page ∈ managed)
    (unused : Unused mem table page) (zero : ∀ j, mem page j = 0) :
    Tree managed roots boot (mem.write (holder, i) ⟨page.val, tablePerm⟩)
      (update table (a.child i) (some page)) := by
  have plain := tree.plain_of_absent here absent
  have spot := Place.child_plain plain
  have distinct : page ≠ holder := fun same => unused.unplaced ⟨a, same ▸ here⟩
  -- a place with a table is the new one or was there before
  have cases' {b : Place} {p : Fin npages}
      (there : update table (a.child i) (some page) b = some p) :
      (b = a.child i ∧ p = page) ∨ (b ≠ a.child i ∧ table b = some p) := by
    by_cases new : b = a.child i
    · subst new
      exact .inl ⟨rfl, Option.some.inj (by simpa using there.symm)⟩
    · exact .inr ⟨new, by simpa [new] using there⟩
  have old {b : Place} {p : Fin npages} (there : table b = some p) :
      update table (a.child i) (some page) b = some p := by
    rw [update_of_ne (by rintro rfl; rw [absent] at there; cases there), there]
  have pathNe {owner : Option EnvIdx} : Place.root owner ≠ a.child i := by
    rw [spot]
    simp [Place.root]
  have leafMem {b : Place} {p : Fin npages} {t : Index} (there : table b = some p)
      (deep : b.path.length = 3) :
      mem.write (holder, i) ⟨page.val, tablePerm⟩ p t = mem p t := by
    refine Memory.write_other fun same => ?_
    cases same
    have equal := tree.injective here there
    subst equal
    omega
  refine
    { root := fun e => by rw [update_of_ne pathNe]; exact tree.root e
      bootRoot := old tree.bootRoot
      shared := tree.shared.imp (fun there => ⟨_, old there.choose_spec⟩) id
      injective := ?_, parent := ?_, depth := ?_, plain := ?_, link := ?_, leaf := ?_
      kernel := ?_, tableManaged := ?_
      bootUnmanaged := tree.bootUnmanaged }
  · intro b c p first second
    rcases cases' first with ⟨rfl, rfl⟩ | ⟨-, first⟩ <;>
      rcases cases' second with ⟨rfl, same⟩ | ⟨-, second⟩
    · rfl
    · exact absurd ⟨_, second⟩ unused.unplaced
    · exact absurd ⟨_, same ▸ first⟩ unused.unplaced
    · exact tree.injective first second
  · intro owner k path p there
    rcases cases' there with ⟨same, -⟩ | ⟨-, there⟩
    · rw [spot] at same
      injection same with owners paths
      injection paths with _ paths
      refine ⟨holder, old ?_⟩
      rw [owners, paths]
      exact here
    · obtain ⟨above, there⟩ := tree.parent there
      exact ⟨above, old there⟩
  · intro b p there
    rcases cases' there with ⟨rfl, -⟩ | ⟨-, there⟩
    · have := Place.child_length a i
      omega
    · exact tree.depth there
  · intro e k p there
    rcases cases' there with ⟨same, -⟩ | ⟨-, there⟩
    · rw [spot] at same
      injection same with owners paths
      injection paths with index path
      refine ⟨fun one => plain ⟨?_, path.symm, ?_⟩, fun self => plain ⟨?_, path.symm, ?_⟩⟩
      · exact owners ▸ Option.some_ne_none e
      · exact .inl (index ▸ one)
      · exact owners ▸ Option.some_ne_none e
      · exact .inr (index ▸ self)
    · exact tree.plain there
  · intro b p found shallow k
    rcases cases' found with ⟨rfl, rfl⟩ | ⟨new, there⟩
    · rw [Memory.write_page distinct, zero k]
      have empty : table ((a.child i).child k) = none := by
        rw [spot] at absent ⊢
        rw [Place.child_cons]
        exact tree.absent_child absent k
      have deeper : (a.child i).child k ≠ a.child i := by
        rw [spot, Place.child_cons]
        simp
      rw [update_of_ne deeper, empty]
      rfl
    · by_cases same : b.child k = a.child i
      · obtain ⟨rfl, rfl⟩ := tree.entry_of_absent here absent there same
        have equal : p = holder := Option.some.inj (there.symm.trans here)
        subst equal
        rw [update_self]
        exact Memory.write_same
      · rw [update_of_ne same, ← tree.link there shallow k]
        refine Memory.write_other fun slots => same ?_
        cases slots
        rw [tree.injective there here]
  · intro b p t there mappable
    rcases cases' there with ⟨rfl, rfl⟩ | ⟨-, there⟩
    · exact .inl (by rw [Memory.write_page distinct, zero])
    · rw [leafMem there mappable.length]
      exact tree.leaf_update unused there mappable
  · intro b p t there deep unmappable
    rcases cases' there with ⟨rfl, rfl⟩ | ⟨-, there⟩
    · rw [Memory.write_page distinct, zero]
      simp [Pte.writable]
    · rw [leafMem there deep]
      exact tree.kernel there deep unmappable
  · intro b p there notBoot
    rcases cases' there with ⟨rfl, rfl⟩ | ⟨-, there⟩
    · exact allocated
    · exact tree.tableManaged there notBoot

def without (top : Place) (table : Layout npages) : Layout npages :=
  fun a => if top.Below a then none else table a

theorem without_some {top a : Place}
    (there : without top table a = some page) : table a = some page ∧ ¬ top.Below a := by
  unfold without at there
  split at there
  · cases there
  · exact ⟨there, ‹_›⟩

theorem without_of_not {top a : Place} (outside : ¬ top.Below a) :
    without top table a = table a := if_neg outside

theorem without_of_below {top a : Place} (inside : top.Below a) : without top table a = none :=
  if_pos inside

theorem placed_without {top : Place}
    (placed : Placed (without top table) page) : Placed table page := by
  obtain ⟨a, there⟩ := placed
  exact ⟨a, (without_some there).1⟩

section

variable (tree : Tree managed roots boot mem table)

include tree

/-- The subtree of an environment below some place is cut off: the entry that
led to it, if it is not a whole tree, has been cleared. -/
theorem prune {top : Place}
    (owned : top.owner ≠ none) {mem' : Memory npages} {roots' : EnvIdx → Option (Fin npages)}
    (rootsLeft : ∀ e, roots' e = if top = .root (some e) then none else roots e)
    (rest : ∀ {a page}, table a = some page → ¬ top.Below a → ∀ i,
      mem' page i = if a.path.length < 3 ∧ a.child i = top then 0 else mem page i) :
    Tree managed roots' boot mem' (without top table) := by
  have outside {a : Place} (free : a.owner = none) : ¬ top.Below a := fun below =>
    owned (below.1 ▸ free)
  have leafMem {b : Place} {p : Fin npages} {t : Index} (there : table b = some p)
      (kept : ¬ top.Below b) (deep : b.path.length = 3) : mem' p t = mem p t := by
    rw [rest there kept, if_neg (by omega)]
  refine
    { root := ?_
      bootRoot := by rw [without_of_not (outside rfl)]; exact tree.bootRoot
      shared := ?_, injective := ?_, parent := ?_, depth := ?_, plain := ?_, link := ?_
      leaf := ?_, kernel := ?_, tableManaged := ?_
      bootUnmanaged := tree.bootUnmanaged }
  · intro e
    rw [rootsLeft]
    by_cases whole : top = .root (some e)
    · rw [if_pos whole, without_of_below (whole ▸ Place.below_refl _)]
    · rw [if_neg whole, ← tree.root e]
      refine without_of_not fun below => whole ?_
      exact (Place.below_eq below (by simp)).symm
  · refine tree.shared.imp ?_ fun rootless e => ?_
    · rintro ⟨p, there⟩
      exact ⟨p, by rw [without_of_not (outside rfl), there]⟩
    · rw [rootsLeft, rootless e, ite_self]
  · intro b c p first second
    exact tree.injective (without_some first).1 (without_some second).1
  · intro owner k path p there
    obtain ⟨there, kept⟩ := without_some there
    obtain ⟨above, higher⟩ := tree.parent there
    exact ⟨above, by
      rw [without_of_not fun below => kept (Place.below_path_cons below), higher]⟩
  · exact fun there => tree.depth (without_some there).1
  · exact fun there => tree.plain (without_some there).1
  · intro b p there shallow k
    obtain ⟨there, kept⟩ := without_some there
    rw [rest there kept k]
    by_cases last : b.child k = top
    · rw [if_pos ⟨shallow, last⟩, without_of_below (last ▸ Place.below_refl _)]
      rfl
    · rw [if_neg fun both => last both.2, tree.link there shallow k]
      congr 1
      refine (without_of_not fun below => ?_).symm
      by_cases special : b.Special k
      · unfold Place.child at below
        rw [if_pos special] at below
        split at below
        · exact outside rfl below
        · exact kept below
      · exact (Place.below_child special below).elim last kept
  · intro b p t there mappable
    obtain ⟨there, kept⟩ := without_some there
    rw [leafMem there kept mappable.length]
    exact (tree.leaf there mappable).imp id fun ⟨target, maps⟩ =>
      ⟨target, { maps with unplaced := fun placed => maps.unplaced (placed_without placed) }⟩
  · intro b p t there deep unmappable
    obtain ⟨there, kept⟩ := without_some there
    rw [leafMem there kept deep]
    exact tree.kernel there deep unmappable
  · exact fun there notBoot => tree.tableManaged (without_some there).1 notBoot

theorem store {a : Place} {holder : Fin npages}
    {t : Index} {entry : Pte} (here : table a = some holder) (deep : a.path.length = 3)
    (user : a.Mappable t → entry = 0 ∨ ∃ target, Maps managed table entry target)
    (kernel : ¬ a.Mappable t → ¬ (entry.writable = true ∧ entry.user = true)) :
    Tree managed roots boot (mem.write (holder, t) entry) table := by
  have elsewhere {b : Place} {p : Fin npages} {j : Index} (there : table b = some p)
      (differs : b ≠ a ∨ j ≠ t) : mem.write (holder, t) entry p j = mem p j := by
    refine Memory.write_other fun same => ?_
    cases same
    exact differs.elim (fun places => places (tree.injective there here)) fun index => index rfl
  have which {b : Place} {p : Fin npages} {j : Index} (there : table b = some p) :
      (b = a ∧ j = t ∧ mem.write (holder, t) entry p j = entry) ∨
        mem.write (holder, t) entry p j = mem p j := by
    by_cases same : b = a ∧ j = t
    · obtain ⟨rfl, rfl⟩ := same
      have equal : p = holder := Option.some.inj (there.symm.trans here)
      subst equal
      exact .inl ⟨rfl, rfl, Memory.write_same⟩
    · exact .inr (elsewhere there (by tauto))
  refine { tree with link := ?_, leaf := ?_, kernel := ?_ }
  · intro b p there shallow k
    rw [elsewhere there (.inl (by rintro rfl; omega))]
    exact tree.link there shallow k
  · intro b p j there mappable
    rcases which there (j := j) with ⟨rfl, rfl, stored⟩ | same
    · rw [stored]
      exact user mappable
    · rw [same]
      exact tree.leaf there mappable
  · intro b p j there deeper unmappable
    rcases which there (j := j) with ⟨rfl, rfl, stored⟩ | same
    · rw [stored]
      exact kernel unmappable
    · rw [same]
      exact tree.kernel there deeper unmappable

theorem plant {e : EnvIdx} (rootless : roots e = none) (shared : ∃ p, table ⟨none, [1]⟩ = some p)
    (allocated : page ∈ managed) (unused : Unused mem table page)
    (contents : ∀ i, mem page i =
      if i = 1 then tableEntry (table ⟨none, [1]⟩)
      else if i = pml4 uvpt then ⟨page.val, tablePerm⟩ else 0) :
    Tree managed (update roots e (some page)) boot mem
      (update table (.root (some e)) (some page)) := by
  have bare (path : List Index) : table ⟨some e, path⟩ = none := tree.absent_of_root rootless path
  have cases' {b : Place} {p : Fin npages}
      (there : update table (.root (some e)) (some page) b = some p) :
      (b = .root (some e) ∧ p = page) ∨ (b ≠ .root (some e) ∧ table b = some p) := by
    by_cases new : b = .root (some e)
    · subst new
      exact .inl ⟨rfl, Option.some.inj (by simpa using there.symm)⟩
    · exact .inr ⟨new, by simpa [new] using there⟩
  have old {b : Place} {p : Fin npages} (there : table b = some p) :
      update table (.root (some e)) (some page) b = some p := by
    rw [update_of_ne (by rintro rfl; rw [Place.root, bare] at there; cases there), there]
  refine
    { root := ?_
      bootRoot := old tree.bootRoot
      shared := .inl (shared.imp fun p there => old there)
      injective := ?_, parent := ?_, depth := ?_, plain := ?_, link := ?_, leaf := ?_
      kernel := ?_, tableManaged := ?_
      bootUnmanaged := tree.bootUnmanaged }
  · intro e'
    by_cases same : e' = e
    · subst same
      simp
    · rw [update_of_ne same, update_of_ne (by simpa [Place.root] using same)]
      exact tree.root e'
  · intro b c p first second
    rcases cases' first with ⟨rfl, rfl⟩ | ⟨-, first⟩ <;>
      rcases cases' second with ⟨rfl, same⟩ | ⟨-, second⟩
    · rfl
    · exact absurd ⟨_, second⟩ unused.unplaced
    · exact absurd ⟨_, same ▸ first⟩ unused.unplaced
    · exact tree.injective first second
  · intro owner k path p there
    rcases cases' there with ⟨same, -⟩ | ⟨-, there⟩
    · simp [Place.root] at same
    · obtain ⟨above, there⟩ := tree.parent there
      exact ⟨above, old there⟩
  · intro b p there
    rcases cases' there with ⟨rfl, -⟩ | ⟨-, there⟩
    · simp
    · exact tree.depth there
  · intro e' k p there
    rcases cases' there with ⟨same, -⟩ | ⟨-, there⟩
    · simp [Place.root] at same
    · exact tree.plain there
  · intro b p there shallow k
    rcases cases' there with ⟨rfl, rfl⟩ | ⟨new, there⟩
    · rw [contents]
      by_cases one : k = 1
      · subst one
        rw [if_pos rfl, Place.child_shared, update_of_ne (by simp [Place.root])]
      · rw [if_neg one]
        by_cases self : k = pml4 uvpt
        · subst self
          rw [if_pos rfl, Place.child_self, update_self]
          rfl
        · have plain : ¬ (Place.root (some e)).Special k := fun special =>
            special.2.2.elim one self
          rw [if_neg self, Place.child_plain plain, update_of_ne (by simp [Place.root])]
          exact (congrArg tableEntry (bare _)).symm
    · rw [tree.link there shallow k, update_of_ne]
      intro same
      by_cases special : b.Special k
      · unfold Place.child at same
        rw [if_pos special] at same
        split at same
        · simp [Place.root] at same
        · exact new same
      · rw [Place.child_plain special] at same
        simp [Place.root] at same
  · intro b p t there mappable
    rcases cases' there with ⟨rfl, rfl⟩ | ⟨-, there⟩
    · simpa using mappable.length
    · exact tree.leaf_update unused there mappable
  · intro b p t there deep unmappable
    rcases cases' there with ⟨rfl, rfl⟩ | ⟨-, there⟩
    · simp at deep
    · exact tree.kernel there deep unmappable
  · intro b p there notBoot
    rcases cases' there with ⟨rfl, rfl⟩ | ⟨-, there⟩
    · exact allocated
    · exact tree.tableManaged there notBoot

end

end Tree

end Jos
