import Jos.Memory.Translation

/-! The walk that creates page tables, on one tree of tables and the free list:
which tables it adds, and what is left of them when memory runs out on the way.
Nothing is asked of the rest of the kernel, so the root may be that of any
address space. -/

set_option autoImplicit false

namespace Jos

open Foundation

variable {npages : Nat} {m m' : Pmap npages} {root holder page : Fin npages}
  {free pages rest : List (Fin npages)} {indices : List Index} {va : Nat} {i : Index}
  {other : Fin npages}

namespace Pmap

/-- A tree of page tables beside a free list: the free pages are counted zero and
are none of the tables, and every entry of a table above the last level is empty
or leads to a table. -/
structure Rooted (m : Pmap npages) (root : Fin npages) (free : List (Fin npages)) : Prop where
  listed : m.FreeList free
  idle : ∀ page ∈ free, (m.pages page).ppRef = 0
  unfree : ∀ {depth page}, depth ≤ 3 → m.TableAt root depth page → page ∉ free
  linked : ∀ {depth page}, depth < 3 → m.TableAt root depth page → ∀ i,
    m.mem page i = 0 ∨ ∃ below, m.next page i = some below

def tables (m : Pmap npages) : Fin npages → List Index → List (Fin npages)
  | _, [] => []
  | holder, i :: indices =>
    match m.next holder i with
    | none => []
    | some below => below :: tables m below indices

def slots (m : Pmap npages) : Fin npages → List Index → List (Slot npages)
  | _, [] => []
  | holder, i :: indices =>
    (holder, i) ::
      match m.next holder i with
      | none => []
      | some below => slots m below indices

/-- The last table met along some indices, and the indices that are left there. -/
def deepest (m : Pmap npages) : Fin npages → List Index → Fin npages × List Index
  | holder, [] => (holder, [])
  | holder, i :: indices =>
    match m.next holder i with
    | none => (holder, i :: indices)
    | some below => deepest m below indices

def grow (m : Pmap npages) : Fin npages → List Index → List (Fin npages) → Pmap npages
  | holder, i :: indices, page :: pages => (m.create (holder, i) page).grow page indices pages
  | _, _, _ => m

def cleared (m : Pmap npages) (pages : List (Fin npages)) (page : Fin npages) (i : Index) : Pte :=
  if page ∈ pages then 0 else m.mem page i

theorem FreeList.create (listed : m.FreeList (page :: rest)) (slot : Slot npages) :
    (m.create slot page).FreeList rest := by
  have fresh := (List.nodup_cons.mp listed.nodup).1
  change Chain (fun other => ((m.create slot page).pages other).ppLink)
    (m.create slot page).pageFreeList rest
  have head : (m.create slot page).pageFreeList = (m.pages page).ppLink := by simp [Pmap.create]
  rw [head]
  refine Chain.congr listed.2 fun other member => ?_
  have other' : other ≠ page := fun equal => fresh (equal ▸ member)
  simp [Pmap.create, take_link, other']

theorem create_ref (idle : (m.pages page).ppRef = 0) {slot : Slot npages} :
    ((m.create slot page).pages other).ppRef =
      if other = page then 1 else (m.pages other).ppRef := by
  simp only [Pmap.create, setEntry_pages, incRef_ref, take_ref, idle]
  rfl

theorem create_link {slot : Slot npages} : ((m.create slot page).pages other).ppLink =
      if other = page then none else (m.pages other).ppLink := by
  simp [Pmap.create, take_link]

theorem create_mem_slot : (m.create (holder, i) page).mem holder i = ⟨page.val, tablePerm⟩ := by
  simp [Pmap.create]

theorem create_mem_page {i j : Index} (differs : page ≠ holder) :
    (m.create (holder, i) page).mem page j = 0 := by
  have apart : page ≠ ((holder, i) : Slot npages).1 := differs
  simp [Pmap.create, Memory.write_page apart]

theorem create_mem_other {slot : Slot npages} {j : Index}
    (differs : other ≠ page) (elsewhere : (other, j) ≠ slot) :
    (m.create slot page).mem other j = m.mem other j := by
  simp [Pmap.create, Memory.write_other elsewhere, take_mem_ne differs]

theorem cleared_create {i j : Index} (apart : page ≠ holder)
    (elsewhere : (other, j) ≠ (holder, i)) :
    (m.create (holder, i) page).cleared pages other j = m.cleared (page :: pages) other j := by
  unfold cleared
  by_cases member : other ∈ pages
  · simp [member]
  · by_cases same : other = page
    · subst same
      simp [create_mem_page apart]
    · simp [member, same, create_mem_other same elsewhere]

theorem next_table (linked : m.mem holder i = ⟨page.val, tablePerm⟩) :
    m.next holder i = some page := by
  have present : (⟨page.val, tablePerm⟩ : Pte).present = true := by
    have bit : tablePerm.getLsbD 0 = true := by decide
    exact bit
  unfold next
  rw [linked, if_pos present, kaddr_val]

theorem next_empty (empty : m.mem holder i = 0) : m.next holder i = none := by
  unfold next
  rw [empty]
  rfl

theorem next_congr (same : m'.mem holder i = m.mem holder i) : m'.next holder i = m.next holder i := by
  simp only [next, same]

theorem entry_ne_zero (linked : m.next holder i = some page) : m.mem holder i ≠ 0 :=
  fun empty => by
    rw [next_empty empty] at linked
    cases linked

theorem kaddr_of_next (linked : m.next holder i = some page) :
    kaddr npages (m.entry (holder, i)).ppn = some page := by
  unfold next at linked
  split at linked
  · exact linked
  · cases linked

structure Grown (m : Pmap npages) (holder : Fin npages) (indices : List Index)
    (pages rest : List (Fin npages)) (m' : Pmap npages) : Prop where
  listed : m'.FreeList rest
  ref : ∀ page, (m'.pages page).ppRef = if page ∈ pages then 1 else (m.pages page).ppRef
  link : ∀ page, (m'.pages page).ppLink = if page ∈ pages then none else (m.pages page).ppLink
  tables : m'.tables holder indices = pages
  mem : ∀ page i, m'.mem page i ≠ m.cleared pages page i →
    (page, i) ∈ m'.slots holder indices ∧ m.cleared pages page i = 0
  last : ∀ page ∈ pages.getLast?, ∀ i, m'.mem page i = 0

theorem grown (listed : m.FreeList (pages ++ rest))
    (idle : ∀ page ∈ pages, (m.pages page).ppRef = 0) (outside : holder ∉ pages)
    (empty : ∀ i ∈ indices.head?, m.mem holder i = 0) (fits : pages.length ≤ indices.length) :
    m.Grown holder indices pages rest (m.grow holder indices pages) := by
  induction pages generalizing m holder indices with
  | nil =>
    have same : m.grow holder indices [] = m := by cases indices <;> rfl
    rw [same]
    refine ⟨listed, by simp, by simp, ?_, fun page i changed => ?_, nofun⟩
    · cases indices with
      | nil => rfl
      | cons i indices => simp [Pmap.tables, next_empty (empty i rfl)]
    · simp [cleared] at changed
  | cons page pages ih =>
    cases indices with
    | nil => simp at fits
    | cons i indices =>
      have distinct := List.nodup_cons.mp listed.nodup
      have fresh : page ∉ pages := fun member => distinct.1 (List.mem_append_left _ member)
      have apart : page ≠ holder := fun same => outside (same ▸ List.mem_cons_self)
      have above : holder ∉ pages := fun member => outside (List.mem_cons_of_mem _ member)
      have zero := idle page List.mem_cons_self
      have others : ∀ other ∈ pages, other ≠ page := fun other member same =>
        fresh (same ▸ member)
      have more : (m.create (holder, i) page).Grown page indices pages rest _ :=
        ih (listed.create _) (fun other member => by
          rw [create_ref zero, if_neg (others other member)]
          exact idle other (List.mem_cons_of_mem _ member))
        fresh (fun _ _ => create_mem_page apart) (by simpa using fits)
      change m.Grown holder (i :: indices) (page :: pages) rest
        ((m.create (holder, i) page).grow page indices pages)
      have final : pages = [] →
          (m.create (holder, i) page).grow page indices pages = m.create (holder, i) page := by
        rintro rfl
        cases indices <;> rfl
      generalize (m.create (holder, i) page).grow page indices pages = m' at more final ⊢
      have entry : m'.mem holder i = ⟨page.val, tablePerm⟩ := by
        by_contra changed
        have kept := (more.mem holder i (by
          simpa only [cleared, if_neg above, create_mem_slot] using changed)).2
        rw [cleared, if_neg above, create_mem_slot] at kept
        have bare : tablePerm = 0 := congrArg Pte.perm kept
        exact absurd bare (by decide)
      have linked := next_table entry
      refine ⟨more.listed, fun other => ?_, fun other => ?_, ?_, fun other j changed => ?_,
        fun other member j => ?_⟩
      · rw [more.ref, create_ref zero]
        by_cases member : other ∈ pages
        · simp [member]
        · by_cases same : other = page <;> simp [member, same]
      · rw [more.link, create_link]
        by_cases member : other ∈ pages
        · simp [member]
        · by_cases same : other = page <;> simp [member, same]
      · simp [Pmap.tables, linked, more.tables]
      · unfold slots
        rw [linked]
        by_cases here : (other, j) = (holder, i)
        · obtain ⟨rfl, rfl⟩ := Prod.mk.inj here
          refine ⟨List.mem_cons_self, ?_⟩
          rw [cleared, if_neg outside, empty j rfl]
        · rw [← cleared_create apart here] at changed ⊢
          obtain ⟨visited, blank⟩ := more.mem other j changed
          exact ⟨List.mem_cons_of_mem _ visited, blank⟩
      · cases pages with
        | nil =>
          obtain rfl : page = other := by simpa using member
          rw [final rfl, create_mem_page apart]
        | cons next pages => exact more.last other (by simpa using member) j

/-! Following some indices before and after. -/

/-- Along some indices, no table met is free, and every entry met is empty or leads
to a table. -/
def Leads (m : Pmap npages) (free : List (Fin npages)) : Fin npages → List Index → Prop
  | holder, [] => holder ∉ free
  | holder, i :: indices =>
    holder ∉ free ∧
      (m.mem holder i = 0 ∨ ∃ below, m.next holder i = some below ∧ Leads m free below indices)

theorem Leads.outside (leads : m.Leads free holder indices) : holder ∉ free := by
  cases indices with
  | nil => exact leads
  | cons _ _ => exact leads.1

theorem Leads.blank (outside : holder ∉ free) (empty : m.mem holder i = 0) :
    m.Leads free holder (i :: indices) :=
  ⟨outside, .inl empty⟩

theorem Rooted.leads (rooted : m.Rooted root free) {depth : Nat}
    (reached : m.TableAt root depth holder) (short : depth + indices.length ≤ 3) :
    m.Leads free holder indices := by
  induction indices generalizing holder depth with
  | nil => exact rooted.unfree short reached
  | cons i indices ih =>
    simp only [List.length_cons] at short
    refine ⟨rooted.unfree (by omega) reached, ?_⟩
    rcases rooted.linked (by omega) reached i with empty | ⟨below, linked⟩
    · exact .inl empty
    · have deeper : m.TableAt root (depth + 1) below := ⟨holder, i, reached, linked⟩
      exact .inr ⟨below, linked, ih deeper (by omega)⟩

theorem Leads.deepest (leads : m.Leads free holder indices) :
    (m.deepest holder indices).1 ∉ free ∧
      ∀ i ∈ (m.deepest holder indices).2.head?, m.mem (m.deepest holder indices).1 i = 0 := by
  induction indices generalizing holder with
  | nil => exact ⟨leads, nofun⟩
  | cons i indices ih =>
    obtain ⟨outside, empty | ⟨below, linked, leads⟩⟩ := leads
    · simpa [Pmap.deepest, next_empty empty] using ⟨outside, empty⟩
    · simpa [Pmap.deepest, linked] using ih leads

theorem tables_append (kept : ∀ page i, page ∉ free → m.mem page i ≠ 0 →
      m'.mem page i = m.mem page i) (leads : m.Leads free holder indices) :
    m'.tables holder indices = m.tables holder indices ++
      m'.tables (m.deepest holder indices).1 (m.deepest holder indices).2 := by
  induction indices generalizing holder with
  | nil => rfl
  | cons i indices ih =>
    obtain ⟨outside, empty | ⟨below, linked, leads⟩⟩ := leads
    · simp [tables, Pmap.deepest, next_empty empty]
    · have linked' : m'.next holder i = some below :=
        (next_congr (kept holder i outside (entry_ne_zero linked))).trans linked
      simp [tables, Pmap.deepest, linked, linked', ih leads]

theorem slots_append (kept : ∀ page i, page ∉ free → m.mem page i ≠ 0 →
      m'.mem page i = m.mem page i) (leads : m.Leads free holder indices) :
    ∀ slot ∈ m'.slots (m.deepest holder indices).1 (m.deepest holder indices).2,
      slot ∈ m'.slots holder indices := by
  induction indices generalizing holder with
  | nil => exact fun _ => id
  | cons i indices ih =>
    obtain ⟨outside, empty | ⟨below, linked, leads⟩⟩ := leads
    · simp [Pmap.deepest, next_empty empty]
    · have linked' : m'.next holder i = some below :=
        (next_congr (kept holder i outside (entry_ne_zero linked))).trans linked
      intro slot visited
      simp only [Pmap.deepest, linked] at visited
      simp only [slots, linked']
      exact List.mem_cons_of_mem _ (ih leads slot visited)

def way (va : Nat) : List Index := [pml4 va, pdpe va, pdx va]

theorem missing_deepest : m.missing root va = (m.deepest root (way va)).2.length := by
  unfold missing way
  cases first : m.next root (pml4 va) with
  | none => simp [deepest, first]
  | some pdpt =>
    cases second : m.next pdpt (pdpe va) with
    | none => simp [deepest, first, second]
    | some pgdir =>
      cases third : m.next pgdir (pdx va) <;> simp [deepest, first, second, third]

/-- What the walk comes to without the undo at the top: the missing tables, as far
as there are free pages, and the entry when all of them are there. -/
def walked (m : Pmap npages) (last : Fin npages × List Index) (free : List (Fin npages))
    (va : Nat) : Option (Slot npages) × Pmap npages :=
  (if last.2.length ≤ free.length then
      some ((free.take last.2.length).getLastD last.1, ptx va)
    else none,
    m.grow last.1 last.2 (free.take last.2.length))

theorem walked_nil : m.walked (holder, []) free va = (some (holder, ptx va), m) := by
  simp [walked, grow]

theorem walked_empty : m.walked (holder, i :: indices) [] va = (none, m) := by
  simp [walked, grow]

theorem walked_create : m.walked (holder, i :: indices) (page :: rest) va =
      (m.create (holder, i) page).walked (page, indices) rest va := by
  simp [walked, grow, List.getLast?_cons]

section steps
variable {i : Index}

theorem demandTable_next (linked : m.next holder i = some page) (create : Bool) :
    demandTable m (holder, i) create = some (none, m) :=
  if_neg (entry_ne_zero linked)

theorem demandTable_nil (listed : m.FreeList []) (empty : m.mem holder i = 0) :
    demandTable m (holder, i) true = none := by
  have none : m.pageFreeList = none := listed
  have entry : m.entry (holder, i) = 0 := empty
  simp [demandTable, entry, pageAlloc, none]

theorem demandTable_cons (listed : m.FreeList (page :: rest)) (empty : m.mem holder i = 0) :
    demandTable m (holder, i) true = some (some page, m.create (holder, i) page) := by
  have head : m.pageFreeList = some page := listed.1
  have entry : m.entry (holder, i) = 0 := empty
  simp [demandTable, entry, pageAlloc, head, Pmap.create, Pmap.take]

theorem deepest_next (linked : m.next holder i = some page) :
    m.deepest holder (i :: indices) = m.deepest page indices := by
  simp [deepest, linked]

theorem deepest_empty (empty : m.mem holder i = 0) :
    m.deepest holder (i :: indices) = (holder, i :: indices) := by
  simp [deepest, next_empty empty]

end steps

theorem pgdirWalk_eq (listed : m.FreeList free) (leads : m.Leads free holder [pdx va]) :
    pgdirWalk m holder va true = some (m.walked (m.deepest holder [pdx va]) free va) := by
  obtain ⟨-, empty | ⟨below, linked, -⟩⟩ := leads
  · rw [deepest_empty empty]
    cases free with
    | nil => rw [walked_empty, pgdirWalk, demandTable_nil listed empty]
    | cons page rest =>
      rw [walked_create, walked_nil, pgdirWalk, demandTable_cons listed empty]
      simp [kaddr_of_next (next_table create_mem_slot)]
  · rw [deepest_next linked, deepest, walked_nil, pgdirWalk, demandTable_next linked]
    simp [kaddr_of_next linked]

theorem pdpeWalk_eq (listed : m.FreeList free) (leads : m.Leads free holder [pdpe va, pdx va]) :
    pdpeWalk m holder va true = some (m.walked (m.deepest holder [pdpe va, pdx va]) free va) := by
  obtain ⟨outside, empty | ⟨below, linked, leads⟩⟩ := leads
  · rw [deepest_empty empty]
    cases free with
    | nil => rw [walked_empty, pdpeWalk, demandTable_nil listed empty]
    | cons page rest =>
      have apart : page ≠ holder := fun same => outside (same ▸ List.mem_cons_self)
      have blank : (m.create (holder, pdpe va) page).mem page (pdx va) = 0 :=
        create_mem_page apart
      have deeper := pgdirWalk_eq (listed.create (holder, pdpe va))
        (.blank (List.nodup_cons.mp listed.nodup).1 blank)
      rw [deepest_empty blank] at deeper
      rw [walked_create, pdpeWalk, demandTable_cons listed empty]
      simp [kaddr_of_next (next_table create_mem_slot), deeper]
  · rw [deepest_next linked, pdpeWalk, demandTable_next linked]
    simp [kaddr_of_next linked, pgdirWalk_eq listed leads]

theorem missing_next (linked : m.next root (pml4 va) = some page) : m.missing root va ≤ 2 := by
  rw [missing_deepest, way, deepest_next linked]
  unfold deepest
  split
  · simp
  · unfold deepest
    split <;> simp [deepest]

theorem missing_empty (empty : m.mem root (pml4 va) = 0) : m.missing root va = 3 := by
  rw [missing_deepest, way, deepest_empty empty]
  rfl

theorem pdpeWalk_created (listed : m.FreeList (page :: rest)) (outside : root ∉ page :: rest)
    (empty : m.mem root (pml4 va) = 0) :
    pdpeWalk (m.create (root, pml4 va) page) page va true =
      some (m.walked (m.deepest root (way va)) (page :: rest) va) := by
  have apart : page ≠ root := fun same => outside (same ▸ List.mem_cons_self)
  have blank : (m.create (root, pml4 va) page).mem page (pdpe va) = 0 := create_mem_page apart
  have deeper := pdpeWalk_eq (listed.create (root, pml4 va))
    (.blank (List.nodup_cons.mp listed.nodup).1 blank)
  rw [deepest_empty blank] at deeper
  rw [way, deepest_empty empty, walked_create]
  exact deeper

theorem pml4eWalk_eq (listed : m.FreeList free) (leads : m.Leads free root (way va))
    (kept : ¬ (m.missing root va = 3 ∧ free ≠ [] ∧ free.length < 3)) :
    pml4eWalk m (some root) va true = some (m.walked (m.deepest root (way va)) free va) := by
  obtain ⟨outside, empty | ⟨below, linked, leads⟩⟩ := leads
  · cases free with
    | nil => simp [way, deepest_empty empty, walked_empty, pml4eWalk, demandTable_nil listed empty]
    | cons page rest =>
      have enough : 2 ≤ rest.length := by
        by_contra few
        exact kept ⟨missing_empty empty, List.cons_ne_nil _ _, by simp only [List.length_cons]; omega⟩
      have deeper := pdpeWalk_created listed outside empty
      have found : (m.walked (m.deepest root (way va)) (page :: rest) va).1 ≠ none := by
        simp [way, deepest_empty empty, walked, enough]
      rw [pml4eWalk, demandTable_cons listed empty]
      simp only [kaddr_of_next (next_table create_mem_slot), deeper, Option.bind_eq_bind,
        Option.bind_some]
      generalize m.walked (m.deepest root (way va)) (page :: rest) va = outcome at found ⊢
      obtain ⟨_ | slot, m'⟩ := outcome
      · exact absurd rfl found
      · rfl
  · rw [way, deepest_next linked, pml4eWalk, demandTable_next linked]
    simp [kaddr_of_next linked, pdpeWalk_eq listed leads]

/-- A table made at the top level is given back when the walk comes to nothing. -/
theorem pml4eWalk_undo (listed : m.FreeList (page :: rest))
    (idle : ∀ other ∈ page :: rest, (m.pages other).ppRef = 0)
    (leads : m.Leads (page :: rest) root (way va)) (top : m.missing root va = 3)
    (few : rest.length < 2) :
    pml4eWalk m (some root) va true = some
      (none, ((m.grow root (way va) (page :: rest)).dropRef page).setEntry (root, pml4 va) 0) := by
  have outside := leads.outside
  obtain ⟨-, empty | ⟨below, linked, -⟩⟩ := leads
  · have deeper := pdpeWalk_created listed outside empty
    have short : ¬ 3 ≤ rest.length + 1 := by omega
    have whole : (page :: rest).take 3 = page :: rest :=
      List.take_of_length_le (by simp only [List.length_cons]; omega)
    rw [way, deepest_empty empty] at deeper
    simp only [walked, List.length_cons, List.length_nil, Nat.reduceAdd, whole] at deeper
    rw [if_neg short] at deeper
    have fits : (page :: rest).length ≤ (way va).length := by
      simp only [List.length_cons, way, List.length_nil]
      omega
    have spec : m.Grown root (way va) (page :: rest) [] (m.grow root (way va) (page :: rest)) :=
      grown (by simpa using listed) idle outside (by simpa [way] using empty) fits
    have unlinked : ((m.grow root (way va) (page :: rest)).pages page).ppLink = none := by
      rw [spec.link, if_pos List.mem_cons_self]
    have decref := pageDecref_eq unlinked
    rw [way] at decref
    rw [pml4eWalk, demandTable_cons listed empty]
    simp [kaddr_of_next (next_table create_mem_slot), deeper, way, decref]
  · have := missing_next linked
    omega

/-! What a walk comes to. -/

/-- Every entry of every page in use, every count and the set of free pages are as
before. -/
structure Undone (m m' : Pmap npages) (free : List (Fin npages)) : Prop where
  mem : ∀ page, page ∉ free → m'.mem page = m.mem page
  ref : ∀ page, (m'.pages page).ppRef = (m.pages page).ppRef
  listed : ∃ free', m'.FreeList free' ∧ free'.Perm free

structure Unmodified (m m' : Pmap npages) (free : List (Fin npages)) : Prop where
  mem : ∀ page, page ∉ free → m'.mem page = m.mem page
  ref : ∀ page, (m'.pages page).ppRef = (m.pages page).ppRef
  listed : m'.FreeList free

theorem Unmodified.undone (same : m.Unmodified m' free) : m.Undone m' free :=
  ⟨same.mem, same.ref, free, same.listed, .refl free⟩

/-- The walks that leave nothing behind unless they find the entry: no table is
missing, there is no free page, or the first of three missing tables takes the only
one. -/
def Barren (m : Pmap npages) (root : Fin npages) (va count : Nat) : Prop :=
  m.missing root va = 0 ∨ count = 0 ∨ m.missing root va = 3 ∧ count = 1

theorem Rooted.leads_way (rooted : m.Rooted root free) (va : Nat) : m.Leads free root (way va) :=
  have reached : m.TableAt root 0 root := rfl
  rooted.leads reached (Nat.zero_add 3).le

/-- The missing tables have been added on the way to an address, each a cleared page
that is counted once, and no entry in use has changed. -/
structure Supplied (m m' : Pmap npages) (root : Fin npages) (va : Nat)
    (added rest : List (Fin npages)) (slot : Slot npages) : Prop where
  listed : m'.FreeList rest
  ref : ∀ page, (m'.pages page).ppRef = if page ∈ added then 1 else (m.pages page).ppRef
  tables : m'.tables root (way va) = m.tables root (way va) ++ added
  complete : (m'.tables root (way va)).length = 3
  kept : ∀ page i, page ∉ added → m.mem page i ≠ 0 → m'.mem page i = m.mem page i
  only : ∀ page i, m'.mem page i ≠ m.cleared added page i →
    (page, i) ∈ m'.slots root (way va) ∧ m.cleared added page i = 0
  last : ∀ page ∈ added.getLast?, ∀ i, m'.mem page i = 0
  found : slot = ((m'.tables root (way va)).getLastD root, ptx va)

theorem length_tables :
    (m.tables holder indices).length + (m.deepest holder indices).2.length = indices.length := by
  induction indices generalizing holder with
  | nil => rfl
  | cons i indices ih =>
    cases linked : m.next holder i with
    | none => simp [tables, deepest, linked]
    | some below =>
      have := @ih below
      simp only [tables, deepest, linked, List.length_cons]
      omega

theorem getLastD_tables :
    (m.tables holder indices).getLastD holder = (m.deepest holder indices).1 := by
  induction indices generalizing holder with
  | nil => rfl
  | cons i indices ih =>
    cases linked : m.next holder i with
    | none => simp [tables, deepest, linked]
    | some below =>
      rw [deepest_next linked, ← ih]
      simp [tables, linked, List.getLast?_cons]

theorem Grown.kept (spec : m.Grown holder indices pages rest m')
    (outside : page ∉ pages) (used : m.mem page i ≠ 0) : m'.mem page i = m.mem page i := by
  by_contra changed
  refine used ?_
  simpa [cleared, outside] using (spec.mem page i (by simpa [cleared, outside] using changed)).2

theorem Rooted.supplied (rooted : m.Rooted root free)
    (enough : m.missing root va ≤ free.length) :
    ∃ slot m' added rest, pml4eWalk m (some root) va true = some (some slot, m') ∧
      free = added ++ rest ∧ added.length = m.missing root va ∧
      m.Supplied m' root va added rest slot := by
  have leads : m.Leads free root (way va) := rooted.leads_way va
  obtain ⟨last, empty⟩ := leads.deepest
  have ran := pml4eWalk_eq rooted.listed leads (by omega)
  have count : m.missing root va = (m.deepest root (way va)).2.length := missing_deepest
  have whole := List.take_append_drop (m.missing root va) free
  have length : (free.take (m.missing root va)).length = m.missing root va :=
    List.length_take_of_le enough
  have inside : ∀ page ∈ free.take (m.missing root va), page ∈ free :=
    fun page => List.mem_of_mem_take
  have spec : m.Grown (m.deepest root (way va)).1 (m.deepest root (way va)).2
      (free.take (m.missing root va)) (free.drop (m.missing root va)) _ :=
    grown (whole.symm ▸ rooted.listed) (fun page member => rooted.idle page (inside page member))
      (fun member => last (inside _ member)) empty (by rw [length, count])
  rw [walked, ← count, if_pos enough] at ran
  have kept : ∀ page i, page ∉ free → m.mem page i ≠ 0 → _ := fun page i outside used =>
    spec.kept (fun member => outside (inside page member)) used
  have appended := tables_append kept leads
  rw [spec.tables] at appended
  refine ⟨_, _, _, _, ran, whole.symm, length, spec.listed, spec.ref, appended, ?_,
    fun page i outside used => spec.kept outside used, fun page i changed => ?_, spec.last, ?_⟩
  · have total := @length_tables _ m root (way va)
    rw [appended, List.length_append, length, count, total]
    rfl
  · obtain ⟨visited, blank⟩ := spec.mem page i changed
    exact ⟨slots_append kept leads _ visited, blank⟩
  · rw [appended, ← getLastD_tables]
    simp [List.getLast?_append, Option.getD_or]

theorem unmodified_undo (listed : m.FreeList [page]) (idle : (m.pages page).ppRef = 0)
    (outside : root ≠ page) (empty : m.mem root i = 0) :
    m.Unmodified (((m.create (root, i) page).dropRef page).setEntry (root, i) 0) [page] := by
  have one : ((m.create (root, i) page).pages page).ppRef = 1 := by
    rw [create_ref idle, if_pos rfl]
  have none : (m.create (root, i) page).pageFreeList = none := listed.create (root, i)
  refine ⟨fun other apart => ?_, fun other => ?_, ?_⟩
  · funext j
    rw [setEntry_mem, dropRef_mem]
    by_cases here : (other, j) = (root, i)
    · obtain ⟨rfl, rfl⟩ := Prod.mk.inj here
      rw [Memory.write_same, empty]
    · rw [Memory.write_other here, create_mem_other (by simpa using apart) here]
  · rw [setEntry_pages, dropRef_ref, create_ref idle, create_ref idle]
    by_cases same : other = page
    · subst same
      rw [if_pos rfl, if_pos rfl, idle]
      rfl
    · rw [if_neg same, if_neg same]
  · have head : ((m.create (root, i) page).dropRef page).pageFreeList = some page := by
      rw [dropRef, if_pos one, insertAtBegining_list]
    have tail : (((m.create (root, i) page).dropRef page).pages page).ppLink = Option.none := by
      rw [dropRef, if_pos one, insertAtBegining_link, if_pos rfl, setRef_list, none]
      rw [setRef_link, create_link, if_pos rfl]
    exact ⟨head, tail⟩

/-- The walk that does not: it leaves everything as it was if it is barren, and one
page counted that was free if it is not. -/
theorem Rooted.abandoned (rooted : m.Rooted root free)
    (lacking : free.length < m.missing root va) :
    ∃ m', pml4eWalk m (some root) va true = some (none, m') ∧
      (m.Barren root va free.length → m.Unmodified m' free) ∧
      (¬ m.Barren root va free.length → ∃ page ∈ free, (m'.pages page).ppRef = 1) := by
  have leads : m.Leads free root (way va) := rooted.leads_way va
  obtain ⟨last, empty⟩ := leads.deepest
  have count : m.missing root va = (m.deepest root (way va)).2.length := missing_deepest
  by_cases undo : m.missing root va = 3 ∧ free ≠ [] ∧ free.length < 3
  · obtain ⟨top, some, few⟩ := undo
    obtain ⟨page, rest, rfl⟩ := List.exists_cons_of_ne_nil some
    have ran := pml4eWalk_undo rooted.listed rooted.idle leads top
      (by simp only [List.length_cons] at few; omega)
    have zero := rooted.idle page List.mem_cons_self
    have apart : root ≠ page := fun same => leads.outside (same ▸ List.mem_cons_self)
    refine ⟨_, ran, fun barren => ?_, fun fertile => ?_⟩
    · cases rest with
      | nil =>
        refine unmodified_undo rooted.listed zero apart ?_
        obtain ⟨-, empty | ⟨below, linked, -⟩⟩ := leads
        · exact empty
        · have := missing_next linked
          omega
      | cons other rest => simp [Barren, top] at barren
    · cases rest with
      | nil => exact absurd (.inr (.inr ⟨top, rfl⟩)) fertile
      | cons other rest =>
        have whole : m.deepest root (way va) = (root, way va) := by
          obtain ⟨-, blank | ⟨below, linked, -⟩⟩ := leads
          · exact deepest_empty blank
          · have := missing_next linked
            omega
        have spec : m.Grown root (way va) (page :: other :: rest) [] _ :=
          grown (by simpa using rooted.listed) rooted.idle leads.outside
            (by simpa [whole] using empty) (by simpa [way] using few.le)
        have differs : other ≠ page := fun same =>
          (List.nodup_cons.mp rooted.listed.nodup).1 (same ▸ List.mem_cons_self)
        have member : other ∈ page :: other :: rest := by simp
        refine ⟨other, member, ?_⟩
        rw [setEntry_pages, dropRef_ref, if_neg differs, spec.ref, if_pos member]
  · have ran := pml4eWalk_eq rooted.listed leads undo
    have total := @length_tables _ m root (way va)
    have short : (way va).length = 3 := rfl
    rw [walked, if_neg (by omega), List.take_of_length_le (by omega)] at ran
    refine ⟨_, ran, fun barren => ?_, fun fertile => ?_⟩
    · have none : free = [] := by
        by_contra some
        have := List.length_pos_iff.mpr some
        rcases barren with found | none | ⟨three, one⟩
        · omega
        · omega
        · exact undo ⟨three, some, by omega⟩
      subst none
      have same : m.grow (m.deepest root (way va)).1 (m.deepest root (way va)).2 [] = m := by
        cases (m.deepest root (way va)).2 <;> rfl
      rw [same]
      exact ⟨fun _ _ => rfl, fun _ => rfl, rooted.listed⟩
    · have some : free ≠ [] := fun none => fertile (.inr (.inl (by rw [none]; rfl)))
      obtain ⟨page, rest, rfl⟩ := List.exists_cons_of_ne_nil some
      have spec : m.Grown _ (m.deepest root (way va)).2 (page :: rest) [] _ :=
        grown (by simpa using rooted.listed) rooted.idle last empty (by omega)
      exact ⟨page, List.mem_cons_self, by rw [spec.ref, if_pos List.mem_cons_self]⟩

/-- The walk gives back what it has taken when it fails, and adds exactly the missing
tables when it does not, unless it fails with one table missing and one page free
below a table that was there, or with three missing and two free. -/
theorem pml4eWalk_undone_iff (rooted : m.Rooted root free) (va : Nat) :
    (∃ found m', pml4eWalk m (some root) va true = some (found, m') ∧
      (found = none → m.Undone m' free) ∧
      ∀ slot, found = some slot → ∃ added rest, free = added ++ rest ∧
        added.length = m.missing root va ∧ m.Supplied m' root va added rest slot) ↔
    ¬ (m.missing root va = 2 ∧ free.length = 1 ∨ m.missing root va = 3 ∧ free.length = 2) := by
  by_cases enough : m.missing root va ≤ free.length
  · obtain ⟨slot, m', added, rest, ran, split, length, supplied⟩ := rooted.supplied enough
    refine iff_of_true ⟨_, m', ran, nofun, fun slot' same => ?_⟩ (by omega)
    cases same
    exact ⟨added, rest, split, length, supplied⟩
  · obtain ⟨m', ran, barren, fertile⟩ := rooted.abandoned (Nat.lt_of_not_le enough)
    have total := @length_tables _ m root (way va)
    have short : (way va).length = 3 := rfl
    have count : m.missing root va = (m.deepest root (way va)).2.length := missing_deepest
    by_cases lost : m.missing root va = 2 ∧ free.length = 1 ∨
        m.missing root va = 3 ∧ free.length = 2
    · refine iff_of_false (fun meets => ?_) (not_not_intro lost)
      obtain ⟨found, m'', ran', undone, -⟩ := meets
      cases ran.symm.trans ran'
      obtain ⟨page, member, counted⟩ := fertile (by unfold Barren; omega)
      rw [(undone rfl).ref, rooted.idle page member] at counted
      exact absurd counted (by decide)
    · exact iff_of_true
        ⟨none, m', ran, fun _ => (barren (by unfold Barren; omega)).undone, nofun⟩ lost

def sparse : Pmap 3 where
  pages page := ⟨none, if page = 2 then 0 else 1⟩
  pageFreeList := some 2
  bootPml4e := 0
  mem page i := if page = 0 ∧ i = 0 then ⟨1, tablePerm⟩ else 0

theorem sparse_next {page below : Fin 3} (linked : sparse.next page i = some below) :
    page = 0 ∧ below = 1 := by
  by_cases here : page = 0 ∧ i = 0
  · obtain ⟨rfl, rfl⟩ := here
    exact ⟨rfl, Option.some.inj (linked.symm.trans (by decide))⟩
  · have empty : sparse.mem page i = 0 := if_neg here
    rw [next_empty empty] at linked
    cases linked

theorem sparse_rooted : sparse.Rooted 0 [2] where
  listed := ⟨rfl, rfl⟩
  idle page member := by
    obtain rfl := List.mem_singleton.mp member
    rfl
  unfree {depth page} _ reached := by
    cases depth with
    | zero =>
      obtain rfl : page = 0 := reached
      decide
    | succ depth =>
      obtain ⟨above, i, -, linked⟩ := reached
      rw [(sparse_next linked).2]
      decide
  linked {depth page} _ _ i := by
    by_cases here : page = 0 ∧ i = 0
    · obtain ⟨rfl, rfl⟩ := here
      exact .inr ⟨1, by decide⟩
    · exact .inl (if_neg here)

/-- The page directory made for an address whose page table finds no page stays. -/
theorem sparse_not_undone : sparse.Rooted 0 [2] ∧
    ¬ ∃ found m', pml4eWalk sparse (some 0) 0 true = some (found, m') ∧
      (found = none → sparse.Undone m' [2]) ∧
      ∀ slot, found = some slot → ∃ added rest, [2] = added ++ rest ∧
        added.length = sparse.missing 0 0 ∧ sparse.Supplied m' 0 0 added rest slot := by
  refine ⟨sparse_rooted, fun meets => ?_⟩
  obtain ⟨found, m', ran, undone, -⟩ := meets
  obtain ⟨m'', ran', -, fertile⟩ := sparse_rooted.abandoned (show 1 < sparse.missing 0 0 by decide)
  cases ran'.symm.trans ran
  obtain ⟨page, member, counted⟩ := fertile (by unfold Barren; decide)
  rw [(undone rfl).ref, sparse_rooted.idle page member] at counted
  exact absurd counted (by decide)

theorem sparse_undone : ∃ found m', pml4eWalk sparse (some 0) (2 ^ 39) true = some (found, m') ∧
    (found = none → sparse.Undone m' [2]) ∧
    ∀ slot, found = some slot → ∃ added rest, [2] = added ++ rest ∧
      added.length = sparse.missing 0 (2 ^ 39) ∧
      sparse.Supplied m' 0 (2 ^ 39) added rest slot :=
  (pml4eWalk_undone_iff sparse_rooted (2 ^ 39)).mpr (by decide)

end Pmap

/-- Every tree of a running kernel, that of the kernel itself as well as those of the
environments. -/
theorem Valid.rooted {managed : Set (Fin npages)} {roots : EnvIdx → Option (Fin npages)}
    {g : Ledger npages} (valid : Valid managed roots m g) {a : Place} (top : a.path = [])
    (here : g.table a = some root) : m.Rooted root g.free := by
  have placed {depth : Nat} {page : Fin npages} (shallow : depth ≤ 3)
      (reached : m.TableAt root depth page) :
      ∃ b, g.table b = some page ∧ b.path.length ≤ depth := by
    induction depth generalizing page with
    | zero =>
      subst reached
      exact ⟨a, here, by simp [top]⟩
    | succ depth ih =>
      obtain ⟨above, i, reached, linked⟩ := reached
      obtain ⟨b, there, bound⟩ := ih (by omega) reached
      rw [(valid.next_eq there (by omega)).1] at linked
      have := Place.child_length b i
      exact ⟨b.child i, linked, by omega⟩
  refine ⟨valid.pool.chain, fun page member => (valid.pool.member page member).2, ?_, ?_⟩
  · intro depth page shallow reached
    obtain ⟨b, there, -⟩ := placed shallow reached
    exact valid.not_free_of_placed ⟨b, there⟩
  · intro depth page short reached i
    obtain ⟨b, there, bound⟩ := placed short.le reached
    have linked := valid.tree.link there (by omega) i
    have next := (valid.next_eq there (by omega) (i := i)).1
    cases child : g.table (b.child i) with
    | none =>
      rw [child] at linked
      exact .inl linked
    | some below => exact .inr ⟨below, next.trans child⟩

end Jos
