import Jos.Memory.Lookup

/-! `page_insert` and `page_remove` on several trees of page tables that share no
table: what becomes of every translation of every tree, of every count and of the
free list. A step of the walk and a store to a leaf entry are looked at one by one. -/

set_option autoImplicit false

namespace Jos

open Foundation

variable {npages : Nat} {m m' : Pmap npages} {root holder page pp : Fin npages}
  {roots : Set (Fin npages)} {free pages rest : List (Fin npages)} {window : Index → Prop}
  {indices path : List Index} {va : Nat} {perm : BitVec 12}

namespace Pmap

/-- The table reached from a root along some indices, the last of them first. -/
def reach (m : Pmap npages) (root : Fin npages) : List Index → Option (Fin npages)
  | [] => some root
  | i :: path => (m.reach root path).bind fun above => m.next above i

def climb (va : Nat) : List Index := [pdx va, pdpe va, pml4 va]

/-- A path that does not start at one of the entries left out of account. -/
def Plain (window : Index → Prop) (path : List Index) : Prop := ∀ i ∈ path.getLast?, ¬ window i

/-- Trees of page tables beside a free list. No table is reached along two paths. Of
the roots the entries of a window are left out of account: of none, or of the one
at UVPT, through which a tree with a self-map is reached a second time. -/
structure Forest (window : Index → Prop) (m : Pmap npages) (roots : Set (Fin npages))
    (free : List (Fin npages)) : Prop where
  listed : m.FreeList free
  idle : ∀ page ∈ free, (m.pages page).ppRef = 0
  unfree : ∀ {root path page}, root ∈ roots → Plain window path → path.length ≤ 3 →
    m.reach root path = some page → page ∉ free
  linked : ∀ {root path page i}, root ∈ roots → Plain window (i :: path) → path.length < 3 →
    m.reach root path = some page → m.mem page i = 0 ∨ ∃ below, m.next page i = some below
  apart : ∀ {root root' path path' page}, root ∈ roots → root' ∈ roots → Plain window path →
    Plain window path' → path.length ≤ 3 → path'.length ≤ 3 → m.reach root path = some page →
    m.reach root' path' = some page → root = root' ∧ path = path'

theorem plain_nil : Plain window [] := nofun

theorem Plain.tail {i : Index} (plain : Plain window (i :: path)) : Plain window path := by
  cases path with
  | nil => exact plain_nil
  | cons j path => exact fun k last => plain k (by simpa using last)

theorem Plain.suffix (plain : Plain window indices) (tail : path <:+ indices) :
    Plain window path := by
  obtain ⟨before, rfl⟩ := tail
  induction before with
  | nil => exact plain
  | cons j before ih => exact ih plain.tail

theorem suffix_of_cons {i j : Index} (tail : j :: path <:+ i :: indices) : path <:+ indices := by
  obtain ⟨before, split⟩ := tail
  cases before with
  | nil => exact ⟨[], by simpa using (List.cons.inj split).2⟩
  | cons k before => exact ⟨before ++ [j], by simpa using (List.cons.inj split).2⟩

theorem plain_climb (outside : ¬ window (pml4 va)) : Plain window (climb va) := by
  intro i last
  obtain rfl : pml4 va = i := by simpa [climb] using last
  exact outside

theorem translate_some {found : Translation} : m.translate root va = some found ↔
    ∃ pdpt pgdir pt, m.next root (pml4 va) = some pdpt ∧ m.next pdpt (pdpe va) = some pgdir ∧
      m.next pgdir (pdx va) = some pt ∧ (m.mem pt (ptx va)).present = true ∧
      (⟨(m.mem pt (ptx va)).ppn, (m.mem root (pml4 va)).perm, (m.mem pdpt (pdpe va)).perm,
        (m.mem pgdir (pdx va)).perm, (m.mem pt (ptx va)).perm⟩ : Translation) = found := by
  simp only [translate, Option.bind_eq_bind, Option.bind_eq_some_iff, Option.ite_none_right_eq_some,
    Option.some.injEq]
  constructor
  · rintro ⟨pdpt, first, pgdir, second, pt, third, present, same⟩
    exact ⟨pdpt, pgdir, pt, first, second, third, present, same⟩
  · rintro ⟨pdpt, pgdir, pt, first, second, third, present, same⟩
    exact ⟨pdpt, first, pgdir, second, pt, third, present, same⟩

theorem translate_keep {found : Translation} (there : m.translate root va = some found)
    (same : ∀ path i page, m.reach root path = some page → i :: path <:+ ptx va :: climb va →
      m.mem page i ≠ 0 → m'.mem page i = m.mem page i) :
    m'.translate root va = some found := by
  obtain ⟨pdpt, pgdir, pt, first, second, third, present, rfl⟩ := translate_some.mp there
  have reach₁ : m.reach root [pml4 va] = some pdpt := by simpa [reach] using first
  have reach₂ : m.reach root [pdpe va, pml4 va] = some pgdir := by
    rw [reach, reach₁]
    exact second
  have reach₃ : m.reach root (climb va) = some pt := by
    rw [climb, reach, reach₂]
    exact third
  have same₁ := same [] (pml4 va) root rfl ⟨[ptx va, pdx va, pdpe va], rfl⟩ (entry_ne_zero first)
  have same₂ := same _ (pdpe va) pdpt reach₁ ⟨[ptx va, pdx va], rfl⟩ (entry_ne_zero second)
  have same₃ := same _ (pdx va) pgdir reach₂ ⟨[ptx va], rfl⟩ (entry_ne_zero third)
  have same₄ := same _ (ptx va) pt reach₃ ⟨[], rfl⟩ fun zero => by
    rw [zero] at present
    cases present
  refine translate_some.mpr ⟨pdpt, pgdir, pt, (next_congr same₁).trans first,
    (next_congr same₂).trans second, (next_congr same₃).trans third, ?_, ?_⟩
  · rw [same₄]
    exact present
  · rw [same₁, same₂, same₃, same₄]

theorem Forest.leads (forest : m.Forest window roots free) (member : root ∈ roots)
    (plain : Plain window (indices.reverse ++ path)) (short : path.length + indices.length ≤ 3)
    (here : m.reach root path = some holder) : m.Leads free holder indices := by
  induction indices generalizing holder path with
  | nil => exact forest.unfree member (by simpa using plain) (by simpa using short) here
  | cons i indices ih =>
    simp only [List.length_cons] at short
    have whole : Plain window (indices.reverse ++ i :: path) := by simpa using plain
    have tail : Plain window (i :: path) := whole.suffix (List.suffix_append ..)
    refine ⟨forest.unfree member tail.tail (by omega) here, ?_⟩
    rcases forest.linked member tail (by omega) here with empty | ⟨below, linked⟩
    · exact .inl empty
    · refine .inr ⟨below, linked, ih whole (by simp only [List.length_cons]; omega) ?_⟩
      rw [reach, here]
      exact linked

/-- The last table met lies on the way, and the indices left are those below it. -/
theorem reach_deepest (here : m.reach root path = some holder) :
    ∃ path', m.reach root path' = some (m.deepest holder indices).1 ∧
      (m.deepest holder indices).2.reverse ++ path' = indices.reverse ++ path := by
  induction indices generalizing holder path with
  | nil => exact ⟨path, here, rfl⟩
  | cons i indices ih =>
    cases linked : m.next holder i with
    | none => exact ⟨path, by simpa [deepest, linked] using here, by simp [deepest, linked]⟩
    | some below =>
      have deeper : m.reach root (i :: path) = some below := by
        rw [reach, here]
        exact linked
      obtain ⟨path', reached, same⟩ := ih deeper
      rw [deepest_next linked]
      exact ⟨path', reached, by simpa using same⟩

section create
variable {i : Index} {other root' : Fin npages} {path' : List Index}

section

variable (forest : m.Forest window roots (page :: rest))

include forest

/-- A table reached after one has been made was reached before, or is the new one. -/
theorem Forest.create_reach
    (differs : page ≠ holder) (member : root ∈ roots) (plain : Plain window path)
    (short : path.length ≤ 3) (there : (m.create (holder, i) page).reach root path = some other) :
    (other ≠ page ∧ m.reach root path = some other) ∨
      other = page ∧ ∃ above, path = i :: above ∧ m.reach root above = some holder := by
  induction path generalizing other with
  | nil =>
    cases there
    exact .inl ⟨fun same => forest.unfree member plain short rfl (by simp [same]), rfl⟩
  | cons j path ih =>
    simp only [List.length_cons] at short
    obtain ⟨above, reached, linked⟩ := Option.bind_eq_some_iff.mp there
    rcases ih plain.tail (by omega) reached with ⟨old, before⟩ | ⟨rfl, -⟩
    · by_cases here : (above, j) = (holder, i)
      · obtain ⟨rfl, rfl⟩ := Prod.mk.inj here
        rw [next_table create_mem_slot] at linked
        exact .inr ⟨(Option.some.inj linked).symm, path, rfl, before⟩
      · rw [next_congr (create_mem_other old here)] at linked
        have reach : m.reach root (j :: path) = some other := by
          rw [Pmap.reach, before]
          exact linked
        refine .inl ⟨fun same => ?_, reach⟩
        exact forest.unfree member plain (by simpa using short) reach (by simp [same])
    · rw [next_empty (create_mem_page differs)] at linked
      cases linked

theorem Forest.reach_create
    (empty : m.mem holder i = 0) (member : root ∈ roots) (plain : Plain window path)
    (short : path.length ≤ 3) (there : m.reach root path = some other) :
    (m.create (holder, i) page).reach root path = some other := by
  induction path generalizing other with
  | nil => exact there
  | cons j path ih =>
    simp only [List.length_cons] at short
    obtain ⟨above, reached, linked⟩ := Option.bind_eq_some_iff.mp there
    have outside := forest.unfree member plain.tail (by omega) reached
    have old : above ≠ page := fun same => outside (by simp [same])
    have elsewhere : (above, j) ≠ (holder, i) := fun same => by
      cases same
      exact entry_ne_zero linked empty
    rw [reach, ih plain.tail (by omega) reached]
    exact (next_congr (create_mem_other old elsewhere)).trans linked

theorem Forest.create (member : root ∈ roots)
    (plain : Plain window path) (short : path.length < 3) (here : m.reach root path = some holder) :
    (m.create (holder, i) page).Forest window roots rest := by
  have outside := forest.unfree member plain short.le here
  have differs : page ≠ holder := fun same => outside (by simp [same])
  have fresh := (List.nodup_cons.mp forest.listed.nodup).1
  have zero := forest.idle page List.mem_cons_self
  refine ⟨forest.listed.create _, fun other listed => ?_, ?_, ?_, ?_⟩
  · have old : other ≠ page := fun same => fresh (same ▸ listed)
    rw [create_ref zero, if_neg old]
    exact forest.idle other (List.mem_cons_of_mem _ listed)
  · intro root path other member plain short there
    rcases forest.create_reach differs member plain short there with ⟨-, before⟩ | ⟨rfl, -⟩
    · exact fun listed => forest.unfree member plain short before (List.mem_cons_of_mem _ listed)
    · exact fresh
  · intro root path other j member plain short there
    rcases forest.create_reach differs member plain.tail short.le there with
      ⟨old, before⟩ | ⟨rfl, -⟩
    · by_cases slot : (other, j) = (holder, i)
      · obtain ⟨rfl, rfl⟩ := Prod.mk.inj slot
        exact .inr ⟨page, next_table create_mem_slot⟩
      · rw [create_mem_other old slot, next_congr (create_mem_other old slot)]
        exact forest.linked member plain short before
    · exact .inl (create_mem_page differs)
  · intro root root' path path' other member member' plain plain' short short' there there'
    rcases forest.create_reach differs member plain short there with
      ⟨old, before⟩ | ⟨rfl, above, rfl, before⟩
    · rcases forest.create_reach differs member' plain' short' there' with ⟨-, before'⟩ | ⟨same, -⟩
      · exact forest.apart member member' plain plain' short short' before before'
      · exact absurd same old
    · rcases forest.create_reach differs member' plain' short' there' with
        ⟨old, -⟩ | ⟨-, above', rfl, before'⟩
      · exact absurd rfl old
      · simp only [List.length_cons] at short short'
        obtain ⟨same, paths⟩ := forest.apart member member' plain.tail plain'.tail (by omega)
          (by omega) before before'
        exact ⟨same, by rw [paths]⟩

theorem Forest.create_translate
    (member : root ∈ roots) (plain : Plain window path) (short : path.length < 3)
    (here : m.reach root path = some holder) (empty : m.mem holder i = 0)
    (member' : root' ∈ roots) (outside' : ¬ window (pml4 va)) :
    (m.create (holder, i) page).translate root' va = m.translate root' va := by
  have outside := forest.unfree member plain short.le here
  have differs : page ≠ holder := fun same => outside (by simp [same])
  have whole := plain_climb outside'
  refine Option.ext fun found => ⟨fun there => ?_, fun there => ?_⟩
  · obtain ⟨pdpt, pgdir, pt, first, second, third, present, rfl⟩ := translate_some.mp there
    -- a table with an entry in use is not the new one
    have used {table : Fin npages} {j : Index}
        (entry : (m.create (holder, i) page).mem table j ≠ 0) : table ≠ page := by
      rintro rfl
      exact entry (create_mem_page differs)
    have used₁ := used (entry_ne_zero second)
    have used₂ := used (entry_ne_zero third)
    have used₃ : pt ≠ page := used fun zero => by
      rw [zero] at present
      cases present
    have back {path : List Index} {table : Fin npages} (tail : path <:+ climb va)
        (old : table ≠ page) (there : (m.create (holder, i) page).reach root' path = some table) :
        m.reach root' path = some table :=
      (forest.create_reach differs member' (whole.suffix tail) tail.length_le there).elim
        (fun before => before.2) fun new => absurd new.1 old
    have reach₁ : (m.create (holder, i) page).reach root' [pml4 va] = some pdpt := by
      simpa [reach] using first
    have reach₂ : (m.create (holder, i) page).reach root' [pdpe va, pml4 va] = some pgdir := by
      rw [reach, reach₁]
      exact second
    have reach₃ : (m.create (holder, i) page).reach root' (climb va) = some pt := by
      rw [climb, reach, reach₂]
      exact third
    have back₁ := back ⟨[pdx va, pdpe va], rfl⟩ used₁ reach₁
    have back₂ := back ⟨[pdx va], rfl⟩ used₂ reach₂
    have back₃ : m.reach root' (climb va) = some pt := back (List.suffix_refl _) used₃ reach₃
    have next₁ : m.next root' (pml4 va) = some pdpt := by simpa [reach] using back₁
    have next₂ : m.next pdpt (pdpe va) = some pgdir := by
      rw [reach, back₁] at back₂
      exact back₂
    have next₃ : m.next pgdir (pdx va) = some pt := by
      have split := back₃
      rw [climb, reach, back₂] at split
      exact split
    have same {table below : Fin npages} {j : Index} (old : table ≠ page)
        (linked : m.next table j = some below) :
        (m.create (holder, i) page).mem table j = m.mem table j := by
      refine create_mem_other old fun slot => ?_
      cases slot
      exact entry_ne_zero linked empty
    have top : root' ≠ page := fun same =>
      forest.unfree member' plain_nil (Nat.zero_le 3) rfl (by simp [same])
    have leaf : (m.create (holder, i) page).mem pt (ptx va) = m.mem pt (ptx va) := by
      refine create_mem_other used₃ fun slot => ?_
      cases slot
      obtain ⟨-, rfl⟩ := forest.apart member' member whole plain (Nat.le_refl 3) short.le back₃ here
      exact absurd short (Nat.lt_irrefl 3)
    refine translate_some.mpr ⟨pdpt, pgdir, pt, next₁, next₂, next₃, leaf ▸ present, ?_⟩
    rw [leaf, same top next₁, same used₁ next₂, same used₂ next₃]
  · refine translate_keep there fun above j other reached tail used => ?_
    have tail' := suffix_of_cons tail
    have unlisted := forest.unfree member' (whole.suffix tail') tail'.length_le reached
    refine create_mem_other (fun same => unlisted (by simp [same])) fun slot => used ?_
    cases slot
    exact empty

end

end create

theorem Forest.grow (forest : m.Forest window roots (pages ++ rest)) (member : root ∈ roots)
    (plain : Plain window (indices.reverse ++ path)) (short : path.length + indices.length ≤ 3)
    (here : m.reach root path = some holder) (empty : ∀ i ∈ indices.head?, m.mem holder i = 0)
    (fits : pages.length = indices.length) :
    (m.grow holder indices pages).Forest window roots rest ∧
      (∀ root' ∈ roots, ∀ va, ¬ window (pml4 va) →
        (m.grow holder indices pages).translate root' va = m.translate root' va) ∧
      (m.grow holder indices pages).reach root (indices.reverse ++ path) =
        some (pages.getLastD holder) := by
  induction pages generalizing m holder indices path with
  | nil =>
    obtain rfl := List.length_eq_zero_iff.mp fits.symm
    exact ⟨forest, fun _ _ _ _ => rfl, here⟩
  | cons page pages ih =>
    cases indices with
    | nil => simp at fits
    | cons i indices =>
      simp only [List.length_cons] at short fits
      have whole : Plain window (indices.reverse ++ i :: path) := by simpa using plain
      have tail : Plain window (i :: path) := whole.suffix (List.suffix_append ..)
      have blank := empty i rfl
      have outside := forest.unfree member tail.tail (by omega) here
      have differs : page ≠ holder := fun same => outside (by simp [same])
      have created : (m.create (holder, i) page).Forest window roots (pages ++ rest) :=
        forest.create member tail.tail (by omega) here
      have deeper : (m.create (holder, i) page).reach root (i :: path) = some page := by
        rw [reach, forest.reach_create blank member tail.tail (by omega) here]
        exact next_table create_mem_slot
      obtain ⟨grown, translations, reached⟩ := ih created whole
        (by simp only [List.length_cons]; omega) deeper (fun _ _ => create_mem_page differs)
        (by omega)
      refine ⟨grown, fun root' member' va outside' => ?_, ?_⟩
      · exact (translations root' member' va outside').trans
          (forest.create_translate member tail.tail (by omega) here blank member' outside')
      · simpa [Pmap.grow, List.getLast?_cons] using reached

/-! Stores to a leaf entry. -/

theorem translate_mem {va : Nat} (same : m'.mem = m.mem) :
    m'.translate root va = m.translate root va := by
  simp only [translate, next, same]

section store
variable {t : Index} {entry : Pte} {root' : Fin npages} {path' : List Index}

theorem Forest.store_reach (forest : m.Forest window roots free) (member : root ∈ roots)
    (plain : Plain window path) (deep : path.length = 3) (here : m.reach root path = some holder)
    (member' : root' ∈ roots) (plain' : Plain window path') (short : path'.length ≤ 3) :
    (m.setEntry (holder, t) entry).reach root' path' = m.reach root' path' := by
  induction path' with
  | nil => rfl
  | cons j path' ih =>
    simp only [List.length_cons] at short
    rw [reach, reach, ih plain'.tail (by omega)]
    cases above : m.reach root' path' with
    | none => rfl
    | some table =>
      refine next_congr (congrFun (Memory.write_page fun same => ?_) j)
      obtain rfl : table = holder := same
      obtain ⟨-, rfl⟩ := forest.apart member' member plain'.tail plain (by omega) deep.le above
        here
      omega

theorem Forest.store_translate (forest : m.Forest window roots free) (member : root ∈ roots)
    (plain : Plain window path) (deep : path.length = 3) (here : m.reach root path = some holder)
    (member' : root' ∈ roots) (outside' : ¬ window (pml4 va))
    (other : ¬ (root' = root ∧ climb va = path ∧ ptx va = t)) :
    (m.setEntry (holder, t) entry).translate root' va = m.translate root' va := by
  have whole := plain_climb outside'
  have kept {above : List Index} {j : Index} {table : Fin npages}
      (reached : m.reach root' above = some table) (tail : j :: above <:+ ptx va :: climb va) :
      (m.setEntry (holder, t) entry).mem table j = m.mem table j := by
    have tail' := suffix_of_cons tail
    refine Memory.write_other fun slot => other ?_
    cases slot
    obtain ⟨same, rfl⟩ := forest.apart member' member (whole.suffix tail') plain tail'.length_le
      deep.le reached here
    have equal := tail.eq_of_length (by rw [List.length_cons, deep]; rfl)
    exact ⟨same, (List.cons.inj equal).2.symm, (List.cons.inj equal).1.symm⟩
  have back {above : List Index} {j : Index} {table : Fin npages}
      (reached : (m.setEntry (holder, t) entry).reach root' above = some table)
      (tail : j :: above <:+ ptx va :: climb va) : m.reach root' above = some table := by
    have tail' := suffix_of_cons tail
    rw [← forest.store_reach member plain deep here member' (whole.suffix tail') tail'.length_le]
    exact reached
  refine Option.ext fun found => ⟨fun there => ?_, fun there => ?_⟩
  · exact translate_keep there fun above j table reached tail _ =>
      (kept (back reached tail) tail).symm
  · exact translate_keep there fun above j table reached tail _ => kept reached tail

end store

theorem translate_indices {va' : Nat} (climbs : climb va' = climb va) (leaf : ptx va' = ptx va) :
    m.translate root va' = m.translate root va := by
  simp only [climb, List.cons.injEq, and_true] at climbs
  simp only [translate, climbs.1, climbs.2.1, climbs.2.2, leaf]

theorem translate_leaf {pt : Fin npages} (here : m.reach root (climb va) = some pt) :
    ((m.mem pt (ptx va)).present = false → m.translate root va = none) ∧
      ((m.mem pt (ptx va)).present = true → ∃ found, m.translate root va = some found ∧
        found.ppn = (m.mem pt (ptx va)).ppn ∧ found.ptePerm = (m.mem pt (ptx va)).perm) := by
  obtain ⟨pgdir, above, third⟩ := Option.bind_eq_some_iff.mp here
  obtain ⟨pdpt, top, second⟩ := Option.bind_eq_some_iff.mp above
  have first : m.next root (pml4 va) = some pdpt := by simpa [reach] using top
  refine ⟨fun absent => ?_, fun present => ?_⟩
  · simp [translate, first, second, third, absent]
  · exact ⟨_, translate_some.mpr ⟨pdpt, pgdir, pt, first, second, third, present, rfl⟩, rfl, rfl⟩

theorem deepest_reach {pt : Fin npages} (here : m.reach root (climb va) = some pt) :
    m.deepest root (way va) = (pt, []) := by
  obtain ⟨pgdir, above, third⟩ := Option.bind_eq_some_iff.mp here
  obtain ⟨pdpt, top, second⟩ := Option.bind_eq_some_iff.mp above
  have first : m.next root (pml4 va) = some pdpt := by simpa [reach] using top
  rw [way, deepest_next first, deepest_next second, deepest_next third]
  rfl

structure Walked (window : Index → Prop) (m : Pmap npages) (roots : Set (Fin npages))
    (root : Fin npages) (va : Nat) (added rest : List (Fin npages)) (m' : Pmap npages)
    (pt : Fin npages) : Prop where
  forest : m'.Forest window roots rest
  translate : ∀ root' ∈ roots, ∀ va', ¬ window (pml4 va') →
    m'.translate root' va' = m.translate root' va'
  here : m'.reach root (climb va) = some pt
  ref : ∀ page, (m'.pages page).ppRef = if page ∈ added then 1 else (m.pages page).ppRef
  blank : added ≠ [] → m'.mem pt (ptx va) = 0
  again : pml4eWalk m' (some root) va true = some (some (pt, ptx va), m')

theorem Forest.walked (forest : m.Forest window roots free) (member : root ∈ roots)
    (outside : ¬ window (pml4 va)) {slot : Slot npages}
    (ran : pml4eWalk m (some root) va true = some (some slot, m')) :
    ∃ added rest pt, free = added ++ rest ∧ added.length = m.missing root va ∧
      slot = (pt, ptx va) ∧ Walked window m roots root va added rest m' pt := by
  have plain := plain_climb outside
  have leads : m.Leads free root (way va) := forest.leads member plain (Nat.zero_add 3).le rfl
  have count : m.missing root va = (m.deepest root (way va)).2.length := missing_deepest
  have bound : m.missing root va ≤ 3 := by
    have total := @length_tables _ m root (way va)
    have short : (way va).length = 3 := rfl
    omega
  by_cases undo : m.missing root va = 3 ∧ free ≠ [] ∧ free.length < 3
  · obtain ⟨top, some, few⟩ := undo
    obtain ⟨page, rest, rfl⟩ := List.exists_cons_of_ne_nil some
    rw [pml4eWalk_undo forest.listed forest.idle leads top
      (by simp only [List.length_cons] at few; omega)] at ran
    cases ran
  · rw [pml4eWalk_eq forest.listed leads undo, Pmap.walked, ← count] at ran
    split at ran
    · rename_i enough
      obtain ⟨slots, states⟩ := Prod.mk.inj (Option.some.inj ran)
      have whole := List.take_append_drop (m.missing root va) free
      have length : (free.take (m.missing root va)).length = m.missing root va :=
        List.length_take_of_le enough
      obtain ⟨last, empty⟩ := leads.deepest
      have top : m.reach root [] = some root := rfl
      obtain ⟨path, reached, split⟩ := @reach_deepest _ m root root (way va) [] top
      have climbs : (m.deepest root (way va)).2.reverse ++ path = climb va := by
        simpa [way, climb] using split
      have lengths := congrArg List.length climbs
      rw [List.length_append, List.length_reverse, ← count] at lengths
      have short : (climb va).length = 3 := rfl
      obtain ⟨grown, translations, here⟩ := Forest.grow (whole.symm ▸ forest) member
        (climbs ▸ plain) (by omega) reached empty (length.trans count)
      have spec : m.Grown _ (m.deepest root (way va)).2 (free.take (m.missing root va))
          (free.drop (m.missing root va)) _ :=
        Pmap.grown (whole.symm ▸ forest.listed)
          (fun page listed => forest.idle page (List.mem_of_mem_take listed))
          (fun listed => last (List.mem_of_mem_take listed)) empty (by rw [length, count])
      rw [states] at grown translations here spec
      rw [climbs] at here
      refine ⟨_, _, _, whole.symm, length, (Option.some.inj slots).symm, grown, translations, here,
        spec.ref, fun some => ?_, ?_⟩
      · refine spec.last _ ?_ _
        rw [List.getLastD_eq_getLast?, List.getLast?_eq_some_getLast some]
        rfl
      · have leads' : m'.Leads _ root (way va) := grown.leads member plain (Nat.zero_add 3).le rfl
        have found := deepest_reach here
        have zero : m'.missing root va = 0 := by
          rw [missing_deepest, found]
          rfl
        rw [pml4eWalk_eq grown.listed leads' (by omega), found, walked_nil]
    · cases (Prod.mk.inj (Option.some.inj ran)).1

def MapsTo (m : Pmap npages) (root : Fin npages) (va : Nat) (page : Fin npages) : Prop :=
  ∃ found, m.translate root va = some found ∧ found.ppn = page.val

/-- The specification of `page_insert`, when it returns 0. -/
structure Inserted (window : Index → Prop) (m m' : Pmap npages) (roots : Set (Fin npages))
    (root : Fin npages) (va : Nat) (pp : Fin npages) (perm : BitVec 12)
    (added rest : List (Fin npages)) : Prop where
  mapped : ∃ found, m'.translate root va = some found ∧ found.ppn = pp.val ∧
    found.ptePerm = perm ||| pteP
  others : ∀ root' ∈ roots, ∀ va', ¬ window (pml4 va') →
    ¬ (root' = root ∧ climb va' = climb va ∧ ptx va' = ptx va) →
    m'.translate root' va' = m.translate root' va'
  again : m.MapsTo root va pp → (m'.pages pp).ppRef = (m.pages pp).ppRef
  more : ¬ m.MapsTo root va pp → (m'.pages pp).ppRef.toNat = (m.pages pp).ppRef.toNat + 1
  replaced : ∀ old, old ≠ pp → m.MapsTo root va old →
    (m'.pages old).ppRef = (m.pages old).ppRef - 1
  tables : ∀ page ∈ added, (m'.pages page).ppRef = 1
  kept : ∀ page, page ∉ added → page ≠ pp → ¬ m.MapsTo root va page →
    (m'.pages page).ppRef = (m.pages page).ppRef
  freed : ∀ old, old ≠ pp → m.MapsTo root va old → (m.pages old).ppRef = 1 →
    m'.FreeList (old :: rest)
  unfreed : (∀ old, old ≠ pp → m.MapsTo root va old → (m.pages old).ppRef ≠ 1) →
    m'.FreeList rest

section insert
variable {added : List (Fin npages)} {pt : Fin npages}

theorem MapsTo.unique {old : Fin npages} (first : m.MapsTo root va page)
    (second : m.MapsTo root va old) : page = old := by
  obtain ⟨found, there, same⟩ := first
  obtain ⟨found', there', same'⟩ := second
  cases there.symm.trans there'
  exact Fin.ext (same.symm.trans same')

theorem Walked.mapsTo_iff (walked : Walked window m roots root va added rest m' pt)
    (member : root ∈ roots) (outside : ¬ window (pml4 va)) :
    m.MapsTo root va page ↔
      (m'.mem pt (ptx va)).present = true ∧ (m'.mem pt (ptx va)).ppn = page.val := by
  obtain ⟨absent, present⟩ := translate_leaf walked.here
  rw [walked.translate root member va outside] at absent present
  constructor
  · rintro ⟨found, there, same⟩
    have mapped : (m'.mem pt (ptx va)).present = true := by
      by_contra unmapped
      rw [absent (Bool.eq_false_iff.mpr unmapped)] at there
      cases there
    obtain ⟨found', there', ppn, -⟩ := present mapped
    cases there.symm.trans there'
    exact ⟨mapped, ppn ▸ same⟩
  · rintro ⟨mapped, same⟩
    obtain ⟨found, there, ppn, -⟩ := present mapped
    exact ⟨found, there, ppn.trans same⟩

theorem Walked.stored (walked : Walked window m roots root va added rest m' pt)
    (member : root ∈ roots) (outside : ¬ window (pml4 va)) (entry : Pte) :
    (entry.present = true → ∃ found,
        (m'.setEntry (pt, ptx va) entry).translate root va = some found ∧ found.ppn = entry.ppn ∧
          found.ptePerm = entry.perm) ∧
      (entry.present = false → (m'.setEntry (pt, ptx va) entry).translate root va = none) ∧
      ∀ root' ∈ roots, ∀ va', ¬ window (pml4 va') →
        ¬ (root' = root ∧ climb va' = climb va ∧ ptx va' = ptx va) →
        (m'.setEntry (pt, ptx va) entry).translate root' va' = m.translate root' va' := by
  have plain := plain_climb outside
  have here : (m'.setEntry (pt, ptx va) entry).reach root (climb va) = some pt := by
    rw [walked.forest.store_reach member plain rfl walked.here member plain (Nat.le_refl 3)]
    exact walked.here
  have leaf : (m'.setEntry (pt, ptx va) entry).mem pt (ptx va) = entry := Memory.write_same
  obtain ⟨absent, present⟩ := translate_leaf here
  rw [leaf] at absent present
  refine ⟨present, absent, fun root' member' va' outside' other => ?_⟩
  exact (walked.forest.store_translate member plain rfl walked.here member' outside' other).trans
    (walked.translate root' member' va' outside')

theorem pageRemove_of_walk
    (again : pml4eWalk m (some root) va true = some (some (pt, ptx va), m))
    (mapped : (m.mem pt (ptx va)).present = true) (same : (m.mem pt (ptx va)).ppn = page.val) :
    pageRemove m (some root) va =
      (pageDecref m page).map fun m => m.setEntry (pt, ptx va) 0 := by
  have entry : m.entry (pt, ptx va) = m.mem pt (ptx va) := rfl
  simp only [pageRemove, pageLookup, again, Option.bind_eq_bind, Option.bind_some, entry,
    mapped, if_true, same, pa2page_val]
  cases decref : pageDecref m page <;> simp [decref]

theorem FreeList.relink (listed : m.FreeList free) (head : m'.pageFreeList = m.pageFreeList)
    (links : ∀ page ∈ free, (m'.pages page).ppLink = (m.pages page).ppLink) :
    m'.FreeList free := by
  unfold FreeList
  rw [head]
  exact Chain.congr listed links

theorem pageDecref_some (ran : pageDecref m page = some m') :
    m' = m.dropRef page ∧ ((m.pages page).ppRef = 1 → (m.pages page).ppLink = none) := by
  by_cases last : (m.pages page).ppRef = 1
  · have unlinked : (m.pages page).ppLink = none := by
      by_contra linked
      have some := Option.isSome_iff_ne_none.mpr linked
      simp [pageDecref, setRef_ref, last, pageFree, some] at ran
    rw [pageDecref_eq unlinked] at ran
    exact ⟨(Option.some.inj ran).symm, fun _ => unlinked⟩
  · have nonzero : (m.pages page).ppRef - 1 ≠ 0 := fun zero => last (by bv_omega)
    simp only [pageDecref, setRef_ref, if_true, if_neg nonzero] at ran
    rw [dropRef, if_neg last]
    exact ⟨(Option.some.inj ran).symm, fun one => absurd one last⟩

theorem FreeList.dropRef (listed : m.FreeList rest) (idle : ∀ page ∈ rest, (m.pages page).ppRef = 0)
    (unlinked : (m.pages page).ppRef = 1 → (m.pages page).ppLink = none) :
    ((m.pages page).ppRef = 1 → (m.dropRef page).FreeList (page :: rest)) ∧
      ((m.pages page).ppRef ≠ 1 → (m.dropRef page).FreeList rest) := by
  refine ⟨fun last => ?_, fun more => ?_⟩
  · have fresh : page ∉ rest := fun member => by
      rw [idle page member] at last
      exact absurd last (by decide)
    have link (other : Fin npages) : ((m.dropRef page).pages other).ppLink =
        if other = page then m.pageFreeList else (m.pages other).ppLink := by
      rw [Pmap.dropRef, if_pos last, insertAtBegining_link (setRef_link.trans (unlinked last)),
        setRef_link, setRef_list]
    have head : (m.dropRef page).pageFreeList = some page := by
      rw [Pmap.dropRef, if_pos last, insertAtBegining_list]
    unfold FreeList
    rw [head]
    exact Chain.push listed fresh (by rw [link, if_pos rfl]) fun old differs => by
      rw [link, if_neg differs]
  · rw [Pmap.dropRef, if_neg more]
    exact listed.relink rfl fun _ _ => setRef_link

theorem present_pteP {ppn : Nat} {perm : BitVec 12} :
    (⟨ppn, perm ||| pteP⟩ : Pte).present = true := by
  have bit : pteP.getLsbD 0 = true := by decide
  simp [Pte.present, bit]

section

variable (walked : Walked window m roots root va added rest m' pt)

include walked

theorem Walked.inserted (member : root ∈ roots) (outside : ¬ window (pml4 va)) (m₂ : Pmap npages)
    (mem : m₂.mem = Memory.write m'.mem (pt, ptx va) ⟨pp.val, perm ||| pteP⟩) :
    (∃ found, m₂.translate root va = some found ∧ found.ppn = pp.val ∧
        found.ptePerm = perm ||| pteP) ∧
      ∀ root' ∈ roots, ∀ va', ¬ window (pml4 va') →
        ¬ (root' = root ∧ climb va' = climb va ∧ ptx va' = ptx va) →
        m₂.translate root' va' = m.translate root' va' := by
  have same {root' : Fin npages} {va' : Nat} : m₂.translate root' va' =
      (m'.setEntry (pt, ptx va) ⟨pp.val, perm ||| pteP⟩).translate root' va' := translate_mem mem
  obtain ⟨mapped, -, others⟩ := walked.stored member outside ⟨pp.val, perm ||| pteP⟩
  obtain ⟨found, there, ppn, perms⟩ := mapped present_pteP
  exact ⟨⟨found, same.trans there, ppn, perms⟩, fun root' member' va' outside' other =>
    same.trans (others root' member' va' outside' other)⟩

theorem Walked.old_ref (old : page ∉ added) : (m'.pages page).ppRef = (m.pages page).ppRef := by
  rw [walked.ref, if_neg old]

theorem Walked.counted (old : pp ∉ added) (bound : (m.pages pp).ppRef.toNat < 65535) :
    ((m'.pages pp).ppRef + 1).toNat = (m.pages pp).ppRef.toNat + 1 := by
  rw [walked.old_ref old]
  bv_omega

end

theorem Walked.inserted_again (walked : Walked window m roots root va [] rest m' pt)
    (member : root ∈ roots) (outside : ¬ window (pml4 va)) (maps : m.MapsTo root va pp) :
    Inserted window m (m'.setEntry (pt, ptx va) ⟨pp.val, perm ||| pteP⟩) roots root va pp perm []
      rest := by
  obtain ⟨mapped, others⟩ := walked.inserted member outside
    (m'.setEntry (pt, ptx va) ⟨pp.val, perm ||| pteP⟩) rfl
  exact
    { mapped, others
      again := fun _ => walked.old_ref (by simp)
      more := fun absent => absurd maps absent
      replaced := fun other differs maps' => absurd (maps'.unique maps) differs
      tables := nofun
      kept := fun page old _ _ => walked.old_ref old
      freed := fun other differs maps' => absurd (maps'.unique maps) differs
      unfreed := fun _ => walked.forest.listed }

theorem Walked.inserted_over (walked : Walked window m roots root va [] rest m' pt)
    (member : root ∈ roots) (outside : ¬ window (pml4 va)) {old : Fin npages}
    (bound : (m.pages pp).ppRef.toNat < 65535) (maps : m.MapsTo root va old) (differs : old ≠ pp)
    (unlinked : (m'.pages old).ppRef = 1 → (m'.pages old).ppLink = none) :
    Inserted window m (((((m'.dropRef old).setEntry (pt, ptx va) 0).setEntry (pt, ptx va)
      ⟨pp.val, perm ||| pteP⟩).incRef pp)) roots root va pp perm [] rest := by
  obtain ⟨mapped, others⟩ := walked.inserted member outside
    (((((m'.dropRef old).setEntry (pt, ptx va) 0).setEntry (pt, ptx va)
      ⟨pp.val, perm ||| pteP⟩).incRef pp)) (by
      rw [incRef_mem, setEntry_mem, setEntry_mem, Memory.write_write, dropRef_mem])
  obtain ⟨freed, unfreed⟩ := walked.forest.listed.dropRef walked.forest.idle unlinked
  have ref {page : Fin npages} : (m'.pages page).ppRef = (m.pages page).ppRef :=
    walked.old_ref (by simp)
  have refs {page : Fin npages} : (((((m'.dropRef old).setEntry (pt, ptx va) 0).setEntry
      (pt, ptx va) ⟨pp.val, perm ||| pteP⟩).incRef pp).pages page).ppRef =
      if page = pp then (m'.pages pp).ppRef + 1
      else if page = old then (m'.pages old).ppRef - 1 else (m'.pages page).ppRef := by
    rw [incRef_ref, setEntry_pages, setEntry_pages, dropRef_ref, dropRef_ref,
      if_neg (Ne.symm differs)]
  refine
    { mapped, others
      again := fun maps' => absurd (maps.unique maps') differs
      more := fun _ => by rw [refs, if_pos rfl, walked.counted (by simp) bound]
      replaced := fun other apart maps' => ?_
      tables := nofun
      kept := fun page _ apart unmapped => ?_
      freed := fun other _ maps' last => ?_
      unfreed := fun more => ?_ }
  · obtain rfl := maps'.unique maps
    rw [refs, if_neg apart, if_pos rfl, ref]
  · have other : page ≠ old := fun same => unmapped (same ▸ maps)
    rw [refs, if_neg apart, if_neg other, ref]
  · obtain rfl := maps'.unique maps
    exact (freed (ref.trans last)).relink rfl fun _ _ => incRef_link
  · refine (unfreed fun last => more old differs maps ?_).relink rfl fun _ _ => incRef_link
    exact ref.symm.trans last

theorem Walked.inserted_new (walked : Walked window m roots root va added rest m' pt)
    (member : root ∈ roots) (outside : ¬ window (pml4 va)) (old : pp ∉ added)
    (bound : (m.pages pp).ppRef.toNat < 65535)
    (unmapped : ∀ page, ¬ m.MapsTo root va page) :
    Inserted window m ((m'.setEntry (pt, ptx va) ⟨pp.val, perm ||| pteP⟩).incRef pp) roots root va
      pp perm added rest := by
  obtain ⟨mapped, others⟩ := walked.inserted member outside
    ((m'.setEntry (pt, ptx va) ⟨pp.val, perm ||| pteP⟩).incRef pp) rfl
  have refs {page : Fin npages} (apart : page ≠ pp) :
      (((m'.setEntry (pt, ptx va) ⟨pp.val, perm ||| pteP⟩).incRef pp).pages page).ppRef =
        (m'.pages page).ppRef := by
    rw [incRef_ref, if_neg apart, setEntry_pages]
  exact
    { mapped, others
      again := fun maps => absurd maps (unmapped _)
      more := fun _ => by rw [incRef_ref, if_pos rfl, setEntry_pages, walked.counted old bound]
      replaced := fun other _ maps => absurd maps (unmapped other)
      tables := fun page new => by
        have apart : page ≠ pp := fun same => old (same ▸ new)
        rw [refs apart, walked.ref, if_pos new]
      kept := fun page old apart _ => by rw [refs apart, walked.old_ref old]
      freed := fun other _ maps => absurd maps (unmapped other)
      unfreed := fun _ => walked.forest.listed.relink rfl fun _ _ => incRef_link }

theorem Forest.pageInsert (forest : m.Forest window roots free) (member : root ∈ roots)
    (outside : ¬ window (pml4 va)) (unlisted : pp ∉ free)
    (bound : (m.pages pp).ppRef.toNat < 65535)
    (ran : Jos.pageInsert m (some root) pp va perm = some (0, m')) :
    ∃ added rest, free = added ++ rest ∧ added.length = m.missing root va ∧
      Inserted window m m' roots root va pp perm added rest := by
  obtain ⟨⟨found, m₁⟩, ran₁, ran⟩ := Option.bind_eq_some_iff.mp ran
  cases found with
  | none => cases (Prod.mk.inj (Option.some.inj ran)).1
  | some slot =>
    obtain ⟨added, rest, pt, rfl, length, rfl, walked⟩ := forest.walked member outside ran₁
    have ppOut : pp ∉ added := fun there => unlisted (List.mem_append_left _ there)
    have entry : m₁.entry (pt, ptx va) = m₁.mem pt (ptx va) := rfl
    simp only [entry] at ran
    refine ⟨added, rest, rfl, length, ?_⟩
    split at ran
    · rename_i present
      -- an entry in use: no table has been made
      have none : added = [] := by
        by_contra some
        rw [walked.blank some] at present
        cases present
      subst none
      obtain ⟨old, frame, ran⟩ := Option.bind_eq_some_iff.mp ran
      have ppn : (m₁.mem pt (ptx va)).ppn = old.val := by
        unfold pa2page at frame
        split at frame
        · rw [← Option.some.inj frame]
        · cases frame
      have maps : m.MapsTo root va old := (walked.mapsTo_iff member outside).mpr ⟨present, ppn⟩
      split at ran
      · rename_i same
        subst same
        cases ran
        exact walked.inserted_again member outside maps
      · rename_i differs
        obtain ⟨m₂, removed, ran⟩ := Option.bind_eq_some_iff.mp ran
        rw [pageRemove_of_walk walked.again present ppn] at removed
        obtain ⟨m₃, dropped, rfl⟩ := Option.map_eq_some_iff.mp removed
        obtain ⟨rfl, unlinked⟩ := pageDecref_some dropped
        cases ran
        exact walked.inserted_over member outside bound maps differs unlinked
    · rename_i absent
      cases ran
      exact walked.inserted_new member outside ppOut bound fun page maps =>
        absent ((walked.mapsTo_iff member outside).mp maps).1

theorem pml4eWalk_reach (listed : m.FreeList free) (here : m.reach root (climb va) = some pt)
    (unfree : ∀ path page, path <:+ climb va → m.reach root path = some page → page ∉ free) :
    pml4eWalk m (some root) va true = some (some (pt, ptx va), m) := by
  have found := deepest_reach here
  have zero : m.missing root va = 0 := by
    rw [missing_deepest, found]
    rfl
  obtain ⟨pgdir, above, third⟩ := Option.bind_eq_some_iff.mp here
  obtain ⟨pdpt, top, second⟩ := Option.bind_eq_some_iff.mp above
  have first : m.next root (pml4 va) = some pdpt := by simpa [reach] using top
  have leads : m.Leads free root (way va) :=
    ⟨unfree [] root ⟨climb va, by simp⟩ rfl,
      .inr ⟨pdpt, first, unfree _ pdpt ⟨[pdx va, pdpe va], rfl⟩ top,
        .inr ⟨pgdir, second, unfree _ pgdir ⟨[pdx va], rfl⟩ above,
          .inr ⟨pt, third, unfree _ pt (List.suffix_refl _) here⟩⟩⟩⟩
  rw [pml4eWalk_eq listed leads (by omega), found, walked_nil]

theorem Walked.again_inserted (walked : Walked window m roots root va added rest m' pt)
    (member : root ∈ roots) (outside : ¬ window (pml4 va)) (pp : Fin npages) (perm : BitVec 12)
    {m₂ : Pmap npages} (state : m₂ = (m'.setEntry (pt, ptx va) ⟨pp.val, perm ||| pteP⟩).incRef pp) :
    pml4eWalk m₂ (some root) va true = some (some (pt, ptx va), m₂) := by
  have plain := plain_climb outside
  have mem : m₂.mem = (m'.setEntry (pt, ptx va) ⟨pp.val, perm ||| pteP⟩).mem := by
    rw [state]
    rfl
  have listed : m₂.FreeList rest := by
    rw [state]
    exact walked.forest.listed.relink rfl fun _ _ => incRef_link
  have reached {path : List Index} (tail : path <:+ climb va) :
      m₂.reach root path = m'.reach root path := by
    have stored := @Forest.store_reach _ m' root pt roots rest window (climb va) (ptx va)
      ⟨pp.val, perm ||| pteP⟩ root path walked.forest member plain rfl walked.here member
      (plain.suffix tail) tail.length_le
    rw [← stored]
    clear tail stored
    induction path with
    | nil => rfl
    | cons j path ih => simp only [reach, ih, next, mem]
  refine pml4eWalk_reach listed ((reached (List.suffix_refl _)).trans walked.here) ?_
  intro path page tail there
  exact walked.forest.unfree member (plain.suffix tail) tail.length_le
    ((reached tail).symm.trans there)

theorem Forest.insert_remove (forest : m.Forest window roots free) (member : root ∈ roots)
    (outside : ¬ window (pml4 va)) (unlisted : pp ∉ free)
    (bound : (m.pages pp).ppRef.toNat < 65535) (positive : 0 < (m.pages pp).ppRef.toNat)
    (unmapped : m.translate root va = none)
    (ran : Jos.pageInsert m (some root) pp va perm = some (0, m')) :
    ∃ m'' added rest, pageRemove m' (some root) va = some m'' ∧ free = added ++ rest ∧
      added.length = m.missing root va ∧
      (∀ root' ∈ roots, ∀ va', ¬ window (pml4 va') →
        m''.translate root' va' = m.translate root' va') ∧
      ∀ page, page ∉ added → (m''.pages page).ppRef = (m.pages page).ppRef := by
  obtain ⟨⟨found, m₁⟩, ran₁, ran⟩ := Option.bind_eq_some_iff.mp ran
  cases found with
  | none => cases (Prod.mk.inj (Option.some.inj ran)).1
  | some slot =>
    obtain ⟨added, rest, pt, rfl, length, rfl, walked⟩ := forest.walked member outside ran₁
    have ppOut : pp ∉ added := fun there => unlisted (List.mem_append_left _ there)
    have ref {page : Fin npages} (old : page ∉ added) :
        (m₁.pages page).ppRef = (m.pages page).ppRef := by rw [walked.ref, if_neg old]
    have absent : ¬ (m₁.mem pt (ptx va)).present = true := fun present => by
      obtain ⟨found, there, -⟩ := (translate_leaf walked.here).2 present
      rw [walked.translate root member va outside, unmapped] at there
      cases there
    have entry : m₁.entry (pt, ptx va) = m₁.mem pt (ptx va) := rfl
    simp only [entry, if_neg absent] at ran
    cases ran
    set m₂ := (m₁.setEntry (pt, ptx va) ⟨pp.val, perm ||| pteP⟩).incRef pp with state
    have again := walked.again_inserted member outside pp perm state
    have leaf : m₂.mem pt (ptx va) = ⟨pp.val, perm ||| pteP⟩ := Memory.write_same
    have present : (m₂.mem pt (ptx va)).present = true := by
      rw [leaf]
      exact present_pteP
    have counted : (m₂.pages pp).ppRef = (m.pages pp).ppRef + 1 := by
      rw [state, incRef_ref, if_pos rfl, setEntry_pages, ref ppOut]
    have more : (m₂.pages pp).ppRef ≠ 1 := by
      rw [counted]
      intro one
      bv_omega
    have decref : pageDecref m₂ pp = some (m₂.dropRef pp) := by
      have nonzero : (m₂.pages pp).ppRef - 1 ≠ 0 := fun zero => more (by bv_omega)
      rw [dropRef, if_neg more]
      simp only [pageDecref, setRef_ref, if_true, if_neg nonzero]
    have removed := pageRemove_of_walk again present (by rw [leaf])
    rw [decref] at removed
    refine ⟨_, added, rest, removed, rfl, length, fun root' member' va' outside' => ?_,
      fun page old => ?_⟩
    · obtain ⟨-, none, others⟩ := walked.stored member outside 0
      have mem : ((m₂.dropRef pp).setEntry (pt, ptx va) 0).mem =
          (m₁.setEntry (pt, ptx va) 0).mem := by
        rw [setEntry_mem, dropRef_mem]
        exact Memory.write_write
      rw [translate_mem mem]
      by_cases here : root' = root ∧ climb va' = climb va ∧ ptx va' = ptx va
      · obtain ⟨rfl, climbs, leaf⟩ := here
        rw [translate_indices climbs leaf, translate_indices climbs leaf, none rfl, unmapped]
      · exact others root' member' va' outside' here
    · rw [setEntry_pages, dropRef_ref]
      by_cases same : page = pp
      · subst same
        rw [if_pos rfl, counted]
        bv_omega
      · rw [if_neg same, state, incRef_ref, if_neg same, setEntry_pages, ref old]

/-- `page_insert` meets its specification, and `page_remove` undoes it. -/
theorem pageInsert_meets (forest : m.Forest window roots free) (member : root ∈ roots)
    (outside : ¬ window (pml4 va)) (unlisted : pp ∉ free)
    (bound : (m.pages pp).ppRef.toNat < 65535)
    (ran : Jos.pageInsert m (some root) pp va perm = some (0, m')) :
    (∃ added rest, free = added ++ rest ∧ added.length = m.missing root va ∧
      Inserted window m m' roots root va pp perm added rest) ∧
    (0 < (m.pages pp).ppRef.toNat → m.translate root va = none →
      ∃ m'' added rest, pageRemove m' (some root) va = some m'' ∧ free = added ++ rest ∧
        added.length = m.missing root va ∧
        (∀ root' ∈ roots, ∀ va', ¬ window (pml4 va') →
          m''.translate root' va' = m.translate root' va') ∧
        ∀ page, page ∉ added → (m''.pages page).ppRef = (m.pages page).ppRef) :=
  ⟨forest.pageInsert member outside unlisted bound ran,
    fun positive unmapped =>
      forest.insert_remove member outside unlisted bound positive unmapped ran⟩

end insert

def bare : Pmap 5 where
  pages page := ⟨if page = 1 then some 2 else if page = 2 then some 3 else none,
    if page = 0 ∨ page = 4 then 1 else 0⟩
  pageFreeList := some 1
  bootPml4e := 0
  mem _ _ := 0

theorem bare_reach {root page : Fin 5} (reached : bare.reach root path = some page) :
    path = [] ∧ root = page := by
  cases path with
  | nil => exact ⟨rfl, Option.some.inj reached⟩
  | cons i path =>
    obtain ⟨above, -, linked⟩ := Option.bind_eq_some_iff.mp reached
    rw [next_empty rfl] at linked
    cases linked

theorem bare_forest : bare.Forest (fun _ => False) {0} [1, 2, 3] where
  listed := ⟨rfl, rfl, rfl, rfl⟩
  idle := by decide
  unfree member _ _ reached := by
    obtain ⟨-, rfl⟩ := bare_reach reached
    rw [Set.mem_singleton_iff.mp member]
    decide
  linked _ _ _ _ := .inl rfl
  apart _ _ _ _ _ _ reached reached' := by
    obtain ⟨rfl, rfl⟩ := bare_reach reached
    obtain ⟨rfl, rfl⟩ := bare_reach reached'
    exact ⟨rfl, rfl⟩

theorem bare_inserted : ∃ m', pageInsert bare (some 0) 4 0 pteW = some (0, m') ∧
    (∃ added rest, [1, 2, 3] = added ++ rest ∧ added.length = bare.missing 0 0 ∧
      Inserted (fun _ => False) bare m' {0} 0 0 4 pteW added rest) ∧
    ∃ m'' added rest, pageRemove m' (some 0) 0 = some m'' ∧ [1, 2, 3] = added ++ rest ∧
      added.length = bare.missing 0 0 ∧
      (∀ root' ∈ ({0} : Set (Fin 5)), ∀ va', ¬ False →
        m''.translate root' va' = bare.translate root' va') ∧
      ∀ page, page ∉ added → (m''.pages page).ppRef = (bare.pages page).ppRef := by
  have returned : (pageInsert bare (some 0) 4 0 pteW).map Prod.fst = some 0 := by decide
  obtain ⟨⟨result, m'⟩, ran, same⟩ := Option.map_eq_some_iff.mp returned
  obtain rfl : result = 0 := same
  obtain ⟨inserted, removed⟩ := pageInsert_meets bare_forest rfl id (by decide) (by decide) ran
  exact ⟨m', ran, inserted, removed (by decide) (by decide)⟩

end Pmap

/-- The trees of the environments of a running kernel share no table but through their
entry 1, and are reached a second time only through their entry at UVPT. -/
theorem Valid.forest {managed : Set (Fin npages)} {envRoots : EnvIdx → Option (Fin npages)}
    {g : Ledger npages} (valid : Valid managed envRoots m g) :
    m.Forest (fun i => i = 1 ∨ i = pml4 uvpt) {root | ∃ e, envRoots e = some root} g.free := by
  have reach {e : EnvIdx} {root : Fin npages} {path : List Index}
      (rooted : envRoots e = some root) (plain : Pmap.Plain (fun i => i = 1 ∨ i = pml4 uvpt) path)
      (short : path.length ≤ 3) : m.reach root path = g.table ⟨some e, path⟩ := by
    induction path with
    | nil => exact (valid.top rooted).symm
    | cons i path ih =>
      simp only [List.length_cons] at short
      rw [Pmap.reach, ih plain.tail (by omega)]
      cases above : g.table ⟨some e, path⟩ with
      | none => exact (valid.tree.absent_child above i).symm
      | some table =>
        have spot : ¬ (Place.mk (some e) path).Special i := by
          rintro ⟨-, rfl, special⟩
          exact plain i rfl special
        have next := (valid.next_eq (i := i) above (by simpa using short)).1
        rw [Place.child_plain spot] at next
        exact next
  refine ⟨valid.pool.chain, fun page member => (valid.pool.member page member).2, ?_, ?_, ?_⟩
  · rintro root path page ⟨e, rooted⟩ plain short there
    rw [reach rooted plain short] at there
    exact valid.not_free_of_placed ⟨_, there⟩
  · rintro root path page i ⟨e, rooted⟩ plain short there
    rw [reach rooted plain.tail short.le] at there
    have linked := valid.tree.link there short i
    have next := (valid.next_eq (i := i) there short).1
    cases child : g.table ((Place.mk (some e) path).child i) with
    | none =>
      rw [child] at linked
      exact .inl linked
    | some below => exact .inr ⟨below, next.trans child⟩
  · rintro root root' path path' page ⟨e, rooted⟩ ⟨e', rooted'⟩ plain plain' short short' there there'
    rw [reach rooted plain short] at there
    rw [reach rooted' plain' short'] at there'
    have same := valid.tree.injective there there'
    injection same with owners paths
    cases owners
    exact ⟨Option.some.inj (rooted.symm.trans rooted'), paths⟩

end Jos
