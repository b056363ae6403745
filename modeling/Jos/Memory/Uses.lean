import Jos.Foundation.Count
import Jos.Memory.Tree

/-! How often a page is used: once for every leaf entry that a page call can
write and that maps it, and once if it is a table. -/

set_option autoImplicit false

namespace Jos

open Foundation Function

variable {npages : Nat} {table : Layout npages} {mem' : Memory npages}

def Pte.Refers (entry : Pte) (page : Fin npages) : Prop :=
  entry.present = true ∧ entry.ppn = page.val

instance (entry : Pte) (page : Fin npages) : Decidable (entry.Refers page) :=
  inferInstanceAs (Decidable (_ ∧ _))

@[simp] theorem not_refers_zero {page : Fin npages} : ¬ (0 : Pte).Refers page := by
  simp [Pte.Refers]

def leafSlots (mem : Memory npages) (table : Layout npages) (page : Fin npages) :
    Set (Slot npages) :=
  {slot | ∃ a, table a = some slot.1 ∧ a.Mappable slot.2 ∧ (mem slot.1 slot.2).Refers page}

open Classical in
noncomputable def uses (mem : Memory npages) (table : Layout npages) (page : Fin npages) : Nat :=
  (leafSlots mem table page).ncard + if Placed table page then 1 else 0

theorem Maps.refers {managed : Set (Fin npages)} {entry : Pte}
    {target page : Fin npages} (maps : Maps managed table entry target) :
    entry.Refers page ↔ page = target := by
  constructor
  · intro refers
    exact Fin.ext (refers.2.symm.trans maps.ppn)
  · rintro rfl
    exact ⟨maps.present, maps.ppn⟩

theorem uses_congr {mem mem' : Memory npages} {table table' : Layout npages} {page : Fin npages}
    (slots : ∀ slot, slot ∈ leafSlots mem' table' page ↔ slot ∈ leafSlots mem table page)
    (placed : Placed table' page ↔ Placed table page) :
    uses mem' table' page = uses mem table page := by
  classical
  unfold uses
  rw [ncard_keep slots]
  simp only [placed]

theorem uses_scratch {mem mem' : Memory npages}
    (same : ∀ page, Placed table page → mem' page = mem page) (page : Fin npages) :
    uses mem' table page = uses mem table page := by
  refine uses_congr (fun slot => ?_) Iff.rfl
  constructor
  · rintro ⟨a, here, mappable, refers⟩
    exact ⟨a, here, mappable, same slot.1 ⟨a, here⟩ ▸ refers⟩
  · rintro ⟨a, here, mappable, refers⟩
    exact ⟨a, here, mappable, (same slot.1 ⟨a, here⟩).symm ▸ refers⟩

theorem uses_of_unused {mem : Memory npages} {page : Fin npages}
    (unused : Tree.Unused mem table page) : uses mem table page = 0 := by
  unfold uses
  rw [if_neg unused.unplaced, add_zero, ncard_zero_iff]
  rintro slot ⟨a, here, mappable, refers⟩
  exact unused.unmapped here mappable refers.1 refers.2

theorem unused_of_uses {mem : Memory npages} {page : Fin npages}
    (none : uses mem table page = 0) : Tree.Unused mem table page := by
  unfold uses at none
  obtain ⟨slots, placed⟩ := Nat.add_eq_zero_iff.mp none
  refine ⟨fun there => by simp [there] at placed, ?_⟩
  intro a holder t here mappable present same
  exact ncard_zero_iff.mp slots (holder, t) ⟨a, here, mappable, present, same⟩

namespace Tree

variable {managed : Set (Fin npages)} {roots : EnvIdx → Option (Fin npages)}
  {boot : Fin npages} {mem : Memory npages} {table : Layout npages}

theorem not_leaf_of_placed (tree : Tree managed roots boot mem table) {page : Fin npages}
    (placed : Placed table page) (slot : Slot npages) : slot ∉ leafSlots mem table page := by
  rintro ⟨a, here, mappable, refers⟩
  rcases tree.leaf here mappable with empty | ⟨target, maps⟩
  · rw [empty] at refers
    exact not_refers_zero refers
  · exact maps.unplaced (maps.refers.mp refers ▸ placed)

theorem uses_placed (tree : Tree managed roots boot mem table) {page : Fin npages}
    (placed : Placed table page) : uses mem table page = 1 := by
  unfold uses
  rw [if_pos placed, ncard_zero_iff.mpr (tree.not_leaf_of_placed placed)]

theorem placed_update {a : Place} {page other : Fin npages} (absent : table a = none) :
    Placed (update table a (some page)) other ↔ other = page ∨ Placed table other := by
  constructor
  · rintro ⟨b, there⟩
    by_cases same : b = a
    · subst same
      exact .inl (Option.some.inj (by simpa using there.symm))
    · exact .inr ⟨b, by simpa [same] using there⟩
  · rintro (rfl | ⟨b, there⟩)
    · exact ⟨a, by simp⟩
    · exact ⟨b, by rw [update_of_ne (by rintro rfl; simp_all), there]⟩

theorem uses_update {a : Place} {page : Fin npages} (mem' : Memory npages)
    (absent : table a = none) (unused : Unused mem table page)
    (same : ∀ {b holder t}, table b = some holder → b.Mappable t → mem' holder t = mem holder t)
    (empty : ∀ t, a.Mappable t → mem' page t = 0) (other : Fin npages) :
    uses mem' (update table a (some page)) other =
      uses mem table other + if other = page then 1 else 0 := by
  have slots : ∀ slot, slot ∈ leafSlots mem' (update table a (some page)) other ↔
      slot ∈ leafSlots mem table other := by
    intro slot
    constructor
    · rintro ⟨b, there, mappable, refers⟩
      by_cases new : b = a
      · subst new
        have equal : page = slot.1 := Option.some.inj (by simpa using there)
        rw [← equal, empty slot.2 mappable] at refers
        exact absurd refers not_refers_zero
      · rw [update_of_ne new] at there
        exact ⟨b, there, mappable, same there mappable ▸ refers⟩
    · rintro ⟨b, there, mappable, refers⟩
      refine ⟨b, ?_, mappable, (same there mappable).symm ▸ refers⟩
      rw [update_of_ne (by rintro rfl; simp_all), there]
  classical
  unfold uses
  rw [ncard_keep slots]
  simp only [placed_update absent]
  by_cases here : other = page
  · subst here
    simp [unused.unplaced]
  · simp [here]

theorem leaf_without {top : Place} (rest : ∀ {a page}, table a = some page → ¬ top.Below a → ∀ i,
      mem' page i = if a.path.length < 3 ∧ a.child i = top then 0 else mem page i)
    {page : Fin npages} {slot : Slot npages} :
    slot ∈ leafSlots mem' (without top table) page ↔
      ∃ a, table a = some slot.1 ∧ ¬ top.Below a ∧ a.Mappable slot.2 ∧
        (mem slot.1 slot.2).Refers page := by
  constructor
  · rintro ⟨a, there, mappable, refers⟩
    obtain ⟨there, kept⟩ := without_some there
    have deep := mappable.length
    rw [rest there kept, if_neg (by omega)] at refers
    exact ⟨a, there, kept, mappable, refers⟩
  · rintro ⟨a, there, kept, mappable, refers⟩
    have deep := mappable.length
    refine ⟨a, by rw [without_of_not kept, there], mappable, ?_⟩
    rwa [rest there kept, if_neg (by omega)]

theorem uses_without_le {top : Place}
    (rest : ∀ {a page}, table a = some page → ¬ top.Below a → ∀ i,
      mem' page i = if a.path.length < 3 ∧ a.child i = top then 0 else mem page i)
    (page : Fin npages) : uses mem' (without top table) page ≤ uses mem table page := by
  refine Nat.add_le_add (ncard_shrink fun slot there => ?_) ?_
  · obtain ⟨a, there, -, mappable, refers⟩ := (leaf_without rest).mp there
    exact ⟨a, there, mappable, refers⟩
  · by_cases placed : Placed (without top table) page
    · rw [if_pos placed, if_pos (placed_without placed)]
    · rw [if_neg placed]
      exact Nat.zero_le _

theorem uses_without_top (tree : Tree managed roots boot mem table)
    {top : Place} {page : Fin npages} (here : table top = some page)
    (rest : ∀ {a page}, table a = some page → ¬ top.Below a → ∀ i,
      mem' page i = if a.path.length < 3 ∧ a.child i = top then 0 else mem page i) :
    uses mem' (without top table) page = 0 := by
  unfold uses
  rw [if_neg, ncard_zero_iff.mpr]
  · intro slot there
    obtain ⟨a, there, -, mappable, refers⟩ := (leaf_without rest).mp there
    exact tree.not_leaf_of_placed ⟨top, here⟩ slot ⟨a, there, mappable, refers⟩
  · rintro ⟨a, there⟩
    obtain ⟨there, kept⟩ := without_some there
    exact kept (tree.injective there here ▸ Place.below_refl _)

theorem uses_without_bare {top : Place} {page : Fin npages} (here : table top = some page)
    (rest : ∀ {a page}, table a = some page → ¬ top.Below a → ∀ i,
      mem' page i = if a.path.length < 3 ∧ a.child i = top then 0 else mem page i)
    (alone : ∀ a, top.Below a → a ≠ top → table a = none)
    (clear : ∀ t, top.Mappable t → mem page t = 0) {other : Fin npages} (differs : other ≠ page) :
    uses mem' (without top table) other = uses mem table other := by
  have only {a : Place} {p : Fin npages} (there : table a = some p) (below : top.Below a) :
      a = top := by
    by_contra another
    rw [alone a below another] at there
    cases there
  refine uses_congr (fun slot => ?_) ?_
  · rw [leaf_without rest]
    constructor
    · rintro ⟨a, there, -, mappable, refers⟩
      exact ⟨a, there, mappable, refers⟩
    · rintro ⟨a, there, mappable, refers⟩
      refine ⟨a, there, fun below => ?_, mappable, refers⟩
      obtain rfl := only there below
      have equal : page = slot.1 := Option.some.inj (here.symm.trans there)
      rw [← equal, clear _ mappable] at refers
      exact not_refers_zero refers
  · constructor
    · exact placed_without
    · rintro ⟨a, there⟩
      refine ⟨a, ?_⟩
      rw [without_of_not fun below => ?_, there]
      obtain rfl := only there below
      exact differs (Option.some.inj (there.symm.trans here))

/-- A store to a leaf entry takes one use from the page mapped before and gives
one to the page mapped after. -/
theorem uses_store (mem : Memory npages) {a : Place} {holder : Fin npages}
    {t : Index} (here : table a = some holder) (mappable : a.Mappable t) (entry : Pte)
    (page : Fin npages) :
    uses (mem.write (holder, t) entry) table page + (if (mem holder t).Refers page then 1 else 0) =
      uses mem table page + (if entry.Refers page then 1 else 0) := by
  have others : ∀ slot, slot ≠ (holder, t) →
      (slot ∈ leafSlots (mem.write (holder, t) entry) table page ↔
        slot ∈ leafSlots mem table page) := by
    intro slot differs
    have same : mem.write (holder, t) entry slot.1 slot.2 = mem slot.1 slot.2 :=
      Memory.write_other differs
    simp only [leafSlots, Set.mem_ofPred_eq, same]
  have before : (holder, t) ∈ leafSlots mem table page ↔ (mem holder t).Refers page :=
    ⟨fun ⟨_, _, _, refers⟩ => refers, fun refers => ⟨a, here, mappable, refers⟩⟩
  have after : (holder, t) ∈ leafSlots (mem.write (holder, t) entry) table page ↔
      entry.Refers page := by
    have stored : mem.write (holder, t) entry holder t = entry :=
      Memory.write_same
    constructor
    · rintro ⟨_, _, _, refers⟩
      exact stored ▸ refers
    · exact fun refers => ⟨a, here, mappable, stored.symm ▸ refers⟩
  unfold uses
  by_cases old : (mem holder t).Refers page <;> by_cases new : entry.Refers page
  · have same : (leafSlots (mem.write (holder, t) entry) table page).ncard =
        (leafSlots mem table page).ncard := ncard_keep fun slot => by
        by_cases spot : slot = (holder, t)
        · subst spot
          exact iff_of_true (after.mpr new) (before.mpr old)
        · exact others slot spot
    rw [if_pos old, if_pos new, same]
  · have fewer := ncard_lose others (before.mpr old) fun there => new (after.mp there)
    rw [if_pos old, if_neg new, fewer]
    omega
  · have more := ncard_gain others (fun there => old (before.mp there)) (after.mpr new)
    rw [if_neg old, if_pos new, more]
    omega
  · have same : (leafSlots (mem.write (holder, t) entry) table page).ncard =
        (leafSlots mem table page).ncard := ncard_keep fun slot => by
        by_cases spot : slot = (holder, t)
        · subst spot
          exact iff_of_false (fun there => new (after.mp there)) fun there => old (before.mp there)
        · exact others slot spot
    rw [if_neg old, if_neg new, same]

end Tree

end Jos
