import Jos.Foundation.Chain
import Jos.Memory.Uses

/-! The reference counts of kern/pmap.c. A ledger keeps, beside the layout of the
tables and the free list, how many counted references to each page no table
holds: those that a caller has taken and not stored yet, and those that have
been lost. With this credit the steps of every operation can be checked one by
one: a reference is taken, stored, removed and given back. -/

set_option autoImplicit false

namespace Jos

open Foundation

variable {npages : Nat}

namespace Pmap

variable {m : Pmap npages} {page other : Fin npages} {slot : Slot npages} {value : Pte}

@[simp] theorem setEntry_mem : (m.setEntry slot value).mem = Memory.write m.mem slot value := rfl
@[simp] theorem setEntry_pages : (m.setEntry slot value).pages = m.pages := rfl
@[simp] theorem setEntry_list : (m.setEntry slot value).pageFreeList = m.pageFreeList := rfl
@[simp] theorem setEntry_boot : (m.setEntry slot value).bootPml4e = m.bootPml4e := rfl

@[simp] theorem setRef_mem {ref : BitVec 16} : (m.setRef page ref).mem = m.mem := rfl
@[simp] theorem setRef_list {ref : BitVec 16} :
    (m.setRef page ref).pageFreeList = m.pageFreeList := rfl
@[simp] theorem setRef_boot {ref : BitVec 16} : (m.setRef page ref).bootPml4e = m.bootPml4e := rfl

@[simp] theorem setRef_link {ref : BitVec 16} :
    ((m.setRef page ref).pages other).ppLink = (m.pages other).ppLink := by
  by_cases same : other = page <;> simp [setRef, same]

theorem setRef_ref {ref : BitVec 16} :
    ((m.setRef page ref).pages other).ppRef = if other = page then ref else (m.pages other).ppRef := by
  by_cases same : other = page <;> simp [setRef, same]

@[simp] theorem setLink_mem {link : Option (Fin npages)} : (m.setLink page link).mem = m.mem := rfl
@[simp] theorem setLink_list {link : Option (Fin npages)} :
    (m.setLink page link).pageFreeList = m.pageFreeList := rfl
@[simp] theorem setLink_boot {link : Option (Fin npages)} :
    (m.setLink page link).bootPml4e = m.bootPml4e := rfl

@[simp] theorem setLink_ref {link : Option (Fin npages)} :
    ((m.setLink page link).pages other).ppRef = (m.pages other).ppRef := by
  by_cases same : other = page <;> simp [setLink, same]

theorem setLink_link {link : Option (Fin npages)} :
    ((m.setLink page link).pages other).ppLink =
      if other = page then link else (m.pages other).ppLink := by
  by_cases same : other = page <;> simp [setLink, same]

@[simp] theorem incRef_mem : (m.incRef page).mem = m.mem := rfl
@[simp] theorem incRef_list : (m.incRef page).pageFreeList = m.pageFreeList := rfl
@[simp] theorem incRef_boot : (m.incRef page).bootPml4e = m.bootPml4e := rfl
@[simp] theorem incRef_link : ((m.incRef page).pages other).ppLink = (m.pages other).ppLink :=
  setRef_link

theorem incRef_ref : ((m.incRef page).pages other).ppRef =
    if other = page then (m.pages page).ppRef + 1 else (m.pages other).ppRef := setRef_ref

/-- The state that `page_alloc` leaves when it takes a page from the list. -/
def take (m : Pmap npages) (page : Fin npages) (allocZero : Bool) : Pmap npages :=
  let m := { m with pageFreeList := (m.pages page).ppLink }
  let m := m.setLink page none
  if allocZero then m.clearPage page else m

@[simp] theorem take_boot {zero : Bool} : (m.take page zero).bootPml4e = m.bootPml4e := by
  cases zero <;> rfl

@[simp] theorem take_list {zero : Bool} :
    (m.take page zero).pageFreeList = (m.pages page).ppLink := by
  cases zero <;> rfl

@[simp] theorem take_ref {zero : Bool} :
    ((m.take page zero).pages other).ppRef = (m.pages other).ppRef := by
  cases zero <;> exact setLink_ref

theorem take_link {zero : Bool} : ((m.take page zero).pages other).ppLink =
    if other = page then none else (m.pages other).ppLink := by
  cases zero <;> exact setLink_link

theorem take_mem_ne {zero : Bool} (differs : other ≠ page) :
    (m.take page zero).mem other = m.mem other := by
  cases zero <;> simp [take, clearPage, differs]

@[simp] theorem take_mem_same : (m.take page true).mem page = fun _ => 0 := by
  simp [take, clearPage]

end Pmap

/-- What the proofs keep beside the state of kern/pmap.c. -/
structure Ledger (npages : Nat) where
  table : Layout npages
  spare : Fin npages → Nat
  free : List (Fin npages)

namespace Ledger

variable {g : Ledger npages} {page other : Fin npages}

def give (g : Ledger npages) (page : Fin npages) : Ledger npages :=
  { g with spare := Function.update g.spare page (g.spare page + 1) }

def spend (g : Ledger npages) (page : Fin npages) : Ledger npages :=
  { g with spare := Function.update g.spare page (g.spare page - 1) }

def setTable (g : Ledger npages) (table : Layout npages) : Ledger npages :=
  { g with table := table }

def setFree (g : Ledger npages) (free : List (Fin npages)) : Ledger npages :=
  { g with free := free }

@[simp] theorem give_table : (g.give page).table = g.table := rfl
@[simp] theorem give_free : (g.give page).free = g.free := rfl
@[simp] theorem spend_table : (g.spend page).table = g.table := rfl
@[simp] theorem spend_free : (g.spend page).free = g.free := rfl
@[simp] theorem setTable_table {table : Layout npages} : (g.setTable table).table = table := rfl
@[simp] theorem setTable_free {table : Layout npages} : (g.setTable table).free = g.free := rfl
@[simp] theorem setTable_spare {table : Layout npages} : (g.setTable table).spare = g.spare := rfl
@[simp] theorem setFree_table {free : List (Fin npages)} : (g.setFree free).table = g.table := rfl
@[simp] theorem setFree_free {free : List (Fin npages)} : (g.setFree free).free = free := rfl
@[simp] theorem setFree_spare {free : List (Fin npages)} : (g.setFree free).spare = g.spare := rfl

theorem give_spare :
    (g.give page).spare other = g.spare other + if other = page then 1 else 0 := by
  by_cases same : other = page
  · subst same
    simp [give]
  · simp [give, same]

theorem spend_spare :
    (g.spend page).spare other = g.spare other - if other = page then 1 else 0 := by
  by_cases same : other = page
  · subst same
    simp [spend]
  · simp [spend, same]

@[simp] theorem spend_give : (g.give page).spend page = g := by
  simp [spend, give]

end Ledger

/-- The free list of `pages`, and the links of the pages that are not on it. -/
structure Pool (managed : Set (Fin npages)) (m : Pmap npages) (free : List (Fin npages)) :
    Prop where
  chain : Chain (fun page => (m.pages page).ppLink) m.pageFreeList free
  member : ∀ page ∈ free, page ∈ managed ∧ (m.pages page).ppRef = 0
  unlinked : ∀ page ∈ managed, page ∉ free → (m.pages page).ppLink = none
  reserved : ∀ page, page ∉ managed → (m.pages page).ppLink ≠ none

/-- The state of kern/pmap.c is well formed, and its reference counts are the
uses of each page and the credit of the ledger. -/
structure Valid (managed : Set (Fin npages)) (roots : EnvIdx → Option (Fin npages))
    (m : Pmap npages) (g : Ledger npages) : Prop where
  tree : Tree managed roots m.bootPml4e m.mem g.table
  pool : Pool managed m g.free
  counted : ∀ page ∈ managed, (m.pages page).ppRef.toNat = uses m.mem g.table page + g.spare page

namespace Valid

variable {managed : Set (Fin npages)} {roots : EnvIdx → Option (Fin npages)} {m : Pmap npages}
  {g : Ledger npages} {page : Fin npages}

section

variable (valid : Valid managed roots m g)

include valid

theorem top {e : EnvIdx} {root : Fin npages}
    (rooted : roots e = some root) : g.table (.root (some e)) = some root :=
  (valid.tree.root e).trans rooted

theorem free_counts (listed : page ∈ g.free) : uses m.mem g.table page = 0 ∧ g.spare page = 0 := by
  obtain ⟨inside, ref⟩ := valid.pool.member page listed
  have count := valid.counted page inside
  have zero : (0 : BitVec 16).toNat = 0 := rfl
  rw [ref, zero] at count
  omega

theorem free_unused (listed : page ∈ g.free) : Tree.Unused m.mem g.table page :=
  unused_of_uses (valid.free_counts listed).1

theorem not_free_of_spare (credit : 0 < g.spare page) : page ∉ g.free := fun listed => by
  have := (valid.free_counts listed).2
  omega

theorem not_free_of_placed (placed : Placed g.table page) :
    page ∉ g.free := fun listed => (valid.free_unused listed).unplaced placed

theorem pageAlloc_empty (empty : g.free = []) (zero : Bool) : pageAlloc m zero = none := by
  have chain := valid.pool.chain
  rw [empty, chain_nil] at chain
  simp [pageAlloc, chain]

theorem pageAlloc_eq {rest : List (Fin npages)} (listed : g.free = page :: rest) (zero : Bool) :
    pageAlloc m zero = some (page, m.take page zero) := by
  have chain := valid.pool.chain
  rw [listed, chain_cons] at chain
  simp [pageAlloc, chain.1, Pmap.take]

theorem take {rest : List (Fin npages)} (listed : g.free = page :: rest) (zero : Bool) :
    Valid managed roots (m.take page zero) (g.setFree rest) := by
  have member : page ∈ g.free := by simp [listed]
  have unused := valid.free_unused member
  have chain := valid.pool.chain
  have distinct := chain.nodup
  rw [listed] at chain distinct
  have notRest := (List.nodup_cons.mp distinct).1
  have same : ∀ other, Placed g.table other → (m.take page zero).mem other = m.mem other :=
    fun other placed => Pmap.take_mem_ne fun equal => unused.unplaced (equal ▸ placed)
  refine ⟨?_, ⟨?_, ?_, ?_, ?_⟩, ?_⟩
  · rw [Pmap.take_boot]
    exact valid.tree.scratch same
  · rw [Pmap.take_list]
    refine chain.2.congr fun other there => ?_
    rw [Pmap.take_link, if_neg (by rintro rfl; exact notRest there)]
  · intro other there
    rw [Pmap.take_ref]
    exact valid.pool.member other (by rw [listed]; exact List.mem_cons_of_mem _ there)
  · intro other inside absent
    rw [Pmap.take_link]
    split
    · rfl
    · refine valid.pool.unlinked other inside ?_
      rw [listed]
      exact fun there => (List.mem_cons.mp there).elim ‹_› absent
  · intro other outside
    rw [Pmap.take_link, if_neg (by rintro rfl; exact outside (valid.pool.member _ member).1)]
    exact valid.pool.reserved other outside
  · intro other inside
    rw [Pmap.take_ref, Ledger.setFree_table, Ledger.setFree_spare, uses_scratch same]
    exact valid.counted other inside

theorem incRef (absent : page ∉ g.free) (room : page ∈ managed → (m.pages page).ppRef ≠ 65535#16) :
    Valid managed roots (m.incRef page) (g.give page) := by
  refine ⟨valid.tree, ⟨?_, ?_, ?_, ?_⟩, ?_⟩
  · exact valid.pool.chain.congr fun other _ => Pmap.incRef_link
  · intro other there
    rw [Pmap.incRef_ref, if_neg (by rintro rfl; exact absent there)]
    exact valid.pool.member other there
  · intro other inside missing
    rw [Pmap.incRef_link]
    exact valid.pool.unlinked other inside missing
  · intro other outside
    rw [Pmap.incRef_link]
    exact valid.pool.reserved other outside
  · intro other inside
    have count := valid.counted other inside
    rw [Pmap.incRef_ref, Ledger.give_spare]
    by_cases same : other = page
    · subst same
      have below : (m.pages other).ppRef.toNat ≠ 65535 := fun full =>
        room inside (BitVec.eq_of_toNat_eq (by simpa using full))
      have bound := (m.pages other).ppRef.isLt
      have one : (1 : BitVec 16).toNat = 1 := rfl
      rw [if_pos rfl, if_pos rfl, BitVec.toNat_add, one]
      simp only [Pmap.incRef_mem, Ledger.give_table]
      omega
    · rw [if_neg same, if_neg same]
      simpa using count

end

end Valid

namespace Pmap

variable {m : Pmap npages} {page other : Fin npages}

/-- The state that `page_decref` leaves when it does not panic. -/
def dropRef (m : Pmap npages) (page : Fin npages) : Pmap npages :=
  if (m.pages page).ppRef = 1 then insertAtBegining (m.setRef page 0) page
  else m.setRef page ((m.pages page).ppRef - 1)

theorem insertAtBegining_mem : (insertAtBegining m page).mem = m.mem := by
  unfold insertAtBegining
  split <;> rfl

theorem pageDecref_mem {m' : Pmap npages} (ran : pageDecref m page = some m') : m'.mem = m.mem := by
  unfold pageDecref at ran
  dsimp only at ran
  split at ran
  · unfold pageFree at ran
    split at ran
    · cases ran
    · split at ran
      · cases ran
      · rw [← Option.some.inj ran, insertAtBegining_mem]
        rfl
  · rw [← Option.some.inj ran]
    rfl

theorem insertAtBegining_boot : (insertAtBegining m page).bootPml4e = m.bootPml4e := by
  unfold insertAtBegining
  split <;> rfl

theorem insertAtBegining_ref :
    ((insertAtBegining m page).pages other).ppRef = (m.pages other).ppRef := by
  unfold insertAtBegining
  split
  · rfl
  · exact setLink_ref

theorem insertAtBegining_list : (insertAtBegining m page).pageFreeList = some page := by
  unfold insertAtBegining
  split <;> rfl

theorem insertAtBegining_link (unlinked : (m.pages page).ppLink = none) :
    ((insertAtBegining m page).pages other).ppLink =
      if other = page then m.pageFreeList else (m.pages other).ppLink := by
  unfold insertAtBegining
  split
  · rename_i empty
    by_cases same : other = page
    · subst same
      simpa [empty] using unlinked
    · simp [same]
  · rename_i head listed
    rw [listed]
    exact setLink_link

@[simp] theorem dropRef_mem : (m.dropRef page).mem = m.mem := by
  unfold dropRef
  split
  · exact insertAtBegining_mem
  · rfl

@[simp] theorem dropRef_boot : (m.dropRef page).bootPml4e = m.bootPml4e := by
  unfold dropRef
  split
  · exact insertAtBegining_boot
  · rfl

theorem dropRef_ref : ((m.dropRef page).pages other).ppRef =
    if other = page then (m.pages page).ppRef - 1 else (m.pages other).ppRef := by
  unfold dropRef
  split
  · rename_i last
    rw [insertAtBegining_ref, setRef_ref, last]
    rfl
  · exact setRef_ref

theorem pageDecref_eq (unlinked : (m.pages page).ppLink = none) :
    pageDecref m page = some (m.dropRef page) := by
  unfold pageDecref dropRef
  by_cases last : (m.pages page).ppRef = 1
  · have zero : (m.pages page).ppRef - 1 = 0 := by rw [last]; decide
    simp [last, pageFree, setRef_ref, unlinked]
  · have nonzero : (m.pages page).ppRef - 1 ≠ 0 := fun zero => last (by bv_omega)
    simp only [setRef_ref, if_true, if_neg nonzero, if_neg last]

end Pmap

/-- The ledger after a reference held outside the tables has been given up. -/
def Ledger.release (g : Ledger npages) (m : Pmap npages) (page : Fin npages) : Ledger npages :=
  (g.spend page).setFree (if (m.pages page).ppRef = 1 then page :: g.free else g.free)

@[simp] theorem Ledger.release_table {g : Ledger npages} {m : Pmap npages} {page : Fin npages} :
    (g.release m page).table = g.table := rfl

@[simp] theorem Ledger.release_spare {g : Ledger npages} {m : Pmap npages} {page : Fin npages} :
    (g.release m page).spare = (g.spend page).spare := rfl

theorem Pool.dropRef {managed : Set (Fin npages)} {m : Pmap npages} {page : Fin npages}
    {free : List (Fin npages)} (pool : Pool managed m free)
    (inside : page ∈ managed) (absent : page ∉ free) :
    Pool managed (m.dropRef page) (if (m.pages page).ppRef = 1 then page :: free else free) := by
  have unlinked := pool.unlinked page inside absent
  by_cases last : (m.pages page).ppRef = 1
  · have cleared : ((m.setRef page 0).pages page).ppLink = none := by simpa using unlinked
    have dropped : m.dropRef page = insertAtBegining (m.setRef page 0) page := if_pos last
    have link (other : Fin npages) : ((m.dropRef page).pages other).ppLink =
        if other = page then m.pageFreeList else (m.pages other).ppLink := by
      rw [dropped, Pmap.insertAtBegining_link cleared, Pmap.setRef_link, Pmap.setRef_list]
    rw [if_pos last]
    refine ⟨?_, ?_, ?_, ?_⟩
    · rw [dropped, Pmap.insertAtBegining_list, ← dropped]
      refine pool.chain.push absent (by rw [link, if_pos rfl]) fun old differs => ?_
      rw [link, if_neg differs]
    · intro other there
      rw [Pmap.dropRef_ref]
      by_cases same : other = page
      · subst same
        exact ⟨inside, by rw [if_pos rfl, last]; rfl⟩
      · rw [if_neg same]
        exact pool.member other ((List.mem_cons.mp there).resolve_left same)
    · intro other within missing
      rw [List.mem_cons, not_or] at missing
      rw [link, if_neg missing.1]
      exact pool.unlinked other within missing.2
    · intro other outside
      rw [link, if_neg (by rintro rfl; exact outside inside)]
      exact pool.reserved other outside
  · have dropped : m.dropRef page = m.setRef page ((m.pages page).ppRef - 1) := if_neg last
    rw [if_neg last, dropped]
    refine ⟨pool.chain.congr fun other _ => Pmap.setRef_link, ?_, ?_, ?_⟩
    · intro other there
      rw [Pmap.setRef_ref, if_neg (by rintro rfl; exact absent there)]
      exact pool.member other there
    · intro other within missing
      rw [Pmap.setRef_link]
      exact pool.unlinked other within missing
    · intro other outside
      rw [Pmap.setRef_link]
      exact pool.reserved other outside

namespace Valid

variable {managed : Set (Fin npages)} {roots : EnvIdx → Option (Fin npages)} {m : Pmap npages}
  {g : Ledger npages} {page : Fin npages}

section

variable (valid : Valid managed roots m g)

include valid

theorem dropRef_pool (inside : page ∈ managed) (credit : 0 < g.spare page) :
    Pool managed (m.dropRef page)
      (if (m.pages page).ppRef = 1 then page :: g.free else g.free) :=
  valid.pool.dropRef inside (valid.not_free_of_spare credit)

/-- A reference that no table holds is given up; with the last one the page goes
back to the free list. -/
theorem dropRef (inside : page ∈ managed)
    (credit : 0 < g.spare page) : Valid managed roots (m.dropRef page) (g.release m page) := by
  refine ⟨?_, valid.dropRef_pool inside credit, ?_⟩
  · rw [Pmap.dropRef_boot, Pmap.dropRef_mem]
    exact valid.tree
  · intro other within
    have count := valid.counted other within
    rw [Pmap.dropRef_ref, Pmap.dropRef_mem, Ledger.release_table, Ledger.release_spare,
      Ledger.spend_spare]
    by_cases same : other = page
    · subst same
      have one : (1 : BitVec 16).toNat = 1 := rfl
      rw [if_pos rfl, if_pos rfl, BitVec.toNat_sub, one]
      have bound := (m.pages other).ppRef.isLt
      omega
    · rw [if_neg same, if_neg same, count, Nat.sub_zero]

/-- Page 0 and the other pages that the allocator does not manage are never
freed: their links are not empty, so `page_free` panics. -/
theorem dropRef_unmanaged (outside : page ∉ managed)
    {m' : Pmap npages} (dropped : pageDecref m page = some m') :
    Valid managed roots m' g ∧ m'.mem = m.mem ∧ m'.bootPml4e = m.bootPml4e ∧
      ∀ other, other ≠ page → (m'.pages other).ppRef = (m.pages other).ppRef := by
  have linked := valid.pool.reserved page outside
  unfold pageDecref at dropped
  simp only at dropped
  split at dropped
  · unfold pageFree at dropped
    rw [Pmap.setRef_link] at dropped
    simp [Option.isSome_iff_ne_none.mpr linked] at dropped
  · obtain rfl := Option.some.inj dropped
    refine ⟨⟨valid.tree, ⟨?_, ?_, ?_, ?_⟩, ?_⟩, rfl, rfl, ?_⟩
    · exact valid.pool.chain.congr fun other _ => Pmap.setRef_link
    · intro other there
      have member := valid.pool.member other there
      rw [Pmap.setRef_ref, if_neg (by rintro rfl; exact outside member.1)]
      exact member
    · intro other within missing
      rw [Pmap.setRef_link]
      exact valid.pool.unlinked other within missing
    · intro other without
      rw [Pmap.setRef_link]
      exact valid.pool.reserved other without
    · intro other within
      rw [Pmap.setRef_ref, if_neg (by rintro rfl; exact outside within)]
      exact valid.counted other within
    · intro other differs
      rw [Pmap.setRef_ref, if_neg differs]

end

end Valid

end Jos
