import Jos.Kern.Translate
import Jos.Memory.Address

/-! The walk of the MMU refines the lookup of a leaf entry by its place: outside
the self-map, what an address translates to is decided by one leaf entry. -/

set_option autoImplicit false

namespace Jos

variable {npages : Nat} {managed : Set (Fin npages)} {roots : EnvIdx → Option (Fin npages)}
  {m m' : Pmap npages} {g g' : Ledger npages} {cr3 : Fin npages}

/-- The translation that a leaf entry gives: the tables above it grant all. -/
def leafTranslation (entry : Pte) : Option Translation :=
  if entry.present then
    some ⟨entry.ppn, tablePerm, tablePerm, tablePerm, entry.perm⟩
  else none

theorem leafTranslation_writable {entry : Pte} {found : Translation}
    (some : leafTranslation entry = some found) : found.writable = entry.writable := by
  unfold leafTranslation at some
  split at some
  · obtain rfl := Option.some.inj some
    have table : tablePerm.getLsbD 1 = true := by decide
    simp [Translation.writable, Pte.writable, table]
  · cases some

theorem leafTranslation_none {entry : Pte} :
    leafTranslation entry = none ↔ entry.present = false := by
  unfold leafTranslation
  split
  · rename_i present
    simp [present]
  · rename_i absent
    simpa using absent

theorem leafTranslation_injective {entry entry' : Pte}
    (same : leafTranslation entry = leafTranslation entry') (present : entry.present = true) :
    entry = entry' := by
  unfold leafTranslation at same
  rw [if_pos present] at same
  split at same
  · injection same with same
    injection same with ppn _ _ _ perm
    cases entry
    cases entry'
    simp_all
  · cases same

def Pmap.missing (m : Pmap npages) (cr3 : Fin npages) (va : Nat) : Nat :=
  match m.next cr3 (pml4 va) with
  | none => 3
  | some pdpt =>
    match m.next pdpt (pdpe va) with
    | none => 2
    | some pgdir =>
      match m.next pgdir (pdx va) with
      | none => 1
      | some _ => 0

/-- The pages on `page_free_list`, in order. -/
def Pmap.FreeList (m : Pmap npages) (free : List (Fin npages)) : Prop :=
  Foundation.Chain (fun page => (m.pages page).ppLink) m.pageFreeList free

/-- `page_alloc` returns the first page of the list, and leaves the rest. -/
theorem Pmap.FreeList.pageAlloc {free : List (Fin npages)} {allocZero : Bool} {page : Fin npages}
    (listed : m.FreeList free) (ran : Jos.pageAlloc m allocZero = some (page, m')) :
    ∃ rest, free = page :: rest ∧ m' = m.take page allocZero ∧ m'.FreeList rest := by
  unfold Jos.pageAlloc at ran
  split at ran
  · cases ran
  · rename_i head here
    obtain ⟨rfl, rfl⟩ := Prod.mk.inj (Option.some.inj ran)
    unfold Pmap.FreeList at listed
    rw [here] at listed
    obtain ⟨rest, rfl, tail, fresh⟩ := listed.pop
    refine ⟨rest, rfl, rfl, ?_⟩
    change Foundation.Chain (fun other => ((m.take head allocZero).pages other).ppLink)
      (m.take head allocZero).pageFreeList rest
    rw [Pmap.take_list]
    refine tail.congr fun other member => ?_
    rw [Pmap.take_link, if_neg]
    rintro rfl
    exact fresh member

theorem Valid.freeList_iff (valid : Valid managed roots m g) {free : List (Fin npages)} :
    m.FreeList free ↔ free = g.free :=
  ⟨fun chain => chain.functional valid.pool.chain, fun same => same ▸ valid.pool.chain⟩

namespace Valid

section

variable (valid : Valid managed roots m g)

include valid

theorem next_eq {a : Place} {table : Fin npages} {i : Index}
    (here : g.table a = some table) (short : a.path.length < 3) :
    m.next table i = g.table (a.child i) ∧
      (∀ page, g.table (a.child i) = some page → (m.mem table i).perm = tablePerm) := by
  have linked := valid.tree.link here short i
  unfold Pmap.next
  rw [linked]
  cases g.table (a.child i) with
  | none => simp [tableEntry]
  | some page => simp [tableEntry, kaddr_val]

/-- The tables that the walk of the MMU misses are those that the ledger misses. -/
theorem missing_eq {a : Place} {va : Nat}
    (here : g.table a = some cr3) (top : a.path = []) : m.missing cr3 va = g.wanted a va := by
  have first := Place.child_length a (pml4 va)
  have second := Place.child_length (a.child (pml4 va)) (pdpe va)
  simp only [top, List.length_nil] at first
  unfold Pmap.missing Ledger.wanted
  rw [(valid.next_eq here (by simp [top])).1]
  cases there : g.table (a.child (pml4 va)) with
  | none => simp [Layout.missing, there]
  | some pdpt =>
    simp only [(valid.next_eq there (by omega)).1]
    cases there' : g.table ((a.child (pml4 va)).child (pdpe va)) with
    | none => simp [Layout.missing, there, there']
    | some pgdir =>
      simp only [(valid.next_eq there' (by omega)).1]
      cases there'' : g.table (((a.child (pml4 va)).child (pdpe va)).child (pdx va)) with
      | none => simp [Layout.missing, there, there', there'']
      | some pt => simp [Layout.missing, there, there', there'']

theorem translate_path {a : Place} {va : Nat} (here : g.table a = some cr3) (top : a.path = [])
    (missing : g.table (a.table va) = none ∨ g.wanted a va = 0) :
    m.translate cr3 va = leafTranslation (leafEntry m.mem g.table (a.table va) (ptx va)) := by
  have first := Place.child_length a (pml4 va)
  have second := Place.child_length (a.child (pml4 va)) (pdpe va)
  simp only [top, List.length_nil] at first
  obtain ⟨next₁, perm₁⟩ := valid.next_eq (i := pml4 va) here (by simp [top])
  unfold Pmap.translate
  rw [next₁]
  cases there₁ : g.table (a.child (pml4 va)) with
  | none =>
    have absent : g.table (a.table va) = none := by
      refine missing.elim id fun zero => ?_
      simp [Ledger.wanted, Layout.missing, there₁] at zero
    simp [leafEntry_none absent, leafTranslation]
  | some pdpt =>
    obtain ⟨next₂, perm₂⟩ := valid.next_eq (i := pdpe va) there₁ (by omega)
    simp only [Option.bind_eq_bind, Option.bind_some]
    rw [next₂]
    cases there₂ : g.table ((a.child (pml4 va)).child (pdpe va)) with
    | none =>
      have absent : g.table (a.table va) = none := by
        refine missing.elim id fun zero => ?_
        simp [Ledger.wanted, Layout.missing, there₁, there₂] at zero
      simp [leafEntry_none absent, leafTranslation]
    | some pgdir =>
      obtain ⟨next₃, perm₃⟩ := valid.next_eq (i := pdx va) there₂ (by omega)
      simp only [Option.bind_some]
      rw [next₃]
      cases there₃ : g.table (((a.child (pml4 va)).child (pdpe va)).child (pdx va)) with
      | none =>
        have absent : g.table (a.table va) = none := there₃
        simp [leafEntry_none absent, leafTranslation]
      | some pt =>
        have present : g.table (a.table va) = some pt := there₃
        simp only [Option.bind_some, leafEntry_some present, leafTranslation,
          perm₁ _ there₁, perm₂ _ there₂, perm₃ _ there₃]

theorem translate_env {e : EnvIdx} {va : Nat}
    (rooted : roots e = some cr3) (user : pml4 va ≠ pml4 uvpt) :
    m.translate cr3 va =
      leafTranslation (leafEntry m.mem g.table ((Place.root (some e)).table va) (ptx va)) := by
  have here := valid.top rooted
  refine valid.translate_path here rfl ?_
  cases there : g.table ((Place.root (some e)).table va) with
  | none => exact .inl rfl
  | some page => exact .inr (valid.wanted_of_table user there)

theorem translate_boot {va : Nat} : m.translate m.bootPml4e va =
      leafTranslation (leafEntry m.mem g.table ((Place.root none).table va) (ptx va)) := by
  refine valid.translate_path valid.tree.bootRoot rfl ?_
  cases there : g.table ((Place.root none).table va) with
  | none => exact .inl rfl
  | some page =>
    rw [Place.table_boot] at there
    obtain ⟨pgdir, above⟩ := valid.tree.parent there
    obtain ⟨pdpt, top⟩ := valid.tree.parent above
    right
    unfold Ledger.wanted
    rw [Place.root]
    simp [Layout.missing, Place.child_none, there, above, top]

theorem translate_self {e : EnvIdx} {va : Nat}
    (rooted : roots e = some cr3) (self : pml4 va = pml4 uvpt) :
    m.translate cr3 va =
      (g.table (((((Place.root (some e)).child (pdpe va)).child (pdx va)).child (ptx va)))).bind
        fun page => if g.wanted (.root (some e)) va = 0 then
          some ⟨page.val, tablePerm, tablePerm, tablePerm, tablePerm⟩ else none := by
  have here := valid.top rooted
  have first := Place.child_length (Place.root (some e)) (pdpe va)
  have second := Place.child_length ((Place.root (some e)).child (pdpe va)) (pdx va)
  simp only [Place.root_path, List.length_nil] at first
  obtain ⟨next₁, perm₁⟩ := valid.next_eq (i := pml4 va) here (by simp)
  rw [self, Place.child_self] at next₁ perm₁
  have wanted : g.wanted (.root (some e)) va =
      g.table.missing (.root (some e)) [pdpe va, pdx va] := by
    simp [Ledger.wanted, Layout.missing, self, here]
  obtain ⟨next₂, perm₂⟩ := valid.next_eq (i := pdpe va) here (by simp)
  unfold Pmap.translate
  rw [self, next₁, here, wanted]
  simp only [Option.bind_eq_bind, Option.bind_some]
  rw [next₂]
  cases there₂ : g.table ((Place.root (some e)).child (pdpe va)) with
  | none => simp [Layout.missing, there₂]
  | some pgdir =>
    obtain ⟨next₃, perm₃⟩ := valid.next_eq (i := pdx va) there₂ (by omega)
    simp only [Option.bind_some]
    rw [next₃]
    cases there₃ : g.table (((Place.root (some e)).child (pdpe va)).child (pdx va)) with
    | none => simp [Layout.missing, there₂, there₃]
    | some pt =>
      have linked := valid.tree.link there₃ (by omega) (ptx va)
      simp only [Option.bind_some, linked]
      cases g.table ((((Place.root (some e)).child (pdpe va)).child (pdx va)).child (ptx va)) with
      | none => simp [tableEntry]
      | some page =>
        simp [tableEntry, Layout.missing, there₂, there₃, perm₁ _ here, perm₂ _ there₂,
          perm₃ _ there₃]

end

end Valid

end Jos
