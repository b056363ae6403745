import Jos.Kern.Pmap

/-! Where a page that is used as a table sits in the trees of tables. A place is
named by the owner of the tree and the indices that lead to it from the root;
the address spaces are described over places, without page numbers. -/

set_option autoImplicit false

namespace Jos

/-- A position for a table: in the tree of an environment, or in the tree of
`boot_pml4e` when there is no owner. The indices are listed from the last one. -/
structure Place where
  owner : Option EnvIdx
  path : List Index
deriving DecidableEq, Repr

theorem pml4_uvpt : pml4 uvpt = 2 := by decide

theorem pml4_utop : pml4 utop = 1 := by decide

namespace Place

def root (owner : Option EnvIdx) : Place := ⟨owner, []⟩

@[simp] theorem root_owner {owner : Option EnvIdx} : (root owner).owner = owner := rfl
@[simp] theorem root_path {owner : Option EnvIdx} : (root owner).path = [] := rfl

/-- The two entries of the PML4 of an environment that do not lead to a table of
its own: the kernel half, shared by all, and the self-map at UVPT. -/
def Special (a : Place) (i : Index) : Prop :=
  a.owner ≠ none ∧ a.path = [] ∧ (i = 1 ∨ i = pml4 uvpt)

instance (a : Place) (i : Index) : Decidable (a.Special i) :=
  inferInstanceAs (Decidable (_ ∧ _ ∧ _))

/-- The place that entry `i` of a table leads to. -/
def child (a : Place) (i : Index) : Place :=
  if a.Special i then (if i = 1 then ⟨none, [1]⟩ else a) else ⟨a.owner, i :: a.path⟩

theorem child_plain {a : Place} {i : Index} (plain : ¬ a.Special i) :
    a.child i = ⟨a.owner, i :: a.path⟩ := if_neg plain

theorem plain_first {owner : Option EnvIdx} : ¬ (root owner).Special 0 := fun special => by
  have index := special.2.2
  revert index
  decide

theorem child_first {owner : Option EnvIdx} : (root owner).child 0 = ⟨owner, [0]⟩ :=
  child_plain plain_first

theorem child_none {path : List Index} {i : Index} :
    child ⟨none, path⟩ i = ⟨none, i :: path⟩ :=
  child_plain fun special => special.1 rfl

theorem child_cons {owner : Option EnvIdx} {path : List Index} {i j : Index} :
    child ⟨owner, j :: path⟩ i = ⟨owner, i :: j :: path⟩ :=
  child_plain fun special => by simpa using special.2.1

@[simp] theorem child_shared {e : EnvIdx} : child (root (some e)) 1 = ⟨none, [1]⟩ := by
  simp [child, Special, root]

@[simp] theorem child_self {e : EnvIdx} :
    child (root (some e)) (pml4 uvpt) = root (some e) := by
  simp [child, Special, root, pml4_uvpt]

theorem child_length (a : Place) (i : Index) : (a.child i).path.length ≤ a.path.length + 1 := by
  unfold child
  split
  · split <;> simp
  · simp

theorem child_owner (a : Place) (i : Index) :
    (a.child i).owner = a.owner ∨ (a.child i).owner = none := by
  unfold child
  split
  · split
    · exact .inr rfl
    · exact .inl rfl
  · exact .inl rfl

def table (a : Place) (va : Nat) : Place :=
  ((a.child (pml4 va)).child (pdpe va)).child (pdx va)

theorem table_owner (a : Place) (va : Nat) :
    (a.table va).owner = a.owner ∨ (a.table va).owner = none := by
  rcases child_owner ((a.child (pml4 va)).child (pdpe va)) (pdx va) with last | none
  · rcases child_owner (a.child (pml4 va)) (pdpe va) with middle | none
    · rcases child_owner a (pml4 va) with first | none
      · exact .inl (last.trans (middle.trans first))
      · exact .inr (last.trans (middle.trans none))
    · exact .inr (last.trans none)
  · exact .inr none

theorem eq_of_table_owner {e other : EnvIdx} {va : Nat}
    (owner : ((root (some e)).table va).owner = some other) : e = other := by
  rcases table_owner (root (some e)) va with own | shared
  · exact Option.some.inj (own.symm.trans owner)
  · cases shared.symm.trans owner

theorem table_boot {va : Nat} : (root none).table va = ⟨none, [pdx va, pdpe va, pml4 va]⟩ := by
  simp [table, root, child_none]

theorem table_shared {e : EnvIdx} {va : Nat} (shared : pml4 va = 1) :
    (root (some e)).table va = ⟨none, [pdx va, pdpe va, 1]⟩ := by
  simp [table, shared, child_none]

theorem table_own {e : EnvIdx} {va : Nat} (unshared : pml4 va ≠ 1) (user : pml4 va ≠ pml4 uvpt) :
    (root (some e)).table va = ⟨some e, [pdx va, pdpe va, pml4 va]⟩ := by
  have plain : ¬ (root (some e)).Special (pml4 va) := fun special =>
    special.2.2.elim unshared user
  simp [table, child_plain plain, child_cons]

/-- The leaf entries that addresses up to and including UTOP use. The checks of
the page calls let UTOP itself through. -/
def Mappable (a : Place) (t : Index) : Prop :=
  ∃ k j i, a.path = [k, j, i] ∧ (i = 0 ∨ i = 1 ∧ j = 0 ∧ (k < 4 ∨ k = 4 ∧ t = 0))

theorem Mappable.length {a : Place} {t : Index} (mappable : a.Mappable t) :
    a.path.length = 3 := by
  obtain ⟨k, j, i, path, -⟩ := mappable
  simp [path]

def Below (top a : Place) : Prop := a.owner = top.owner ∧ top.path <:+ a.path

instance (top a : Place) : Decidable (top.Below a) := inferInstanceAs (Decidable (_ ∧ _))

theorem below_refl (a : Place) : a.Below a := ⟨rfl, List.suffix_refl _⟩

theorem below_root {owner : Option EnvIdx} {a : Place} :
    (root owner).Below a ↔ a.owner = owner := by
  simp [Below, root]

theorem below_child {top a : Place} {i : Index} (plain : ¬ a.Special i)
    (below : top.Below (a.child i)) : a.child i = top ∨ top.Below a := by
  rw [child_plain plain] at below ⊢
  obtain ⟨owner, suffix⟩ := below
  rcases List.suffix_cons_iff.mp suffix with whole | inside
  · left
    cases top
    simp_all
  · exact .inr ⟨owner, inside⟩

theorem below_path_cons {top : Place} {owner : Option EnvIdx} {i : Index} {path : List Index}
    (below : top.Below ⟨owner, path⟩) : top.Below ⟨owner, i :: path⟩ :=
  ⟨below.1, below.2.trans (List.suffix_cons i path)⟩

theorem below_length {top a : Place} (below : top.Below a) :
    top.path.length ≤ a.path.length := below.2.length_le

theorem below_eq {top a : Place} (below : top.Below a)
    (same : a.path.length ≤ top.path.length) : a = top := by
  have paths := below.2.eq_of_length_le same
  cases a
  cases top
  simp_all [Below]

end Place

end Jos
