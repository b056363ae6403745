import Jos.Kern.Pmap

/-! The four-level walk of the x86 MMU. -/

set_option autoImplicit false

namespace Jos

variable {npages : Nat}

/-- What a virtual address translates to: the physical page and the flags of
the four entries used. -/
structure Translation where
  ppn : Nat
  pml4Perm : BitVec 12
  pdpePerm : BitVec 12
  pdePerm : BitVec 12
  ptePerm : BitVec 12
deriving DecidableEq, Repr

def Translation.user (found : Translation) : Bool :=
  found.pml4Perm.getLsbD 2 && found.pdpePerm.getLsbD 2 && found.pdePerm.getLsbD 2 &&
    found.ptePerm.getLsbD 2

def Translation.writable (found : Translation) : Bool :=
  found.pml4Perm.getLsbD 1 && found.pdpePerm.getLsbD 1 && found.pdePerm.getLsbD 1 &&
    found.ptePerm.getLsbD 1

namespace Pmap

def next (m : Pmap npages) (table : Fin npages) (i : Index) : Option (Fin npages) :=
  if (m.mem table i).present then kaddr npages (m.mem table i).ppn else none

def pageTable (m : Pmap npages) (cr3 : Fin npages) (va : Nat) : Option (Fin npages) := do
  let pdpt ← m.next cr3 (pml4 va)
  let pgdir ← m.next pdpt (pdpe va)
  m.next pgdir (pdx va)

def translate (m : Pmap npages) (cr3 : Fin npages) (va : Nat) : Option Translation := do
  let pdpt ← m.next cr3 (pml4 va)
  let pgdir ← m.next pdpt (pdpe va)
  let pt ← m.next pgdir (pdx va)
  if (m.mem pt (ptx va)).present then
    some
      { ppn := (m.mem pt (ptx va)).ppn
        pml4Perm := (m.mem cr3 (pml4 va)).perm
        pdpePerm := (m.mem pdpt (pdpe va)).perm
        pdePerm := (m.mem pgdir (pdx va)).perm
        ptePerm := (m.mem pt (ptx va)).perm }
  else none

end Pmap

/-- The tables that the walk of the MMU meets at a depth, below a PML4. -/
def Pmap.TableAt (m : Pmap npages) (root : Fin npages) : Nat → Fin npages → Prop
  | 0, page => page = root
  | depth + 1, page => ∃ above i, m.TableAt root depth above ∧ m.next above i = some page

/-- The translation of an address in the address space of an environment. -/
def Pmap.translateIn (m : Pmap npages) (pml4e : Option (Fin npages)) (va : Nat) :
    Option Translation :=
  pml4e.bind fun cr3 => m.translate cr3 va

end Jos
