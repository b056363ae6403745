import Mathlib.Logic.Function.Basic
import Jos.Inc.Env

/-! The physical page allocator and the page-table functions of kern/pmap.c. A
page is named by its index in `pages`, so the pointers to `struct PageInfo`, the
kernel addresses of whole pages and the page numbers in table entries are one
type here. `none` in the result of a function that can panic says that it does,
or that it reads through an address that no page backs. -/

set_option autoImplicit false

namespace Jos

open Function

variable {npages : Nat}

structure PageInfo (npages : Nat) where
  ppLink : Option (Fin npages)
  ppRef : BitVec 16
deriving DecidableEq, Repr

abbrev Slot (npages : Nat) := Fin npages × Index

/-- The state of kern/pmap.c: `pages`, `page_free_list`, `boot_pml4e` and the
contents of physical memory, read as tables of entries. -/
structure Pmap (npages : Nat) where
  pages : Fin npages → PageInfo npages
  pageFreeList : Option (Fin npages)
  bootPml4e : Fin npages
  mem : Fin npages → Index → Pte

namespace Pmap

def setLink (m : Pmap npages) (page : Fin npages) (link : Option (Fin npages)) : Pmap npages :=
  { m with pages := update m.pages page { m.pages page with ppLink := link } }

def setRef (m : Pmap npages) (page : Fin npages) (ref : BitVec 16) : Pmap npages :=
  { m with pages := update m.pages page { m.pages page with ppRef := ref } }

/-- `pp->pp_ref++` -/
def incRef (m : Pmap npages) (page : Fin npages) : Pmap npages :=
  m.setRef page ((m.pages page).ppRef + 1)

def setEntry (m : Pmap npages) (slot : Slot npages) (entry : Pte) : Pmap npages :=
  { m with mem := update m.mem slot.1 (update (m.mem slot.1) slot.2 entry) }

def entry (m : Pmap npages) (slot : Slot npages) : Pte := m.mem slot.1 slot.2

/-- `memset(page2kva(page), 0, PGSIZE)` -/
def clearPage (m : Pmap npages) (page : Fin npages) : Pmap npages :=
  { m with mem := update m.mem page fun _ => 0 }

end Pmap

/-- The KADDR macro on a page number. It compares the page number modulo 2^32;
an address that passes only because of that lies beyond the mapped memory, and
the access that follows faults. -/
def kaddr (npages : Nat) (ppn : Nat) : Option (Fin npages) :=
  if bound : ppn < npages then some ⟨ppn, bound⟩ else none

def pa2page (npages : Nat) (ppn : Nat) : Option (Fin npages) :=
  if bound : ppn < npages then some ⟨ppn, bound⟩ else none

/-- Returns `none` for NULL, in which case nothing has changed. -/
def pageAlloc (m : Pmap npages) (allocZero : Bool) : Option (Fin npages × Pmap npages) :=
  match m.pageFreeList with
  | none => none
  | some page =>
    let m := { m with pageFreeList := (m.pages page).ppLink }
    let m := m.setLink page none
    some (page, if allocZero then m.clearPage page else m)

def insertAtBegining (m : Pmap npages) (node : Fin npages) : Pmap npages :=
  match m.pageFreeList with
  | none => { m with pageFreeList := some node }
  | some head => { m.setLink node (some head) with pageFreeList := some node }

def pageFree (m : Pmap npages) (pp : Fin npages) : Option (Pmap npages) :=
  if (m.pages pp).ppRef ≠ 0 then none
  else if (m.pages pp).ppLink.isSome then none
  else some (insertAtBegining m pp)

def pageDecref (m : Pmap npages) (pp : Fin npages) : Option (Pmap npages) :=
  let m := m.setRef pp ((m.pages pp).ppRef - 1)
  if (m.pages pp).ppRef = 0 then pageFree m pp else some m

/-- The first half of each walker: leave an entry in use as it is, and give an
empty one a fresh table when `create` is set. `none` stands for the walker
returning NULL; otherwise the page is the table just allocated, if one was. -/
def demandTable (m : Pmap npages) (slot : Slot npages) (create : Bool) :
    Option (Option (Fin npages) × Pmap npages) :=
  if m.entry slot = 0 then
    if create then
      match pageAlloc m true with
      | none => none
      | some (page, m) => some (some page, (m.incRef page).setEntry slot ⟨page, tablePerm⟩)
    else none
  else some (none, m)

def pgdirWalk (m : Pmap npages) (pgdir : Fin npages) (va : Nat) (create : Bool) :
    Option (Option (Slot npages) × Pmap npages) :=
  match demandTable m (pgdir, pdx va) create with
  | none => some (none, m)
  | some (_, m) => do
      let pageTable ← kaddr npages (m.entry (pgdir, pdx va)).ppn
      return (some (pageTable, ptx va), m)

/-- The `page` that the test for an undo looks at is never assigned: the
allocation assigns a second variable of that name. A page directory made here
therefore stays when `pgdir_walk` fails. -/
def pdpeWalk (m : Pmap npages) (pdpt : Fin npages) (va : Nat) (create : Bool) :
    Option (Option (Slot npages) × Pmap npages) :=
  match demandTable m (pdpt, pdpe va) create with
  | none => some (none, m)
  | some (_, m) => do
      let pgdir ← kaddr npages (m.entry (pdpt, pdpe va)).ppn
      pgdirWalk m pgdir va create

def pml4eWalk (m : Pmap npages) (pml4e : Option (Fin npages)) (va : Nat) (create : Bool) :
    Option (Option (Slot npages) × Pmap npages) :=
  match pml4e with
  | none => some (none, m)
  | some pml4e =>
    match demandTable m (pml4e, pml4 va) create with
    | none => some (none, m)
    | some (page, m) => do
        let pdpt ← kaddr npages (m.entry (pml4e, pml4 va)).ppn
        let (found, m) ← pdpeWalk m pdpt va create
        match found, page with
        | none, some page =>
          let m ← pageDecref m page
          return (none, m.setEntry (pml4e, pml4 va) 0)
        | _, _ => return (found, m)

/-- Looks the page up with `create` set, as the source does. -/
def pageLookup (m : Pmap npages) (pml4e : Option (Fin npages)) (va : Nat) :
    Option (Option (Fin npages × Slot npages) × Pmap npages) :=
  match pml4e with
  | none => some (none, m)
  | some pml4e => do
      let (found, m) ← pml4eWalk m (some pml4e) va true
      match found with
      | none => return (none, m)
      | some slot =>
        if (m.entry slot).present then
          let page ← pa2page npages (m.entry slot).ppn
          return (some (page, slot), m)
        else return (none, m)

def pageRemove (m : Pmap npages) (pml4e : Option (Fin npages)) (va : Nat) :
    Option (Pmap npages) :=
  match pml4e with
  | none => some m
  | some pml4e => do
      let (found, m) ← pageLookup m (some pml4e) va
      match found with
      | none => return m
      | some (page, slot) =>
        let m ← pageDecref m page
        return m.setEntry slot 0

/-- The callers have checked that `perm` has no bits above the low twelve. -/
def pageInsert (m : Pmap npages) (pml4e : Option (Fin npages)) (pp : Fin npages) (va : Nat)
    (perm : BitVec 12) : Option (Int × Pmap npages) :=
  match pml4e with
  | none => some (0, m)
  | some pml4e => do
      let (found, m) ← pml4eWalk m (some pml4e) va true
      match found with
      | none => return (-eNoMem, m)
      | some slot =>
        let perm := perm ||| pteP
        if (m.entry slot).present then
          let old ← pa2page npages (m.entry slot).ppn
          if old = pp then return (0, m.setEntry slot ⟨pp, perm⟩)
          else
            let m ← pageRemove m (some pml4e) va
            return (0, (m.setEntry slot ⟨pp, perm⟩).incRef pp)
        else return (0, (m.setEntry slot ⟨pp, perm⟩).incRef pp)

/-- One round of the loop of `user_mem_check` per page, from the page of `page`
on. Returns whether every page passed. -/
def userMemCheckLoop (m : Pmap npages) (pml4e : Option (Fin npages)) (perm : BitVec 12) :
    Nat → Nat → Option (Bool × Pmap npages)
  | 0, _ => some (true, m)
  | rounds + 1, va =>
    if va ≥ ulim then some (false, m)
    else do
      let (found, m) ← pageLookup m pml4e va
      match found with
      | none => return (false, m)
      | some (_, slot) =>
        if (m.entry slot).perm &&& perm = 0 then return (false, m)
        else userMemCheckLoop m pml4e perm rounds (va + pgSize)

def roundDown (a : Nat) : Nat := a - a % pgSize

/-- ROUNDUP to a page, in 64-bit arithmetic. -/
def roundUp (a : Nat) : Nat := roundDown ((a + pgSize - 1) % 2 ^ 64)

/-- Whether the range may be accessed; the end is computed from the rounded
start, and a range that wraps has no page to look at. -/
def userMemCheck (m : Pmap npages) (pml4e : Option (Fin npages)) (va len : Nat)
    (perm : BitVec 12) : Option (Bool × Pmap npages) :=
  let start := roundDown va
  let stop := roundUp ((start + len) % 2 ^ 64)
  userMemCheckLoop m pml4e perm ((stop - start) / pgSize) start

end Jos
