import Jos.Lib.Family
import Jos.Kern.Pmap

/-! `malloc` and `free` of lib/malloc.c. -/

set_option autoImplicit false

namespace Jos

def maxMalloc : Nat := 1024 * 1024
def pteContinued : BitVec 12 := 0x400#12

def mbegin : Nat := 0x08000000
def mend : Nat := 0x10000000

def Pte.continued (entry : Pte) : Bool := entry.perm.getLsbD 10

/-- Nothing is mapped in the `n` bytes at `v`, and they lie below `mend`. -/
def isfree (s : Space) (v n : Nat) : Bool :=
  (List.range ((n + pgSize - 1) / pgSize)).all fun i =>
    let va := v + i * pgSize
    decide (va < mend) && !(s.uvpd (va / ptSize) && (s.uvpt (vpn va)).isSome)

/-- The search of `malloc` for address space, which passes the end twice at most.
`none` when `mptr` starts beyond `mend`, which the loop then never meets. -/
def seek (s : Space) (n : Nat) : Nat → Nat → Nat → Option (Option Nat)
  | 0, _, _ => none
  | left + 1, nwrap, mptr =>
    if isfree s mptr (n + 4) then some (some mptr)
    else if mptr + pgSize = mend then
      if nwrap + 1 = 2 then some none else seek s n left (nwrap + 1) mbegin
    else seek s n left nwrap (mptr + pgSize)

section Calls

variable (answers : ForkCall → Int) (e : Nat)

/-- `sys_page_unmap(0, va)` -/
def World.unmap (w : World) (pn : Nat) : World :=
  if answers (.pageUnmap e pn) < 0 then w else w.remove e pn

def World.readWord (w : World) (va : Nat) : Option (BitVec 32) :=
  (w.readByte e va).bind fun b₀ => (w.readByte e (va + 1)).bind fun b₁ =>
    (w.readByte e (va + 2)).bind fun b₂ => (w.readByte e (va + 3)).map fun b₃ =>
      b₃ ++ b₂ ++ b₁ ++ b₀

def World.writeWord (w : World) (va : Nat) (word : BitVec 32) : Option World :=
  (w.writeByte answers e va (word.extractLsb' 0 8)).bind fun w =>
    (w.writeByte answers e (va + 1) (word.extractLsb' 8 8)).bind fun w =>
      (w.writeByte answers e (va + 2) (word.extractLsb' 16 8)).bind fun w =>
        w.writeByte answers e (va + 3) (word.extractLsb' 24 8)

def unwind (base : Nat) : Nat → World → World
  | 0, w => w
  | i + 1, w => unwind base i (w.unmap answers e (vpn (base + i * pgSize)))

/-- The pages of a block of `n` bytes and its reference count, from the page `i` on. -/
def mallocPages (base n : Nat) : Nat → Nat → World → Bool × World
  | 0, _, w => (true, w)
  | left + 1, i, w =>
    let cont := if (i + 1) * pgSize < n + 4 then pteContinued else 0
    let pn := vpn (base + i * pgSize)
    if answers (.pageAlloc e pn (permPrivate ||| cont)) < 0 then
      (false, unwind answers e base (i + 1) w)
    else mallocPages base n left (i + 1) (w.pageAlloc e pn (permPrivate ||| cont))

/-- `free` unmaps the continued pages of a block and comes to its last page. -/
def freeRun : Nat → Nat → World → Option (Nat × World)
  | 0, _, _ => none
  | left + 1, pn, w =>
    if ((w.space e).uvpt pn).any Pte.continued then
      freeRun left (pn + 1) (w.unmap answers e pn)
    else some (pn, w)

def free (v : Nat) (w : World) : Option World :=
  if v = 0 then some w
  else if v < mbegin ∨ mend ≤ v then none
  else
    (freeRun answers e (vpn mend - vpn v) (vpn v) w).bind fun (pn, w) =>
      let ref := pn * pgSize + pgSize - 4
      (w.readWord e ref).bind fun count =>
        (w.writeWord answers e ref (count - 1)).map fun w =>
          if count - 1 = 0 then w.unmap answers e pn else w

end Calls

/-- The environments, and the static variable `mptr` of each. -/
structure Process where
  world : World
  mptr : Nat → Nat

def Process.setMptr (p : Process) (w : World) (e mptr : Nat) : Process :=
  ⟨w, Function.update p.mptr e mptr⟩

/-- The size that `malloc` rounds up to, in 64 bits. -/
def mallocSize (n : Nat) : Nat := (n + 3) % 2 ^ 64 / 4 * 4

def blockPages (n : Nat) : Nat := (n + 4 + pgSize - 1) / pgSize

/-- `malloc` takes the pages of a block at `mptr`. -/
def mallocAt (answers : ForkCall → Int) (e n mptr : Nat) (p : Process) (w : World) :
    Option (Nat × Process) :=
  let taken := mallocPages answers e mptr n (blockPages n) 0 w
  if taken.1 then
    (taken.2.writeWord answers e (mptr + blockPages n * pgSize - 4) 2).map fun w =>
      (mptr, p.setMptr w e (mptr + n))
  else some (0, p.setMptr taken.2 e mptr)

/-- `malloc` finds new pages for a block, from the page boundary `mptr` on. -/
def mallocFresh (answers : ForkCall → Int) (e n mptr : Nat) (p : Process) (w : World) :
    Option (Nat × Process) :=
  (seek (w.space e) n (2 * ((mend - mbegin) / pgSize)) 0 mptr).bind fun
    | none => some (0, p.setMptr w e mbegin)
    | some mptr => mallocAt answers e n mptr p w

def malloc (answers : ForkCall → Int) (e n : Nat) (p : Process) : Option (Nat × Process) :=
  let mptr := if p.mptr e = 0 then mbegin else p.mptr e
  let n := mallocSize n
  if maxMalloc ≤ n then some (0, p.setMptr p.world e mptr)
  else if mptr % pgSize = 0 then mallocFresh answers e n mptr p p.world
  else if mptr / pgSize = (mptr + n - 1 + 4) / pgSize then
    let ref := roundUp mptr - 4
    (p.world.readWord e ref).bind fun count =>
      (p.world.writeWord answers e ref (count + 1)).map fun w =>
        (mptr, p.setMptr w e (mptr + n))
  else
    (free answers e mptr p.world).bind fun w =>
      mallocFresh answers e n (roundDown (mptr + pgSize)) p w

end Jos
