import Jos.Kern.Translate

/-! `user_mem_check` of kern/pmap.c with the address it reports and with a permission
of any 32 bits. -/

set_option autoImplicit false

namespace Jos

variable {npages : Nat}

/-- A table entry as the 64 bits that the code tests. -/
def Pte.word (entry : Pte) : BitVec 64 := BitVec.ofNat 52 entry.ppn ++ entry.perm

/-- The leaf entry of a translation as 64 bits. -/
def Translation.word (found : Translation) : BitVec 64 :=
  BitVec.ofNat 52 found.ppn ++ found.ptePerm

/-- The loop, from the page of `vaT` on. The result is `user_mem_check_addr` when the
check fails. -/
def userMemCheckAddrLoop (m : Pmap npages) (pml4e : Option (Fin npages)) (va : Nat)
    (perm : BitVec 32) : Nat → Nat → Option (Option Nat × Pmap npages)
  | 0, _ => some (none, m)
  | rounds + 1, vaT =>
    let failed := if vaT < va then va else vaT
    if vaT ≥ ulim then some (some failed, m)
    else do
      let (found, m) ← pageLookup m pml4e vaT
      match found with
      | none => return (some failed, m)
      | some (_, slot) =>
        if (m.entry slot).word &&& perm.signExtend 64 = 0 then return (some failed, m)
        else userMemCheckAddrLoop m pml4e va perm rounds (vaT + pgSize)

/-- `none` stands for 0, an address for -E_FAULT with that `user_mem_check_addr`. -/
def userMemCheckAddr (m : Pmap npages) (pml4e : Option (Fin npages)) (va len : Nat)
    (perm : BitVec 32) : Option (Option Nat × Pmap npages) :=
  let start := roundDown va
  let stop := roundUp ((start + len) % 2 ^ 64)
  userMemCheckAddrLoop m pml4e va perm ((stop - start) / pgSize) start

end Jos
