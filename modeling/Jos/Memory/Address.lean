import Jos.Memory.Mapping

/-! Addresses and the leaf entries they use. -/

set_option autoImplicit false

namespace Jos

theorem pml4_eq (va : Nat) : (pml4 va).val = va / 2 ^ 39 % 512 := by
  simp only [pml4, pml4Shift, Nat.shiftRight_eq_div_pow]
  rfl

theorem pdpe_eq (va : Nat) : (pdpe va).val = va / 2 ^ 30 % 512 := by
  simp only [pdpe, pdpeShift, Nat.shiftRight_eq_div_pow]
  rfl

theorem pdx_eq (va : Nat) : (pdx va).val = va / 2 ^ 21 % 512 := by
  simp only [pdx, pdxShift, Nat.shiftRight_eq_div_pow]
  rfl

theorem ptx_eq (va : Nat) : (ptx va).val = va / 2 ^ 12 % 512 := by
  simp only [ptx, ptxShift, Nat.shiftRight_eq_div_pow]
  rfl

theorem utop_eq : utop = 2 ^ 39 + 4 * 2 ^ 21 := by decide

def Place.Low (a : Place) : Prop :=
  ∃ k j i, a.path = [k, j, i] ∧ (i = 0 ∨ i = 1 ∧ j = 0 ∧ k.val < 4)

theorem indices_low {va : Nat} (low : va < utop) :
    pml4 va = 0 ∨ pml4 va = 1 ∧ pdpe va = 0 ∧ (pdx va).val < 4 := by
  rw [utop_eq] at low
  by_cases first : va < 2 ^ 39
  · left
    refine Fin.ext ?_
    rw [pml4_eq]
    change _ = 0
    omega
  · right
    refine ⟨Fin.ext ?_, Fin.ext ?_, ?_⟩
    · rw [pml4_eq]
      change _ = 1
      omega
    · rw [pdpe_eq]
      change _ = 0
      omega
    · rw [pdx_eq]
      omega

namespace Place

variable {e : EnvIdx} {va : Nat}

theorem table_path (user : pml4 va ≠ pml4 uvpt) :
    ((root (some e)).table va).path = [pdx va, pdpe va, pml4 va] := by
  by_cases shared : pml4 va = 1
  · rw [table_shared shared, shared]
  · rw [table_own shared user]

theorem user_of_low (low : va < utop) : pml4 va ≠ pml4 uvpt := by
  rcases indices_low low with zero | ⟨one, -⟩
  · rw [zero]
    decide
  · rw [one]
    decide

theorem table_low_of (low : va < utop) : ((root (some e)).table va).Low :=
  ⟨pdx va, pdpe va, pml4 va, table_path (user_of_low low), indices_low low⟩

theorem Low.mappable {a : Place} (low : a.Low) (t : Index) : a.Mappable t := by
  obtain ⟨k, j, i, path, zero | ⟨one, zero, less⟩⟩ := low
  · exact ⟨k, j, i, path, .inl zero⟩
  · exact ⟨k, j, i, path, .inr ⟨one, zero, .inl (Fin.lt_def.mpr less)⟩⟩

theorem mappable_of_le (bound : va ≤ utop) : ((root (some e)).table va).Mappable (ptx va) := by
  rcases Nat.lt_or_eq_of_le bound with low | rfl
  · exact (table_low_of low).mappable _
  · rw [table_shared pml4_utop]
    exact ⟨pdx utop, pdpe utop, 1, rfl, .inr ⟨rfl, by decide, .inr (by decide)⟩⟩

/-- Addresses in the space of one environment that use the same leaf entry lie
in the same page. -/
theorem page_of_slot {va va' : Nat} (low : va < 2 ^ 39) (low' : va' < 2 ^ 39)
    (tables : (root (some e)).table va = (root (some e)).table va') (entries : ptx va = ptx va') :
    va / pgSize = va' / pgSize := by
  have size : pgSize = 4096 := rfl
  have user : pml4 va ≠ pml4 uvpt := user_of_low (by rw [utop_eq]; omega)
  have user' : pml4 va' ≠ pml4 uvpt := user_of_low (by rw [utop_eq]; omega)
  have paths := congrArg Place.path tables
  rw [table_path user, table_path user'] at paths
  injection paths with third rest
  injection rest with second rest
  have third := congrArg Fin.val third
  have second := congrArg Fin.val second
  have entries := congrArg Fin.val entries
  rw [pdx_eq, pdx_eq] at third
  rw [pdpe_eq, pdpe_eq] at second
  rw [ptx_eq, ptx_eq] at entries
  rw [size]
  omega

end Place

/-- An address that the processor accepts: bits 48 to 63 repeat bit 47. -/
def Canonical (va : Nat) : Prop := va < 2 ^ 47 ∨ 2 ^ 64 - 2 ^ 47 ≤ va ∧ va < 2 ^ 64

instance (va : Nat) : Decidable (Canonical va) := inferInstanceAs (Decidable (_ ∨ _))

theorem not_low_of_canonical {owner : Option EnvIdx} {va : Nat} (canonical : Canonical va)
    (high : utop ≤ va) : ¬ Place.Low ⟨owner, [pdx va, pdpe va, pml4 va]⟩ := by
  rintro ⟨k, j, i, path, which⟩
  injection path with third rest
  injection rest with second rest
  injection rest with first _
  subst third second first
  have top := pml4_eq va
  have middle := pdpe_eq va
  have bottom := pdx_eq va
  rw [utop_eq] at high
  rcases which with zero | ⟨one, zero, less⟩
  · have : (pml4 va).val = 0 := by rw [zero]; rfl
    rcases canonical with small | ⟨large, bound⟩ <;> omega
  · have : (pml4 va).val = 1 := by rw [one]; rfl
    have : (pdpe va).val = 0 := by rw [zero]; rfl
    rcases canonical with small | ⟨large, bound⟩ <;> omega

end Jos
