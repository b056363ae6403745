import Jos.Calls.Creation
import Jos.Environment.Boot

/-! Calls that succeed: with memory to spare, environments are created and pages
are mapped without a panic. -/

set_option autoImplicit false

namespace Jos

open Foundation

variable {npages : Nat} {managed : Set (Fin npages)} {g g' : Ledger npages}
  {k k' : Kernel npages} {c e : EnvIdx}

theorem Ledger.wanted_le {a : Place} {va : Nat} : g.wanted a va ≤ 3 := Valid.missing_le

theorem Sound.envAlloc_some (sound : Sound managed k g) (vacant : ∃ e, ¬ k.Live e)
    (memory : g.free ≠ []) (parentId : EnvId) :
    ∃ e k', Jos.envAlloc k parentId = .ok (e, k') := by
  obtain ⟨e, dead⟩ := vacant
  obtain ⟨slots, chain, member⟩ := sound.slots
  have listed : e ∈ slots := (member e).mpr (not_not.mp dead)
  cases slots with
  | nil => cases listed
  | cons first slots =>
    cases found : g.free with
    | nil => exact absurd found memory
    | cons root rest =>
      rw [envAlloc_eq parentId sound.valid, chain.1, found]
      exact ⟨first, _, rfl⟩

theorem Sound.sysPageAlloc_done (sound : Sound managed k g) (live : k.Live c) {envid : EnvId}
    {va : Nat} {perm : BitVec 32} (checks : pageAllocChecks k c envid va perm e)
    (droppable : ∀ page, (leafOf k g e va).Refers page →
      page ∈ managed ∨ (k.pmap.pages page).ppRef ≠ 1)
    (enough : 4 ≤ g.free.length) :
    ∃ k' page g', Jos.sysPageAlloc k c envid va perm = some (0, k') ∧ page ∈ g.free ∧
      MemoryCall managed k g k' g' (.slot (.root (some e)) va) ∧
      leafOf k' g' e va = ⟨page.val, perm.setWidth 12 ||| pteP⟩ ∧ g'.spare = g.spare ∧
      g.free.length ≤ g'.free.length + 4 := by
  obtain ⟨found, allowed, aligned, bound⟩ := checks
  obtain ⟨root, rooted⟩ := sound.envid2env_live live found
  obtain ⟨page, rest, listed⟩ : ∃ page rest, g.free = page :: rest := by
    cases listed : g.free with
    | nil => simp [listed] at enough
    | cons page rest => exact ⟨page, rest, rfl⟩
  have taken := sound.take listed false .nowhere
  have mappable := Place.mappable_of_le (e := e) bound
  have leaf : leafEntry (k.pmap.take page false).mem g.table ((Place.root (some e)).table va)
      (ptx va) = leafOf k g e va := taken.keeps.leaves mappable.length (ptx va) id
  obtain ⟨result, m, inserted⟩ := taken.sound.valid.pageInsert_some (e := e) rooted page
    (perm.setWidth 12 ||| pteP) mappable fun other refers => by
      refine (droppable other (leaf ▸ refers)).imp id fun more => ?_
      change ((k.pmap.take page false).pages other).ppRef ≠ 1
      rwa [Pmap.take_ref]
  have inserted : pageInsert (k.pmap.take page false) (some root) page va
      (perm.setWidth 12 ||| pteP) = some (result, m) := inserted
  have ran : Jos.sysPageAlloc k c envid va perm = some (result, k.setPmap m) := by
    have high : ¬ (va % pgSize ≠ 0 ∨ va > utop) := by omega
    unfold Jos.sysPageAlloc
    simp only [found]
    rw [if_neg (by simpa using allowed), if_neg high, sound.valid.pageAlloc_eq listed, rooted]
    simp only [inserted, Option.bind_eq_bind, Option.bind_some, Option.pure_def]
  have wanted : g.wanted (.root (some e)) va ≤ 3 := Ledger.wanted_le
  have length := congrArg List.length listed
  rw [List.length_cons] at length
  rcases sound.insertFresh rooted listed bound inserted with
    ⟨rfl, -, g', call, leaf', spare, left⟩ | ⟨rfl, lacking, -⟩
  · rw [BitVec.or_assoc, BitVec.or_self] at leaf'
    exact ⟨_, page, g', ran, by rw [listed]; exact List.mem_cons_self, call, leaf', spare, by omega⟩
  · omega

theorem Sound.regionAllocLoop_done (sound : Sound managed k g) {root : Fin npages}
    (rooted : (k.envs e).envPml4e = some root) {rounds va : Nat}
    (low : va + rounds * pgSize ≤ 2 ^ 39) (empty : ∀ i < rounds, leafOf k g e (va + i * pgSize) = 0)
    (enough : 4 * rounds ≤ g.free.length) :
    ∃ m' g', Jos.regionAllocLoop (some root) rounds va k.pmap = some m' ∧
      Sound managed (k.setPmap m') g' ∧ g.free.length ≤ g'.free.length + 4 * rounds := by
  induction rounds generalizing k g va with
  | zero => exact ⟨k.pmap, g, rfl, sound, Nat.le_add_right _ _⟩
  | succ rounds ih =>
    have size : pgSize = 4096 := rfl
    have room : va + (rounds * 4096 + 4096) ≤ 2 ^ 39 := by rwa [size, Nat.succ_mul] at low
    obtain ⟨page, rest, listed⟩ : ∃ page rest, g.free = page :: rest := by
      cases listed : g.free with
      | nil =>
        rw [listed, List.length_nil] at enough
        omega
      | cons page rest => exact ⟨page, rest, rfl⟩
    have member : page ∈ g.free := by simp [listed]
    have taken := sound.take listed true .nowhere
    have bound : va ≤ utop := by
      rw [utop_eq]
      omega
    have mappable := Place.mappable_of_le (e := e) bound
    have leaf : leafEntry (k.pmap.take page true).mem g.table
        ((Place.root (some e)).table va) (ptx va) = 0 := by
      have first := empty 0 (Nat.succ_pos _)
      rw [Nat.zero_mul, Nat.add_zero] at first
      exact (taken.keeps.leaves mappable.length (ptx va) id).trans first
    have notRest : page ∉ rest := by
      have distinct := sound.valid.pool.chain.nodup
      rw [listed] at distinct
      exact (List.nodup_cons.mp distinct).1
    have inside := (sound.valid.pool.member page member).1
    have zero : ((k.pmap.take page true).pages page).ppRef ≠ 65535#16 := by
      rw [Pmap.take_ref, (sound.valid.pool.member page member).2]
      decide
    have wanted : g.wanted (.root (some e)) va ≤ 3 := Ledger.wanted_le
    rw [listed, List.length_cons] at enough
    obtain ⟨m₁, g₁, inserted, stored, left⟩ := taken.sound.valid.pageInsert_fresh
      rooted (pteU ||| pteP ||| pteW) mappable notRest
      (sound.valid.free_unused member).unplaced inside zero leaf (by
        change g.wanted (.root (some e)) va ≤ rest.length
        omega)
    have call := (taken.mono Footprint.nowhere_le).trans (stored.memoryCall taken.sound)
    have length : g₁.free.length = rest.length - g.wanted (.root (some e)) va := by
      rw [left, List.length_drop]
      rfl
    have next : va + pgSize + rounds * pgSize ≤ 2 ^ 39 := by
      rw [size]
      omega
    have emptyNext (i : Nat) (few : i < rounds) :
        leafOf (k.setPmap m₁) g₁ e (va + pgSize + i * pgSize) = 0 := by
      have before := empty (i + 1) (by omega)
      have shift : va + (i + 1) * pgSize = va + pgSize + i * pgSize := by
        rw [Nat.succ_mul, Nat.add_assoc, Nat.add_comm pgSize]
      rw [shift] at before
      have high : va + pgSize + i * pgSize ≤ utop := by
        rw [utop_eq, size]
        omega
      refine (call.keeps.leaves (Place.mappable_of_le high).length _ ?_).trans before
      rintro ⟨sameTable, sameEntry⟩
      have same := Place.page_of_slot (by rw [size]; omega) (by omega) sameTable sameEntry
      rw [size] at same
      omega
    obtain ⟨m', g', ran, sound', spent⟩ := ih call.sound (by exact rooted) next emptyNext (by omega)
    refine ⟨m', g', ?_, sound', by rw [listed, List.length_cons]; omega⟩
    have inserted : pageInsert (k.pmap.take page true) (some root) page va
        (pteU ||| pteP ||| pteW) = some (0, m₁) := inserted
    simp only [Jos.regionAllocLoop, sound.valid.pageAlloc_eq listed, inserted,
      Option.bind_eq_bind, Option.bind_some]
    exact ran

end Jos
