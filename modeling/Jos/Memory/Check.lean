import Jos.Kern.Check
import Jos.Memory.Insert

/-! What `user_mem_check` decides. It is compared with what it is for, byte by byte:
the check fails at the first byte of the range that is not accessible. -/

set_option autoImplicit false

namespace Jos

open Foundation

variable {npages : Nat} {m m' : Pmap npages} {root : Fin npages} {free : List (Fin npages)}
  {va len : Nat} {perm : BitVec 32}

/-! Pages. -/

theorem roundDown_eq (a : Nat) : roundDown a = pgSize * (a / pgSize) := by
  have := Nat.div_add_mod a pgSize
  unfold roundDown
  omega

theorem roundDown_le (a : Nat) : roundDown a ≤ a := Nat.sub_le _ _

theorem lt_roundDown (a : Nat) : a < roundDown a + pgSize := by
  have := Nat.mod_lt a (show 0 < pgSize by decide)
  unfold roundDown
  omega

theorem dvd_roundDown (a : Nat) : pgSize ∣ roundDown a := ⟨_, roundDown_eq a⟩

theorem index_roundDown (a : Nat) {shift : Nat} (above : pgShift ≤ shift) :
    roundDown a >>> shift = a >>> shift := by
  obtain ⟨more, rfl⟩ := Nat.exists_eq_add_of_le above
  rw [roundDown_eq, Nat.shiftRight_add, Nat.shiftRight_add]
  have size : pgSize = 2 ^ pgShift := by decide
  rw [Nat.shiftRight_eq_div_pow _ pgShift, Nat.shiftRight_eq_div_pow _ pgShift, size,
    Nat.mul_div_cancel_left _ (by decide)]

theorem Pmap.translate_roundDown (a : Nat) : m.translate root (roundDown a) = m.translate root a := by
  have first : pml4 (roundDown a) = pml4 a :=
    congrArg (Fin.ofNat 512) (index_roundDown a (show pgShift ≤ pml4Shift by decide))
  have second : pdpe (roundDown a) = pdpe a :=
    congrArg (Fin.ofNat 512) (index_roundDown a (show pgShift ≤ pdpeShift by decide))
  have third : pdx (roundDown a) = pdx a :=
    congrArg (Fin.ofNat 512) (index_roundDown a (show pgShift ≤ pdxShift by decide))
  have fourth : ptx (roundDown a) = ptx a :=
    congrArg (Fin.ofNat 512) (index_roundDown a (show pgShift ≤ ptxShift by decide))
  simp only [Pmap.translate, first, second, third, fourth]

theorem lt_roundUp_iff {page stop : Nat} (aligned : pgSize ∣ page)
    (bound : stop + pgSize ≤ 2 ^ 64) : page < roundUp stop ↔ page < stop := by
  obtain ⟨i, rfl⟩ := aligned
  have positive : 0 < pgSize := by decide
  have size : pgSize = 4096 := rfl
  unfold roundUp
  rw [Nat.mod_eq_of_lt (by omega), roundDown_eq]
  simp only [size]
  omega

theorem roundUp_aligned (a : Nat) : pgSize ∣ roundUp a := dvd_roundDown _

theorem exists_page {a : Nat} (after : va ≤ a) : ∃ j, roundDown a = roundDown va + j * pgSize := by
  refine ⟨a / pgSize - va / pgSize, ?_⟩
  have monotone := Nat.div_le_div_right after (c := pgSize)
  rw [roundDown_eq, roundDown_eq, Nat.mul_comm _ pgSize, ← Nat.mul_add]
  congr 1
  omega

theorem roundDown_max (j : Nat) :
    roundDown (max va (roundDown va + j * pgSize)) = roundDown va + j * pgSize := by
  have size : pgSize = 4096 := rfl
  simp only [roundDown_eq, size]
  omega

theorem lt_pages_iff {start stop j : Nat} (first : pgSize ∣ start) (last : pgSize ∣ stop) :
    j < (stop - start) / pgSize ↔ start + j * pgSize < stop := by
  obtain ⟨i, rfl⟩ := first
  obtain ⟨l, rfl⟩ := last
  have size : pgSize = 4096 := rfl
  simp only [size]
  omega

namespace Pmap

/-- The byte is below ULIM and mapped with all bits of `perm | PTE_P`. -/
def Accessible (m : Pmap npages) (root : Fin npages) (perm : BitVec 32) (va : Nat) : Prop :=
  va < ulim ∧ ∃ found, m.translate root va = some found ∧
    found.word &&& (perm ||| pteP.setWidth 32).signExtend 64 =
      (perm ||| pteP.setWidth 32).signExtend 64

/-- What the loop asks of a page: some bit of `perm` is enough. -/
def Allowed (m : Pmap npages) (root : Fin npages) (perm : BitVec 32) (va : Nat) : Prop :=
  va < ulim ∧ ∃ found, m.translate root va = some found ∧
    found.word &&& perm.signExtend 64 ≠ 0

theorem roundDown_lt_ulim (a : Nat) : roundDown a < ulim ↔ a < ulim := by
  have aligned : ulim = pgSize * (ulim / pgSize) := by decide
  have size : pgSize = 4096 := rfl
  rw [roundDown_eq]
  simp only [size] at aligned ⊢
  omega

theorem accessible_roundDown (a : Nat) :
    m.Accessible root perm (roundDown a) ↔ m.Accessible root perm a := by
  unfold Accessible
  rw [translate_roundDown, roundDown_lt_ulim]

theorem Accessible.allowed (accessible : m.Accessible root perm va) (some : perm ≠ 0) :
    m.Allowed root perm va := by
  obtain ⟨below, found, there, all⟩ := accessible
  refine ⟨below, found, there, fun none => some ?_⟩
  rw [BitVec.signExtend_or] at all
  have zero : perm.signExtend 64 = 0 := by
    ext i bound
    have bit := congrArg (fun word : BitVec 64 => word[i]) all
    have bit' := congrArg (fun word : BitVec 64 => word[i]) none
    simp only [BitVec.getElem_and, BitVec.getElem_or] at bit bit'
    cases here : (perm.signExtend 64)[i] with
    | false => simp
    | true => simp_all
  ext i bound
  have wide : i < 64 := by omega
  have bit : (perm.signExtend 64)[i] = (0 : BitVec 64)[i] := by simp only [zero]
  rw [BitVec.getElem_signExtend, dif_pos bound] at bit
  rw [bit]
  simp

theorem not_allowed_zero : ¬ m.Allowed root 0 va := by
  rintro ⟨-, found, -, some⟩
  exact some (by simp)

/-- Every page that the walk finds below ULIM is one of the machine's. -/
def Framed (m : Pmap npages) (root : Fin npages) : Prop :=
  ∀ va found, va < ulim → m.translate root va = some found → found.ppn < npages

theorem Rooted.userMemCheckAddrLoop_spec (rooted : m.Rooted root free) (va : Nat)
    (perm : BitVec 32) (framed : m.Framed root) (rounds vaT : Nat) :
    ∃ result m', userMemCheckAddrLoop m (some root) va perm rounds vaT = some (result, m') ∧
      ((result = none ∧ ∀ j < rounds, m.Allowed root perm (vaT + j * pgSize)) ∨
        ∃ j < rounds, (∀ l < j, m.Allowed root perm (vaT + l * pgSize)) ∧
          ¬ m.Allowed root perm (vaT + j * pgSize) ∧
          result = some (max va (vaT + j * pgSize))) := by
  induction rounds generalizing vaT with
  | zero => exact ⟨none, m, rfl, .inl ⟨rfl, nofun⟩⟩
  | succ rounds ih =>
    have failed : (if vaT < va then va else vaT) = max va (vaT + 0 * pgSize) := by
      rw [Nat.zero_mul, Nat.add_zero]
      split <;> omega
    -- the loop ends at its first page
    have ended (denied : ¬ m.Allowed root perm vaT) :
        ∃ j < rounds + 1, (∀ l < j, m.Allowed root perm (vaT + l * pgSize)) ∧
          ¬ m.Allowed root perm (vaT + j * pgSize) ∧
          some (if vaT < va then va else vaT) = some (max va (vaT + j * pgSize)) :=
      ⟨0, Nat.succ_pos rounds, nofun, by simpa using denied, congrArg some failed⟩
    by_cases high : vaT ≥ ulim
    · exact ⟨_, m, by simp only [userMemCheckAddrLoop, if_pos high],
        .inr (ended fun allowed => absurd allowed.1 (not_lt.mpr high))⟩
    · obtain ⟨found, m', looked⟩ := rooted.pageLookup_some fun found =>
        framed vaT found (Nat.lt_of_not_le high)
      simp only [userMemCheckAddrLoop, if_neg high, looked, Option.bind_eq_bind, Option.bind_some]
      rcases rooted.pageLookup_cases looked with ⟨-, rfl, present, words⟩ | ⟨missing, rfl, -⟩
      · cases found with
        | none =>
          refine ⟨_, _, rfl, .inr (ended fun allowed => ?_)⟩
          obtain ⟨-, translation, there, -⟩ := allowed
          rw [present.mp rfl] at there
          cases there
        | some hit =>
          obtain ⟨page, slot⟩ := hit
          obtain ⟨translation, there⟩ := Option.ne_none_iff_exists'.mp
            fun none => Option.some_ne_none _ (present.mpr none)
          obtain ⟨ppn, perms⟩ := words page slot translation rfl there
          have word : translation.word = (m'.entry slot).word := by
            unfold Translation.word Pte.word
            rw [ppn, perms]
          by_cases none : (m'.entry slot).word &&& perm.signExtend 64 = 0
          · simp only [if_pos none]
            refine ⟨_, _, rfl, .inr (ended fun allowed => ?_)⟩
            obtain ⟨-, translation', there', some⟩ := allowed
            cases there.symm.trans there'
            exact some (word ▸ none)
          · simp only [if_neg none]
            have first : m'.Allowed root perm vaT :=
              ⟨Nat.lt_of_not_le high, translation, there, word ▸ none⟩
            have shift (j : Nat) : vaT + pgSize + j * pgSize = vaT + (j + 1) * pgSize := by
              rw [Nat.succ_mul]
              omega
            obtain ⟨result, m'', ran, outcome⟩ := ih (vaT + pgSize)
            refine ⟨result, m'', ran, ?_⟩
            simp only [shift] at outcome
            have before {j : Nat} (allowed : ∀ l < j, m'.Allowed root perm (vaT + (l + 1) * pgSize)) :
                ∀ l < j + 1, m'.Allowed root perm (vaT + l * pgSize) := by
              intro l less
              cases l with
              | zero => simpa using first
              | succ l => exact allowed l (by omega)
            rcases outcome with ⟨passed, allowed⟩ | ⟨j, bound, allowed, denied, passed⟩
            · exact .inl ⟨passed, before allowed⟩
            · exact .inr ⟨j + 1, by omega, before allowed, denied, passed⟩
      · refine ⟨_, _, rfl, .inr (ended fun allowed => ?_)⟩
        obtain ⟨-, translation, there, -⟩ := allowed
        rw [translate_missing missing] at there
        cases there

theorem allowed_roundDown (a : Nat) :
    m.Allowed root perm (roundDown a) ↔ m.Allowed root perm a := by
  unfold Allowed
  rw [translate_roundDown, roundDown_lt_ulim]

/-- The result is right: the check passes if and only if the range does not wrap and
every byte of it is accessible, and fails at the first byte that is not. -/
def Decides (m : Pmap npages) (root : Fin npages) (va len : Nat) (perm : BitVec 32)
    (result : Option Nat) : Prop :=
  (result = none ↔
    va + len < 2 ^ 64 ∧ ∀ a, va ≤ a → a < va + len → m.Accessible root perm a) ∧
  ∀ a, result = some a → va ≤ a ∧ a < va + len ∧ ¬ m.Accessible root perm a ∧
    ∀ b, va ≤ b → b < a → m.Accessible root perm b

/-- When the check is right. An accessible range needs a permission with some bit. A
range that is not accessible needs that its first byte that is not lies on a page
that the loop comes to, which is not mapped with some bits of the permission only. -/
structure Judged (m : Pmap npages) (root : Fin npages) (va len : Nat) (perm : BitVec 32) : Prop where
  some : (∀ a, va ≤ a → a < va + len → m.Accessible root perm a) → perm ≠ 0 ∨ len = 0
  first : ∀ a, va ≤ a → a < va + len → ¬ m.Accessible root perm a →
    (∀ b, va ≤ b → b < a → m.Accessible root perm b) →
    roundDown a < roundUp ((roundDown va + len) % 2 ^ 64) ∧ ¬ m.Allowed root perm a ∧
      (perm ≠ 0 ∨ roundDown a = roundDown va)

theorem stop_of_accessible (some : 0 < len)
    (all : ∀ a, va ≤ a → a < va + len → m.Accessible root perm a) {page : Nat}
    (aligned : pgSize ∣ page) :
    va + len < 2 ^ 64 ∧
      (page < roundUp ((roundDown va + len) % 2 ^ 64) ↔ page < roundDown va + len) := by
  have last := (all (va + len - 1) (by omega) (by omega)).1
  have low := roundDown_le va
  have limit : ulim + pgSize < 2 ^ 64 := by decide
  rw [Nat.mod_eq_of_lt (by omega)]
  exact ⟨by omega, lt_roundUp_iff aligned (by omega)⟩

theorem page_aligned (j : Nat) : pgSize ∣ roundDown va + j * pgSize :=
  Nat.dvd_add (dvd_roundDown va) (Nat.dvd_mul_left _ _)

theorem exists_first (denied : ¬ ∀ a, va ≤ a → a < va + len → m.Accessible root perm a) :
    ∃ a, va ≤ a ∧ a < va + len ∧ ¬ m.Accessible root perm a ∧
      ∀ b, va ≤ b → b < a → m.Accessible root perm b := by
  classical
  have some : ∃ a, va ≤ a ∧ a < va + len ∧ ¬ m.Accessible root perm a := by
    simpa only [not_forall, exists_prop] using denied
  obtain ⟨after, before, refused⟩ := Nat.find_spec some
  refine ⟨Nat.find some, after, before, refused, fun b later less => ?_⟩
  by_contra fails
  exact Nat.find_min some less ⟨later, less.trans before, fails⟩

/-- `user_mem_check` is right about exactly these ranges. -/
theorem userMemCheckAddr_decides_iff (rooted : m.Rooted root free) (framed : m.Framed root)
    (start : va < 2 ^ 64) :
    (∃ result m', userMemCheckAddr m (.some root) va len perm = .some (result, m') ∧
      m.Decides root va len perm result) ↔ m.Judged root va len perm := by
  obtain ⟨result, m', ran, outcome⟩ := rooted.userMemCheckAddrLoop_spec va perm
    framed ((roundUp ((roundDown va + len) % 2 ^ 64) - roundDown va) / pgSize) (roundDown va)
  have ran : userMemCheckAddr m (.some root) va len perm = .some (result, m') := ran
  have looked (j : Nat) := @lt_pages_iff (roundDown va) _ j (dvd_roundDown va)
    (roundUp_aligned ((roundDown va + len) % 2 ^ 64))
  simp only [looked] at outcome
  have low := roundDown_le va
  have high := lt_roundDown va
  constructor
  · rintro ⟨result', m'', ran', decided, firsts⟩
    cases ran.symm.trans ran'
    constructor
    · intro all
      by_contra neither
      obtain ⟨none, some⟩ := not_or.mp neither
      obtain rfl := not_not.mp none
      obtain ⟨unwrapped, inside⟩ := stop_of_accessible (Nat.pos_of_ne_zero some) all
        (dvd_roundDown va)
      rcases outcome with ⟨-, allowed⟩ | ⟨j, -, -, -, failed⟩
      · exact not_allowed_zero (allowed 0 (by simpa using inside.mpr (by omega)))
      · rw [decided.mpr ⟨unwrapped, all⟩] at failed
        cases failed
    · intro a after before denied earlier
      rcases outcome with ⟨passed, -⟩ | ⟨j, bound, allowed, refused, failed⟩
      · exact absurd ((decided.mp passed).2 a after before) denied
      · obtain ⟨after', -, denied', earlier'⟩ := firsts _ failed
        obtain rfl : a = max va (roundDown va + j * pgSize) := by
          rcases Nat.lt_trichotomy a (max va (roundDown va + j * pgSize)) with less | same | more
          · exact absurd (earlier' a after less) denied
          · exact same
          · exact absurd (earlier _ after' more) denied'
        rw [← allowed_roundDown, roundDown_max]
        refine ⟨bound, refused, ?_⟩
        by_contra neither
        obtain ⟨none, later⟩ := not_or.mp neither
        obtain rfl := not_not.mp none
        cases j with
        | zero => exact later (by simp)
        | succ j => exact not_allowed_zero (allowed 0 (Nat.succ_pos j))
  · rintro ⟨some, first⟩
    refine ⟨result, m', ran, ?_⟩
    by_cases all : ∀ a, va ≤ a → a < va + len → m.Accessible root perm a
    · have passed : result = none := by
        rcases outcome with ⟨passed, -⟩ | ⟨j, bound, -, refused, -⟩
        · exact passed
        · exfalso
          rcases Nat.eq_zero_or_pos len with rfl | positive
          · have aligned := dvd_roundDown va
            rw [Nat.add_zero, Nat.mod_eq_of_lt (by omega), lt_roundUp_iff (page_aligned j)] at bound
            · omega
            · obtain ⟨i, same⟩ := aligned
              have size : pgSize = 4096 := rfl
              rw [same]
              simp only [size] at same ⊢
              omega
          · rw [(stop_of_accessible positive all (page_aligned j)).2] at bound
            have accessible := all (max va (roundDown va + j * pgSize)) (le_max_left ..) (by omega)
            rw [← accessible_roundDown, roundDown_max] at accessible
            exact refused (accessible.allowed ((some all).resolve_right (by omega)))
      refine ⟨iff_of_true passed ⟨?_, all⟩, fun a failed => by rw [passed] at failed; cases failed⟩
      rcases Nat.eq_zero_or_pos len with rfl | positive
      · omega
      · exact (stop_of_accessible positive all (dvd_roundDown va)).1
    · obtain ⟨a, after, before, denied, earlier⟩ := exists_first all
      obtain ⟨reached, refused, only⟩ := first a after before denied earlier
      obtain ⟨i, page⟩ := exists_page after
      rw [page] at reached
      rw [← allowed_roundDown, page] at refused
      have passes {j : Nat} (less : j < i) (some : perm ≠ 0) :
          m.Allowed root perm (roundDown va + j * pgSize) := by
        have size : pgSize = 4096 := rfl
        have below := roundDown_le a
        have accessible := earlier (max va (roundDown va + j * pgSize)) (le_max_left ..) (by
          simp only [size] at high page ⊢
          omega)
        rw [← accessible_roundDown, roundDown_max] at accessible
        exact accessible.allowed some
      have failed : result = .some a := by
        rcases outcome with ⟨-, allowed⟩ | ⟨j, bound, allowed, denied', failed⟩
        · exact absurd (allowed i reached) refused
        · have same : j = i := by
            rcases Nat.lt_trichotomy j i with less | same | more
            · rcases only with some | top
              · exact absurd (passes less some) denied'
              · have size : pgSize = 4096 := rfl
                simp only [size] at page
                omega
            · exact same
            · exact absurd (allowed i more) refused
          subst same
          rw [failed]
          have below := roundDown_le a
          have least : a ≤ max va (roundDown va + j * pgSize) := by
            by_contra less
            have accessible := earlier (max va (roundDown va + j * pgSize)) (le_max_left ..)
              (by omega)
            rw [← accessible_roundDown, roundDown_max, ← page, accessible_roundDown] at accessible
            exact denied accessible
          rw [le_antisymm least (by omega)]
      refine ⟨iff_of_false (by rw [failed]; nofun) fun allowed => denied (allowed.2 a after before),
        fun b same => ?_⟩
      cases failed.symm.trans same
      exact ⟨after, before, denied, earlier⟩

theorem word_and_eq_zero {entry : Pte} {flags : BitVec 12} :
    entry.word &&& (flags.setWidth 32).signExtend 64 = 0 ↔ entry.perm &&& flags = 0 := by
  have positive : (flags.setWidth 32).msb = false := by
    rw [BitVec.msb_setWidth]
    simp
  rw [BitVec.signExtend_eq_setWidth_of_msb_false positive]
  have bits (i : Nat) : (entry.word &&& (flags.setWidth 32).setWidth 64).getLsbD i =
      (entry.perm &&& flags).getLsbD i := by
    unfold Pte.word
    by_cases low : i < 12
    · rw [BitVec.getLsbD_and, BitVec.getLsbD_and, BitVec.getLsbD_append, if_pos low]
      simp [show i < 64 by omega]
    · simp [BitVec.getLsbD_of_ge _ i (Nat.not_lt.mp low)]
  constructor
  · intro zero
    refine BitVec.eq_of_getLsbD_eq fun i _ => ?_
    rw [← bits, zero]
    simp
  · intro zero
    refine BitVec.eq_of_getLsbD_eq fun i _ => ?_
    rw [bits, zero]
    simp

theorem userMemCheckAddrLoop_eq (pml4e : Option (Fin npages)) (flags : BitVec 12)
    (rounds vaT : Nat) : userMemCheckLoop m pml4e flags rounds vaT =
      (userMemCheckAddrLoop m pml4e va (flags.setWidth 32) rounds vaT).map
        fun outcome => (outcome.1.isNone, outcome.2) := by
  induction rounds generalizing m vaT with
  | zero => rfl
  | succ rounds ih =>
    unfold userMemCheckLoop userMemCheckAddrLoop
    dsimp only
    split
    · rfl
    · cases looked : pageLookup m pml4e vaT with
      | none => rfl
      | some outcome =>
        obtain ⟨found, m'⟩ := outcome
        cases found with
        | none => rfl
        | some hit =>
          simp only [Option.bind_eq_bind, Option.bind_some, word_and_eq_zero]
          split
          · rfl
          · exact ih _

/-- Apart from the address, this is the check with a permission of twelve bits. -/
theorem userMemCheckAddr_eq (pml4e : Option (Fin npages)) (flags : BitVec 12) :
    userMemCheck m pml4e va len flags = (userMemCheckAddr m pml4e va len (flags.setWidth 32)).map
      fun outcome => (outcome.1.isNone, outcome.2) :=
  userMemCheckAddrLoop_eq pml4e flags _ _

/-! An empty address space. -/

theorem bare_next {page : Fin 5} {i : Index} : bare.next page i = none := next_empty rfl

theorem bare_rooted : bare.Rooted 0 [1, 2, 3] where
  listed := bare_forest.listed
  idle := bare_forest.idle
  unfree {depth page} _ reached := by
    cases depth with
    | zero =>
      obtain rfl : page = 0 := reached
      decide
    | succ depth =>
      obtain ⟨above, i, -, linked⟩ := reached
      rw [bare_next] at linked
      cases linked
  linked _ _ _ := .inl rfl

theorem bare_translate : bare.translate 0 va = none := by
  simp [translate, bare_next]

theorem bare_framed : bare.Framed 0 := fun va found _ there => by
  rw [bare_translate] at there
  cases there

/-- A range whose end wraps around passes, with nothing mapped. -/
theorem bare_wraps : bare.Rooted 0 [1, 2, 3] ∧ bare.Framed 0 ∧
    ¬ ∃ result m', userMemCheckAddr bare (some 0) 0x1000 (2 ^ 64 - 0x1000) (pteU.setWidth 32) =
        some (result, m') ∧
      bare.Decides 0 0x1000 (2 ^ 64 - 0x1000) (pteU.setWidth 32) result := by
  refine ⟨bare_rooted, bare_framed, ?_⟩
  rintro ⟨result, m', ran, decided, -⟩
  have rounds : (roundUp ((roundDown 0x1000 + (2 ^ 64 - 0x1000)) % 2 ^ 64) - roundDown 0x1000) /
      pgSize = 0 := by decide
  have ran : userMemCheckAddrLoop bare (some 0) 0x1000 (pteU.setWidth 32)
      ((roundUp ((roundDown 0x1000 + (2 ^ 64 - 0x1000)) % 2 ^ 64) - roundDown 0x1000) / pgSize)
      (roundDown 0x1000) = some (result, m') := ran
  rw [rounds] at ran
  cases ran
  exact absurd (decided.mp rfl).1 (by decide)

theorem bare_decides : ∃ result m', userMemCheckAddr bare (some 0) 0 1 (pteU.setWidth 32) =
    some (result, m') ∧ bare.Decides 0 0 1 (pteU.setWidth 32) result := by
  refine (userMemCheckAddr_decides_iff bare_rooted bare_framed (by decide)).mpr ⟨?_, ?_⟩
  · exact fun _ => .inl (by decide)
  · intro a _ before _ _
    obtain rfl : a = 0 := by omega
    refine ⟨by decide, fun allowed => ?_, .inl (by decide)⟩
    obtain ⟨-, found, there, -⟩ := allowed
    rw [bare_translate] at there
    cases there

end Pmap

end Jos
