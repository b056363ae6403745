import Jos.Memory.Undo

/-! The operations that only look: `page_lookup`, `user_mem_check` and
`page_remove` of an address that is not mapped. They walk with `create` set, so
they leave everything as it is exactly when the walk is barren. -/

set_option autoImplicit false

namespace Jos

open Foundation

variable {npages : Nat} {m m' : Pmap npages} {root page : Fin npages} {free : List (Fin npages)}
  {va : Nat}

namespace Pmap

theorem Unmodified.refl (rooted : m.Rooted root free) : m.Unmodified m free :=
  ⟨fun _ _ => rfl, fun _ => rfl, rooted.listed⟩

theorem not_unmodified (rooted : m.Rooted root free) (member : page ∈ free)
    (counted : (m'.pages page).ppRef = 1) : ¬ m.Unmodified m' free := fun same => by
  rw [same.ref, rooted.idle page member] at counted
  exact absurd counted (by decide)

theorem translate_missing (some : 0 < m.missing root va) : m.translate root va = none := by
  unfold missing at some
  unfold translate
  cases first : m.next root (pml4 va) with
  | none => rfl
  | some pdpt =>
    cases second : m.next pdpt (pdpe va) with
    | none => simp [second]
    | some pgdir =>
      cases third : m.next pgdir (pdx va) with
      | none => simp [second, third]
      | some pt => simp [first, second, third] at some

section

variable (rooted : m.Rooted root free)

include rooted

/-- With every table there, the walk changes nothing and finds the entry that the MMU
reads. -/
theorem Rooted.present (zero : m.missing root va = 0) :
    ∃ pt, pml4eWalk m (some root) va true = some (some (pt, ptx va), m) ∧
      (m.translate root va = none ↔ (m.mem pt (ptx va)).present = false) ∧
      ∀ found, m.translate root va = some found →
        found.ppn = (m.mem pt (ptx va)).ppn ∧ found.ptePerm = (m.mem pt (ptx va)).perm := by
  have leads : m.Leads free root (way va) := rooted.leads_way va
  have ran := pml4eWalk_eq rooted.listed leads (by omega)
  unfold missing at zero
  cases first : m.next root (pml4 va) with
  | none => simp [first] at zero
  | some pdpt =>
    cases second : m.next pdpt (pdpe va) with
    | none => simp [first, second] at zero
    | some pgdir =>
      cases third : m.next pgdir (pdx va) with
      | none => simp [first, second, third] at zero
      | some pt =>
        rw [way, deepest_next first, deepest_next second, deepest_next third, deepest,
          walked_nil] at ran
        refine ⟨pt, ran, ?_, ?_⟩
        · simp [translate, first, second, third]
        · intro found there
          simp only [translate, first, second, third, Option.bind_eq_bind,
            Option.bind_some, Option.ite_none_right_eq_some, Option.some.injEq] at there
          rw [← there.2]
          exact ⟨rfl, rfl⟩

/-- The walk that has tables to make finds no page mapped, and leaves everything as it
was if and only if it is barren. -/
theorem Rooted.absent (some : 0 < m.missing root va) :
    ∃ slot m', pml4eWalk m (.some root) va true = .some (slot, m') ∧
      (∀ found ∈ slot, (m'.entry found).present = false) ∧
      (m.Unmodified m' free ↔ m.Barren root va free.length) := by
  by_cases enough : m.missing root va ≤ free.length
  · obtain ⟨slot, m', added, rest, ran, rfl, length, supplied⟩ := rooted.supplied enough
    have nonempty : added ≠ [] := List.ne_nil_of_length_pos (length ▸ some)
    obtain ⟨before, last, rfl⟩ := List.eq_nil_or_concat' added |>.resolve_left nonempty
    have member : last ∈ before ++ [last] := by simp
    refine ⟨.some slot, m', ran, ?_, iff_of_false ?_ ?_⟩
    · rintro _ ⟨⟩
      have bottom : slot = (last, ptx va) := by
        rw [supplied.found, supplied.tables, ← List.append_assoc]
        simp
      have empty : m'.entry slot = 0 := by
        rw [bottom]
        exact supplied.last last (by simp) _
      rw [empty]
      rfl
    · refine not_unmodified rooted (List.mem_append_left _ member) ?_
      rw [supplied.ref, if_pos member]
    · rw [List.length_append] at enough ⊢
      rintro (zero | none | ⟨three, one⟩) <;> omega
  · obtain ⟨m', ran, barren, fertile⟩ := rooted.abandoned (Nat.lt_of_not_le enough)
    refine ⟨none, m', ran, nofun, fun same => ?_, barren⟩
    by_contra fails
    obtain ⟨page, member, counted⟩ := fertile fails
    exact not_unmodified rooted member counted same

/-- What `page_lookup` comes to. -/
theorem Rooted.pageLookup_cases {found : Option (Fin npages × Slot npages)}
    (ran : pageLookup m (some root) va = some (found, m')) :
    (m.missing root va = 0 ∧ m' = m ∧ (found = none ↔ m.translate root va = none) ∧
        ∀ page slot translation, found = some (page, slot) →
          m.translate root va = some translation →
          translation.ppn = (m.entry slot).ppn ∧ translation.ptePerm = (m.entry slot).perm) ∨
      0 < m.missing root va ∧ found = none ∧
        (m.Unmodified m' free ↔ m.Barren root va free.length) := by
  rcases Nat.eq_zero_or_pos (m.missing root va) with zero | some
  · obtain ⟨pt, walked, present, perm⟩ := rooted.present zero
    simp only [pageLookup, walked, Option.bind_eq_bind, Option.bind_some] at ran
    split at ran
    · rename_i mapped
      obtain ⟨page, -, ended⟩ := Option.bind_eq_some_iff.mp ran
      cases ended
      refine .inl ⟨zero, rfl, iff_of_false (by simp) fun none => ?_, fun page' slot found same there => ?_⟩
      · have absent := present.mp none
        change (m.mem pt (ptx va)).present = true at mapped
        rw [mapped] at absent
        cases absent
      · obtain ⟨-, rfl⟩ := Prod.mk.inj (Option.some.inj same)
        exact perm found there
    · rename_i unmapped
      cases ran
      exact .inl ⟨zero, rfl, iff_of_true rfl (present.mpr (Bool.eq_false_iff.mpr unmapped)), by simp⟩
  · obtain ⟨slot, m'', walked, empty, same⟩ := rooted.absent some
    refine .inr ⟨some, ?_⟩
    simp only [pageLookup, walked, Option.bind_eq_bind, Option.bind_some] at ran
    cases slot with
    | none =>
      cases ran
      exact ⟨rfl, same⟩
    | some slot =>
      simp only [empty slot rfl, Bool.false_eq_true, if_false] at ran
      cases ran
      exact ⟨rfl, same⟩

theorem Rooted.pageLookup_some
    (framed : ∀ found, m.translate root va = some found → found.ppn < npages) :
    ∃ found m', pageLookup m (some root) va = some (found, m') := by
  rcases Nat.eq_zero_or_pos (m.missing root va) with zero | some
  · obtain ⟨pt, walked, present, perm⟩ := rooted.present zero
    have entry : m.entry (pt, ptx va) = m.mem pt (ptx va) := rfl
    simp only [pageLookup, walked, Option.bind_eq_bind, Option.bind_some, entry]
    split
    · rename_i mapped
      obtain ⟨found, there⟩ := Option.ne_none_iff_exists'.mp fun none => by
        rw [present.mp none] at mapped
        cases mapped
      have bound := framed found there
      rw [(perm found there).1] at bound
      simp [pa2page, bound]
    · exact ⟨none, m, rfl⟩
  · obtain ⟨slot, m', walked, empty, -⟩ := rooted.absent some
    simp only [pageLookup, walked, Option.bind_eq_bind, Option.bind_some]
    cases slot with
    | none => exact ⟨none, m', rfl⟩
    | some slot =>
      simp only [empty slot rfl, Bool.false_eq_true, if_false]
      exact ⟨none, m', rfl⟩

theorem Rooted.pageLookup_unmodified {found : Option (Fin npages × Slot npages)}
    (ran : pageLookup m (some root) va = some (found, m')) :
    m.Unmodified m' free ↔ m.Barren root va free.length := by
  rcases rooted.pageLookup_cases ran with ⟨zero, rfl, -⟩ | ⟨-, -, same⟩
  · exact iff_of_true (.refl rooted) (.inl zero)
  · exact same

end

/-- The page at an address passes the check of `user_mem_check`. -/
def Passes (m : Pmap npages) (root : Fin npages) (perm : BitVec 12) (va : Nat) : Prop :=
  ∃ found, m.translate root va = some found ∧ found.ptePerm &&& perm ≠ 0

/-- Of the pages from an address on, the first that does not pass has a barren walk,
if the loop looks at it. -/
def RangeBarren (m : Pmap npages) (root : Fin npages) (perm : BitVec 12) (count rounds va : Nat) :
    Prop :=
  ∀ j < rounds, va + j * pgSize < ulim → (∀ l < j, m.Passes root perm (va + l * pgSize)) →
    m.Barren root (va + j * pgSize) count

theorem Rooted.userMemCheckLoop_unmodified (rooted : m.Rooted root free) {perm : BitVec 12}
    {rounds : Nat} {passed : Bool}
    (ran : userMemCheckLoop m (some root) perm rounds va = some (passed, m')) :
    m.Unmodified m' free ↔ m.RangeBarren root perm free.length rounds va := by
  induction rounds generalizing va with
  | zero =>
    cases ran
    exact iff_of_true (.refl rooted) nofun
  | succ rounds ih =>
    unfold userMemCheckLoop at ran
    split at ran
    · rename_i high
      cases ran
      refine iff_of_true (.refl rooted) fun j _ low => ?_
      have := Nat.le_add_right va (j * pgSize)
      omega
    · rename_i low
      obtain ⟨⟨found, m''⟩, looked, ran⟩ := Option.bind_eq_some_iff.mp ran
      have first := rooted.pageLookup_unmodified looked
      -- the loop ends here, or the first page passes and nothing has happened yet
      have ended (same : m' = m'') (fails : ¬ m.Passes root perm va) :
          m.Unmodified m' free ↔ m.RangeBarren root perm free.length (rounds + 1) va := by
        rw [same, first]
        constructor
        · intro barren j _ _ passes
          cases j with
          | zero => simpa using barren
          | succ j => exact absurd (by simpa using passes 0 (Nat.succ_pos j)) fails
        · intro range
          simpa using range 0 (Nat.succ_pos rounds) (by omega) nofun
      rcases rooted.pageLookup_cases looked with ⟨zero, rfl, present, perms⟩ | ⟨some, rfl, -⟩
      · cases found with
        | none =>
          cases ran
          refine ended rfl fun ⟨translation, there, _⟩ => ?_
          rw [present.mp rfl] at there
          cases there
        | some hit =>
          obtain ⟨page, slot⟩ := hit
          obtain ⟨translation, there⟩ := Option.ne_none_iff_exists'.mp
            fun none => Option.some_ne_none _ (present.mpr none)
          have same := (perms page slot translation rfl there).2
          simp only at ran
          split at ran
          · rename_i denied
            cases ran
            refine ended rfl fun ⟨translation', there', allowed⟩ => ?_
            cases there.symm.trans there'
            exact allowed (same ▸ denied)
          · rename_i allowed
            have passes : m''.Passes root perm va := ⟨translation, there, same ▸ allowed⟩
            rw [ih ran]
            have shift (j : Nat) : va + pgSize + j * pgSize = va + (j + 1) * pgSize := by
              rw [Nat.succ_mul]
              omega
            constructor
            · intro range j bound low before
              cases j with
              | zero => exact .inl (by simpa using zero)
              | succ j =>
                rw [← shift]
                refine range j (by omega) (shift j ▸ low) fun l less => ?_
                rw [shift]
                exact before (l + 1) (by omega)
            · intro range j bound low before
              rw [shift] at low ⊢
              refine range (j + 1) (by omega) low fun l less => ?_
              cases l with
              | zero => simpa using passes
              | succ l =>
                rw [← shift]
                exact before l (by omega)
      · obtain ⟨-, rfl⟩ := Prod.mk.inj (Option.some.inj ran)
        refine ended rfl fun ⟨translation, there, _⟩ => ?_
        rw [translate_missing some] at there
        cases there

theorem Rooted.pageRemove_unmodified (rooted : m.Rooted root free)
    (unmapped : m.translate root va = none)
    (ran : pageRemove m (some root) va = some m') :
    m.Unmodified m' free ↔ m.Barren root va free.length := by
  obtain ⟨⟨found, m''⟩, looked, ran⟩ := Option.bind_eq_some_iff.mp ran
  have none : found = none := by
    rcases rooted.pageLookup_cases looked with ⟨-, -, present, -⟩ | ⟨-, none, -⟩
    · exact present.mpr unmapped
    · exact none
  subst none
  cases ran
  exact rooted.pageLookup_unmodified looked

/-- The operations that only look leave the tables, the counts and the free list as
they are if and only if the walk to the first page not mapped is barren. -/
theorem lookups_unmodified_iff (rooted : m.Rooted root free) :
    (∀ va found m', pageLookup m (some root) va = some (found, m') →
      (m.Unmodified m' free ↔ m.Barren root va free.length)) ∧
    (∀ va len perm passed m', userMemCheck m (some root) va len perm = some (passed, m') →
      (m.Unmodified m' free ↔ m.RangeBarren root perm free.length
        ((roundUp ((roundDown va + len) % 2 ^ 64) - roundDown va) / pgSize) (roundDown va))) ∧
    ∀ va m', m.translate root va = none → pageRemove m (some root) va = some m' →
      (m.Unmodified m' free ↔ m.Barren root va free.length) :=
  ⟨fun _ _ _ ran => rooted.pageLookup_unmodified ran,
    fun _ _ _ _ _ ran => rooted.userMemCheckLoop_unmodified ran,
    fun _ _ unmapped ran => rooted.pageRemove_unmodified unmapped ran⟩

theorem Rooted.pageLookup_absent (rooted : m.Rooted root free) (some : 0 < m.missing root va) :
    ∃ m', pageLookup m (.some root) va = .some (none, m') := by
  obtain ⟨slot, m', walked, empty, -⟩ := rooted.absent some
  refine ⟨m', ?_⟩
  simp only [pageLookup, walked, Option.bind_eq_bind, Option.bind_some]
  cases slot with
  | none => rfl
  | some slot => simp only [empty slot rfl, Bool.false_eq_true, if_false]; rfl

/-- Looking up an address below a table that is there takes the only free page. -/
theorem sparse_lookup_modified : sparse.Rooted 0 [2] ∧
    ∃ found m', pageLookup sparse (some 0) 0 = some (found, m') ∧ ¬ sparse.Unmodified m' [2] := by
  have missing : sparse.missing 0 0 = 2 := by decide
  obtain ⟨m', ran⟩ := sparse_rooted.pageLookup_absent
    (show 0 < sparse.missing 0 0 by omega)
  refine ⟨sparse_rooted, none, m', ran, fun same => ?_⟩
  have barren := (sparse_rooted.pageLookup_unmodified ran).mp same
  unfold Barren at barren
  rw [missing] at barren
  exact absurd barren (by decide)

theorem sparse_lookup_unmodified : ∃ found m',
    pageLookup sparse (some 0) (2 ^ 39) = some (found, m') ∧ sparse.Unmodified m' [2] := by
  have missing : sparse.missing 0 (2 ^ 39) = 3 := by decide
  obtain ⟨m', ran⟩ := sparse_rooted.pageLookup_absent
    (show 0 < sparse.missing 0 (2 ^ 39) by omega)
  exact ⟨none, m', ran,
    ((lookups_unmodified_iff sparse_rooted).1 _ _ _ ran).mpr (.inr (.inr ⟨missing, rfl⟩))⟩

end Pmap

end Jos
