import Jos.Lib.Fork

/-! What the scan of `fork` maps into the child. -/

set_option autoImplicit false

namespace Jos

/-- The pages at which the scan of `fork` reads `uvpt`, from a page downwards. -/
inductive Visits (t : Tables) : Nat → Nat → Prop where
  | here {pn : Nat} (low : vpn utext ≤ pn) (reached : t.Reach pn) : Visits t pn pn
  | page {pn q : Nat} (low : vpn utext ≤ pn) (reached : t.Reach pn) (next : Visits t (pn - 1) q) :
      Visits t pn q
  | table {pn q : Nat} (low : vpn utext ≤ pn)
      (root : t.uvpml4e (pn / 512 / 512 / 512) = true) (directory : t.uvpde (pn / 512 / 512) = true)
      (missing : t.uvpd (pn / 512) = false) (next : Visits t (pn - (512 + 1)) q) : Visits t pn q
  | directory {pn q : Nat} (low : vpn utext ≤ pn)
      (root : t.uvpml4e (pn / 512 / 512 / 512) = true)
      (missing : t.uvpde (pn / 512 / 512) = false) (far : 512 * 512 + 1 ≤ pn)
      (next : Visits t (pn - (512 * 512 + 1)) q) : Visits t pn q

namespace Visits

variable {t : Tables} {pn q : Nat}

theorem le (visits : Visits t pn q) : q ≤ pn := by
  induction visits with
  | here => exact le_rfl
  | page _ _ _ ih => omega
  | table _ _ _ _ _ ih => omega
  | directory _ _ _ _ _ ih => omega

theorem low (visits : Visits t pn q) : vpn utext ≤ q := by
  induction visits with
  | here low => exact low
  | page _ _ _ ih => exact ih
  | table _ _ _ _ _ ih => exact ih
  | directory _ _ _ _ _ ih => exact ih

theorem of_tables (present : ∀ p, t.Reach p) (low : vpn utext ≤ q) (le : q ≤ pn) :
    Visits t pn q := by
  induction pn with
  | zero =>
    obtain rfl : q = 0 := by omega
    exact .here low (present 0)
  | succ pn ih =>
    by_cases top : q = pn + 1
    · subst top
      exact .here low (present _)
    · exact .page (by omega) (present _) (ih (by omega))

/-- The last page below a missing table is passed over, when all tables above
are present. -/
theorem not_below_missing {table : Nat} (missing : t.uvpd (table + 1) = false)
    (above : ∀ other, table + 1 < other → t.uvpd other = true)
    (directories : ∀ directory, t.uvpde directory = true)
    (passed : 512 * table + 511 < pn) : ¬ Visits t pn (512 * table + 511) := by
  generalize target : 512 * table + 511 = goal at passed
  intro visits
  induction visits with
  | here => omega
  | @page p _ _ reached _ ih =>
    refine ih target ?_
    -- The table of the page just above is the one that is missing.
    by_contra close
    have same : p / 512 = table + 1 := by omega
    have present := reached.2.2
    rw [same, missing] at present
    cases present
  | @table p _ _ _ _ gap next _ =>
    have reach := next.le
    by_cases top : p / 512 = table + 1
    · omega
    · have present := above (p / 512) (by omega)
      rw [gap] at present
      cases present
  | directory _ _ gap =>
    rw [directories] at gap
    cases gap

end Visits

/-- The calls of `duppage`. -/
def dupCalls (child parent pn : Nat) (entry : Pte) : List ForkCall :=
  .pageMap parent pn child pn (dupPerm entry.perm) ::
    if Remarked entry.perm then [.pageMap parent pn parent pn (dupPerm entry.perm)] else []

/-- What one `duppage` does. -/
structure Duplicated (answers : ForkCall → Int) (child parent pn : Nat) (entry : Pte)
    (r r' : Forking) : Prop where
  mem : r'.world.mem = r.world.mem
  next : r'.world.next = r.world.next
  tables : (r'.world.space parent).toTables = (r.world.space parent).toTables
  own : ∀ q, q ≠ pn → (r'.world.space parent).uvpt q = (r.world.space parent).uvpt q
  frame : ((r'.world.space parent).uvpt pn).map Pte.ppn = some entry.ppn
  marked : (Remarked entry.perm →
      0 ≤ answers (.pageMap parent pn parent pn (dupPerm entry.perm))) →
    (r'.world.space parent).uvpt pn = some ⟨entry.ppn, markedPerm entry.perm⟩
  others : ∀ e q, e ≠ child → e ≠ parent →
    (r'.world.space e).uvpt q = (r.world.space e).uvpt q
  copied : 0 ≤ answers (.pageMap parent pn child pn (dupPerm entry.perm)) →
    (r'.world.space child).uvpt pn = some ⟨entry.ppn, dupPerm entry.perm ||| pteP⟩
  kept : ∀ q, q ≠ pn ∨ answers (.pageMap parent pn child pn (dupPerm entry.perm)) < 0 →
    (r'.world.space child).uvpt q = (r.world.space child).uvpt q
  log : r'.log = r.log ++ dupCalls child parent pn entry

/-- One mapping that `duppage` asks for. -/
structure Asked (answers : ForkCall → Int) (dst parent pn : Nat) (entry : Pte)
    (r r' : Forking) : Prop where
  mem : r'.world.mem = r.world.mem
  next : r'.world.next = r.world.next
  tables : (r'.world.space parent).toTables = (r.world.space parent).toTables
  spaces : ∀ e q, (r'.world.space e).uvpt q =
    if 0 ≤ answers (.pageMap parent pn dst pn (dupPerm entry.perm)) ∧ e = dst ∧ q = pn then
      some ⟨entry.ppn, dupPerm entry.perm ||| pteP⟩
    else (r.world.space e).uvpt q
  log : r'.log = r.log ++ [.pageMap parent pn dst pn (dupPerm entry.perm)]

section Duppage

variable {answers : ForkCall → Int} {r r' : Forking} {child parent pn q : Nat} {entry : Pte}

theorem duppage_eq : duppage answers r child parent pn entry =
    (panicIfPositive (r.pageMap answers parent pn child pn (dupPerm entry.perm))).bind fun r =>
      if Remarked entry.perm then
        panicIfPositive (r.pageMap answers parent pn parent pn (dupPerm entry.perm))
      else some r := by
  unfold duppage dupPerm Remarked
  by_cases shared : entry.perm &&& pteSyscall &&& pteShare = 0
  · by_cases own : entry.perm &&& pteSyscall &&& pteW ≠ 0 ∨ entry.perm &&& pteSyscall &&& pteCow ≠ 0
    · simp only [shared, own, ne_eq, not_true_eq_false, if_false, if_true, true_and]
    · simp only [shared, own, ne_eq, not_true_eq_false, if_false, and_false]
      exact Option.bind_fun_some _ |>.symm
  · simp only [shared, ne_eq, not_false_eq_true, if_true, false_and, if_false]
    exact Option.bind_fun_some _ |>.symm

theorem panicIfPositive_some {answer : Int × Forking} (ran : panicIfPositive answer = some r') :
    r' = answer.2 := by
  unfold panicIfPositive at ran
  split at ran
  · cases ran
  · exact (Option.some.inj ran).symm

theorem pageMap_asked {other : Pte} (dst : Nat) (found : (r.world.space parent).uvpt pn = some other)
    (frame : other.ppn = entry.ppn) :
    Asked answers dst parent pn entry r
      (r.pageMap answers parent pn dst pn (dupPerm entry.perm)).2 := by
  by_cases failed : answers (.pageMap parent pn dst pn (dupPerm entry.perm)) < 0
  · have refused : ¬ 0 ≤ answers (.pageMap parent pn dst pn (dupPerm entry.perm)) := by omega
    unfold Forking.pageMap Forking.ask
    simp only [failed, if_true]
    exact ⟨rfl, rfl, rfl, fun e q => by simp [refused], rfl⟩
  · have answered : 0 ≤ answers (.pageMap parent pn dst pn (dupPerm entry.perm)) := by omega
    unfold Forking.pageMap Forking.ask
    simp only [failed, if_false, World.pageMap_some found, frame]
    have bound : entry.ppn < r.world.next := frame ▸ r.world.mapped parent pn other found
    refine ⟨rfl, rfl, ?_, fun e q => ?_, rfl⟩
    · exact @World.insert_tables r.world dst parent pn ⟨entry.ppn, _ ||| pteP⟩ bound fun _ => (r.world.space parent).tabled pn other found
    · rw [World.insert_uvpt]
      simp [answered]

theorem duppage_spec (differ : child ≠ parent) (found : (r.world.space parent).uvpt pn = some entry)
    (ran : duppage answers r child parent pn entry = some r') :
    Duplicated answers child parent pn entry r r' := by
  rw [duppage_eq, Option.bind_eq_some_iff] at ran
  obtain ⟨middle, first, second⟩ := ran
  have asked := @pageMap_asked answers r parent pn entry entry child found rfl
  rw [← panicIfPositive_some first] at asked
  have still : (middle.world.space parent).uvpt pn = some entry := by
    rw [asked.spaces]
    simp [differ.symm, found]
  split at second
  · rename_i remarked
    have again := @pageMap_asked answers middle parent pn entry entry parent still rfl
    rw [← panicIfPositive_some second] at again
    refine ⟨again.mem.trans asked.mem, again.next.trans asked.next,
      again.tables.trans asked.tables, fun q other => ?_, ?_, fun answered => ?_,
      fun e q given own => ?_, fun answered => ?_, fun q other => ?_, ?_⟩
    · rw [again.spaces, asked.spaces]
      simp [other]
    · rw [again.spaces]
      split
      · rfl
      · rw [still]
        rfl
    · rw [again.spaces, if_pos ⟨answered remarked, rfl, rfl⟩, markedPerm, if_pos remarked]
    · rw [again.spaces, asked.spaces]
      simp [given, own]
    · rw [again.spaces, asked.spaces]
      simp [differ, answered]
    · rw [again.spaces, asked.spaces]
      obtain other | failed := other
      · simp [other]
      · simp [differ, Int.not_le.mpr failed]
    · rw [again.log, asked.log, dupCalls, if_pos remarked]
      simp
  · rename_i plain
    cases second
    refine ⟨asked.mem, asked.next, asked.tables, fun q other => ?_, ?_, fun _ => ?_,
      fun e q given _ => ?_, fun answered => ?_, fun q other => ?_, ?_⟩
    · rw [asked.spaces]
      simp [other]
    · rw [still]
      rfl
    · rw [still, markedPerm, if_neg plain]
    · rw [asked.spaces]
      simp [given]
    · rw [asked.spaces]
      simp [answered]
    · rw [asked.spaces]
      obtain other | failed := other
      · simp [other]
      · simp [Int.not_le.mpr failed]
    · rw [asked.log, dupCalls, if_neg plain]

end Duppage

end Jos
