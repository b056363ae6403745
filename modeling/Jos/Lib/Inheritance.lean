import Jos.Lib.Complete

/-! When the child of `fork` has every page of its parent. -/

set_option autoImplicit false

namespace Jos

open Function

/-- The child has every page of the parent, with its contents or, where it is
shared, in the same frame, and an exception stack that nobody else maps. -/
structure Inherits (before after : World) (parent child : Nat) : Prop where
  pages : ∀ pn entry, vpn utext ≤ pn → pn < vpn ustackTop →
    (before.space parent).uvpt pn = some entry →
    ∃ copy, (after.space child).uvpt pn = some copy ∧
      after.mem copy.ppn = before.mem entry.ppn ∧
      (entry.perm &&& pteShare ≠ 0 → copy.ppn = entry.ppn)
  stack : ∃ own, (after.space child).uvpt uxstackPage = some own ∧
    ∀ e q entry, (after.space e).uvpt q = some entry → entry.ppn = own.ppn →
      e = child ∧ q = uxstackPage

/-- The kernel carries out every call of the `fork`, the scan passes over no
present page, and the stack is not shared. -/
structure Forkable (answers : ForkCall → Int) (first : Bool) (parent child : Nat) (w : World) :
    Prop where
  covered : ∀ pn entry, vpn utext ≤ pn → pn < vpn ustackTop →
    (w.space parent).uvpt pn = some entry → Visits (w.space parent).toTables ustackPage pn
  copied : ∀ pn entry, Visits (w.space parent).toTables ustackPage pn →
    (w.space parent).uvpt pn = some entry →
    ∀ call ∈ dupCalls child parent pn entry, 0 ≤ answers call
  answered : ∀ call ∈ handlerCalls first parent ++ finishCalls child parent, 0 ≤ answers call
  stack : ∀ entry, (w.space parent).uvpt ustackPage = some entry → entry.perm &&& pteShare = 0

section

variable {answers : ForkCall → Int} {first : Bool} {parent : Nat} {w : World} {r : Forking}
  {result : Int}

/-- `set_pgfault_handler` changes no page but the exception stack. -/
structure Handled (parent : Nat) (w : World) (r : Forking) : Prop where
  mem : r.world.mem = w.mem
  next : w.next ≤ r.world.next
  uvpt : ∀ e q, e ≠ parent ∨ q ≠ uxstackPage → (r.world.space e).uvpt q = (w.space e).uvpt q
  xstack : ∀ entry, (r.world.space parent).uvpt uxstackPage = some entry →
    (w.space parent).uvpt uxstackPage = some entry ∨ w.next ≤ entry.ppn
  tables : (w.space parent).Reach ustackPage →
    (r.world.space parent).toTables = (w.space parent).toTables

theorem setPgfaultHandler_spec (ran : setPgfaultHandler answers first parent ⟨w, []⟩ = some r) :
    Handled parent w r ∧ r.log = handlerCalls first parent := by
  unfold setPgfaultHandler at ran
  split at ran
  · rename_i begins
    change (if answers (.pageAlloc parent uxstackPage permPrivate) < 0 then none else
      some (Forking.ask answers (Forking.pageAlloc answers ⟨w, []⟩ parent uxstackPage
        permPrivate).2 (.setUpcall parent) id).2) = some r at ran
    split at ran
    · cases ran
    rename_i answered
    have answered := Int.not_lt.mp answered
    cases ran
    unfold Forking.pageAlloc
    rw [Forking.ask_answered answered]
    refine ⟨?_, by rw [handlerCalls, if_pos begins]; rfl⟩
    have same : ∀ {effect : World}, (Forking.ask answers ⟨effect, []⟩ (.setUpcall parent)
        id).2.world = effect := by
      intro effect
      unfold Forking.ask
      simp
    have world : (Forking.ask answers ⟨w.pageAlloc parent uxstackPage permPrivate,
        [] ++ [.pageAlloc parent uxstackPage permPrivate]⟩ (.setUpcall parent) id).2.world =
        w.pageAlloc parent uxstackPage permPrivate := by
      unfold Forking.ask
      simp
    refine ⟨by rw [world]; rfl, by rw [world]; exact Nat.le_succ _, fun e q other => ?_,
      fun entry there => ?_, fun reached => ?_⟩
    · rw [world, World.pageAlloc_uvpt, if_neg fun both => other.elim (· both.1) (· both.2)]
    · rw [world, World.pageAlloc_uvpt, if_pos ⟨rfl, rfl⟩] at there
      cases there
      exact .inr le_rfl
    · rw [world]
      -- The two stacks lie in one page table.
      exact World.pageAlloc_tables fun _ => reached
  · rename_i begins
    cases ran
    refine ⟨⟨rfl, le_rfl, fun _ _ _ => rfl, fun _ => .inl, fun _ => rfl⟩, ?_⟩
    rw [handlerCalls, if_neg begins]

/-- What `fork` does in the parent, when it returns an environment. -/
theorem fork_positive (ran : fork answers first parent w = some (result, r))
    (positive : 0 < result) :
    ∃ handled scanned,
      setPgfaultHandler answers first parent ⟨w, []⟩ = some handled ∧
      answers .exofork = result ∧
      forkScan answers result.toNat parent
        ⟨handled.world.create result.toNat, handled.log ++ [.exofork]⟩ ustackPage = some scanned ∧
      forkFinish answers result.toNat parent scanned = some r := by
  unfold fork at ran
  obtain ⟨handled, handler, ran⟩ := Option.bind_eq_some_iff.mp ran
  change (if answers .exofork < 0 then _ else _) = _ at ran
  split at ran
  · cases ran
  rename_i answered
  have answered := Int.not_lt.mp answered
  split at ran
  · obtain ⟨rfl, -⟩ := Prod.mk.inj (Option.some.inj ran)
    omega
  obtain ⟨scanned, scan, ran⟩ := Option.bind_eq_some_iff.mp ran
  obtain ⟨finished, finish, same⟩ := Option.map_eq_some_iff.mp ran
  cases same
  exact ⟨handled, scanned, handler, rfl, scan, finish⟩

/-- What the child has when the kernel carries out the calls after the scan. -/
structure Born (answers : ForkCall → Int) (w : World) (parent child : Nat) (r : Forking)
    (source : Pte) (frame : Nat) : Prop where
  fresh : w.next ≤ frame
  stack : (w.space parent).uvpt ustackPage = some source
  mem : r.world.mem = update w.mem (frame + 1) (w.mem source.ppn)
  xstack : (r.world.space child).uvpt uxstackPage = some ⟨frame, permPrivate ||| pteP⟩
  moved : (r.world.space child).uvpt ustackPage = some ⟨frame + 1, permPrivate ||| pteP⟩
  own : ∀ e q entry, (r.world.space e).uvpt q = some entry → entry.ppn = frame →
    e = child ∧ q = uxstackPage
  copied : ∀ q entry, q ≠ ustackPage → q ≠ uxstackPage →
    Visits (w.space parent).toTables ustackPage q → (w.space parent).uvpt q = some entry →
    0 ≤ answers (.pageMap parent q child q (dupPerm entry.perm)) →
    (r.world.space child).uvpt q = some ⟨entry.ppn, dupPerm entry.perm ||| pteP⟩
  passed : ∀ q, q ≠ ustackPage → q ≠ uxstackPage →
    (Visits (w.space parent).toTables ustackPage q → (w.space parent).uvpt q = none) →
    (r.world.space child).uvpt q = none
  others : ∀ e q, e ≠ child → e ≠ parent → (r.world.space e).uvpt q = (w.space e).uvpt q
  marked : ∀ q entry, Visits (w.space parent).toTables ustackPage q →
    (w.space parent).uvpt q = some entry →
    (Remarked entry.perm → 0 ≤ answers (.pageMap parent q parent q (dupPerm entry.perm))) →
    (r.world.space parent).uvpt q = some ⟨entry.ppn, markedPerm entry.perm⟩
  unmarked : ∀ q entry,
    (Visits (w.space parent).toTables ustackPage q → (w.space parent).uvpt q = none) →
    (r.world.space parent).uvpt q = some entry →
    (w.space parent).uvpt q = some entry ∨ q = uxstackPage ∧ w.next ≤ entry.ppn ∧ entry.ppn < frame

theorem ustackPage_ne : ustackPage ≠ uxstackPage := by decide

/-- The calls of a `fork` that returns an environment. -/
theorem fork_calls (differ : result.toNat ≠ parent)
    (ran : fork answers first parent w = some (result, r)) (positive : 0 < result) :
    (w.space parent).Reach ustackPage → ∀ call, call ∈ r.log ↔
      call = .exofork ∨ call ∈ handlerCalls first parent ++ finishCalls result.toNat parent ∨
      ∃ q entry, Visits (w.space parent).toTables ustackPage q ∧
        (w.space parent).uvpt q = some entry ∧ call ∈ dupCalls result.toNat parent q entry := by
  intro reached call
  obtain ⟨handled, scanned, handler, -, scan, finish⟩ := fork_positive ran positive
  obtain ⟨handler, log⟩ := setPgfaultHandler_spec handler
  have scan := forkScan_spec differ scan
  have own : (handled.world.create result.toNat).space parent = handled.world.space parent := by
    unfold World.create
    simp only [update_of_ne differ.symm]
  have logged := scan.log
  simp only [own, handler.tables reached, List.mem_append, log, List.mem_singleton] at logged
  rw [forkFinish_log finish, List.mem_append, logged]
  have visited : ∀ q, Visits (w.space parent).toTables ustackPage q →
      (handled.world.space parent).uvpt q = (w.space parent).uvpt q := by
    intro q visits
    refine handler.uvpt parent q (.inr ?_)
    rintro rfl
    exact absurd visits.le (by decide)
  have same : (∃ q entry, Visits (w.space parent).toTables ustackPage q ∧
      (handled.world.space parent).uvpt q = some entry ∧
        call ∈ dupCalls result.toNat parent q entry) ↔
      ∃ q entry, Visits (w.space parent).toTables ustackPage q ∧
        (w.space parent).uvpt q = some entry ∧ call ∈ dupCalls result.toNat parent q entry := by
    refine exists_congr fun q => exists_congr fun entry => and_congr_right fun visits => ?_
    rw [visited q visits]
  rw [same, List.mem_append]
  simp only [or_assoc, or_comm, or_left_comm]

theorem fork_finish_calls (ran : fork answers first parent w = some (result, r))
    (positive : 0 < result) : ∀ call ∈ finishCalls result.toNat parent, call ∈ r.log := by
  intro call listed
  obtain ⟨_, scanned, _, _, _, finish⟩ := fork_positive ran positive
  rw [forkFinish_log finish]
  exact List.mem_append_right _ listed

theorem fork_born (differ : result.toNat ≠ parent)
    (ran : fork answers first parent w = some (result, r)) (positive : 0 < result)
    (answered : ∀ call ∈ finishCalls result.toNat parent, 0 ≤ answers call) :
    ∃ source frame, Born answers w parent result.toNat r source frame := by
  obtain ⟨handled, scanned, handler, -, scan, finish⟩ := fork_positive ran positive
  obtain ⟨handler, -⟩ := setPgfaultHandler_spec handler
  have scan := forkScan_spec differ scan
  have own : (handled.world.create result.toNat).space parent = handled.world.space parent := by
    unfold World.create
    simp only [update_of_ne differ.symm]
  have none : ∀ q, ((handled.world.create result.toNat).space result.toNat).uvpt q = .none := by
    intro q
    rw [World.create_uvpt, if_pos rfl]
  obtain ⟨late, there, finished⟩ := forkFinish_spec differ answered finish
  -- The stack page had its frame from the start.
  have frame := scan.frames ustackPage
  simp only [own, handler.uvpt parent ustackPage (.inr ustackPage_ne), there, Option.map_some] at frame
  obtain ⟨source, stack, same⟩ := Option.map_eq_some_iff.mp frame.symm
  have tables := handler.tables ((w.space parent).tabled _ _ stack)
  have next : scanned.world.next = handled.world.next := scan.next
  have copied := scan.copied
  have kept := scan.kept
  have kept' := scan.own
  have marked := scan.marked
  simp only [own, tables, none] at copied kept kept' marked
  refine ⟨source, scanned.world.next, next ▸ handler.next, stack, ?_, ?_, ?_, finished.own,
    fun q entry stackless xstackless visits found answer => ?_,
    fun q stackless xstackless passed => ?_, fun e q given other => ?_,
    fun q entry visits found answer => ?_, fun q entry passed there => ?_⟩
  · have mem : scanned.world.mem = w.mem := scan.mem.trans handler.mem
    rw [finished.mem, mem, same]
  · rw [finished.given, if_neg ustackPage_ne.symm, if_pos rfl]
  · rw [finished.given, if_pos rfl]
  · rw [finished.given, if_neg stackless, if_neg xstackless]
    exact copied q entry visits ((handler.uvpt parent q (.inr xstackless)).trans found) answer
  · rw [finished.given, if_neg stackless, if_neg xstackless]
    refine kept q fun visits => ?_
    rw [handler.uvpt parent q (.inr xstackless)]
    exact passed visits
  · rw [finished.others e q given, if_neg fun both => other both.1, scan.others e q given other,
      World.create_uvpt, if_neg given]
    exact handler.uvpt e q (.inl other)
  · have low := visits.low
    have xstackless : q ≠ uxstackPage := by
      rintro rfl
      exact absurd visits.le (by decide)
    have temporary : q ≠ vpn pftemp := by
      rintro rfl
      exact absurd low (by decide)
    rw [finished.others parent q differ.symm, if_neg fun both => temporary both.2]
    exact marked q entry visits ((handler.uvpt parent q (.inr xstackless)).trans found) answer
  · rw [finished.others parent q differ.symm] at there
    split at there
    · cases there
    have absent : Visits (w.space parent).toTables ustackPage q →
        (handled.world.space parent).uvpt q = .none := by
      intro visits
      rw [handler.uvpt parent q (.inr ?_)]
      · exact passed visits
      · rintro rfl
        exact absurd visits.le (by decide)
    rw [kept' q absent] at there
    by_cases xstack : q = uxstackPage
    · subst xstack
      obtain old | fresh := handler.xstack entry there
      · exact .inl old
      · have bounded := handled.world.mapped parent _ entry there
        exact .inr ⟨rfl, fresh, next ▸ bounded⟩
    · rw [handler.uvpt parent q (.inr xstack)] at there
      exact .inl there

/-- A `fork` that returns an environment has given it every page, and had all its
calls carried out, exactly where the scan passes over no present page, the kernel
answers every call with success and the stack is not shared. -/
theorem inherits_iff (differ : result.toNat ≠ parent)
    (ran : fork answers first parent w = some (result, r)) (positive : 0 < result) :
    Inherits w r.world parent result.toNat ∧ (∀ call ∈ r.log, 0 ≤ answers call) ↔
      Forkable answers first parent result.toNat w := by
  have low : vpn utext = 2048 := rfl
  have high : vpn ustackTop = ustackPage + 1 := rfl
  constructor
  · rintro ⟨inherits, answered⟩
    have finish := fun call listed => answered call (fork_finish_calls ran positive call listed)
    obtain ⟨source, frame, born⟩ := fork_born differ ran positive finish
    have calls := fork_calls differ ran positive ((w.space parent).tabled _ _ born.stack)
    refine ⟨fun pn entry above below found => ?_, fun pn entry visits found call asked => ?_,
      fun call listed => ?_, fun entry found => ?_⟩
    · by_contra passed
      obtain ⟨copy, there, -⟩ := inherits.pages pn entry above below found
      have stackless : pn ≠ ustackPage := by
        rintro rfl
        exact passed (.here above ((w.space parent).tabled _ _ found))
      have xstackless : pn ≠ uxstackPage := by
        rintro rfl
        exact absurd below (by decide)
      rw [born.passed pn stackless xstackless fun visits => absurd visits passed] at there
      cases there
    · exact answered call ((calls call).2 (.inr (.inr ⟨pn, entry, visits, found, asked⟩)))
    · exact answered call ((calls call).2 (.inr (.inl listed)))
    · by_contra shared
      obtain ⟨copy, there, -, same⟩ :=
        inherits.pages ustackPage entry (by decide) (by decide) found
      rw [born.moved] at there
      cases there
      have bounded := w.mapped parent ustackPage entry found
      have fresh := born.fresh
      have same : frame + 1 = entry.ppn := same shared
      omega
  · intro forkable
    have answered := forkable.answered
    obtain ⟨source, frame, born⟩ := fork_born differ ran positive fun call listed =>
      answered call (List.mem_append_right _ listed)
    have calls := fork_calls differ ran positive ((w.space parent).tabled _ _ born.stack)
    have fresh := born.fresh
    refine ⟨⟨fun pn entry above below found => ?_, _, born.xstack, born.own⟩,
      fun call logged => ?_⟩
    · by_cases stack : pn = ustackPage
      · subst stack
        cases born.stack.symm.trans found
        refine ⟨_, born.moved, ?_, fun shared => absurd (forkable.stack source found) shared⟩
        rw [born.mem, update_self]
      · have xstackless : pn ≠ uxstackPage := by
          rintro rfl
          exact absurd below (by decide)
        have visits := forkable.covered pn entry above below found
        have copied := born.copied pn entry stack xstackless visits found
          (forkable.copied pn entry visits found _ (List.mem_cons_self ..))
        refine ⟨_, copied, ?_, fun _ => rfl⟩
        have bounded := w.mapped parent pn entry found
        rw [born.mem, update_of_ne (by simp only; omega)]
    · obtain rfl | listed | ⟨q, entry, visits, found, asked⟩ := (calls call).1 logged
      · obtain ⟨_, _, _, created, _⟩ := fork_positive ran positive
        omega
      · exact answered call listed
      · exact forkable.copied q entry visits found call asked

/-- With the handler already set, a `fork` that meets no positive answer in the
scan and no error after it returns the new environment. -/
theorem fork_some {source : Pte} (created : answers .exofork = result) (positive : 0 < result)
    (differ : result.toNat ≠ parent)
    (mapped : ∀ src pn dst q perm, answers (.pageMap src pn dst q perm) ≤ 0)
    (answered : ∀ call ∈ finishCalls result.toNat parent, 0 ≤ answers call)
    (root : ∀ i, (w.space parent).uvpml4e i = true)
    (directories : ∀ i, (w.space parent).uvpde i = true)
    (stack : (w.space parent).uvpt ustackPage = some source) :
    ∃ r, fork answers false parent w = some (result, r) := by
  have own : (w.create result.toNat).space parent = w.space parent := by
    unfold World.create
    simp only [update_of_ne differ.symm]
  obtain ⟨scanned, scan⟩ := @forkScan_some answers
    ⟨w.create result.toNat, [.exofork]⟩ result.toNat parent ustackPage differ mapped
    (by rw [own]; exact root) (by rw [own]; exact directories)
  have frames := (forkScan_spec differ scan).frames ustackPage
  simp only [own, stack, Option.map_some] at frames
  obtain ⟨late, there, -⟩ := Option.map_eq_some_iff.mp frames
  obtain ⟨r, finish⟩ := forkFinish_some differ answered there
  refine ⟨r, ?_⟩
  unfold fork setPgfaultHandler
  simp only [Bool.false_eq_true, if_false, Option.bind_some]
  rw [Forking.ask_answered (by omega), created]
  simp only [List.nil_append, scan, Option.bind_some, finish, Option.map_some]
  rw [if_neg (by omega), if_neg (by omega)]

end

/-- The page just below the table 1914 of the address space. -/
def lowPage : Nat := 512 * 1913 + 511

/-- An address space with the stack and one page below a table that may be missing. -/
def sampleSpace (table : Bool) (perm : BitVec 12) : Space where
  uvpml4e _ := true
  uvpde _ := true
  uvpd i := if i = 1914 then table else true
  uvpt pn := if pn = ustackPage then some ⟨0, permPrivate⟩
    else if pn = lowPage then some ⟨1, perm⟩ else none
  tabled pn entry there := by
    refine ⟨rfl, rfl, if_neg ?_⟩
    intro missing
    have stack : pn ≠ ustackPage := by rintro rfl; exact absurd missing (by decide)
    have low : pn ≠ lowPage := by rintro rfl; exact absurd missing (by decide)
    simp only [stack, low, if_false] at there
    cases there

/-- The environment 1 has the sample address space, the others have none. -/
def sampleWorld (table : Bool) (perm : BitVec 12) : World where
  space e := if e = 1 then sampleSpace table perm else .empty
  mem _ _ := 0
  next := 2
  mapped e pn entry there := by
    split at there
    · simp only [sampleSpace] at there
      split at there
      · obtain rfl := Option.some.inj there
        decide
      · split at there
        · obtain rfl := Option.some.inj there
          exact Nat.lt_succ_self 1
        · cases there
    · cases there

/-- The kernel carries out every call and creates the environment 2. -/
def sampleAnswers : ForkCall → Int
  | .exofork => 2
  | _ => 0

theorem sample_fork (table : Bool) (perm : BitVec 12) :
    ∃ r, fork sampleAnswers false 1 (sampleWorld table perm) = some (2, r) := by
  have answered : ∀ call ∈ finishCalls 2 1, 0 ≤ sampleAnswers call := by decide
  exact @fork_some sampleAnswers 1 (sampleWorld table perm) 2 ⟨0, permPrivate⟩ rfl (by decide)
    (by decide) (fun _ _ _ _ _ => le_rfl) answered (fun _ => rfl) (fun _ => rfl) rfl

theorem sampleAnswers_nonneg (call : ForkCall) : 0 ≤ sampleAnswers call := by
  cases call with
  | exofork => decide
  | _ => exact le_rfl

theorem sample_forkable (perm : BitVec 12) :
    Forkable sampleAnswers false 1 2 (sampleWorld true perm) where
  covered pn entry low high _ := by
    refine .of_tables (fun p => ⟨rfl, rfl, ?_⟩) low (Nat.le_of_lt_succ high)
    change (if p / 512 = 1914 then true else true) = true
    simp
  copied _ _ _ _ call _ := sampleAnswers_nonneg call
  answered call _ := sampleAnswers_nonneg call
  stack entry found := by
    cases show some (⟨0, permPrivate⟩ : Pte) = some entry from found
    decide

theorem sample_inherits : ∃ r : Forking,
    Inherits (sampleWorld true permPrivate) r.world 1 2 ∧
      ∀ call ∈ r.log, 0 ≤ sampleAnswers call := by
  obtain ⟨r, ran⟩ := sample_fork true permPrivate
  exact ⟨r, (inherits_iff (by decide) ran (by decide)).2 (sample_forkable permPrivate)⟩

/-- The 2 MB above `lowPage` have no table: the scan jumps from the last page of
them over `lowPage`. -/
theorem lowPage_not_inherited : ∃ r : Forking,
    fork sampleAnswers false 1 (sampleWorld false permPrivate) = some (2, r) ∧
      ¬ Inherits (sampleWorld false permPrivate) r.world 1 2 := by
  obtain ⟨r, ran⟩ := sample_fork false permPrivate
  refine ⟨r, ran, fun inherits => ?_⟩
  obtain ⟨source, frame, born⟩ := fork_born (by decide) ran (by decide) (by decide)
  obtain ⟨copy, there, -⟩ := inherits.pages lowPage ⟨1, permPrivate⟩ (by decide) (by decide) rfl
  have passed : ¬ Visits (sampleSpace false permPrivate).toTables ustackPage lowPage :=
    @Visits.not_below_missing (sampleSpace false permPrivate).toTables ustackPage 1913 rfl
      (fun other above => if_neg (by omega)) (fun _ => rfl) (by decide)
  rw [show (2 : Int).toNat = 2 from rfl] at born
  rw [born.passed lowPage (by decide) (by decide) fun visits => absurd visits passed] at there
  cases there

end Jos
