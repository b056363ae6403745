import Jos.Lib.Scan

/-! Which pages of the parent a successful `fork` gives to the child. -/

set_option autoImplicit false

namespace Jos

/-- What the scan from the page `pn` does. -/
structure Scanned (answers : ForkCall → Int) (child parent pn : Nat) (r r' : Forking) : Prop where
  mem : r'.world.mem = r.world.mem
  next : r'.world.next = r.world.next
  tables : (r'.world.space parent).toTables = (r.world.space parent).toTables
  frames : ∀ q, ((r'.world.space parent).uvpt q).map Pte.ppn =
    ((r.world.space parent).uvpt q).map Pte.ppn
  own : ∀ q, (Visits (r.world.space parent).toTables pn q →
      (r.world.space parent).uvpt q = none) →
    (r'.world.space parent).uvpt q = (r.world.space parent).uvpt q
  marked : ∀ q entry, Visits (r.world.space parent).toTables pn q →
    (r.world.space parent).uvpt q = some entry →
    (Remarked entry.perm → 0 ≤ answers (.pageMap parent q parent q (dupPerm entry.perm))) →
    (r'.world.space parent).uvpt q = some ⟨entry.ppn, markedPerm entry.perm⟩
  others : ∀ e q, e ≠ child → e ≠ parent →
    (r'.world.space e).uvpt q = (r.world.space e).uvpt q
  copied : ∀ q entry, Visits (r.world.space parent).toTables pn q →
    (r.world.space parent).uvpt q = some entry →
    0 ≤ answers (.pageMap parent q child q (dupPerm entry.perm)) →
    (r'.world.space child).uvpt q = some ⟨entry.ppn, dupPerm entry.perm ||| pteP⟩
  kept : ∀ q, (Visits (r.world.space parent).toTables pn q →
      (r.world.space parent).uvpt q = none) →
    (r'.world.space child).uvpt q = (r.world.space child).uvpt q
  log : ∀ call, call ∈ r'.log ↔ call ∈ r.log ∨
    ∃ q entry, Visits (r.world.space parent).toTables pn q ∧
      (r.world.space parent).uvpt q = some entry ∧ call ∈ dupCalls child parent q entry

section Scan

variable {answers : ForkCall → Int} {r r' : Forking} {child parent pn next : Nat}

theorem Scanned.refl (none : ∀ q, ¬ Visits (r.world.space parent).toTables pn q) :
    Scanned answers child parent pn r r where
  mem := rfl
  next := rfl
  tables := rfl
  frames _ := rfl
  own _ _ := rfl
  marked q _ visits := absurd visits (none q)
  others _ _ _ _ := rfl
  copied q _ visits := absurd visits (none q)
  kept _ _ := rfl
  log call := by
    refine ⟨Or.inl, fun listed => listed.resolve_right ?_⟩
    rintro ⟨q, _, visits, _⟩
    exact none q visits

theorem Scanned.jump (same : ∀ q, Visits (r.world.space parent).toTables pn q ↔
    Visits (r.world.space parent).toTables next q)
    (scanned : Scanned answers child parent next r r') : Scanned answers child parent pn r r' where
  mem := scanned.mem
  next := scanned.next
  tables := scanned.tables
  frames := scanned.frames
  own q passed := scanned.own q fun visits => passed ((same q).2 visits)
  marked q entry visits := scanned.marked q entry ((same q).1 visits)
  others := scanned.others
  copied q entry visits := scanned.copied q entry ((same q).1 visits)
  kept q passed := scanned.kept q fun visits => passed ((same q).2 visits)
  log call := by
    simp only [scanned.log, same]

theorem Visits.page_iff {t : Tables} {q : Nat} (low : vpn utext ≤ pn) (reached : t.Reach pn) :
    Visits t pn q ↔ q = pn ∨ Visits t (pn - 1) q := by
  constructor
  · intro visits
    cases visits with
    | here => exact .inl rfl
    | page _ _ next => exact .inr next
    | table _ _ _ missing =>
      rw [reached.2.2] at missing
      cases missing
    | directory _ _ missing =>
      rw [reached.2.1] at missing
      cases missing
  · rintro (rfl | next)
    · exact .here low reached
    · exact .page low reached next

theorem Visits.table_iff {t : Tables} {q : Nat} (low : vpn utext ≤ pn)
    (root : t.uvpml4e (pn / 512 / 512 / 512) = true) (directory : t.uvpde (pn / 512 / 512) = true)
    (missing : t.uvpd (pn / 512) = false) :
    Visits t pn q ↔ Visits t (pn - (512 + 1)) q := by
  refine ⟨fun visits => ?_, .table low root directory missing⟩
  cases visits with
  | here _ reached => rw [reached.2.2] at missing; cases missing
  | page _ reached => rw [reached.2.2] at missing; cases missing
  | table _ _ _ _ next => exact next
  | directory _ _ gap => rw [directory] at gap; cases gap

theorem Visits.directory_iff {t : Tables} {q : Nat} (low : vpn utext ≤ pn)
    (root : t.uvpml4e (pn / 512 / 512 / 512) = true)
    (missing : t.uvpde (pn / 512 / 512) = false) (far : 512 * 512 + 1 ≤ pn) :
    Visits t pn q ↔ Visits t (pn - (512 * 512 + 1)) q := by
  refine ⟨fun visits => ?_, .directory low root missing far⟩
  cases visits with
  | here _ reached => rw [reached.2.1] at missing; cases missing
  | page _ reached => rw [reached.2.1] at missing; cases missing
  | table _ _ directory => rw [directory] at missing; cases missing
  | directory _ _ _ _ next => exact next

theorem Duplicated.scanned {entry : Pte} {middle : Forking} (low : vpn utext ≤ pn)
    (found : (r.world.space parent).uvpt pn = some entry)
    (first : Duplicated answers child parent pn entry r middle)
    (rest : Scanned answers child parent (pn - 1) middle r') :
    Scanned answers child parent pn r r' := by
  have reached := (r.world.space parent).tabled pn entry found
  have positive : vpn utext = 2048 := rfl
  have visits : ∀ q, Visits (r.world.space parent).toTables pn q ↔
      q = pn ∨ Visits (middle.world.space parent).toTables (pn - 1) q := by
    intro q
    rw [Visits.page_iff low reached, first.tables]
  -- The pages below have still the entries that they had.
  have below : ∀ q, Visits (middle.world.space parent).toTables (pn - 1) q → q ≠ pn := by
    intro q lower
    have le := lower.le
    omega
  refine ⟨rest.mem.trans first.mem, rest.next.trans first.next, rest.tables.trans first.tables,
    fun q => ?_, fun q passed => ?_, fun q other visited there answered => ?_,
    fun e q given own => (rest.others e q given own).trans (first.others e q given own),
    fun q other visited there answered => ?_, fun q passed => ?_, fun call => ?_⟩
  · rw [rest.frames]
    by_cases here : q = pn
    · subst here
      rw [first.frame, found]
      rfl
    · rw [first.own q here]
  · have here : q ≠ pn := by
      rintro rfl
      rw [passed ((visits q).2 (.inl rfl))] at found
      cases found
    rw [rest.own q fun lower => (first.own q here).trans (passed ((visits q).2 (.inr lower)))]
    exact first.own q here
  · obtain rfl | lower := (visits q).1 visited
    · obtain rfl := Option.some.inj (found.symm.trans there)
      rw [rest.own q fun lower => absurd rfl (below q lower)]
      exact first.marked answered
    · exact rest.marked q other lower ((first.own q (below q lower)).trans there) answered
  · obtain rfl | lower := (visits q).1 visited
    · obtain rfl := Option.some.inj (found.symm.trans there)
      rw [rest.kept q fun lower => absurd rfl (below q lower)]
      exact first.copied answered
    · exact rest.copied q other lower ((first.own q (below q lower)).trans there) answered
  · have here : q ≠ pn := by
      rintro rfl
      rw [passed ((visits q).2 (.inl rfl))] at found
      cases found
    rw [rest.kept q fun lower => (first.own q here).trans (passed ((visits q).2 (.inr lower)))]
    exact first.kept q (.inl here)
  · rw [rest.log, first.log, List.mem_append]
    constructor
    · rintro ((old | new) | ⟨q, other, lower, there, asked⟩)
      · exact .inl old
      · exact .inr ⟨pn, entry, (visits pn).2 (.inl rfl), found, new⟩
      · exact .inr ⟨q, other, (visits q).2 (.inr lower),
          (first.own q (below q lower)).symm.trans there, asked⟩
    · rintro (old | ⟨q, other, visited, there, asked⟩)
      · exact .inl (.inl old)
      · obtain rfl | lower := (visits q).1 visited
        · obtain rfl := Option.some.inj (found.symm.trans there)
          exact .inl (.inr asked)
        · exact .inr ⟨q, other, lower, (first.own q (below q lower)).trans there, asked⟩

theorem forkScan_spec (differ : child ≠ parent)
    (ran : forkScan answers child parent r pn = some r') :
    Scanned answers child parent pn r r' := by
  induction pn using Nat.strongRecOn generalizing r with
  | ind pn ih =>
    have positive : vpn utext = 2048 := rfl
    unfold forkScan at ran
    split at ran
    · rename_i low
      cases ran
      refine .refl fun q visits => ?_
      have le := visits.le
      have low := visits.low
      omega
    rename_i low
    have low := Nat.le_of_not_lt low
    split at ran
    · cases ran
    rename_i root
    have root := Bool.eq_true_of_not_eq_false root
    split at ran
    · rename_i missing
      split at ran
      · cases ran
      · rename_i far
        exact .jump (fun q => Visits.directory_iff low root missing (by omega))
          (ih _ (by omega) ran)
    rename_i directory
    have directory := Bool.eq_true_of_not_eq_false directory
    split at ran
    · rename_i missing
      exact .jump (fun q => Visits.table_iff low root directory missing) (ih _ (by omega) ran)
    rename_i table
    have table := Bool.eq_true_of_not_eq_false table
    split at ran
    · rename_i entry found
      obtain ⟨middle, first, rest⟩ := Option.bind_eq_some_iff.mp ran
      exact (duppage_spec differ found first).scanned low found (ih _ (by omega) rest)
    · rename_i absent
      have rest := ih _ (by omega) ran
      refine ⟨rest.mem, rest.next, rest.tables, rest.frames, fun q passed => ?_,
        fun q other visited there answered => ?_, rest.others,
        fun q other visited there answered => ?_, fun q passed => ?_, fun call => ?_⟩
      all_goals
        have visits := fun q => @Visits.page_iff pn (r.world.space parent).toTables q low
          ⟨root, directory, table⟩
      · exact rest.own q fun lower => passed ((visits q).2 (.inr lower))
      · obtain rfl | lower := (visits q).1 visited
        · rw [absent] at there
          cases there
        · exact rest.marked q other lower there answered
      · obtain rfl | lower := (visits q).1 visited
        · rw [absent] at there
          cases there
        · exact rest.copied q other lower there answered
      · exact rest.kept q fun lower => passed ((visits q).2 (.inr lower))
      · rw [rest.log]
        refine or_congr Iff.rfl ⟨?_, ?_⟩
        · rintro ⟨q, other, lower, there, asked⟩
          exact ⟨q, other, (visits q).2 (.inr lower), there, asked⟩
        · rintro ⟨q, other, visited, there, asked⟩
          obtain rfl | lower := (visits q).1 visited
          · rw [absent] at there
            cases there
          · exact ⟨q, other, lower, there, asked⟩

theorem Forking.ask_answered {call : ForkCall} {effect : World → World}
    (answered : 0 ≤ answers call) :
    r.ask answers call effect = (answers call, ⟨effect r.world, r.log ++ [call]⟩) := by
  unfold Forking.ask
  rw [if_neg (by omega)]

theorem Forking.ask_log {call : ForkCall} {effect : World → World} :
    (r.ask answers call effect).2.log = r.log ++ [call] := rfl

/-- Where the directories are present and no call returns a positive number, the
scan comes to its end. -/
theorem forkScan_some (differ : child ≠ parent)
    (answered : ∀ src pn dst q perm, answers (.pageMap src pn dst q perm) ≤ 0)
    (root : ∀ i, (r.world.space parent).uvpml4e i = true)
    (directories : ∀ i, (r.world.space parent).uvpde i = true) :
    ∃ r', forkScan answers child parent r pn = some r' := by
  induction pn using Nat.strongRecOn generalizing r with
  | ind pn ih =>
    have positive : vpn utext = 2048 := rfl
    unfold forkScan
    split
    · exact ⟨r, rfl⟩
    rename_i low
    simp only [root, directories, Bool.true_eq_false, if_false]
    split
    · exact ih _ (by omega) root directories
    split
    · rename_i entry found
      have passes : ∀ {r : Forking} {src pn dst q perm},
          panicIfPositive (r.pageMap answers src pn dst q perm) =
            some (r.pageMap answers src pn dst q perm).2 := by
        intro r src pn dst q perm
        exact if_neg (Int.not_lt.mpr (answered src pn dst q perm))
      have duplicates : ∃ middle, duppage answers r child parent pn entry = some middle := by
        rw [duppage_eq, passes, Option.bind_some]
        split
        · exact ⟨_, passes⟩
        · exact ⟨_, rfl⟩
      obtain ⟨middle, duplicated⟩ := duplicates
      have tables := (duppage_spec differ found duplicated).tables
      rw [duplicated, Option.bind_some]
      refine ih _ (by omega) (fun i => ?_) fun i => ?_
      · rw [tables]
        exact root i
      · rw [tables]
        exact directories i
    · exact ih _ (by omega) root directories

end Scan

/-- The calls of `set_pgfault_handler`. -/
def handlerCalls (first : Bool) (parent : Nat) : List ForkCall :=
  if first then [.pageAlloc parent uxstackPage permPrivate, .setUpcall parent] else []

def finishCalls (child parent : Nat) : List ForkCall :=
  [.pageAlloc child uxstackPage permPrivate, .pageAlloc child ustackPage permPrivate,
    .pageMap child ustackPage parent (vpn pftemp) permPrivate, .pageUnmap parent (vpn pftemp),
    .setUpcall child, .setStatus child]

/-- What the end of `fork` does when the kernel carries out all its calls. -/
structure Finished (child parent : Nat) (r r' : Forking) (source : Pte) : Prop where
  mem : r'.world.mem =
    Function.update r.world.mem (r.world.next + 1) (r.world.mem source.ppn)
  given : ∀ q, (r'.world.space child).uvpt q =
    if q = ustackPage then some ⟨r.world.next + 1, permPrivate ||| pteP⟩
    else if q = uxstackPage then some ⟨r.world.next, permPrivate ||| pteP⟩
    else (r.world.space child).uvpt q
  others : ∀ e q, e ≠ child → (r'.world.space e).uvpt q =
    if e = parent ∧ q = vpn pftemp then none else (r.world.space e).uvpt q
  own : ∀ e q entry, (r'.world.space e).uvpt q = some entry → entry.ppn = r.world.next →
    e = child ∧ q = uxstackPage

section Finish

variable {answers : ForkCall → Int} {r r' : Forking} {child parent : Nat}

theorem forkFinish_log (ran : forkFinish answers child parent r = some r') :
    r'.log = r.log ++ finishCalls child parent := by
  unfold forkFinish at ran
  obtain ⟨moved, move, rfl⟩ := Option.map_eq_some_iff.mp ran
  have kept : moved.log = r.log ++ [.pageAlloc child uxstackPage permPrivate,
      .pageAlloc child ustackPage permPrivate,
      .pageMap child ustackPage parent (vpn pftemp) permPrivate] := by
    unfold Forking.memmove at move
    split at move
    · split at move
      · obtain rfl := Option.some.inj move
        simp [Forking.pageMap, Forking.pageAlloc, Forking.ask_log, uxstackPage, ustackPage]
      · cases move
    · cases move
  simp only [Forking.ask_log, kept]
  simp [finishCalls]

/-- When the kernel carries out all calls, the end of `fork` is the copy of the
stack through the temporary page. -/
theorem forkFinish_moves (answered : ∀ call ∈ finishCalls child parent, 0 ≤ answers call) :
    ∃ w log log', forkFinish answers child parent r =
        (Forking.memmove ⟨w, log⟩ parent (vpn pftemp) ustackPage).map
          (fun r => ⟨r.world.remove parent (vpn pftemp), r.log ++ log'⟩) ∧
      w.mem = r.world.mem ∧
      ∀ e q, (w.space e).uvpt q =
        if e = parent ∧ q = vpn pftemp then some ⟨r.world.next + 1, permPrivate ||| pteP⟩
        else if e = child ∧ q = ustackPage then some ⟨r.world.next + 1, permPrivate ||| pteP⟩
        else if e = child ∧ q = uxstackPage then some ⟨r.world.next, permPrivate ||| pteP⟩
        else (r.world.space e).uvpt q := by
  simp only [finishCalls, List.mem_cons, List.not_mem_nil, or_false, forall_eq_or_imp,
    forall_eq] at answered
  obtain ⟨xstack, stack, temporary, unmap, upcall, status⟩ := answered
  generalize first : r.world.pageAlloc child uxstackPage permPrivate = w₁
  generalize second : w₁.pageAlloc child ustackPage permPrivate = w₂
  have next₁ : w₁.next = r.world.next + 1 := first ▸ rfl
  have uvpt₁ : ∀ e q, (w₁.space e).uvpt q =
      if e = child ∧ q = uxstackPage then some ⟨r.world.next, permPrivate ||| pteP⟩
      else (r.world.space e).uvpt q := fun e q => first ▸ World.pageAlloc_uvpt
  have uvpt₂ : ∀ e q, (w₂.space e).uvpt q =
      if e = child ∧ q = ustackPage then some ⟨r.world.next + 1, permPrivate ||| pteP⟩
      else (w₁.space e).uvpt q := fun e q => second ▸ next₁ ▸ World.pageAlloc_uvpt
  have found : (w₂.space child).uvpt ustackPage =
      some ⟨r.world.next + 1, permPrivate ||| pteP⟩ := by
    rw [uvpt₂, if_pos ⟨rfl, rfl⟩]
  refine ⟨w₂.pageMap child ustackPage parent (vpn pftemp) permPrivate,
    r.log ++ [.pageAlloc child uxstackPage permPrivate] ++
      [.pageAlloc child ustackPage permPrivate] ++
      [.pageMap child ustackPage parent (vpn pftemp) permPrivate],
    [.pageUnmap parent (vpn pftemp), .setUpcall child, .setStatus child], ?_, ?_, fun e q => ?_⟩
  · subst second first
    unfold forkFinish Forking.pageMap Forking.pageAlloc
    simp only [Forking.ask_answered unmap, Forking.ask_answered upcall,
      Forking.ask_answered status]
    rw [Forking.ask_answered xstack, Forking.ask_answered stack, Forking.ask_answered temporary]
    simp only [id, List.append_assoc, List.cons_append, List.nil_append]
  · rw [World.pageMap_some found, World.insert_mem, ← second, ← first]
    rfl
  · rw [World.pageMap_some found, World.insert_uvpt, uvpt₂, uvpt₁]

theorem forkFinish_some {source : Pte} (differ : child ≠ parent)
    (answered : ∀ call ∈ finishCalls child parent, 0 ≤ answers call)
    (stack : (r.world.space parent).uvpt ustackPage = some source) :
    ∃ r', forkFinish answers child parent r = some r' := by
  obtain ⟨w, log, log', moves, -, uvpt⟩ := @forkFinish_moves answers r child parent answered
  have apart : ustackPage ≠ vpn pftemp := by decide
  have there : (w.space parent).uvpt (vpn pftemp) =
      some ⟨r.world.next + 1, permPrivate ||| pteP⟩ := by
    rw [uvpt, if_pos ⟨rfl, rfl⟩]
  have here : (w.space parent).uvpt ustackPage = some source := by
    rw [uvpt]
    simp [apart, differ.symm, stack]
  have writable : (⟨r.world.next + 1, permPrivate ||| pteP⟩ : Pte).writable = true := by
    rw [writable_or]
    decide
  rw [moves]
  unfold Forking.memmove
  simp only [there, here, writable, if_true, Option.map_some]
  exact ⟨_, rfl⟩

theorem forkFinish_spec (differ : child ≠ parent)
    (answered : ∀ call ∈ finishCalls child parent, 0 ≤ answers call)
    (ran : forkFinish answers child parent r = some r') :
    ∃ source, (r.world.space parent).uvpt ustackPage = some source ∧
      Finished child parent r r' source := by
  obtain ⟨w, log, log', moves, mem, uvpt⟩ := @forkFinish_moves answers r child parent answered
  have apart : ustackPage ≠ vpn pftemp := by decide
  rw [moves] at ran
  obtain ⟨moved, move, rfl⟩ := Option.map_eq_some_iff.mp ran
  unfold Forking.memmove at move
  simp only [uvpt, if_true, and_self, differ.symm, false_and, if_false, apart, and_false] at move
  split at move
  · rename_i there source here stackEntry
    cases here
    split at move
    · obtain rfl := Option.some.inj move
      refine ⟨source, stackEntry, ?_, fun q => ?_, fun e q given => ?_,
        fun e q entry there frame => ?_⟩
      · simp only [World.store, World.remove, mem]
      · rw [World.remove_uvpt, if_neg (by simp [differ])]
        change (w.space child).uvpt q = _
        rw [uvpt, if_neg (by simp [differ])]
        simp only [true_and]
      · rw [World.remove_uvpt]
        change (if _ then none else (w.space e).uvpt q) = _
        rw [uvpt]
        split
        · rfl
        · simp [given]
      · rw [World.remove_uvpt] at there
        split at there
        · cases there
        change (w.space e).uvpt q = _ at there
        rw [uvpt] at there
        split at there
        · obtain rfl := Option.some.inj there
          simp at frame
        split at there
        · obtain rfl := Option.some.inj there
          simp at frame
        split at there
        · assumption
        · have bounded := r.world.mapped e q entry there
          omega
    · cases move
  · cases move

end Finish

end Jos
