import Jos.Lib.Usage

/-! When the search of `malloc` for address space comes to an end. -/

set_option autoImplicit false

namespace Jos.Malloc

open Foundation

def candidates (s : Space) (n : Nat) : Nat → Nat → Nat → List Nat
  | 0, _, _ => []
  | left + 1, nwrap, mptr =>
    mptr ::
      if isfree s mptr (n + 4) then []
      else if mptr + pgSize = mend then
        if nwrap + 1 = 2 then [] else candidates s n left (nwrap + 1) mbegin
      else candidates s n left nwrap (mptr + pgSize)

/-- `mptr` is in the last page of the heap and the block does not fit behind it. -/
def AtEnd (e n : Nat) (p : Process) : Prop :=
  mallocSize n < maxMalloc ∧ cursor e p % pgSize ≠ 0 ∧ mend - pgSize < cursor e p ∧
    mend < cursor e p + mallocSize n + 4

/-- A call to `malloc` comes back. Its search, if it makes one, looks at pages of the
heap only, at each of them twice at most, and finds no block when none of them is free. -/
structure Terminates (answers : ForkCall → Int) (e n : Nat) (p : Process) : Prop where
  returns : (malloc answers e n p).isSome = true
  heap : ∀ start w, mallocSize n < maxMalloc → ¬Joins e n p →
    searchStart answers e p = some (start, w) →
    ∀ va ∈ candidates (w.space e) (mallocSize n) (2 * ((mend - mbegin) / pgSize)) 0 start,
      va % pgSize = 0 ∧ mbegin ≤ va ∧ va < mend
  twice : ∀ start w, mallocSize n < maxMalloc → ¬Joins e n p →
    searchStart answers e p = some (start, w) → ∀ va,
      (candidates (w.space e) (mallocSize n) (2 * ((mend - mbegin) / pgSize)) 0 start).count va ≤ 2
  none : ∀ start w, mallocSize n < maxMalloc → ¬Joins e n p →
    searchStart answers e p = some (start, w) →
    (∀ va, va % pgSize = 0 → mbegin ≤ va → isfree (w.space e) va (mallocSize n + 4) = false) →
    ∃ p', malloc answers e n p = some (0, p')

/-- The addresses of `k` pages from `start` on. -/
def pagesFrom : Nat → Nat → List Nat
  | _, 0 => []
  | start, k + 1 => start :: pagesFrom (start + pgSize) k

section

variable {s : Space} {n k left nwrap start va : Nat}

theorem mem_pagesFrom (member : va ∈ pagesFrom start k) :
    start ≤ va ∧ va < start + k * pgSize ∧ va % pgSize = start % pgSize := by
  induction k generalizing start with
  | zero => cases member
  | succ k ih =>
    rcases List.mem_cons.mp member with rfl | member
    · refine ⟨le_rfl, ?_, rfl⟩
      unfold pgSize
      omega
    · have rest := ih member
      unfold pgSize at *
      omega

theorem pagesFrom_nodup : (pagesFrom start k).Nodup := by
  induction k generalizing start with
  | zero => exact List.nodup_nil
  | succ k ih =>
    refine List.nodup_cons.mpr ⟨fun member => ?_, ih⟩
    have above := (mem_pagesFrom member).1
    unfold pgSize at above
    omega

theorem candidates_succ : candidates s n (left + 1) nwrap start = start ::
    if isfree s start (n + 4) then []
    else if start + pgSize = mend then
      if nwrap + 1 = 2 then [] else candidates s n left (nwrap + 1) mbegin
    else candidates s n left nwrap (start + pgSize) := rfl

theorem candidates_sublist (stop : start + k * pgSize = mend) (some : 0 < k) :
    (candidates s n left nwrap start).Sublist (pagesFrom start k ++
      if nwrap + 1 = 2 then [] else candidates s n (left - k) (nwrap + 1) mbegin) := by
  induction left generalizing start k with
  | zero => exact List.nil_sublist _
  | succ left ih =>
    obtain ⟨k, rfl⟩ := Nat.exists_eq_add_one.mpr some
    rw [pagesFrom, List.cons_append, candidates_succ, Nat.add_sub_add_right]
    refine List.Sublist.cons_cons _ ?_
    split
    · exact List.nil_sublist _
    rw [Nat.succ_mul] at stop
    rcases Nat.eq_zero_or_pos k with rfl | more
    · have last : start + pgSize = mend := by omega
      rw [if_pos last]
      exact List.Sublist.refl _
    · have next : ¬start + pgSize = mend := by
        have : 0 < k * pgSize := Nat.mul_pos more (by decide)
        omega
      rw [if_neg next]
      exact ih (by omega) more

theorem seek_ends (stop : start + k * pgSize = mend) (some : 0 < k) (passes : nwrap < 2)
    (enough : k + (if nwrap + 1 = 2 then 0 else (mend - mbegin) / pgSize) ≤ left) :
    ∃ found, seek s n left nwrap start = Option.some found := by
  induction left generalizing start k nwrap with
  | zero => omega
  | succ left ih =>
    unfold seek
    split
    · exact ⟨_, rfl⟩
    obtain ⟨k, rfl⟩ := Nat.exists_eq_add_one.mpr some
    rw [Nat.succ_mul] at stop
    split
    · split
      · exact ⟨_, rfl⟩
      · rename_i again
        rw [if_neg again] at enough
        have whole : mbegin + (mend - mbegin) / pgSize * pgSize = mend := by decide
        refine ih whole (by decide) (by omega) ?_
        have last : nwrap + 1 + 1 = 2 := by omega
        rw [if_pos last]
        omega
    · rename_i next
      refine ih (k := k) (by omega) ?_ passes (by omega)
      refine Nat.pos_of_ne_zero fun zero => next ?_
      rw [zero] at stop
      omega

theorem seek_beyond (beyond : mend ≤ start) : seek s n left nwrap start = none := by
  induction left generalizing start with
  | zero => rfl
  | succ left ih =>
    have taken : isfree s start (n + 4) = false := by
      refine Bool.eq_false_iff.mpr fun free => ?_
      exact absurd (isfree_below (Nat.succ_pos _) free) (Nat.not_lt.mpr beyond)
    have next : ¬start + pgSize = mend := by
      unfold pgSize
      omega
    unfold seek
    rw [taken, if_neg Bool.false_ne_true, if_neg next]
    exact ih (Nat.le_add_right_of_le beyond)

end

section

variable {answers : ForkCall → Int} {e n start : Nat} {stale : Nat → Nat} {c begin' : Client}
  {events : List Act} {w : World} {limit : Limit}

section

variable (sound : Sound limit e stale c)

include sound

theorem atEnd_iff (small : mallocSize n < maxMalloc) (apart : ¬Joins e n c.process) :
    AtEnd e n c.process ↔ mend - pgSize < cursor e c.process := by
  obtain ⟨low, high⟩ := sound.cursor
  have level := sound.at_cursor.layout.level
  unfold AtEnd
  unfold Joins at apart
  have size : mallocSize n % 4 = 0 := Nat.mul_mod_left ..
  generalize mallocSize n = size at *
  generalize cursor e c.process = m at *
  have top : mend = 268435456 := rfl
  have bottom : mbegin = 134217728 := rfl
  unfold pgSize at *
  constructor
  · exact fun both => both.2.2.1
  · intro late
    refine ⟨small, by omega, late, ?_⟩
    by_contra fits
    exact apart ⟨small, by omega, by omega⟩

theorem not_joins_of_atEnd (atEnd : AtEnd e n c.process) : ¬Joins e n c.process := by
  have high := sound.cursor.2
  rintro ⟨-, -, fits⟩
  obtain ⟨-, -, late, long⟩ := atEnd
  have top : mend = 268435456 := rfl
  generalize mallocSize n = size at *
  generalize cursor e c.process = m at *
  unfold pgSize at *
  omega

theorem malloc_atEnd (unmaps : Unmaps answers e)
    (atEnd : AtEnd e n c.process) : malloc answers e n c.process = none := by
  obtain ⟨low, high⟩ := sound.cursor
  have apart := not_joins_of_atEnd sound atEnd
  obtain ⟨start, w, begun, -, -, -, -, -, -, last⟩ := sound.at_cursor.search unmaps low high
  rw [malloc_searches atEnd.1 apart, begun, Option.bind_some]
  unfold mallocFresh
  dsimp only
  rw [seek_beyond (last.mpr atEnd.2.2.1).ge]
  rfl

theorem Sound.searches (unmaps : Unmaps answers e)
    (small : mallocSize n < maxMalloc) (apart : ¬Joins e n c.process)
    (before : ¬AtEnd e n c.process) (begun : searchStart answers e c.process = some (start, w)) :
    Heaped limit (w.space e).uvpt w.mem stale start c.live ∧ start % pgSize = 0 ∧ mbegin ≤ start ∧
      ∃ k, 0 < k ∧ start + k * pgSize = mend := by
  obtain ⟨low, high⟩ := sound.cursor
  obtain ⟨start', w', begun', heaped, -, -, level, low', high', last⟩ :=
    sound.at_cursor.search unmaps low high
  cases begun.symm.trans begun'
  refine ⟨heaped, level, low', (mend - start) / pgSize, ?_, ?_⟩
  all_goals
    have differ := mt last.mp (mt (atEnd_iff sound small apart).mpr before)
    have top : mend = 268435456 := rfl
    unfold pgSize at *
    omega

theorem Sound.terminates (unmaps : Unmaps answers e)
    (before : ¬AtEnd e n c.process) : Terminates answers e n c.process := by
  have whole : mbegin + (mend - mbegin) / pgSize * pgSize = mend := by decide
  have fuel : 2 * ((mend - mbegin) / pgSize) = (mend - mbegin) / pgSize + (mend - mbegin) / pgSize :=
    Nat.two_mul _
  have listed : ∀ start w, mallocSize n < maxMalloc → ¬Joins e n c.process →
      searchStart answers e c.process = some (start, w) → ∃ k, start + k * pgSize = mend ∧
        mbegin ≤ start ∧ start % pgSize = 0 ∧
        (candidates (w.space e) (mallocSize n) (2 * ((mend - mbegin) / pgSize)) 0 start).Sublist
          (pagesFrom start k ++ pagesFrom mbegin ((mend - mbegin) / pgSize)) := by
    intro start w small apart begun
    obtain ⟨-, level, low, k, some, stop⟩ := sound.searches unmaps small apart before begun
    refine ⟨k, stop, low, level, (candidates_sublist stop some).trans ?_⟩
    rw [if_neg (by decide)]
    refine List.Sublist.append (List.Sublist.refl _) ?_
    have second := @candidates_sublist (w.space e) (mallocSize n) ((mend - mbegin) / pgSize)
      (2 * ((mend - mbegin) / pgSize) - k) 1 mbegin whole (by decide)
    rwa [if_pos (by decide), List.append_nil] at second
  have came : ∀ start w, mallocSize n < maxMalloc → ¬Joins e n c.process →
      searchStart answers e c.process = some (start, w) →
      ∃ v p', Jos.malloc answers e n c.process = some (v, p') ∧
        ((∀ va, va % pgSize = 0 → mbegin ≤ va →
          isfree (w.space e) va (mallocSize n + 4) = false) → v = 0) := by
    intro start w small apart begun
    obtain ⟨heaped, level, low, k, some, stop⟩ := sound.searches unmaps small apart before begun
    have short : k ≤ (mend - mbegin) / pgSize := by
      have top : mend = 268435456 := rfl
      have bottom : mbegin = 134217728 := rfl
      unfold pgSize at *
      omega
    have enough : k + (if 0 + 1 = 2 then 0 else (mend - mbegin) / pgSize) ≤
        2 * ((mend - mbegin) / pgSize) := by
      rw [if_neg (by decide), fuel]
      exact Nat.add_le_add_right short _
    obtain ⟨sought, seeking⟩ := @seek_ends (w.space e) (mallocSize n) k _ 0 start stop some (by decide)
      enough
    rw [malloc_searches small apart, begun, Option.bind_some]
    unfold Jos.mallocFresh
    dsimp only
    rw [seeking, Option.bind_some]
    cases sought with
    | none => exact ⟨0, _, rfl, fun _ => rfl⟩
    | some found =>
      obtain ⟨level', low', free⟩ := seek_spec level low seeking
      obtain ⟨v, p', stale', ran, -, -⟩ :=
        @Heaped.mallocAt answers e n start found c.process w stale c.live limit heaped level unmaps small
          level' low' free
      refine ⟨v, p', ran, fun full => ?_⟩
      rw [full found level' low'] at free
      cases free
  refine ⟨?_, ?_, ?_, ?_⟩
  · obtain ⟨low, high⟩ := sound.cursor
    rcases Nat.lt_or_ge (mallocSize n) maxMalloc with small | huge
    · by_cases joins : Joins e n c.process
      · obtain ⟨p', ran⟩ := @Sound.joins_returns answers e n stale c limit sound joins
        rw [ran]
        rfl
      · obtain ⟨start, w, begun, -⟩ := sound.at_cursor.search unmaps low high
        obtain ⟨v, p', ran, -⟩ := came start w small joins begun
        rw [ran]
        rfl
    · rw [malloc_huge huge]
      rfl
  · intro start w small apart begun va member
    obtain ⟨k, stop, low, level, sub⟩ := listed start w small apart begun
    rcases List.mem_append.mp (sub.subset member) with first | second
    · obtain ⟨above, below, same⟩ := mem_pagesFrom first
      exact ⟨same.trans level, low.trans above, stop ▸ below⟩
    · obtain ⟨above, below, same⟩ := mem_pagesFrom second
      exact ⟨same, above, whole ▸ below⟩
  · intro start w small apart begun va
    obtain ⟨k, -, -, -, sub⟩ := listed start w small apart begun
    have first := List.nodup_iff_count.mp (@pagesFrom_nodup k start) va
    have second := List.nodup_iff_count.mp
      (@pagesFrom_nodup ((mend - mbegin) / pgSize) mbegin) va
    refine (sub.count_le va).trans ?_
    rw [List.count_append]
    exact Nat.add_le_add first second
  · intro start w small apart begun full
    obtain ⟨v, p', ran, zero⟩ := came start w small apart begun
    exact ⟨p', zero full ▸ ran⟩

end

/-- A call comes back unless `mptr` is in the last page of the heap and the block does
not fit there. -/
theorem malloc_terminates_iff (starts : Starts e begin')
    (along : Along (Malloc.step e) (fun c act => Uses e c act ∧ Counted full e c act) begin' events c)
    (unmaps : Unmaps answers e) :
    Terminates answers e n c.process ↔ ¬AtEnd e n c.process := by
  obtain ⟨stale, sound⟩ := Sound.of_along starts along fun _ _ admitted => admitted
  refine ⟨fun terminates atEnd => ?_, sound.terminates unmaps⟩
  have returns := terminates.returns
  rw [malloc_atEnd sound unmaps atEnd] at returns
  cases returns

theorem malloc_terminates_blank : Terminates granted 0 4 blank.process := by
  have apart : ¬AtEnd 0 4 blank.process := fun atEnd => absurd rfl atEnd.2.1
  exact (malloc_terminates_iff blank_starts .nil granted_unmaps).mpr apart

end

/-- After `j` blocks that leave room for their reference only, each in a page of its own. -/
structure Filled (j : Nat) (c : Client) : Prop where
  sound : ∃ stale, Sound full 0 stale c
  mptr : c.process.mptr 0 = mbegin + j * pgSize - 4
  free : ∀ q, vpn mbegin + j ≤ q → c.pages 0 q = none

theorem Filled.isfree {j : Nat} {w : World} (below : j < 32768)
    (free : ∀ q, vpn mbegin + j ≤ q → (w.space 0).uvpt q = none) :
    isfree (w.space 0) (mbegin + j * pgSize) (mallocSize 4092 + 4) = true := by
  have size : mallocSize 4092 = 4092 := by decide
  refine isfree_iff.mpr fun i small => ?_
  have single : i = 0 := by
    rw [size] at small
    unfold pgSize at small
    omega
  have top : mend = 268435456 := rfl
  have bottom : mbegin = 134217728 := rfl
  rw [single, page_of]
  refine ⟨?_, free _ (Nat.le_refl _)⟩
  unfold pgSize
  omega

theorem Filled.step {j : Nat} {c : Client} (filled : Filled j c) (some : 0 < j) (below : j < 32768) :
    Counted full 0 c (.malloc granted 4092) ∧
      ∃ c', Malloc.step 0 c (.malloc granted 4092) = Option.some c' ∧ Filled (j + 1) c' := by
  obtain ⟨stale, sound⟩ := filled.sound
  have size : mallocSize 4092 = 4092 := by decide
  have top : mend = 268435456 := rfl
  have bottom : mbegin = 134217728 := rfl
  have stands : cursor 0 c.process = mbegin + j * pgSize - 4 := by
    unfold cursor
    rw [filled.mptr, if_neg (by omega)]
  have open' : cursor 0 c.process % pgSize ≠ 0 := by
    rw [stands]
    unfold pgSize
    omega
  have apart : ¬Joins 0 4092 c.process := by
    rintro ⟨-, -, fits⟩
    rw [stands, size] at fits
    unfold pgSize at fits
    omega
  obtain ⟨low, high⟩ := sound.cursor
  obtain ⟨start, w, begun, -, -, fewer, -, -, -, -⟩ := sound.at_cursor.search granted_unmaps low high
  have start' : start = mbegin + j * pgSize := by
    unfold searchStart at begun
    rw [if_neg open', Option.map_eq_some_iff] at begun
    obtain ⟨w', -, same⟩ := begun
    rw [← (Prod.mk.inj same).1, stands]
    unfold roundDown pgSize
    omega
  rw [start'] at begun
  have free := Filled.isfree below fun q above => fewer q (filled.free q above)
  have small : mallocSize 4092 < maxMalloc := by
    rw [size]
    decide
  obtain ⟨p', stale', ran, mptr, sound', taken⟩ :=
    sound.malloc_here granted_unmaps granted_grants small apart begun free
  have positive : ¬mbegin + j * pgSize = 0 := by omega
  refine ⟨fun joins => absurd joins apart, _, Option.map_eq_some_iff.mpr ⟨_, ran, rfl⟩,
    ⟨stale', ?_⟩, ?_, fun q above => ?_⟩
  · dsimp only
    rw [if_neg positive]
    exact sound'
  · rw [mptr, size]
    unfold pgSize
    omega
  · have last : (Block.mk (mbegin + j * pgSize) 4092).last = vpn mbegin + j := by
      rw [taken.last, page_of, size]
      rfl
    have beyond : ¬(vpn (mbegin + j * pgSize) ≤ q ∧ q ≤ vpn mbegin + j) := fun both => by omega
    change (p'.world.space 0).uvpt q = none
    rw [taken.uvpt, last, if_neg beyond]
    exact fewer q (filled.free q (by omega))

theorem filled_run (j : Nat) (below : j < 32768) : ∃ c,
    Along (Malloc.step 0) (fun c act => Uses 0 c act ∧ Counted full 0 c act) blank
      (List.replicate (j + 1) (.malloc granted 4092)) c ∧ Filled (j + 1) c := by
  induction j with
  | zero =>
    obtain ⟨c, stale, stepped, sound, -, mptr, free⟩ := blank_malloc full (n := 4092) (by decide)
    have along : Along (Malloc.step 0) (fun c act => Uses 0 c act ∧ Counted full 0 c act) blank
        [.malloc granted 4092] c := Along.nil.snoc ⟨granted_unmaps, blank_counted⟩ stepped
    exact ⟨c, along, ⟨stale, sound⟩, mptr, free⟩
  | succ j ih =>
    obtain ⟨c, along, filled⟩ := ih (by omega)
    obtain ⟨counted, c', stepped, filled'⟩ := filled.step (Nat.succ_pos j) below
    refine ⟨c', ?_, filled'⟩
    rw [List.replicate_succ']
    exact along.snoc ⟨granted_unmaps, counted⟩ stepped

/-- Behind the last page of the heap the search begins at its end, and goes on. -/
theorem malloc_diverges : ∃ c, Starts 0 blank ∧
    Along (Malloc.step 0) (fun c act => Uses 0 c act ∧ Counted full 0 c act) blank
      (List.replicate 32768 (.malloc granted 4092)) c ∧
    ¬Terminates granted 0 4 c.process := by
  obtain ⟨c, along, filled⟩ := filled_run 32767 (by decide)
  obtain ⟨stale, sound⟩ := filled.sound
  have stands : cursor 0 c.process = mend - 4 := by
    unfold cursor
    rw [filled.mptr]
    decide
  have atEnd : AtEnd 0 4 c.process := by
    unfold AtEnd
    rw [stands]
    decide
  refine ⟨c, blank_starts, along, fun terminates => ?_⟩
  have returns := terminates.returns
  rw [malloc_atEnd sound granted_unmaps atEnd] at returns
  cases returns

end Jos.Malloc
