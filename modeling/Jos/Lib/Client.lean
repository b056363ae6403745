import Jos.Lib.Blocks

/-! A program that calls `malloc` and `free` and writes into its blocks. -/

set_option autoImplicit false

namespace Jos.Malloc

open Foundation Function

/-- Where `mptr` stands when `malloc` begins. -/
def cursor (e : Nat) (p : Process) : Nat := if p.mptr e = 0 then mbegin else p.mptr e

/-- The block goes into the page of `mptr`. -/
def Joins (e n : Nat) (p : Process) : Prop :=
  mallocSize n < maxMalloc ∧ cursor e p % pgSize ≠ 0 ∧
    cursor e p / pgSize = (cursor e p + mallocSize n - 1 + 4) / pgSize

/-- Where `malloc` begins to search for address space, in a world where `mptr` has
no reference to the page that it leaves. -/
def searchStart (answers : ForkCall → Int) (e : Nat) (p : Process) : Option (Nat × World) :=
  if cursor e p % pgSize = 0 then some (cursor e p, p.world)
  else (free answers e (cursor e p) p.world).map fun w => (roundDown (cursor e p + pgSize), w)

/-- There is room for the block in new pages, once `mptr` has left its page. -/
def NewPages (answers : ForkCall → Int) (e n : Nat) (p : Process) : Prop :=
  mallocSize n < maxMalloc ∧ ¬Joins e n p ∧ ∃ start w, searchStart answers e p = some (start, w) ∧
    ∃ va, va % pgSize = 0 ∧ mbegin ≤ va ∧ isfree (w.space e) va (mallocSize n + 4) = true

theorem setMptr_world {p : Process} {w : World} {e m : Nat} : (p.setMptr w e m).world = w := rfl

theorem setMptr_mptr {p : Process} {w : World} {e m : Nat} : (p.setMptr w e m).mptr e = m :=
  update_self ..

section Cases

variable {answers : ForkCall → Int} {e n : Nat} {p : Process}

theorem malloc_huge (huge : maxMalloc ≤ mallocSize n) :
    malloc answers e n p = some (0, p.setMptr p.world e (cursor e p)) := by
  unfold malloc
  dsimp only
  rw [if_pos huge]
  rfl

theorem malloc_joins (joins : Joins e n p) :
    malloc answers e n p = (p.world.readWord e (roundUp (cursor e p) - 4)).bind fun count =>
      (p.world.writeWord answers e (roundUp (cursor e p) - 4) (count + 1)).map fun w =>
        (cursor e p, p.setMptr w e (cursor e p + mallocSize n)) := by
  obtain ⟨small, open', fits⟩ := joins
  unfold malloc
  generalize mallocSize n = size at small fits ⊢
  unfold cursor at *
  generalize (if p.mptr e = 0 then mbegin else p.mptr e) = mptr at open' fits ⊢
  dsimp only
  rw [if_neg (Nat.not_le.mpr small), if_neg open', if_pos fits]

theorem malloc_searches (small : mallocSize n < maxMalloc) (apart : ¬Joins e n p) :
    malloc answers e n p = (searchStart answers e p).bind fun (start, w) =>
      mallocFresh answers e (mallocSize n) start p w := by
  unfold searchStart malloc
  unfold Joins at apart
  generalize mallocSize n = size at small apart ⊢
  unfold cursor at *
  generalize (if p.mptr e = 0 then mbegin else p.mptr e) = mptr at apart ⊢
  dsimp only
  rw [if_neg (Nat.not_le.mpr small)]
  by_cases aligned : mptr % pgSize = 0
  · rw [if_pos aligned, if_pos aligned, Option.bind_some]
  · rw [if_neg aligned, if_neg aligned, if_neg fun fits => apart ⟨small, aligned, fits⟩]
    cases free answers e mptr p.world with
    | none => rw [Option.map_none, Option.bind_none, Option.bind_none]
    | some w => rw [Option.map_some, Option.bind_some, Option.bind_some]

end Cases

structure Client where
  process : Process
  live : List Block

inductive Act where
  | malloc (answers : ForkCall → Int) (n : Nat)
  | free (answers : ForkCall → Int) (b : Block)
  | write (va : Nat) (byte : BitVec 8)

def Client.pages (c : Client) (e : Nat) : Nat → Option Pte := (c.process.world.space e).uvpt

def Client.mem (c : Client) : Nat → Page := c.process.world.mem

def step (e : Nat) (c : Client) : Act → Option Client
  | .malloc answers n => (malloc answers e n c.process).map fun (v, p) =>
    ⟨p, if v = 0 then c.live else ⟨v, n⟩ :: c.live⟩
  | .free answers b => (free answers e b.base c.process.world).map fun w =>
    ⟨⟨w, c.process.mptr⟩, c.live.erase b⟩
  | .write va byte => (c.process.world.tryWrite e va byte).map fun w =>
    ⟨⟨w, c.process.mptr⟩, c.live⟩

def Uses (e : Nat) (c : Client) : Act → Prop
  | .malloc answers _ => Unmaps answers e
  | .free answers b => b ∈ c.live ∧ Unmaps answers e
  | .write va _ => ∃ b ∈ c.live, b.Holds va

/-- The page of `mptr` has room for one more reference. -/
def Counted (limit : Limit) (e : Nat) (c : Client) : Act → Prop
  | .malloc _ n => Joins e n c.process →
      ending c.live (vpn (cursor e c.process)) + 2 ≤ limit.val
  | _ => True

structure Starts (e : Nat) (c : Client) : Prop where
  mptr : c.process.mptr e = 0
  live : c.live = []
  unmapped : ∀ pn, InHeap pn → c.pages e pn = none

structure Sound (limit : Limit) (e : Nat) (stale : Nat → Nat) (c : Client) : Prop where
  heaped : Heaped limit (c.pages e) c.mem stale (c.process.mptr e) c.live
  seat : c.process.mptr e = 0 ∨ mbegin ≤ c.process.mptr e ∧ c.process.mptr e < mend

section

variable {answers : ForkCall → Int} {e n m m' v start : Nat} {p p' : Process} {w : World}
  {stale : Nat → Nat} {live : List Block} {c c' : Client} {b : Block}
  {pages : Nat → Option Pte} {mem : Nat → Page} {limit : Limit}

/-- Without a page of its own, it does not matter where `mptr` is. -/
theorem Heaped.realign (heaped : Heaped limit pages mem stale m live) (aligned : m % pgSize = 0)
    (aligned' : m' % pgSize = 0) : Heaped limit pages mem stale m' live := by
  have same : refs stale m' live = refs stale m live := by
    funext pn
    unfold refs
    rw [if_neg fun inside : Inside m' pn => inside.1 aligned',
      if_neg fun inside : Inside m pn => inside.1 aligned]
  refine ⟨heaped.layout.prune (fun _ _ found => found) (.refl live) ?_ (fun _ _ _ _ _ => rfl)
    (absurd aligned' ·) fun b member _ _ _ _ => member, ?_,
    fun pn inside => absurd aligned' inside.1⟩
  · unfold pgSize at aligned'
    omega
  · rw [same]
    exact heaped.counts.word

theorem Starts.sound (starts : Starts e c) : Sound limit e (fun _ => 0) c := by
  have none : ∀ {pn entry}, InHeap pn → c.pages e pn ≠ some entry := by
    intro pn entry heap found
    rw [starts.unmapped pn heap] at found
    cases found
  refine ⟨⟨?_, ?_⟩, .inl starts.mptr⟩
  · rw [starts.mptr, starts.live]
    exact {
      malloced := fun pn entry heap found => absurd found (none heap)
      alone := fun pn q entry other heap _ found => absurd found (none heap)
      level := rfl
      opened := fun open' => absurd rfl open'
      beneath := fun open' => absurd rfl open'
      placed := fun b member => by cases member
      apart := .nil
      owned := fun pn heap runs => by
        obtain ⟨entry, found, -⟩ := runs
        exact absurd found (none heap) }
  · exact {
      word := fun pn entry heap ends => absurd ends.1 (none heap)
      current := fun _ _ => rfl }

theorem Heaped.keeps (heaped : Heaped limit pages mem stale m live) : Keeps pages mem pages mem live := by
  intro b member va holds
  have placed := heaped.layout.placed b member
  obtain ⟨above, below⟩ := holds.page
  obtain ⟨entry, found⟩ := placed.found above below
  exact ⟨entry, found, found, rfl⟩

/-- `mptr` has left its page, if it had one, and the search can begin. -/
theorem Heaped.search (heaped : Heaped limit (p.world.space e).uvpt p.world.mem stale (cursor e p) live)
    (unmaps : Unmaps answers e) (low : mbegin ≤ cursor e p) (high : cursor e p < mend) :
    ∃ start w, searchStart answers e p = some (start, w) ∧
      Heaped limit (w.space e).uvpt w.mem stale start live ∧
      Keeps (p.world.space e).uvpt p.world.mem (w.space e).uvpt w.mem live ∧
      (∀ q, (p.world.space e).uvpt q = none → (w.space e).uvpt q = none) ∧
      start % pgSize = 0 ∧ mbegin ≤ start ∧ start ≤ mend ∧
      (start = mend ↔ mend - pgSize < cursor e p) := by
  unfold searchStart
  by_cases aligned : cursor e p % pgSize = 0
  · rw [if_pos aligned]
    refine ⟨_, _, rfl, heaped, heaped.keeps, fun _ none => none, aligned, low, high.le, ?_⟩
    · have top : mend = 268435456 := rfl
      unfold pgSize at aligned ⊢
      omega
  · rw [if_neg aligned]
    obtain ⟨heap, entry, ends⟩ := heaped.layout.opened aligned
    have writable := (heaped.layout.malloced _ entry heap ends.1).writable
    obtain ⟨w, ran, dropped⟩ := free_drops unmaps low le_rfl heap.2
      (fun q above below => absurd (Nat.lt_of_le_of_lt above below) (lt_irrefl _)) ends writable
    have level : roundDown (cursor e p + pgSize) % pgSize = 0 := by
      unfold roundDown pgSize
      omega
    obtain ⟨heaped', keeps⟩ := heaped.settle aligned level ends dropped
    have top : mend = 268435456 := rfl
    rw [ran]
    refine ⟨_, _, rfl, heaped', keeps, fun q none => ?_, level, ?_, ?_, ?_⟩
    · rw [dropped.uvpt]
      split
      · rfl
      · exact none
    · unfold roundDown pgSize at *
      omega
    · unfold roundDown pgSize at *
      omega
    · unfold roundDown pgSize at *
      omega

def Grants (answers : ForkCall → Int) : Prop := ∀ call, 0 ≤ answers call

theorem mallocPages_grants {base left i : Nat} (grants : Grants answers) :
    (mallocPages answers e base n left i w).1 = true := by
  induction left generalizing i w with
  | zero => rfl
  | succ left ih =>
    rw [mallocPages_succ, if_neg (Int.not_lt.mpr (grants _))]
    exact ih

/-- The pages that `malloc` takes. -/
theorem taken_of_granted {w' : World} (level : start % pgSize = 0) (low : mbegin ≤ start)
    (small : mallocSize n < maxMalloc)
    (free : isfree (w.space e) start (mallocSize n + 4) = true)
    (granted : Granted e start (mallocSize n) 0 (blockPages (mallocSize n)) w w') :
    Taken start n w.next (w.space e).uvpt (w'.space e).uvpt := by
  have pages : blockPages (mallocSize n) = (mallocSize n + 3) / pgSize + 1 := by
    unfold blockPages pgSize
    omega
  have last : (Block.mk start n).last = vpn start + (mallocSize n + 3) / pgSize := by
    unfold Block.last Block.size
    simp only [vpn, pgSize] at *
    omega
  have room : ∀ i, i < blockPages (mallocSize n) →
      start + i * pgSize < mend ∧ (w.space e).uvpt (vpn start + i) = none := isfree_iff.mp free
  refine ⟨level, low, small, ?_, fun q above below => ?_, fun q entry found => ?_,
    fun q => ?_⟩
  · have inside := (room ((mallocSize n + 3) / pgSize) (by omega)).1
    have top : mend = 268435456 := rfl
    rw [last]
    simp only [vpn, pgSize, top] at *
    omega
  · have none := (room (q - vpn start) (by omega)).2
    rw [Nat.add_sub_cancel' above] at none
    exact none
  · exact w.mapped e q entry found
  · rw [granted.uvpt, Nat.add_zero]
    exact if_congr (by omega) rfl rfl

/-- What comes of the search: a block in new pages, or none and a heap as before. -/
inductive Fresh (limit : Limit) (e n : Nat) (stale : Nat → Nat) (live : List Block) (w : World) :
    Nat → Process → (Nat → Nat) → Prop where
  | none {p' : Process} (heaped : Heaped limit (p'.world.space e).uvpt p'.world.mem stale (p'.mptr e) live)
      (keeps : Keeps (w.space e).uvpt w.mem (p'.world.space e).uvpt p'.world.mem live)
      (seat : mbegin ≤ p'.mptr e ∧ p'.mptr e < mend) : Fresh limit e n stale live w 0 p' stale
  | some {v : Nat} {p' : Process} (positive : 0 < v)
      (heaped : Heaped limit (p'.world.space e).uvpt p'.world.mem (update stale
        (Block.mk v n).last (if mallocSize n % pgSize = 0 then 1 else 0)) (p'.mptr e)
        (⟨v, n⟩ :: live))
      (keeps : Keeps (w.space e).uvpt w.mem (p'.world.space e).uvpt p'.world.mem live)
      (seat : mbegin ≤ p'.mptr e ∧ p'.mptr e < mend)
      (room : v % pgSize = 0 ∧ mbegin ≤ v ∧ isfree (w.space e) v (mallocSize n + 4) = true)
      (mptr : p'.mptr e = v + mallocSize n)
      (taken : Taken v n w.next (w.space e).uvpt (p'.world.space e).uvpt) :
      Fresh limit e n stale live w v p' (update stale (Block.mk v n).last
        (if mallocSize n % pgSize = 0 then 1 else 0))

theorem Heaped.mallocAt (heaped : Heaped limit (w.space e).uvpt w.mem stale m live)
    (aligned : m % pgSize = 0) (unmaps : Unmaps answers e) (small : mallocSize n < maxMalloc)
    (level : start % pgSize = 0) (low : mbegin ≤ start)
    (free : isfree (w.space e) start (mallocSize n + 4) = true) :
    ∃ v p' stale', mallocAt answers e (mallocSize n) start p w = some (v, p') ∧
      Fresh limit e n stale live w v p' stale' ∧ (Grants answers → v = start) := by
  have pages : blockPages (mallocSize n) = (mallocSize n + 3) / pgSize + 1 := by
    unfold blockPages pgSize
    omega
  have room : ∀ i, i < blockPages (mallocSize n) →
      start + i * pgSize < mend ∧ (w.space e).uvpt (vpn start + i) = none := isfree_iff.mp free
  unfold Jos.mallocAt
  rcases @mallocPages_spec answers e w start (mallocSize n) (blockPages (mallocSize n)) 0 unmaps with
    ⟨w', ran, granted⟩ | ⟨w', ran, refused⟩
  · have taken := taken_of_granted level low small free granted
    have ends := taken.ends
    have last := taken.last
    have writable := (@malloced_blockPerm (w.next + (mallocSize n + 3) / pgSize) (mallocSize n)
      ((mallocSize n + 3) / pgSize)).writable
    have ref : start + blockPages (mallocSize n) * pgSize - 4 = refAt (Block.mk start n).last := by
      rw [pages, last]
      simp only [refAt, vpn, pgSize] at *
      omega
    have inside := (room ((mallocSize n + 3) / pgSize) (by omega)).1
    rw [ran]
    dsimp only
    rw [if_pos rfl, ref, writeWord_ref ends.1 writable, Option.map_some]
    refine ⟨_, _, _, rfl, .some ?_ ?_ ?_ ?_ ⟨level, low, free⟩
      setMptr_mptr taken, fun _ => rfl⟩
    · have bottom : mbegin = 134217728 := rfl
      omega
    · have after := heaped.take aligned taken
      rw [← granted.mem] at after
      rw [setMptr_world, setMptr_mptr]
      exact after
    · rw [setMptr_world]
      unfold World.store
      dsimp only
      rw [granted.mem]
      exact Keeps.take heaped.layout taken (Nat.le_add_right ..)
    · rw [setMptr_mptr]
      have top : mend = 268435456 := rfl
      unfold pgSize at *
      omega
  · obtain ⟨⟨k, -, short, uvpt⟩, mem⟩ := refused
    have same : (w'.space e).uvpt = (w.space e).uvpt := by
      funext q
      rw [uvpt]
      split
      · rename_i range
        have none := (room (q - vpn start) (by omega)).2
        rw [Nat.add_sub_cancel' range.1] at none
        exact none.symm
      · rfl
    rw [ran]
    dsimp only
    rw [if_neg Bool.false_ne_true]
    have after := heaped.realign aligned level
    refine ⟨_, _, _, rfl, .none ?_ ?_ ?_, fun grants => ?_⟩
    · rw [setMptr_world, setMptr_mptr, same, mem]
      exact after
    · rw [setMptr_world, same, mem]
      exact heaped.keeps
    · rw [setMptr_mptr]
      have inside := (room 0 (by omega)).1
      omega
    · have all := @mallocPages_grants answers e (mallocSize n) w start (blockPages (mallocSize n)) 0
        grants
      rw [ran] at all
      cases all

theorem Heaped.mallocFresh {v : Nat} (heaped : Heaped limit (w.space e).uvpt w.mem stale start live)
    (unmaps : Unmaps answers e) (small : mallocSize n < maxMalloc)
    (level : start % pgSize = 0) (low : mbegin ≤ start)
    (ran : mallocFresh answers e (mallocSize n) start p w = some (v, p')) :
    ∃ stale', Fresh limit e n stale live w v p' stale' := by
  unfold Jos.mallocFresh at ran
  obtain ⟨sought, seeking, ran⟩ := Option.bind_eq_some_iff.mp ran
  cases sought with
  | none =>
    cases ran
    have after := heaped.realign level (show mbegin % pgSize = 0 from rfl)
    refine ⟨stale, .none ?_ heaped.keeps ?_⟩
    · rw [setMptr_world, setMptr_mptr]
      exact after
    · rw [setMptr_mptr]
      exact ⟨le_rfl, by decide⟩
  | some found =>
    obtain ⟨level', low', free⟩ := seek_spec level low seeking
    obtain ⟨v', q, stale', ran', fresh, -⟩ :=
      heaped.mallocAt (p := p) level unmaps small level' low' free
    cases ran.symm.trans ran'
    exact ⟨stale', fresh⟩

section

variable (sound : Sound limit e stale c)

include sound

theorem Sound.cursor : mbegin ≤ cursor e c.process ∧ cursor e c.process < mend := by
  have bottom : mbegin = 134217728 := rfl
  have top : mend = 268435456 := rfl
  have seat := sound.seat
  unfold Malloc.cursor
  split <;> omega

theorem Sound.at_cursor :
    Heaped limit (c.pages e) c.mem stale (Malloc.cursor e c.process) c.live := by
  unfold Malloc.cursor
  split
  · rename_i zero
    have level : c.process.mptr e % pgSize = 0 := by rw [zero, Nat.zero_mod]
    exact sound.heaped.realign level (show mbegin % pgSize = 0 from rfl)
  · exact sound.heaped

/-- A block in the page of `mptr` is had without fail. -/
theorem Sound.joins (joins : Joins e n c.process)
    (few : ending c.live (vpn (Malloc.cursor e c.process)) + 2 ≤ limit.val) :
    ∃ w, malloc answers e n c.process = some (Malloc.cursor e c.process,
        c.process.setMptr w e (Malloc.cursor e c.process + mallocSize n)) ∧
      Sound limit e stale ⟨c.process.setMptr w e (Malloc.cursor e c.process + mallocSize n),
        ⟨Malloc.cursor e c.process, n⟩ :: c.live⟩ ∧
      Keeps (c.pages e) c.mem (w.space e).uvpt w.mem c.live := by
  have heaped := sound.at_cursor
  obtain ⟨low, high⟩ := sound.cursor
  rw [malloc_joins joins]
  obtain ⟨small, open', fits⟩ := joins
  obtain ⟨heap, entry, ends⟩ := heaped.layout.opened open'
  have writable := (heaped.layout.malloced _ entry heap ends.1).writable
  have top : mend = 268435456 := rfl
  have bottom : mbegin = 134217728 := rfl
  generalize Malloc.cursor e c.process = m at *
  have ref : roundUp m - 4 = refAt (vpn m) := by
    simp only [roundUp, roundDown, refAt, vpn, pgSize] at open' ⊢
    omega
  have single : vpn (m + mallocSize n + 3) = vpn m := by
    unfold vpn pgSize at *
    omega
  have found : (c.process.world.space e).uvpt (vpn m) = some entry := ends.1
  rw [ref, readWord_ref, found, Option.map_some, Option.bind_some, writeWord_ref found writable,
    Option.map_some]
  refine ⟨_, rfl, ⟨?_, ?_⟩, ?_⟩
  · have after := heaped.extend open' single small few ends
    unfold Client.pages Client.mem
    rw [setMptr_world, setMptr_mptr]
    exact after
  · right
    rw [setMptr_mptr]
    unfold vpn pgSize at *
    omega
  · exact Keeps.set heaped.layout (.refl _) (fun _ _ _ _ _ => rfl) heap ends

theorem Sound.joins_returns (joins : Joins e n c.process) :
    ∃ p', malloc answers e n c.process = some (Malloc.cursor e c.process, p') := by
  have heaped := sound.at_cursor
  rw [malloc_joins joins]
  obtain ⟨small, open', fits⟩ := joins
  obtain ⟨heap, entry, ends⟩ := heaped.layout.opened open'
  have writable := (heaped.layout.malloced _ entry heap ends.1).writable
  generalize Malloc.cursor e c.process = m at *
  have ref : roundUp m - 4 = refAt (vpn m) := by
    obtain ⟨low, high⟩ := heap
    have top : vpn mend = 65536 := rfl
    simp only [roundUp, roundDown, refAt, vpn, pgSize] at *
    omega
  have found : (c.process.world.space e).uvpt (vpn m) = some entry := ends.1
  rw [ref, readWord_ref, found, Option.map_some, Option.bind_some, writeWord_ref found writable,
    Option.map_some]
  exact ⟨_, rfl⟩

def Stales (answers : ForkCall → Int) (e n : Nat) (p : Process) (stale stale' : Nat → Nat) : Prop :=
  stale' = stale ∨ NewPages answers e n p ∧ ∃ pn, stale' = update stale pn
    (if mallocSize n % pgSize = 0 then 1 else 0)

theorem Sound.malloc (unmaps : Unmaps answers e) (counted : Counted limit e c (.malloc answers n))
    (ran : malloc answers e n c.process = some (v, p')) :
    ∃ stale', Sound limit e stale' ⟨p', if v = 0 then c.live else ⟨v, n⟩ :: c.live⟩ ∧
      Keeps (c.pages e) c.mem (p'.world.space e).uvpt p'.world.mem c.live ∧
      Stales answers e n c.process stale stale' := by
  obtain ⟨low, high⟩ := sound.cursor
  have heaped := sound.at_cursor
  have bottom : mbegin = 134217728 := rfl
  rcases Nat.lt_or_ge (mallocSize n) maxMalloc with small | huge
  · by_cases joins : Joins e n c.process
    · obtain ⟨w, ran', sound', keeps⟩ := @Sound.joins answers e n stale c limit sound joins (counted joins)
      cases ran.symm.trans ran'
      refine ⟨stale, ?_, keeps, .inl rfl⟩
      rw [if_neg (by omega)]
      exact sound'
    · rw [malloc_searches small joins] at ran
      obtain ⟨start, w, begun, heaped', keeps, -, level, low', -, -⟩ := heaped.search unmaps low high
      rw [begun, Option.bind_some] at ran
      obtain ⟨stale', fresh⟩ := heaped'.mallocFresh unmaps small level low' ran
      refine ⟨stale', ?_⟩
      cases fresh with
      | none heaped keeps' seat =>
        rw [if_pos rfl]
        exact ⟨⟨heaped, .inr seat⟩, keeps.trans keeps', .inl rfl⟩
      | some positive heaped keeps' seat room =>
        rw [if_neg positive.ne']
        exact ⟨⟨heaped, .inr seat⟩, keeps.trans keeps',
          .inr ⟨⟨small, joins, start, w, begun, v, room⟩, _, rfl⟩⟩
  · rw [malloc_huge huge] at ran
    cases ran
    refine ⟨stale, ⟨?_, .inr ?_⟩, heaped.keeps, .inl rfl⟩
    · unfold Client.pages Client.mem
      rw [setMptr_mptr]
      exact heaped
    · rw [setMptr_mptr]
      exact ⟨low, high⟩

theorem Sound.free (unmaps : Unmaps answers e) (member : b ∈ c.live) :
    ∃ w, free answers e b.base c.process.world = some w ∧
      Sound limit e stale ⟨⟨w, c.process.mptr⟩, c.live.erase b⟩ ∧
      Keeps (c.pages e) c.mem (w.space e).uvpt w.mem (c.live.erase b) := by
  have placed := sound.heaped.layout.placed b member
  obtain ⟨entry, ends⟩ := placed.ends
  have heap := placed.inHeap Block.base_le_last le_rfl
  have writable := (sound.heaped.layout.malloced _ entry heap ends.1).writable
  obtain ⟨w, ran, dropped⟩ := free_drops (w := c.process.world) unmaps placed.low
    Block.base_le_last placed.high placed.runs ends writable
  obtain ⟨heaped, keeps⟩ := sound.heaped.release member ends dropped
  exact ⟨w, ran, ⟨heaped, sound.seat⟩, keeps⟩

end

theorem Sound.write {w : World} {va : Nat} {byte : BitVec 8} (sound : Sound limit e stale c)
    (member : b ∈ c.live) (holds : b.Holds va)
    (ran : c.process.world.tryWrite e va byte = some w) :
    Sound limit e stale ⟨⟨w, c.process.mptr⟩, c.live⟩ := by
  unfold World.tryWrite at ran
  obtain ⟨entry, found, ran⟩ := Option.bind_eq_some_iff.mp ran
  split at ran
  · obtain rfl := Option.some.inj ran
    exact ⟨sound.heaped.write found member holds fun off differ => update_of_ne differ ..,
      sound.seat⟩
  · cases ran

theorem seek_here {s : Space} {left nwrap : Nat} (free : isfree s start (n + 4) = true) :
    seek s n (left + 1) nwrap start = some (some start) := by
  unfold seek
  rw [if_pos free]

theorem Sound.malloc_here (sound : Sound limit e stale c) (unmaps : Unmaps answers e)
    (grants : Grants answers) (small : mallocSize n < maxMalloc) (apart : ¬Joins e n c.process)
    (begun : searchStart answers e c.process = some (start, w))
    (free : isfree (w.space e) start (mallocSize n + 4) = true) :
    ∃ p' stale', Jos.malloc answers e n c.process = some (start, p') ∧
      p'.mptr e = start + mallocSize n ∧ Sound limit e stale' ⟨p', ⟨start, n⟩ :: c.live⟩ ∧
      Taken start n w.next (w.space e).uvpt (p'.world.space e).uvpt := by
  obtain ⟨low, high⟩ := sound.cursor
  obtain ⟨start', w', begun', heaped, -, -, level, low', -, -⟩ :=
    sound.at_cursor.search unmaps low high
  cases begun.symm.trans begun'
  obtain ⟨v, p', stale', ran, fresh, same⟩ :=
    @Heaped.mallocAt answers e n start start c.process w stale c.live limit heaped level unmaps small level
      low' free
  have fuel : 2 * ((mend - mbegin) / pgSize) = 65535 + 1 := rfl
  obtain rfl := same grants
  have positive : 0 < v := Nat.lt_of_lt_of_le (by decide) low'
  cases fresh with
  | none => exact absurd positive (Nat.lt_irrefl 0)
  | some _ heaped' _ seat _ mptr taken =>
    refine ⟨p', _, ?_, mptr, ⟨heaped', .inr seat⟩, taken⟩
    rw [malloc_searches small apart, begun, Option.bind_some]
    unfold mallocFresh
    dsimp only
    rw [fuel, seek_here free, Option.bind_some]
    exact ran

def StepStales (e : Nat) (c : Client) (stale stale' : Nat → Nat) : Act → Prop
  | .malloc answers n => Stales answers e n c.process stale stale'
  | _ => stale' = stale

theorem Sound.step {act : Act} (sound : Sound limit e stale c) (uses : Uses e c act)
    (counted : Counted limit e c act) (ran : step e c act = some c') :
    ∃ stale', Sound limit e stale' c' ∧ StepStales e c stale stale' act := by
  cases act with
  | malloc answers n =>
    obtain ⟨⟨v, p'⟩, called, rfl⟩ := Option.map_eq_some_iff.mp ran
    obtain ⟨stale', sound', -, stales⟩ := sound.malloc uses counted called
    exact ⟨stale', sound', stales⟩
  | free answers b =>
    obtain ⟨w, called, sound', -⟩ := sound.free uses.2 uses.1
    obtain ⟨w', called', rfl⟩ := Option.map_eq_some_iff.mp ran
    cases called.symm.trans called'
    exact ⟨stale, sound', rfl⟩
  | write va byte =>
    obtain ⟨w, wrote, rfl⟩ := Option.map_eq_some_iff.mp ran
    obtain ⟨b, member, holds⟩ := uses
    exact ⟨stale, sound.write member holds wrote, rfl⟩

end

end Jos.Malloc
