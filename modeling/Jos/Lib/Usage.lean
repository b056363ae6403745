import Jos.Lib.Client

/-! The blocks of `malloc` over whole runs of a program: they are usable as long as no
page ends too many of them, and their pages come back unless a size is a multiple of
the size of a page. -/

set_option autoImplicit false

namespace Jos.Malloc

open Foundation

def Block.Gives (b : Block) (va : Nat) : Prop := b.base ≤ va ∧ va < b.base + b.asked

structure Usable (e : Nat) (c : Client) : Prop where
  aligned : ∀ b ∈ c.live, b.base % 4 = 0
  small : ∀ b ∈ c.live, b.asked < maxMalloc
  inside : ∀ b ∈ c.live, mbegin ≤ b.base ∧ b.base + b.asked ≤ mend
  mapped : ∀ b ∈ c.live, ∀ va, b.Gives va → ∃ entry, c.pages e (vpn va) = some entry ∧
    entry.user = true ∧ entry.writable = true
  apart : c.live.Pairwise fun b b' => ∀ va, ¬(b.Gives va ∧ b'.Gives va)
  counts : ∀ b ∈ c.live, ∀ pn entry, InHeap pn → Ends (c.pages e) pn entry →
    ∀ i, i < 4 → ¬b.Gives (refAt pn + i)

def Intact (e : Nat) (c c' : Client) : Prop :=
  ∀ b ∈ c.live, b ∈ c'.live → ∀ va, b.Gives va → ∃ entry, c.pages e (vpn va) = some entry ∧
    c'.pages e (vpn va) = some entry ∧
    c'.mem entry.ppn (pgOff va) = c.mem entry.ppn (pgOff va)

/-- The sizes asked for are below 2^32. -/
def Asks : Act → Prop
  | .malloc _ n => n < 2 ^ 32
  | _ => True

/-- A call to `malloc` or `free`. -/
def Calls : Act → Prop
  | .write _ _ => False
  | _ => True

/-- A size that takes new pages does not fill them up to the last one. -/
def Tight (e : Nat) (c : Client) : Act → Prop
  | .malloc answers n => NewPages answers e n c.process → mallocSize n % pgSize ≠ 0
  | _ => True

section

variable {answers : ForkCall → Int} {e n : Nat} {stale : Nat → Nat} {start c c' : Client} {b : Block}
  {act : Act} {events : List Act} {entry : Pte} {guard : Client → Act → Prop} {limit : Limit}

theorem mallocSize_spec (asked : n < 2 ^ 32) : n ≤ mallocSize n := by
  unfold mallocSize
  rw [Nat.mod_eq_of_lt (by omega)]
  omega

theorem Block.Gives.holds {va : Nat} (gives : b.Gives va) (asked : b.asked < 2 ^ 32) : b.Holds va :=
  ⟨gives.1, Nat.lt_of_lt_of_le gives.2 (Nat.add_le_add_left (mallocSize_spec asked) _)⟩

theorem Malloced.user (malloced : Malloced entry) : entry.user = true := by
  obtain ⟨ppn, perm⟩ := entry
  obtain rfl | rfl := malloced
  · rw [user_or]
    decide
  · rw [user_or]
    decide

theorem Sound.usable (sound : Sound limit e stale c) (asked : ∀ b ∈ c.live, b.asked < 2 ^ 32) :
    Usable e c where
  aligned b member := (sound.heaped.layout.placed b member).level
  small b member :=
    Nat.lt_of_le_of_lt (mallocSize_spec (asked b member)) (sound.heaped.layout.placed b member).small
  inside b member := by
    have placed := sound.heaped.layout.placed b member
    have finish := @Block.end_le b
    have high := placed.high
    have sized := mallocSize_spec (asked b member)
    refine ⟨placed.low, ?_⟩
    have top : mend = 268435456 := rfl
    simp only [Block.size, vpn, top, pgSize] at *
    omega
  mapped b member va gives := by
    have placed := sound.heaped.layout.placed b member
    obtain ⟨low, high⟩ := (gives.holds (asked b member)).page
    obtain ⟨entry, found⟩ := placed.found low high
    have malloced := sound.heaped.layout.malloced _ entry (placed.inHeap low high) found
    exact ⟨entry, found, malloced.user, malloced.writable⟩
  apart := by
    refine sound.heaped.layout.apart.imp_of_mem fun {b b'} member member' apart va both => ?_
    have holds := both.1.holds (asked b member)
    have holds' := both.2.holds (asked b' member')
    unfold Block.Holds at holds holds'
    have bytes := apart.bytes
    omega
  counts b member pn entry heap ends i small gives := by
    have holds := gives.holds (asked b member)
    have ends' : Ends (c.pages e) (vpn (refAt pn + i)) entry := by
      rw [refAt_page small]
      exact ends
    have below := (sound.heaped.layout.placed b member).below_ref holds ends'
    rw [refAt_off] at below
    simp only [Fin.ofNat] at below
    omega

theorem Keeps.intact {live : List Block} (keeps : Keeps (c.pages e) c.mem (c'.pages e) c'.mem live)
    (asked : ∀ b ∈ c.live, b.asked < 2 ^ 32) (covers : ∀ b ∈ c.live, b ∈ c'.live → b ∈ live) :
    Intact e c c' := by
  intro b member member' va gives
  exact keeps b (covers b member member') va (gives.holds (asked b member))

theorem Sound.intact (sound : Sound limit e stale c) (asked : ∀ b ∈ c.live, b.asked < 2 ^ 32)
    (uses : Uses e c act) (counted : Counted limit e c act) (calls : Calls act)
    (ran : Malloc.step e c act = some c') : Intact e c c' := by
  cases act with
  | malloc answers n =>
    obtain ⟨⟨v, p'⟩, called, rfl⟩ := Option.map_eq_some_iff.mp ran
    obtain ⟨stale', -, keeps, -⟩ := sound.malloc uses counted called
    exact keeps.intact asked fun b member _ => member
  | free answers b =>
    obtain ⟨w, called, -, keeps⟩ := sound.free uses.2 uses.1
    obtain ⟨w', called', rfl⟩ := Option.map_eq_some_iff.mp ran
    cases called.symm.trans called'
    exact keeps.intact asked fun b _ member' => member'
  | write va byte => cases calls

theorem Sound.of_along (starts : Starts e start)
    (along : Along (Malloc.step e) guard start events c)
    (uses : ∀ c act, guard c act → Uses e c act ∧ Counted limit e c act) :
    ∃ stale, Sound limit e stale c := by
  refine along.preserves (fun c => ∃ stale, Sound limit e stale c) ⟨_, starts.sound⟩ ?_
  rintro before event after ⟨stale, sound⟩ admitted stepped
  obtain ⟨stale', sound', -⟩ := sound.step (uses _ _ admitted).1 (uses _ _ admitted).2 stepped
  exact ⟨stale', sound'⟩

theorem asked_of_along (starts : Starts e start)
    (along : Along (Malloc.step e) guard start events c) (asks : ∀ c act, guard c act → Asks act) :
    ∀ b ∈ c.live, b.asked < 2 ^ 32 := by
  refine along.preserves (fun c => ∀ b ∈ c.live, b.asked < 2 ^ 32) ?_ ?_
  · rw [starts.live]
    exact fun b member => by cases member
  intro before event after asked admitted stepped
  cases event with
  | malloc answers n =>
    obtain ⟨⟨v, p'⟩, -, rfl⟩ := Option.map_eq_some_iff.mp stepped
    intro b member
    dsimp only at member
    split at member
    · exact asked b member
    · rcases List.mem_cons.mp member with rfl | member
      · exact asks _ _ admitted
      · exact asked b member
  | free answers b =>
    obtain ⟨w, -, rfl⟩ := Option.map_eq_some_iff.mp stepped
    exact fun b member => asked b (List.mem_of_mem_erase member)
  | write va byte =>
    obtain ⟨w, -, rfl⟩ := Option.map_eq_some_iff.mp stepped
    exact asked

end

def blank : Client := ⟨⟨.empty, fun _ => 0⟩, []⟩

def granted : ForkCall → Int := fun _ => 0

theorem blank_starts {e : Nat} : Starts e blank := ⟨rfl, rfl, fun _ _ => rfl⟩

theorem granted_unmaps {e : Nat} : Unmaps granted e := fun _ => Int.le_refl 0

theorem granted_grants : Grants granted := fun _ => Int.le_refl 0

theorem blank_counted {n : Nat} {limit : Limit} : Counted limit 0 blank (.malloc granted n) :=
  fun joins => absurd rfl joins.2.1

theorem blank_isfree {n : Nat} (fits : n + 4 ≤ pgSize) :
    isfree (blank.process.world.space 0) mbegin (n + 4) = true := by
  refine isfree_iff.mpr fun i below => ⟨?_, rfl⟩
  have single : i = 0 := by
    unfold pgSize at *
    omega
  rw [single]
  decide

theorem blank_malloc (limit : Limit) {n : Nat} (fits : mallocSize n + 4 ≤ pgSize) :
    ∃ c stale, Malloc.step 0 blank (.malloc granted n) = some c ∧ Sound limit 0 stale c ∧
      c.live = [⟨mbegin, n⟩] ∧ c.process.mptr 0 = mbegin + mallocSize n ∧
      ∀ q, vpn mbegin + 1 ≤ q → c.pages 0 q = none := by
  have small : mallocSize n < maxMalloc := by
    unfold maxMalloc
    unfold pgSize at fits
    omega
  have apart : ¬Joins 0 n blank.process := fun joins => absurd rfl joins.2.1
  have begins : Sound limit 0 (fun _ => 0) blank := blank_starts.sound
  obtain ⟨p', stale', ran, mptr, sound, taken⟩ :=
    begins.malloc_here granted_unmaps granted_grants small apart rfl (blank_isfree fits)
  refine ⟨_, stale', Option.map_eq_some_iff.mpr ⟨_, ran, rfl⟩, ?_, ?_, mptr, fun q above => ?_⟩
  · exact sound
  · rfl
  · have last : (Block.mk mbegin n).last = vpn mbegin := by
      have short : (mallocSize n + 3) / pgSize = 0 := by
        unfold pgSize at *
        omega
      exact taken.last.trans (by rw [short]; rfl)
    have beyond : ¬(vpn mbegin ≤ q ∧ q ≤ (Block.mk mbegin n).last) := fun both => by omega
    exact (taken.uvpt q).trans (if_neg beyond)

section

variable {e : Nat} {start c : Client} {events : List Act}

/-- Where no page ever ends too many blocks, the blocks are usable and stay so: no call
touches the others, and a block can always be freed. -/
theorem malloc_usable (starts : Starts e start)
    (along : Along (Malloc.step e) (fun c act => Uses e c act ∧ Asks act ∧ Counted full e c act)
      start events c) :
    Usable e c ∧
      (∀ act c', Uses e c act → Asks act → Counted full e c act → Calls act →
        Malloc.step e c act = some c' → Intact e c c') ∧
      ∀ answers b, Uses e c (.free answers b) → ∃ c', Malloc.step e c (.free answers b) = some c' := by
  obtain ⟨stale, sound⟩ := Sound.of_along starts along fun _ _ admitted => ⟨admitted.1, admitted.2.2⟩
  have asked := asked_of_along starts along fun _ _ admitted => admitted.2.1
  refine ⟨sound.usable asked, fun act c' uses asks counted calls ran =>
    sound.intact asked uses counted calls ran, fun answers b uses => ?_⟩
  obtain ⟨w, called, -⟩ := sound.free uses.2 uses.1
  refine ⟨_, Option.map_eq_some_iff.mpr ⟨w, called, rfl⟩⟩

theorem malloc_usable_once : ∃ c, Malloc.step 0 blank (.malloc granted 4) = some c ∧ Usable 0 c := by
  obtain ⟨c, -, stepped, -⟩ := blank_malloc full (n := 4) (by decide)
  have along : Along (Malloc.step 0) (fun c act => Uses 0 c act ∧ Asks act ∧ Counted full 0 c act) blank
      [.malloc granted 4] c :=
    Along.nil.snoc ⟨granted_unmaps, show 4 < 2 ^ 32 by decide, blank_counted⟩ stepped
  exact ⟨c, stepped, (malloc_usable blank_starts along).1⟩

end

/-- A block of four bytes, and `k` empty ones after it in its page. -/
structure Crowded (entry : Pte) (k : Nat) (c : Client) : Prop where
  mptr : c.process.mptr 0 = mbegin + 4
  ends : Ends (c.pages 0) (vpn mbegin) entry
  word : refWord (c.mem entry.ppn) = BitVec.ofNat 32 (k + 2)
  live : c.live = List.replicate k ⟨mbegin + 4, 0⟩ ++ [⟨mbegin, 4⟩]

theorem Crowded.step {entry : Pte} {k : Nat} {c : Client} (crowded : Crowded entry k c)
    (writable : entry.writable = true) :
    ∃ c', Malloc.step 0 c (.malloc granted 0) = some c' ∧ Crowded entry (k + 1) c' := by
  have stands : cursor 0 c.process = mbegin + 4 := by
    unfold cursor
    rw [crowded.mptr]
    rfl
  have joins : Joins 0 0 c.process := by
    unfold Joins
    rw [stands]
    decide
  have ref : roundUp (mbegin + 4) - 4 = refAt (vpn mbegin) := by decide
  have found : (c.process.world.space 0).uvpt (vpn mbegin) = some entry := crowded.ends.1
  have ran := @malloc_joins granted 0 0 c.process joins
  rw [stands, ref, readWord_ref, found, Option.map_some, Option.bind_some,
    writeWord_ref found writable, Option.map_some] at ran
  refine ⟨_, Option.map_eq_some_iff.mpr ⟨_, ran, rfl⟩, setMptr_mptr, crowded.ends, ?_, ?_⟩
  · unfold Client.mem
    rw [setMptr_world, World.store_mem, refWord_setRef]
    have word : refWord (c.process.world.mem entry.ppn) = BitVec.ofNat 32 (k + 2) := crowded.word
    rw [word]
    exact (BitVec.ofNat_add (k + 2) 1).symm
  · dsimp only
    rw [if_neg (by decide), crowded.live, List.replicate_succ]
    rfl

theorem Crowded.run {entry : Pte} {c : Client} {events : List Act} (crowded : Crowded entry 0 c)
    (writable : entry.writable = true)
    (before : Along (Malloc.step 0) (fun c act => Uses 0 c act ∧ Asks act) blank events c) (k : Nat) :
    ∃ c', Along (Malloc.step 0) (fun c act => Uses 0 c act ∧ Asks act) blank
      (events ++ List.replicate k (.malloc granted 0)) c' ∧ Crowded entry k c' := by
  induction k with
  | zero => exact ⟨c, by simpa using before, crowded⟩
  | succ k ih =>
    obtain ⟨c', along, crowded'⟩ := ih
    obtain ⟨c'', stepped, crowded''⟩ := crowded'.step writable
    refine ⟨c'', ?_, crowded''⟩
    rw [List.replicate_succ', ← List.append_assoc]
    exact along.snoc ⟨granted_unmaps, Nat.two_pow_pos 32⟩ stepped

/-- With 2^32 references the word is zero again before the page is: the first block to
be freed takes the page of all of them with it. -/
theorem malloc_overflow : ∃ c, Starts 0 blank ∧
    Along (Malloc.step 0) (fun c act => Uses 0 c act ∧ Asks act) blank
      ([.malloc granted 4] ++ List.replicate (2 ^ 32 - 1) (.malloc granted 0) ++
        [.free granted ⟨mbegin + 4, 0⟩]) c ∧
    ¬Usable 0 c := by
  obtain ⟨c₁, stale, first, sound, live, mptr, -⟩ := blank_malloc full (n := 4) (by decide)
  have placed := sound.heaped.layout.placed ⟨mbegin, 4⟩ (by rw [live]; exact List.mem_cons_self)
  obtain ⟨entry, ends⟩ := placed.ends
  have page : (Block.mk mbegin 4).last = vpn mbegin := by decide
  rw [page] at ends
  have heap : InHeap (vpn mbegin) := ⟨le_rfl, by decide⟩
  have writable := (sound.heaped.layout.malloced _ entry heap ends.1).writable
  have inside : Inside (c₁.process.mptr 0) (vpn mbegin) := by
    rw [mptr]
    decide
  have two : refs stale (c₁.process.mptr 0) c₁.live (vpn mbegin) = 2 := by
    unfold refs
    rw [live, if_pos inside, sound.heaped.counts.current _ inside]
    decide
  have word := (sound.heaped.counts.word _ entry heap ends).word
  rw [two] at word
  have crowded : Crowded entry 0 c₁ := ⟨mptr, ends, word, live⟩
  have begun : Along (Malloc.step 0) (fun c act => Uses 0 c act ∧ Asks act) blank
      [.malloc granted 4] c₁ :=
    Along.nil.snoc ⟨granted_unmaps, show 4 < 2 ^ 32 by decide⟩ first
  obtain ⟨c₂, along, crowded₂⟩ := crowded.run writable begun (2 ^ 32 - 1)
  have one : refWord (c₂.process.world.mem entry.ppn) = 1 := crowded₂.word
  have same : vpn (mbegin + 4) = vpn mbegin := by decide
  obtain ⟨w, freed, dropped⟩ := free_drops (v := mbegin + 4) (w := c₂.process.world)
    (@granted_unmaps 0) (by decide) same.le (by decide)
    (fun q above below => absurd (Nat.lt_of_le_of_lt (same ▸ above) below) (lt_irrefl _))
    crowded₂.ends writable
  have member : (⟨mbegin + 4, 0⟩ : Block) ∈ c₂.live := by
    rw [crowded₂.live]
    exact List.mem_append_left _ (List.mem_replicate.mpr ⟨by decide, rfl⟩)
  refine ⟨_, blank_starts, along.snoc ⟨⟨member, granted_unmaps⟩, trivial⟩
    (Option.map_eq_some_iff.mpr ⟨w, freed, rfl⟩), fun usable => ?_⟩
  have stays : (⟨mbegin, 4⟩ : Block) ∈ c₂.live.erase ⟨mbegin + 4, 0⟩ := by
    rw [List.mem_erase_of_ne (by decide), crowded₂.live]
    exact List.mem_append_right _ List.mem_cons_self
  obtain ⟨entry', found, -⟩ := usable.mapped _ stays mbegin ⟨le_rfl, by decide⟩
  have gone : (w.space 0).uvpt (vpn mbegin) = none := by
    rw [dropped.uvpt, if_pos (.inr ⟨rfl, one⟩)]
  exact absurd (gone.symm.trans found) (by simp)

/-- With every block freed, no page is left but that of `mptr`, and the words of all
pages count the blocks that end there and `mptr`. -/
structure Returned (e : Nat) (c : Client) : Prop where
  freed : c.live = [] → ∀ pn entry, InHeap pn → c.pages e pn = some entry →
    vpn (c.process.mptr e) = pn
  counts : ∀ pn entry, InHeap pn → Ends (c.pages e) pn entry →
    (refWord (c.mem entry.ppn)).toNat =
      ending c.live pn + if Inside (c.process.mptr e) pn then 1 else 0

section

variable {e : Nat} {start c : Client} {events : List Act}

theorem Sound.returned (sound : Sound exact e (fun _ => 0) c) : Returned e c where
  freed none pn entry heap found := by
    rcases Bool.eq_false_or_eq_true entry.continued with runs | ends
    · obtain ⟨b, member, -⟩ := sound.heaped.layout.owned pn heap ⟨entry, found, runs⟩
      rw [none] at member
      cases member
    · have used := (sound.heaped.counts.word pn entry heap ⟨found, ends⟩).used
      unfold refs at used
      rw [none] at used
      by_cases inside : Inside (c.process.mptr e) pn
      · exact inside.2
      · rw [if_neg inside] at used
        cases used
  counts pn entry heap ends := by
    have word := sound.heaped.counts.word pn entry heap ends
    exact word.toNat (Nat.lt_of_le_of_lt word.bound (by decide))

/-- Where no block with new pages fills them up to the last one, all of them come back. -/
theorem malloc_returns (starts : Starts e start)
    (along : Along (Malloc.step e) (fun c act => Uses e c act ∧ Counted exact e c act ∧ Tight e c act)
      start events c) : Returned e c := by
  refine Sound.returned (along.preserves (Sound exact e fun _ => 0) starts.sound ?_)
  rintro before event after sound ⟨uses, counted, tight⟩ stepped
  obtain ⟨stale', sound', stales⟩ := sound.step uses counted stepped
  have same : stale' = fun _ => 0 := by
    cases event with
    | malloc answers n =>
      rcases stales with same | ⟨new, pn, rfl⟩
      · exact same
      · rw [if_neg (tight new)]
        exact Function.update_eq_self_iff.mpr rfl
    | free answers b => exact stales
    | write va byte => exact stales
  exact same ▸ sound'

theorem malloc_returns_once :
    ∃ c, Malloc.step 0 blank (.malloc granted 4) = some c ∧ Returned 0 c := by
  obtain ⟨c, -, stepped, -⟩ := blank_malloc exact (n := 4) (by decide)
  have along : Along (Malloc.step 0)
      (fun c act => Uses 0 c act ∧ Counted exact 0 c act ∧ Tight 0 c act) blank [.malloc granted 4] c :=
    Along.nil.snoc ⟨granted_unmaps, blank_counted, fun _ => show ¬4 % pgSize = 0 by decide⟩ stepped
  exact ⟨c, stepped, malloc_returns blank_starts along⟩

def after (c : Client) (act : Act) : Client := (Malloc.step 0 c act).getD c

theorem step_after {c : Client} {act : Act} (back : (Malloc.step 0 c act).isSome = true) :
    Malloc.step 0 c act = some (after c act) := by
  obtain ⟨c', ran⟩ := Option.isSome_iff_exists.mp back
  unfold after
  rw [ran, Option.getD_some]

/-- The block of 4096 bytes has a second page for its reference, at whose start `mptr`
stays. The next block goes elsewhere, and that page is never unmapped. -/
theorem malloc_strands : ∃ c, Starts 0 blank ∧
    Along (Malloc.step 0) (fun c act => Uses 0 c act ∧ Asks act) blank
      [.malloc granted 4096, .free granted ⟨mbegin, 4096⟩, .malloc granted 4,
        .free granted ⟨mbegin + 2 * 4096, 4⟩] c ∧
    ¬Returned 0 c := by
  have first := @step_after blank (.malloc granted 4096) (by decide +kernel)
  generalize one : after blank (.malloc granted 4096) = c₁ at first
  have second := @step_after c₁ (.free granted ⟨mbegin, 4096⟩) (by rw [← one]; decide +kernel)
  generalize two : after c₁ (.free granted ⟨mbegin, 4096⟩) = c₂ at second
  have third := @step_after c₂ (.malloc granted 4) (by rw [← two, ← one]; decide +kernel)
  generalize three : after c₂ (.malloc granted 4) = c₃ at third
  have fourth := @step_after c₃ (.free granted ⟨mbegin + 2 * 4096, 4⟩)
    (by rw [← three, ← two, ← one]; decide +kernel)
  generalize four : after c₃ (.free granted ⟨mbegin + 2 * 4096, 4⟩) = c₄ at fourth
  have held : (⟨mbegin, 4096⟩ : Block) ∈ c₁.live := by
    rw [← one]
    decide +kernel
  have held' : (⟨mbegin + 2 * 4096, 4⟩ : Block) ∈ c₃.live := by
    rw [← three, ← two, ← one]
    decide +kernel
  have run₁ : Along (Malloc.step 0) (fun c act => Uses 0 c act ∧ Asks act) blank
      [.malloc granted 4096] c₁ :=
    Along.nil.snoc ⟨granted_unmaps, show 4096 < 2 ^ 32 by decide⟩ first
  have run₂ : Along (Malloc.step 0) (fun c act => Uses 0 c act ∧ Asks act) blank
      [.malloc granted 4096, .free granted ⟨mbegin, 4096⟩] c₂ :=
    run₁.snoc ⟨⟨held, granted_unmaps⟩, trivial⟩ second
  have run₃ : Along (Malloc.step 0) (fun c act => Uses 0 c act ∧ Asks act) blank
      [.malloc granted 4096, .free granted ⟨mbegin, 4096⟩, .malloc granted 4] c₃ :=
    run₂.snoc ⟨granted_unmaps, show 4 < 2 ^ 32 by decide⟩ third
  have along : Along (Malloc.step 0) (fun c act => Uses 0 c act ∧ Asks act) blank
      [.malloc granted 4096, .free granted ⟨mbegin, 4096⟩, .malloc granted 4,
        .free granted ⟨mbegin + 2 * 4096, 4⟩] c₄ :=
    run₃.snoc ⟨⟨held', granted_unmaps⟩, trivial⟩ fourth
  refine ⟨c₄, blank_starts, along, fun returned => ?_⟩
  have freed : c₄.live = [] := by
    rw [← four, ← three, ← two, ← one]
    decide +kernel
  have mapped : (c₄.pages 0 (vpn mbegin + 1)).isSome = true := by
    rw [← four, ← three, ← two, ← one]
    decide +kernel
  have stands : c₄.process.mptr 0 = mbegin + 2 * 4096 + 4 := by
    rw [← four, ← three, ← two, ← one]
    decide +kernel
  obtain ⟨entry, found⟩ := Option.isSome_iff_exists.mp mapped
  have same := returned.freed freed _ entry ⟨by decide, by decide⟩ found
  rw [stands] at same
  exact absurd same (by decide)

end

end Jos.Malloc
