import Jos.Lib.Heap

/-! What an environment does to its heap is not seen by its relatives. -/

set_option autoImplicit false

namespace Jos

open Foundation Function

structure Heaps where
  process : Process
  live : Nat → Prop

inductive HeapEvent where
  | malloc (answers : ForkCall → Int) (e n : Nat)
  | free (answers : ForkCall → Int) (e v : Nat)
  | write (answers : ForkCall → Int) (e va : Nat) (byte : BitVec 8)
  | fork (answers : ForkCall → Int) (first : Bool) (e : Nat)

def HeapEvent.actor : HeapEvent → Nat
  | .malloc _ e _ => e
  | .free _ e _ => e
  | .write _ e _ _ => e
  | .fork _ _ e => e

namespace Heaps

def setWorld (h : Heaps) (w : World) : Heaps := ⟨⟨w, h.process.mptr⟩, h.live⟩

def step (h : Heaps) : HeapEvent → Option Heaps
  | .malloc answers e n => (malloc answers e n h.process).map fun r => ⟨r.2, h.live⟩
  | .free answers e v => (Jos.free answers e v h.process.world).map h.setWorld
  | .write answers e va byte => (h.process.world.writeByte answers e va byte).map h.setWorld
  | .fork answers first e => (Jos.fork answers first e h.process.world).map fun r =>
    ⟨⟨r.2.world, update h.process.mptr r.1.toNat (h.process.mptr e)⟩,
      fun other => h.live other ∨ other = r.1.toNat⟩

/-- No block is larger than a page with its reference count, and a fork gives the
child every page. -/
def Admits (h : Heaps) : HeapEvent → Prop
  | .malloc _ e n => h.live e ∧ FitsPage n
  | .free _ e _ => h.live e
  | .write _ e va _ => h.live e ∧ Inherited (vpn va)
  | .fork answers first e => h.live e ∧ ∀ envid r,
      Jos.fork answers first e h.process.world = some (envid, r) →
      0 < envid ∧ ¬ h.live envid.toNat ∧ Forkable answers first e envid.toNat h.process.world ∧
        ∀ entry, (h.process.world.space e).uvpt ustackPage = some entry → entry.owned = true

/-- One environment that has not called `malloc` yet. -/
structure Started (h : Heaps) : Prop where
  alone : ∃ e, ∀ other, h.live other ↔ other = e
  unused : ∀ e, h.process.mptr e = 0
  follows : ∃ image, Family.Follows ⟨h.process.world, image, h.live⟩

structure Sound (h : Heaps) : Prop where
  follows : ∃ image, Family.Follows ⟨h.process.world, image, h.live⟩
  seated : ∀ e, h.live e → Seated (h.process.mptr e)

def Unseen (h h' : Heaps) (e : Nat) : Prop :=
  ∀ other va, h.live other → other ≠ e → Inherited (vpn va) →
    h'.process.world.readByte other va = h.process.world.readByte other va

variable {h h' : Heaps} {event : HeapEvent} {e va : Nat}

theorem Started.sound (started : h.Started) : h.Sound where
  follows := started.follows
  seated e _ := .inl (started.unused e)

theorem readByte_image {f : Family} (follows : f.Follows) (live : f.live e)
    (inherited : Inherited (vpn va)) :
    f.world.readByte e va = (f.image e (vpn va)).map fun page => page.2 (pgOff va) := by
  rw [follows.pages e _ live inherited, Option.map_map]
  rfl

theorem Sound.kept (sound : h.Sound) (live : h'.live = h.live)
    (kept : Kept h.live e h.process.world h'.process.world)
    (seated : ∀ other, h.live other → Seated (h'.process.mptr other)) :
    h'.Sound ∧ h.Unseen h' e := by
  obtain ⟨image, follows⟩ := sound.follows
  obtain ⟨image', follows', same⟩ := kept image follows
  refine ⟨⟨⟨image', live ▸ follows'⟩, live ▸ seated⟩, fun other va alive differ inherited => ?_⟩
  rw [readByte_image follows' alive inherited, readByte_image follows alive inherited]
  change (image' other _).map _ = _
  rw [same other differ]

theorem Sound.step (sound : h.Sound) (admitted : h.Admits event)
    (stepped : h.step event = some h') : h'.Sound ∧ h.Unseen h' event.actor := by
  cases event with
  | malloc answers e n =>
    obtain ⟨live, fits⟩ := admitted
    obtain ⟨⟨result, after⟩, ran, rfl⟩ := Option.map_eq_some_iff.mp stepped
    obtain ⟨kept, at', seat, moved⟩ :=
      @malloc_spec h.live answers e h.process after n result fits (sound.seated e live) ran
    refine sound.kept rfl kept fun other alive => ?_
    change Seated (after.mptr other)
    rw [moved, update_apply]
    split
    · exact seat
    · exact sound.seated other alive
  | free answers e v =>
    obtain ⟨w, ran, rfl⟩ := Option.map_eq_some_iff.mp stepped
    exact sound.kept rfl (.free ran) sound.seated
  | write answers e va byte =>
    obtain ⟨-, inherited⟩ := admitted
    obtain ⟨w, wrote, rfl⟩ := Option.map_eq_some_iff.mp stepped
    exact sound.kept rfl (.writeByte inherited wrote) sound.seated
  | fork answers first e =>
    obtain ⟨live, returned⟩ := admitted
    obtain ⟨⟨envid, r⟩, ran, rfl⟩ := Option.map_eq_some_iff.mp stepped
    obtain ⟨positive, fresh, forkable, stack⟩ := returned envid r ran
    obtain ⟨image, follows⟩ := sound.follows
    have follows' := follows.fork live ran positive fresh forkable stack
    refine ⟨⟨⟨_, follows'⟩, fun other alive => ?_⟩, fun other va alive differ inherited => ?_⟩
    · dsimp only
      rw [update_apply]
      split
      · exact sound.seated e live
      · rename_i given
        exact sound.seated other (alive.resolve_right given)
    · have given : other ≠ envid.toNat := by
        rintro rfl
        exact fresh alive
      rw [readByte_image follows alive inherited]
      refine (readByte_image follows' (.inl alive) inherited).trans ?_
      dsimp only
      rw [image_other given]

end Heaps

/-- In a tree of forks that allocates no block of more than a page, nothing that one
environment does with its heap, and no write of it, changes what another one reads. -/
theorem heapPrivate {h h' : Heaps} {event : HeapEvent} {other va : Nat}
    (reached : Reachable Heaps.Started Heaps.step Heaps.Admits h) (admitted : h.Admits event)
    (stepped : h.step event = some h') (alive : h.live other) (differ : other ≠ event.actor)
    (inherited : Inherited (vpn va)) :
    h'.process.world.readByte other va = h.process.world.readByte other va := by
  obtain ⟨start, events, started, along⟩ := reached
  have sound := along.preserves Heaps.Sound started.sound
    fun before a after holds admitted stepped => (holds.step admitted stepped).1
  exact (sound.step admitted stepped).2 other va alive differ inherited

/-- The environment 1 of the sample world, which has not called `malloc`. -/
def sampleHeaps : Heaps := ⟨⟨sampleWorld true permPrivate, fun _ => 0⟩, fun e => e = 1⟩

theorem sampleHeaps_started : sampleHeaps.Started where
  alone := ⟨1, fun _ => Iff.rfl⟩
  unused _ := rfl
  follows := ⟨_, (sampleFamily_started (by decide)).2⟩

theorem sampleHeaps_forks : sampleHeaps.Admits (.fork sampleAnswers false 1) := by
  refine ⟨rfl, fun envid r ran => ?_⟩
  obtain ⟨r', ran'⟩ := sample_fork true permPrivate
  cases ran.symm.trans ran'
  refine ⟨by decide, by change ¬ (2 : Int).toNat = 1; decide, sample_forkable permPrivate,
    fun entry there => ?_⟩
  obtain ⟨-, ⟨-, rfl⟩ | ⟨low, -⟩⟩ := sample_entry there
  · decide
  · exact absurd low (by decide)

theorem sample_heapPrivate : ∃ h h' : Heaps, ∃ event : HeapEvent,
    h.step event = some h' ∧ h.live 2 ∧
      h'.process.world.readByte 2 (lowPage * pgSize) =
        h.process.world.readByte 2 (lowPage * pgSize) := by
  obtain ⟨r, ran⟩ := sample_fork true permPrivate
  obtain ⟨h, forked⟩ : ∃ h, sampleHeaps.step (.fork sampleAnswers false 1) = some h :=
    ⟨_, Option.map_eq_some_iff.mpr ⟨_, ran, rfl⟩⟩
  have reached : Reachable Heaps.Started Heaps.step Heaps.Admits h :=
    ⟨_, [.fork sampleAnswers false 1], sampleHeaps_started,
      @Along.snoc _ _ _ _ _ [] _ _ _ .nil sampleHeaps_forks forked⟩
  have live : h.live 1 ∧ h.live 2 := by
    obtain ⟨_, ran', rfl⟩ := Option.map_eq_some_iff.mp forked
    cases ran'.symm.trans ran
    exact ⟨.inl rfl, .inr rfl⟩
  obtain ⟨h', freed⟩ : ∃ h', h.step (.free sampleAnswers 1 0) = some h' := ⟨_, rfl⟩
  have admitted : h.Admits (.free sampleAnswers 1 0) := live.1
  exact ⟨h, h', _, freed, live.2, heapPrivate reached admitted freed live.2 (by decide)
    ⟨by decide, by decide⟩⟩

theorem writeWord_writable {answers : ForkCall → Int} {w : World} {e va pn : Nat} {entry : Pte}
    {word : BitVec 32} (pages : ∀ i, i < 4 → vpn (va + i) = pn)
    (found : (w.space e).uvpt pn = some entry) (writable : entry.writable = true) :
    ∃ w', w.writeWord answers e va word = some w' ∧ w'.space = w.space ∧
      ∀ ppn, ppn ≠ entry.ppn → w'.mem ppn = w.mem ppn := by
  have write : ∀ (w' : World) i byte, w'.space = w.space → i < 4 →
      w'.writeByte answers e (va + i) byte = some (w'.poke entry.ppn (va + i) byte) := by
    intro w' i byte same small
    refine writeByte_writable ?_ writable
    rw [same, pages i small, found]
  obtain ⟨w₁, one⟩ : ∃ w', w.poke entry.ppn va (word.extractLsb' 0 8) = w' := ⟨_, rfl⟩
  obtain ⟨w₂, two⟩ : ∃ w', w₁.poke entry.ppn (va + 1) (word.extractLsb' 8 8) = w' := ⟨_, rfl⟩
  obtain ⟨w₃, three⟩ : ∃ w', w₂.poke entry.ppn (va + 2) (word.extractLsb' 16 8) = w' := ⟨_, rfl⟩
  have same₁ : w₁.space = w.space := one ▸ rfl
  have same₂ : w₂.space = w.space := two ▸ same₁
  have same₃ : w₃.space = w.space := three ▸ same₂
  have first := write w 0 (word.extractLsb' 0 8) rfl (by decide)
  refine ⟨w₃.poke entry.ppn (va + 3) (word.extractLsb' 24 8), ?_, same₃, fun ppn differ => ?_⟩
  · unfold World.writeWord
    rw [Nat.add_zero, one] at first
    rw [first, Option.bind_some, write w₁ 1 _ same₁ (by decide), two, Option.bind_some,
      write w₂ 2 _ same₂ (by decide), three, Option.bind_some, write w₃ 3 _ same₃ (by decide)]
  · rw [← three, ← two, ← one]
    unfold World.poke World.store
    simp only [update_of_ne differ]

def heapPage : Nat := vpn mbegin

/-- The two pages of a block of 5000 bytes. -/
def sampleBlock : World :=
  ((sampleWorld true permPrivate).pageAlloc 1 heapPage (permPrivate ||| pteContinued)).pageAlloc 1
    (heapPage + 1) (permPrivate ||| 0)

theorem sampleBlock_uvpt {e q : Nat} : (sampleBlock.space e).uvpt q =
    if e = 1 ∧ q = heapPage + 1 then some ⟨3, permPrivate ||| 0 ||| pteP⟩
    else if e = 1 ∧ q = heapPage then some ⟨2, permPrivate ||| pteContinued ||| pteP⟩
    else ((sampleWorld true permPrivate).space e).uvpt q := by
  unfold sampleBlock
  rw [World.pageAlloc_uvpt, World.pageAlloc_uvpt]
  rfl

theorem sampleBlock_reach {p : Nat} : (sampleBlock.space 1).Reach p := by
  have all : ∀ q, ((sampleWorld true permPrivate).space 1).Reach q := by
    intro q
    refine ⟨rfl, rfl, ?_⟩
    change (if q / 512 = 1914 then true else true) = true
    simp
  have first : ∀ q, (((sampleWorld true permPrivate).pageAlloc 1 heapPage
      (permPrivate ||| pteContinued)).space 1).Reach q := by
    intro q
    rw [World.pageAlloc_tables fun _ => all heapPage]
    exact all q
  unfold sampleBlock
  rw [World.pageAlloc_tables fun _ => first (heapPage + 1)]
  exact first p

theorem sample_malloc : ∃ w, malloc sampleAnswers 1 5000 ⟨sampleWorld true permPrivate, fun _ => 0⟩ =
      some (mbegin, ⟨w, update (fun _ => 0) 1 (mbegin + 5000)⟩) ∧
    w.space = sampleBlock.space ∧ ∀ ppn, ppn ≠ 3 → w.mem ppn = fun _ => 0 := by
  have found : (sampleBlock.space 1).uvpt (heapPage + 1) =
      some ⟨3, permPrivate ||| 0 ||| pteP⟩ := by
    rw [sampleBlock_uvpt, if_pos ⟨rfl, rfl⟩]
  obtain ⟨w, wrote, space, mem⟩ := @writeWord_writable sampleAnswers sampleBlock 1
    (mbegin + 2 * pgSize - 4) _ _ (2 : BitVec 32) (by decide) found (by rw [writable_or]; decide)
  refine ⟨w, ?_, space, fun ppn differ => mem ppn differ⟩
  have free : isfree ((sampleWorld true permPrivate).space 1) mbegin (5000 + 4) = true := by
    decide
  have seeks : seek ((sampleWorld true permPrivate).space 1) 5000
      (2 * ((mend - mbegin) / pgSize)) 0 mbegin = some (some mbegin) := by
    change seek _ _ (65535 + 1) _ _ = _
    unfold seek
    rw [if_pos free]
  have pages : mallocPages sampleAnswers 1 mbegin 5000 2 0 (sampleWorld true permPrivate) =
      (true, sampleBlock) := rfl
  have took : mallocAt sampleAnswers 1 5000 mbegin ⟨sampleWorld true permPrivate, fun _ => 0⟩
      (sampleWorld true permPrivate) =
      some (mbegin, ⟨w, update (fun _ => 0) 1 (mbegin + 5000)⟩) := by
    unfold mallocAt
    rw [show blockPages 5000 = 2 from rfl, pages]
    simp only [if_true, wrote, Option.map_some]
    rfl
  have fresh : mallocFresh sampleAnswers 1 5000 mbegin ⟨sampleWorld true permPrivate, fun _ => 0⟩
      (sampleWorld true permPrivate) =
      some (mbegin, ⟨w, update (fun _ => 0) 1 (mbegin + 5000)⟩) := by
    unfold mallocFresh
    rw [seeks, Option.bind_some]
    exact took
  exact fresh

/-- After `malloc(5000)` and a fork, the child reads what the parent writes to the
first byte of the block. -/
theorem largeBlock_not_heapPrivate : ∃ h h₁ h₂ h₃ : Heaps, h.Started ∧
    h.step (.malloc sampleAnswers 1 5000) = some h₁ ∧ h₁.process.mptr 1 = mbegin + 5000 ∧
      h₁.step (.fork sampleAnswers false 1) = some h₂ ∧
      h₂.step (.write sampleAnswers 1 mbegin 1#8) = some h₃ ∧
      h₂.process.world.readByte 2 mbegin = some 0#8 ∧
      h₃.process.world.readByte 2 mbegin = some 1#8 := by
  obtain ⟨w, allocated, space, mem⟩ := sample_malloc
  have answered : ∀ call ∈ finishCalls 2 1, 0 ≤ sampleAnswers call := by decide
  have reach : ∀ p, (w.space 1).Reach p := fun p => space ▸ sampleBlock_reach
  have stack : (w.space 1).uvpt ustackPage = some ⟨0, permPrivate⟩ := by
    rw [space, sampleBlock_uvpt]
    rfl
  have block : (w.space 1).uvpt heapPage = some ⟨2, permPrivate ||| pteContinued ||| pteP⟩ := by
    rw [space, sampleBlock_uvpt]
    rfl
  have root : ∀ i, (w.space 1).uvpml4e i = true := by
    intro i
    have present := (reach (i * 512 * 512 * 512)).1
    rwa [Nat.mul_div_cancel _ (by decide), Nat.mul_div_cancel _ (by decide),
      Nat.mul_div_cancel _ (by decide)] at present
  have directories : ∀ i, (w.space 1).uvpde i = true := by
    intro i
    have present := (reach (i * 512 * 512)).2.1
    rwa [Nat.mul_div_cancel _ (by decide), Nat.mul_div_cancel _ (by decide)] at present
  obtain ⟨r, ran⟩ := @fork_some sampleAnswers 1 w 2 ⟨0, permPrivate⟩ rfl (by decide) (by decide)
    (fun _ _ _ _ _ => le_rfl) answered root directories stack
  obtain ⟨source, frame, born⟩ := fork_born (by decide) ran (by decide) answered
  have visits : Visits (w.space 1).toTables ustackPage heapPage :=
    .of_tables reach (by decide) (by decide)
  have given : (r.world.space 2).uvpt heapPage =
      some ⟨2, dupPerm (permPrivate ||| pteContinued ||| pteP) ||| pteP⟩ :=
    born.copied heapPage _ (by decide) (by decide) visits block le_rfl
  have kept := born.marked heapPage _ visits block fun _ => le_rfl
  have wrote := @writeByte_writable sampleAnswers r.world 1 mbegin 1#8 _ kept (by decide)
  have two : 2 < w.next := w.mapped 1 heapPage _ block
  have fresh := born.fresh
  have page : vpn mbegin = heapPage := rfl
  have zero : r.world.mem 2 = fun _ => 0 := by
    rw [born.mem, update_of_ne (by omega), mem 2 (by decide)]
  refine ⟨sampleHeaps, ⟨⟨w, update (fun _ => 0) 1 (mbegin + 5000)⟩, fun e => e = 1⟩,
    ⟨⟨r.world, _⟩, _⟩, ⟨⟨r.world.poke 2 mbegin 1#8, _⟩, _⟩, sampleHeaps_started, ?_, by rfl,
    Option.map_eq_some_iff.mpr ⟨_, ran, rfl⟩, Option.map_eq_some_iff.mpr ⟨_, wrote, rfl⟩, ?_, ?_⟩
  · have stepped : ∀ p live, Heaps.step ⟨p, live⟩ (.malloc sampleAnswers 1 5000) =
        (malloc sampleAnswers 1 5000 p).map fun r => ⟨r.2, live⟩ := fun _ _ => rfl
    unfold sampleHeaps
    rw [stepped, allocated]
    rfl
  · change ((r.world.space 2).uvpt (vpn mbegin)).map
      (fun entry => r.world.mem entry.ppn (pgOff mbegin)) = _
    rw [page, given, Option.map_some, zero]
    rfl
  · change ((r.world.space 2).uvpt (vpn mbegin)).map
      (fun entry => (r.world.poke 2 mbegin 1#8).mem entry.ppn (pgOff mbegin)) = _
    rw [page, given, Option.map_some]
    simp only [World.poke, World.store, update_self]

end Jos
