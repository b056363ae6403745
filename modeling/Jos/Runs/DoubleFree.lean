import Jos.Runs.Allocator

/-! `page_free` on a page that is free. It panics if the link of the page is not null, which says
nothing of the last page on the list. -/

set_option autoImplicit false

namespace Jos

open Foundation

variable {npages : Nat}

inductive PageCall (npages : Nat) where
  | alloc (allocZero : Bool)
  | free (pp : Fin npages)
deriving DecidableEq, Repr

def pageStep (m : Pmap npages) : PageCall npages → Option (Pmap npages)
  | .alloc allocZero =>
    match pageAlloc m allocZero with
    | none => some m
    | some (_, m) => some m
  | .free pp => pageFree m pp

/-- `pp` ends `page_free_list`. -/
def Pmap.Last (m : Pmap npages) (pp : Fin npages) : Prop :=
  ∃ free, m.FreeList free ∧ free.getLast? = some pp

def PageCall.Safe (m : Pmap npages) : PageCall npages → Prop
  | .alloc _ => True
  | .free pp => ¬m.Last pp

/-- What `page_init` leaves. -/
def PageInited (platform : Platform npages) (m : Pmap npages) : Prop :=
  ∃ before, pageInit before platform.kernE platform.bootPts = some m

structure Pmap.Listed (m : Pmap npages) (free : List (Fin npages)) : Prop where
  chain : m.FreeList free
  unused : ∀ page, (m.pages page).ppRef = 0

section
variable {platform : Platform npages} {m m' : Pmap npages} {free : List (Fin npages)}
  {pp : Fin npages}

theorem PageInited.listed (inited : PageInited platform m) : m.Listed platform.initialFree := by
  obtain ⟨before, ran⟩ := inited
  obtain ⟨m', ran', head, -, -, pages⟩ := pageInit_eq platform before
  cases ran.symm.trans ran'
  exact ⟨(platform.pool head pages).chain, fun page => (pages page).1⟩

namespace Pmap.Listed

theorem last_iff (listed : m.Listed free) : m.Last pp ↔ free.getLast? = some pp := by
  constructor
  · rintro ⟨free', chain, last⟩
    rwa [listed.chain.functional chain]
  · intro last
    exact ⟨free, listed.chain, last⟩

theorem free_unlinked (listed : m.Listed free) (bare : (m.pages pp).ppLink = none) :
    pageFree m pp = some (insertAtBegining m pp) := by
  rw [pageFree, if_neg (not_not.mpr (listed.unused pp)), bare]
  rfl

theorem free_linked {next : Fin npages} (linked : (m.pages pp).ppLink = some next) :
    pageFree m pp = none := by
  rw [pageFree, linked]
  exact ite_self none

section

variable (listed : m.Listed free)

include listed

theorem insert (bare : (m.pages pp).ppLink = none) (fresh : pp ∉ free) :
    (insertAtBegining m pp).Listed (pp :: free) := by
  refine ⟨?_, fun page => insertAtBegining_ref.trans (listed.unused page)⟩
  rw [FreeList, insertAtBegining_list]
  refine listed.chain.push fresh ?_ fun old differs => ?_
  · rw [insertAtBegining_link bare, if_pos rfl]
  · rw [insertAtBegining_link bare, if_neg differs]

/-- The last page of the list is linked to the first one, and no page is the last any more. -/
theorem insert_last (last : free.getLast? = some pp) :
    ¬∃ free', (insertAtBegining m pp).FreeList free' := by
  rintro ⟨free', chain⟩
  have member : pp ∈ free := List.mem_of_getLast? last
  have bare := (listed.chain.next_eq_none_iff member).mpr last
  obtain ⟨head, rest, rfl⟩ := List.exists_cons_of_ne_nil (List.ne_nil_of_mem member)
  have here : m.pageFreeList = some head := listed.chain.1
  rw [FreeList, insertAtBegining_list] at chain
  refine not_chain_of_closed (fun old among => ?_) member chain
  rw [insertAtBegining_link bare, here]
  by_cases same : old = pp
  · exact ⟨head, List.mem_cons_self, if_pos same⟩
  · have inner : (m.pages old).ppLink ≠ none := fun none =>
      same (Option.some.inj (((listed.chain.next_eq_none_iff among).mp none).symm.trans last))
    obtain ⟨after, linked⟩ := Option.ne_none_iff_exists'.mp inner
    exact ⟨after, listed.chain.next_mem among linked, (if_neg same).trans linked⟩

theorem free_iff (member : pp ∈ free) : pageFree m pp = none ↔ free.getLast? ≠ some pp := by
  have ends := listed.chain.next_eq_none_iff member
  cases linked : (m.pages pp).ppLink with
  | none =>
    rw [listed.free_unlinked linked]
    exact iff_of_false nofun (not_not.mpr (ends.mp linked))
  | some next =>
    rw [free_linked linked]
    exact iff_of_true rfl (fun last => nomatch linked.symm.trans (ends.mpr last))

/-- A call that returns leaves a list that ends, unless the page was the last one. -/
theorem freed (ran : pageFree m pp = some m')
    (inner : free.getLast? ≠ some pp) : m'.Listed (pp :: free) := by
  have fresh : pp ∉ free := fun member => by
    rw [(listed.free_iff member).mpr inner] at ran
    cases ran
  cases linked : (m.pages pp).ppLink with
  | none =>
    cases (listed.free_unlinked linked).symm.trans ran
    exact listed.insert linked fresh
  | some next =>
    rw [free_linked linked] at ran
    cases ran

theorem loses_iff : (∃ m', pageFree m pp = some m' ∧ ¬∃ free', m'.FreeList free') ↔
      free.getLast? = some pp := by
  constructor
  · rintro ⟨m', ran, lost⟩
    by_contra inner
    exact lost ⟨_, (listed.freed ran inner).chain⟩
  · intro last
    have member : pp ∈ free := List.mem_of_getLast? last
    have bare := (listed.chain.next_eq_none_iff member).mpr last
    exact ⟨_, listed.free_unlinked bare, listed.insert_last last⟩

theorem alloc {allocZero : Bool} {page : Fin npages}
    (ran : pageAlloc m allocZero = some (page, m')) : ∃ rest, m'.Listed rest := by
  obtain ⟨rest, -, rfl, chain⟩ := listed.chain.pageAlloc ran
  exact ⟨rest, chain, fun other => Pmap.take_ref.trans (listed.unused other)⟩

theorem step {call : PageCall npages} (safe : call.Safe m)
    (ran : pageStep m call = some m') : ∃ free', m'.Listed free' := by
  cases call with
  | alloc allocZero =>
    rw [pageStep] at ran
    cases allocated : pageAlloc m allocZero with
    | none =>
      rw [allocated] at ran
      cases ran
      exact ⟨free, listed⟩
    | some result =>
      obtain ⟨page, after⟩ := result
      rw [allocated] at ran
      cases ran
      exact listed.alloc allocated
  | free pp => exact ⟨_, listed.freed ran (listed.last_iff.not.mp safe)⟩

end

end Pmap.Listed

/-- As long as the last page of the list is not freed, the list ends and has no page twice; freeing
any other page of it panics, and freeing the last one makes it a ring. -/
theorem double_free_iff (reached : Reachable (PageInited platform) pageStep PageCall.Safe m) :
    ∃ free, m.FreeList free ∧ free.Nodup ∧
      (∀ pp ∈ free, pageFree m pp = none ↔ free.getLast? ≠ some pp) ∧
      ∀ pp, (∃ m', pageFree m pp = some m' ∧ ¬∃ free', m'.FreeList free') ↔
        free.getLast? = some pp := by
  obtain ⟨free, listed⟩ : ∃ free, m.Listed free := by
    refine reached.invariant (fun m => ∃ free, m.Listed free) (fun m inited => ?_) ?_
    · exact ⟨_, inited.listed⟩
    · rintro before call after ⟨free, listed⟩ safe ran
      exact listed.step safe ran
  exact ⟨free, listed.chain, listed.chain.nodup, fun pp => listed.free_iff,
    fun pp => listed.loses_iff⟩

theorem sample_double_free : ∃ m : Pmap 4096,
    Reachable (PageInited sample) pageStep PageCall.Safe m ∧
      ∃ free, m.FreeList free ∧ free.Nodup ∧
        (∀ pp ∈ free, pageFree m pp = none ↔ free.getLast? ≠ some pp) ∧
        ∀ pp, (∃ m', pageFree m pp = some m' ∧ ¬∃ free', m'.FreeList free') ↔
          free.getLast? = some pp := by
  obtain ⟨k, -, -, -⟩ := sample_booted
  obtain ⟨m, inited, -⟩ := pageInit_eq sample k.pmap
  have reached : Reachable (PageInited sample) pageStep PageCall.Safe m :=
    ⟨m, [], ⟨_, inited⟩, .nil⟩
  exact ⟨m, reached, double_free_iff reached⟩

/-- Freed right after `page_init`, the last page of the memory makes the list a ring. -/
theorem sample_ring : ∃ m m' : Pmap 4096, PageInited sample m ∧ 4095 ∈ sample.initialFree ∧
    m.FreeList sample.initialFree ∧ pageFree m 4095 = some m' ∧ ¬∃ free, m'.FreeList free := by
  obtain ⟨k, -, -, -⟩ := sample_booted
  obtain ⟨m, inited, -, -, -, pages⟩ := pageInit_eq sample k.pmap
  have started : PageInited sample m := ⟨_, inited⟩
  have room : sample.kernE < 4096 := sample.room
  have member : (4095 : Fin 4096) ∈ sample.initialFree :=
    sample.mem_initialFree.mpr (.inr (by change sample.kernE ≤ 4095; omega))
  have bare : (m.pages 4095).ppLink = none := by
    rw [(pages 4095).2]
    decide
  have listed := started.listed
  have last := (listed.chain.next_eq_none_iff member).mp bare
  obtain ⟨m', ran, lost⟩ := listed.loses_iff.mpr last
  exact ⟨m, m', started, member, listed.chain, ran, lost⟩

end

end Jos
