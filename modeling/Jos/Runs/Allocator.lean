import Jos.Runs.SelfMap

/-! The page allocator by itself: `page_alloc` and `page_free` of kern/pmap.c
after `page_init`, called by whoever holds pages. -/

set_option autoImplicit false

namespace Jos

open Foundation

variable {npages : Nat}

def Platform.Reserved (platform : Platform npages) (page : Fin npages) : Prop :=
  page.val = 0 ∨ page.val = mpentryPaddr / pgSize ∨
    ioPhysMem / pgSize ≤ page.val ∧ page.val < extPhysMem / pgSize ∨
    extPhysMem / pgSize ≤ page.val ∧ page.val < platform.kernE ∨
    platform.bootPts ≤ page.val ∧ page.val ≤ platform.bootPts + 4

/-- `kern/kernel.ld` links the image at EXTPHYSMEM. -/
def Platform.Linked (platform : Platform npages) : Prop :=
  extPhysMem / pgSize ≤ platform.bootPts

theorem Platform.reserved_iff {platform : Platform npages} (linked : platform.Linked)
    {page : Fin npages} : platform.Reserved page ↔ page ∉ platform.initialFree := by
  have hole := platform.hole
  have image := platform.image
  have order := platform.kernEnd_lt
  have low : ioPhysMem / pgSize = 160 := by decide
  have extended : extPhysMem / pgSize = 256 := by decide
  have entry : mpentryPaddr / pgSize = 7 := by decide
  rw [Platform.Linked, extended] at linked
  rw [platform.mem_initialFree, Platform.managed, Set.mem_ofPred_eq, Platform.Reserved, low,
    extended, entry]
  omega

theorem Platform.length_initialFree (platform : Platform npages) :
    platform.initialFree.length = 158 + (npages - platform.kernE) := by
  have room : platform.kernE < npages := platform.room
  have hole := platform.hole
  have image := platform.image
  have order := platform.kernEnd_lt
  have low : ioPhysMem / pgSize = 160 := by decide
  rw [Platform.initialFree, List.length_append, List.length_append, length_cellRange (by omega),
    length_cellRange (by omega), length_cellRange (by omega)]
  omega

/-- The allocator, and the pages that it has handed out and not got back. -/
structure Allocator (npages : Nat) where
  pmap : Pmap npages
  handed : List (Fin npages)

inductive AllocatorCall (npages : Nat) where
  | alloc (allocZero : Bool)
  | free (pp : Fin npages)
  /-- The holder of a page sets its reference count. -/
  | count (pp : Fin npages) (ref : BitVec 16)
deriving DecidableEq, Repr

namespace Allocator

def step (s : Allocator npages) : AllocatorCall npages → Option (Allocator npages)
  | .alloc allocZero =>
    match pageAlloc s.pmap allocZero with
    | none => some s
    | some (page, m) => some ⟨m, page :: s.handed⟩
  | .free pp => (pageFree s.pmap pp).map fun m => ⟨m, s.handed.erase pp⟩
  | .count pp ref => some { s with pmap := s.pmap.setRef pp ref }

/-- Callers free and count only pages that they hold, and free none that is
still referred to. -/
def Admitted (s : Allocator npages) : AllocatorCall npages → Prop
  | .alloc _ => True
  | .free pp => pp ∈ s.handed ∧ (s.pmap.pages pp).ppRef = 0
  | .count pp _ => pp ∈ s.handed

/-- What `page_init` leaves, whatever was in `pages` before. -/
def Started (platform : Platform npages) (s : Allocator npages) : Prop :=
  s.handed = [] ∧ ∃ m, pageInit m platform.kernE platform.bootPts = some s.pmap

/-- The pages that are free and those that are held are together the pages that
the list had at first, and a page that is held has no link. -/
structure Ruled (platform : Platform npages) (s : Allocator npages)
    (free : List (Fin npages)) : Prop where
  chain : s.pmap.FreeList free
  all : (free ++ s.handed).Perm platform.initialFree
  unlinked : ∀ page ∈ s.handed, (s.pmap.pages page).ppLink = none

variable {platform : Platform npages} {s s' : Allocator npages} {free : List (Fin npages)}

theorem Started.ruled (started : s.Started platform) : s.Ruled platform platform.initialFree := by
  obtain ⟨none_handed, m, inited⟩ := started
  obtain ⟨m', inited', head, -, -, pages⟩ := pageInit_eq platform m
  cases inited.symm.trans inited'
  refine ⟨(platform.pool head pages).chain, ?_, ?_⟩
  · rw [none_handed, List.append_nil]
  · rw [none_handed]
    exact nofun

namespace Ruled

section

variable (ruled : s.Ruled platform free)

include ruled

theorem nodup : (free ++ s.handed).Nodup := by
  have first : platform.initialFree.Nodup := by
    obtain ⟨m, -, head, -, -, pages⟩ := pageInit_eq platform s.pmap
    exact (platform.pool head pages).chain.nodup
  exact ruled.all.nodup_iff.mpr first

theorem apart {page : Fin npages} (listed : page ∈ free) : page ∉ s.handed := fun held =>
  (List.nodup_append.mp ruled.nodup).2.2 page listed page held rfl

theorem alloc_none {allocZero : Bool} (ran : pageAlloc s.pmap allocZero = none) : free = [] := by
  have empty : s.pmap.pageFreeList = none := by
    unfold pageAlloc at ran
    split at ran
    · assumption
    · cases ran
  exact ruled.chain.functional (chain_nil.mpr empty)

theorem alloc_some {allocZero : Bool} {page : Fin npages}
    {m : Pmap npages} (ran : pageAlloc s.pmap allocZero = some (page, m)) :
    ∃ rest, free = page :: rest ∧ Ruled platform ⟨m, page :: s.handed⟩ rest := by
  obtain ⟨rest, rfl, rfl, chain⟩ := ruled.chain.pageAlloc ran
  refine ⟨rest, rfl, chain, List.perm_middle.trans ruled.all, fun other held => ?_⟩
  change ((s.pmap.take page allocZero).pages other).ppLink = none
  rw [Pmap.take_link]
  split
  · rfl
  · rename_i differs
    exact ruled.unlinked other ((List.mem_cons.mp held).resolve_left differs)

theorem insert {pp : Fin npages} (held : pp ∈ s.handed) (unused : (s.pmap.pages pp).ppRef = 0) :
    ∃ m, pageFree s.pmap pp = some m ∧ Ruled platform ⟨m, s.handed.erase pp⟩ (pp :: free) := by
  have bare := ruled.unlinked pp held
  have fresh : pp ∉ free := fun listed => ruled.apart listed held
  have all : (pp :: free ++ s.handed.erase pp).Perm platform.initialFree := by
    refine List.Perm.trans ?_ ruled.all
    rw [List.cons_append]
    exact List.perm_middle.symm.trans ((List.perm_cons_erase held).symm.append_left free)
  have other {page : Fin npages} (left : page ∈ s.handed.erase pp) : page ≠ pp := by
    rintro rfl
    have distinct := (List.nodup_append.mp ruled.nodup).2.1
    exact distinct.not_mem_erase left
  refine ⟨insertAtBegining s.pmap pp, ?_, ?_⟩
  · rw [pageFree, if_neg (by simp [unused]), if_neg (by simp [bare])]
  · cases here : s.pmap.pageFreeList with
    | none =>
      -- the node keeps its own link, which is null
      obtain rfl : free = [] := ruled.chain.functional (chain_nil.mpr here)
      have stored : insertAtBegining s.pmap pp = { s.pmap with pageFreeList := some pp } := by
        rw [insertAtBegining, here]
      rw [stored]
      exact ⟨⟨rfl, bare⟩, all, fun page left =>
        ruled.unlinked page (List.mem_of_mem_erase left)⟩
    | some head =>
      have stored : insertAtBegining s.pmap pp =
          { s.pmap.setLink pp (some head) with pageFreeList := some pp } := by
        rw [insertAtBegining, here]
      rw [stored]
      refine ⟨ruled.chain.push fresh ?_ fun old differs => ?_, all, fun page left => ?_⟩
      · change ((s.pmap.setLink pp (some head)).pages pp).ppLink = s.pmap.pageFreeList
        rw [Pmap.setLink_link, if_pos rfl, here]
      · change ((s.pmap.setLink pp (some head)).pages old).ppLink = _
        rw [Pmap.setLink_link, if_neg differs]
      · change ((s.pmap.setLink pp (some head)).pages page).ppLink = none
        rw [Pmap.setLink_link, if_neg (other left)]
        exact ruled.unlinked page (List.mem_of_mem_erase left)

theorem step {call : AllocatorCall npages} (admitted : s.Admitted call) :
    ∃ s' free', s.step call = some s' ∧ s'.Ruled platform free' := by
  cases call with
  | alloc allocZero =>
    cases ran : pageAlloc s.pmap allocZero with
    | none =>
      refine ⟨s, free, ?_, ruled⟩
      rw [Allocator.step, ran]
    | some result =>
      obtain ⟨page, m⟩ := result
      obtain ⟨rest, -, ruled'⟩ := ruled.alloc_some ran
      refine ⟨⟨m, page :: s.handed⟩, rest, ?_, ruled'⟩
      rw [Allocator.step, ran]
  | free pp =>
    obtain ⟨m, ran, ruled'⟩ := ruled.insert admitted.1 admitted.2
    refine ⟨_, _, ?_, ruled'⟩
    rw [Allocator.step, ran, Option.map_some]
  | count pp ref =>
    refine ⟨_, free, rfl, ?_, ruled.all, fun page held => ?_⟩
    · exact ruled.chain.congr fun page _ => Pmap.setRef_link
    · exact Pmap.setRef_link.trans (ruled.unlinked page held)

end

end Ruled

/-- In every run in which only held pages are freed, no page is handed out twice,
no reserved page is handed out, none is lost, and no call panics. -/
theorem allocates_once (linked : platform.Linked)
    (reached : Reachable (Started platform) Allocator.step Admitted s) :
    (∀ allocZero page m, pageAlloc s.pmap allocZero = some (page, m) →
      page ∉ s.handed ∧ ¬ platform.Reserved page) ∧
    (∀ allocZero, pageAlloc s.pmap allocZero = none →
      ∀ page, ¬ platform.Reserved page → page ∈ s.handed) ∧
    (∃ free, s.pmap.FreeList free ∧
      free.length + s.handed.length = 158 + (npages - platform.kernE)) ∧
    ∀ call, s.Admitted call → ∃ s', s.step call = some s' := by
  obtain ⟨free, ruled⟩ : ∃ free, s.Ruled platform free := by
    refine reached.invariant (fun s => ∃ free, s.Ruled platform free)
      (fun start started => ⟨_, started.ruled⟩) ?_
    rintro before call after ⟨free, ruled⟩ admitted stepped
    obtain ⟨after', free', stepped', ruled'⟩ := ruled.step admitted
    cases stepped.symm.trans stepped'
    exact ⟨free', ruled'⟩
  refine ⟨fun allocZero page m ran => ?_, fun allocZero ran page allocatable => ?_,
    ⟨free, ruled.chain, ?_⟩, fun call admitted => ?_⟩
  · obtain ⟨rest, rfl, -⟩ := ruled.alloc_some ran
    refine ⟨ruled.apart List.mem_cons_self, fun reserved => ?_⟩
    exact (Platform.reserved_iff linked).mp reserved (ruled.all.mem_iff.mp (by simp))
  · obtain rfl := ruled.alloc_none ran
    have member : page ∈ platform.initialFree :=
      of_not_not fun outside => allocatable ((Platform.reserved_iff linked).mpr outside)
    exact ruled.all.mem_iff.mpr member
  · rw [← platform.length_initialFree, ← ruled.all.length_eq, List.length_append]
  · obtain ⟨s', -, stepped, -⟩ := ruled.step admitted
    exact ⟨s', stepped⟩

theorem sample_allocates_once : ∃ s : Allocator 4096,
    Reachable (Started sample) Allocator.step Admitted s ∧
      (∀ allocZero page m, pageAlloc s.pmap allocZero = some (page, m) →
        page ∉ s.handed ∧ ¬ sample.Reserved page) ∧
      (∀ allocZero, pageAlloc s.pmap allocZero = none →
        ∀ page, ¬ sample.Reserved page → page ∈ s.handed) ∧
      (∃ free, s.pmap.FreeList free ∧
        free.length + s.handed.length = 158 + (4096 - sample.kernE)) ∧
      ∀ call, s.Admitted call → ∃ s', s.step call = some s' := by
  obtain ⟨k, -, -, -⟩ := sample_booted
  obtain ⟨m, inited, -⟩ := pageInit_eq sample k.pmap
  have reached : Reachable (Started sample) Allocator.step Admitted ⟨m, []⟩ :=
    ⟨⟨m, []⟩, [], ⟨rfl, _, inited⟩, .nil⟩
  exact ⟨_, reached, allocates_once (by decide : extPhysMem / pgSize ≤ 257) reached⟩

end Allocator

end Jos
