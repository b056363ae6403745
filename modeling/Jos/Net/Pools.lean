import Jos.Foundation.Links
import Jos.Foundation.Run

/-! The pools of semaphores and mailboxes of net/lwip/jos/arch/sys_arch.c: `sys_init`, and the
functions that take entries from them and give them back. A handle is the index of an entry. -/

set_option autoImplicit false

namespace Jos

open Foundation Function

namespace SysArch

def nsem : Nat := 256
def nmbox : Nat := 128
def mboxSlots : Nat := 32
def sysMboxNull : Int := -1
def sysSemNull : Int := -1

/-- `struct sys_sem_entry`, apart from its link. -/
structure Sem where
  freed : Bool
  gen : BitVec 32
  counter : BitVec 16
  waiters : BitVec 16
deriving DecidableEq, Repr

/-- `struct sys_mbox_entry`, apart from its link and the messages. -/
structure Mbox where
  freed : Bool
  head : Int
  nextq : Int
  queuedMsg : Int
  freeMsg : Int
deriving DecidableEq, Repr

structure Pools where
  sems : Int → Sem
  semFree : Links Int
  mboxes : Int → Mbox
  mboxFree : Links Int

/-- A failed assertion, or an access outside of an array or through a null pointer. -/
inductive Fault where
  | assertion
  | outside
deriving DecidableEq, Repr

/-- An index of an array of `n` entries. -/
def Inside (n : Nat) (i : Int) : Prop := 0 ≤ i ∧ i < n

instance (n : Nat) (i : Int) : Decidable (Inside n i) := inferInstanceAs (Decidable (_ ∧ _))

namespace Pools

def setSem (p : Pools) (i : Int) (sem : Sem) : Pools := { p with sems := update p.sems i sem }

def setMbox (p : Pools) (i : Int) (mbox : Mbox) : Pools :=
  { p with mboxes := update p.mboxes i mbox }

/-- The data of the program before `sys_init`. -/
def zeroed : Pools where
  sems _ := ⟨false, 0, 0, 0⟩
  semFree := .empty
  mboxes _ := ⟨false, 0, 0, 0, 0⟩
  mboxFree := .empty

def initSem (p : Pools) (i : Nat) : Pools :=
  let p := p.setSem i { p.sems i with freed := true }
  { p with semFree := p.semFree.insertHead i }

def initMbox (p : Pools) (i : Nat) : Pools :=
  let p := p.setMbox i { p.mboxes i with freed := true }
  { p with mboxFree := p.mboxFree.insertHead i }

def sysInit : Pools :=
  (List.range nmbox).foldl initMbox ((List.range nsem).foldl initSem zeroed)

def sysSemNew (p : Pools) (count : BitVec 8) : Except Fault (Int × Pools) :=
  match p.semFree.first with
  | none => .ok (sysSemNull, p)
  | some se =>
    match p.semFree.remove se with
    | none => .error .outside
    | some semFree =>
      if ¬(p.sems se).freed then .error .assertion
      else
        let entry := p.sems se
        let p := p.setSem se
          { entry with freed := false, counter := count.setWidth 16, gen := entry.gen + 1 }
        .ok (se, { p with semFree })

def sysSemFree (p : Pools) (sem : Int) : Except Fault Pools :=
  if ¬Inside nsem sem then .error .outside
  else if (p.sems sem).freed then .error .assertion
  else
    let entry := p.sems sem
    let p := p.setSem sem { entry with freed := true, gen := entry.gen + 1 }
    .ok { p with semFree := p.semFree.insertHead sem }

def sysMboxFree (p : Pools) (mbox : Int) : Except Fault Pools :=
  if ¬Inside nmbox mbox then .error .outside
  else if (p.mboxes mbox).freed then .error .assertion
  else do
    let p ← p.sysSemFree (p.mboxes mbox).queuedMsg
    let p ← p.sysSemFree (p.mboxes mbox).freeMsg
    let p := { p with mboxFree := p.mboxFree.insertHead mbox }
    return p.setMbox mbox { p.mboxes mbox with freed := true }

/-- The end of `sys_mbox_new`, with the semaphores for the mailbox `i`. -/
def newSems (p : Pools) (i : Int) : Except Fault (Int × Pools) := do
  let (queuedMsg, p) ← p.sysSemNew 0
  let p := p.setMbox i { p.mboxes i with queuedMsg }
  let (freeMsg, p) ← p.sysSemNew (BitVec.ofNat 8 mboxSlots)
  let p := p.setMbox i { p.mboxes i with freeMsg }
  if queuedMsg = sysSemNull ∨ freeMsg = sysSemNull then do
    let p ← p.sysMboxFree i
    return (sysMboxNull, p)
  else return (i, p)

def sysMboxNew (p : Pools) (size : Int) : Except Fault (Int × Pools) :=
  if ¬size < mboxSlots then .error .assertion
  else
    match p.mboxFree.first with
    | none => .ok (sysMboxNull, p)
    | some mbe =>
      match p.mboxFree.remove mbe with
      | none => .error .outside
      | some mboxFree =>
        if ¬(p.mboxes mbe).freed then .error .assertion
        else
          let p := { p with mboxFree }
          (p.setMbox mbe { p.mboxes mbe with freed := false, head := -1, nextq := 0 }).newSems mbe

end Pools

/-- The pools and the handles that were returned and not given back since. -/
structure World where
  pools : Pools
  sems : List Int
  mboxes : List Int

inductive Request where
  | mboxNew (size : Int)
  | mboxFree (mbox : Int)
  | semNew (count : BitVec 8)
  | semFree (sem : Int)
deriving DecidableEq, Repr

namespace World

def step (w : World) : Request → Option World
  | .mboxNew size =>
    match w.pools.sysMboxNew size with
    | .error _ => none
    | .ok (mbox, pools) =>
      some { w with pools, mboxes := if mbox = sysMboxNull then w.mboxes else mbox :: w.mboxes }
  | .mboxFree mbox =>
    match w.pools.sysMboxFree mbox with
    | .error _ => none
    | .ok pools => some { w with pools, mboxes := w.mboxes.erase mbox }
  | .semNew count =>
    match w.pools.sysSemNew count with
    | .error _ => none
    | .ok (sem, pools) =>
      some { w with pools, sems := if sem = sysSemNull then w.sems else sem :: w.sems }
  | .semFree sem =>
    match w.pools.sysSemFree sem with
    | .error _ => none
    | .ok pools => some { w with pools, sems := w.sems.erase sem }

def start : World := ⟨.sysInit, [], []⟩

def inner (w : World) : List Int :=
  w.mboxes.flatMap fun i => [(w.pools.mboxes i).queuedMsg, (w.pools.mboxes i).freeMsg]

def Enough (w : World) : Prop :=
  (∃ i, Inside nmbox i ∧ (w.pools.mboxes i).freed) →
    ∃ i j, i ≠ j ∧ (Inside nsem i ∧ (w.pools.sems i).freed) ∧ Inside nsem j ∧ (w.pools.sems j).freed

/-- Handles are given back by those who hold them, and a mailbox is asked for only when there are
semaphores for it. -/
def Admitted (w : World) : Request → Prop
  | .mboxNew _ => w.Enough
  | .mboxFree mbox => mbox ∈ w.mboxes
  | .semNew _ => True
  | .semFree sem => sem ∈ w.sems

end World

structure Tracks (n : Nat) (links : Links Int) (freed : Int → Bool) (free : List Int) : Prop where
  lists : links.Lists free
  inside : ∀ i ∈ free, Inside n i
  flag : ∀ i, Inside n i → (i ∈ free ↔ freed i = true)

section Tracks

variable {n : Nat} {links : Links Int} {freed freed' : Int → Bool} {free : List Int} {i : Int}

theorem Tracks.take (tracks : Tracks n links freed (i :: free))
    (flags : ∀ j, freed' j = if j = i then false else freed j) :
    freed i = true ∧ ∃ rest, links.remove i = some rest ∧ Tracks n rest freed' free := by
  obtain ⟨rest, removed, lists⟩ := tracks.lists.remove_first
  have apart := (List.nodup_cons.mp tracks.lists.chain.nodup).1
  have here := tracks.inside i List.mem_cons_self
  refine ⟨(tracks.flag i here).mp List.mem_cons_self, rest, removed, lists, fun j member => ?_,
    fun j inside => ?_⟩
  · exact tracks.inside j (List.mem_cons_of_mem _ member)
  · rw [flags]
    by_cases same : j = i
    · rw [if_pos same, same]
      exact iff_of_false apart nofun
    · rw [if_neg same, ← tracks.flag j inside, List.mem_cons, or_iff_right same]

theorem Tracks.give (tracks : Tracks n links freed free) (here : Inside n i) (fresh : i ∉ free)
    (flags : ∀ j, freed' j = if j = i then true else freed j) :
    freed i = false ∧ Tracks n (links.insertHead i) freed' (i :: free) := by
  refine ⟨Bool.eq_false_iff.mpr ((tracks.flag i here).not.mp fresh), tracks.lists.insertHead fresh,
    fun j member => ?_, fun j inside => ?_⟩
  · cases List.mem_cons.mp member with
    | inl same => exact same ▸ here
    | inr old => exact tracks.inside j old
  · rw [flags, List.mem_cons]
    by_cases same : j = i
    · rw [if_pos same]
      exact iff_of_true (.inl same) rfl
    · rw [if_neg same, ← tracks.flag j inside, or_iff_right same]

end Tracks

namespace Pools

structure Tracked (p : Pools) (sems mboxes : List Int) : Prop where
  sems : Tracks nsem p.semFree (fun i => (p.sems i).freed) sems
  mboxes : Tracks nmbox p.mboxFree (fun i => (p.mboxes i).freed) mboxes

variable {p : Pools} {sems mboxes : List Int} {i sem mbox : Int}

theorem setSem_freed {entry : Sem} {j : Int} : ((p.setSem i entry).sems j).freed =
    if j = i then entry.freed else (p.sems j).freed := by
  change (update p.sems i entry j).freed = _
  rw [update_apply]
  split <;> rfl

theorem setMbox_freed {entry : Mbox} {j : Int} : ((p.setMbox i entry).mboxes j).freed =
    if j = i then entry.freed else (p.mboxes j).freed := by
  change (update p.mboxes i entry j).freed = _
  rw [update_apply]
  split <;> rfl

theorem Tracked.setMbox (tracked : p.Tracked sems mboxes) {entry : Mbox}
    (same : entry.freed = (p.mboxes i).freed) : (p.setMbox i entry).Tracked sems mboxes := by
  refine ⟨tracked.sems, ⟨tracked.mboxes.lists, tracked.mboxes.inside, fun j inside => ?_⟩⟩
  rw [setMbox_freed, tracked.mboxes.flag j inside]
  split
  · case isTrue here => rw [same, here]
  · case isFalse differs => rfl

theorem Tracked.semNew_none (tracked : p.Tracked [] mboxes) {count : BitVec 8} :
    p.sysSemNew count = .ok (sysSemNull, p) := by
  have empty : p.semFree.first = none := tracked.sems.lists.chain
  rw [sysSemNew, empty]

theorem Tracked.semNew_some (tracked : p.Tracked (sem :: sems) mboxes) {count : BitVec 8} :
    ∃ p', p.sysSemNew count = .ok (sem, p') ∧ p'.Tracked sems mboxes ∧ p'.mboxes = p.mboxes := by
  have head : p.semFree.first = some sem := tracked.sems.lists.chain.1
  let entry : Sem := { p.sems sem with
    freed := false, counter := count.setWidth 16, gen := (p.sems sem).gen + 1 }
  obtain ⟨freed, rest, removed, tracks⟩ := tracked.sems.take fun j =>
    @setSem_freed p sem entry j
  refine ⟨{ p.setSem sem entry with semFree := rest }, ?_, ⟨tracks, tracked.mboxes⟩, rfl⟩
  rw [sysSemNew, head]
  dsimp only
  rw [removed]
  exact if_neg (not_not.mpr freed)

theorem Tracked.semFree (tracked : p.Tracked sems mboxes) (inside : Inside nsem sem)
    (fresh : sem ∉ sems) : ∃ p', p.sysSemFree sem = .ok p' ∧ p'.Tracked (sem :: sems) mboxes ∧
      p'.mboxes = p.mboxes := by
  let entry : Sem := { p.sems sem with freed := true, gen := (p.sems sem).gen + 1 }
  obtain ⟨taken, tracks⟩ := tracked.sems.give inside fresh fun j =>
    @setSem_freed p sem entry j
  refine ⟨{ p.setSem sem entry with semFree := p.semFree.insertHead sem }, ?_,
    ⟨tracks, tracked.mboxes⟩, rfl⟩
  rw [sysSemFree, if_neg (not_not.mpr inside), if_neg (Bool.eq_false_iff.mp taken)]
  rfl

def SameSems (p p' : Pools) : Prop :=
  ∀ j, (p'.mboxes j).queuedMsg = (p.mboxes j).queuedMsg ∧ (p'.mboxes j).freeMsg = (p.mboxes j).freeMsg

theorem Tracked.mboxFree (tracked : p.Tracked sems mboxes) (inside : Inside nmbox mbox)
    (fresh : mbox ∉ mboxes) {q f : Int} (queued : (p.mboxes mbox).queuedMsg = q)
    (free : (p.mboxes mbox).freeMsg = f) (first : Inside nsem q ∧ q ∉ sems)
    (second : Inside nsem f ∧ f ∉ sems) (apart : f ≠ q) :
    ∃ p', p.sysMboxFree mbox = .ok p' ∧ p'.Tracked (f :: q :: sems) (mbox :: mboxes) ∧
      SameSems p p' := by
  obtain ⟨p₁, ran₁, tracked₁, same₁⟩ := tracked.semFree first.1 first.2
  obtain ⟨p₂, ran₂, tracked₂, same₂⟩ := tracked₁.semFree second.1
    (List.not_mem_cons_of_ne_of_not_mem apart second.2)
  have same : p₂.mboxes = p.mboxes := same₂.trans same₁
  let entry : Mbox := { p₂.mboxes mbox with freed := true }
  obtain ⟨taken, tracks⟩ := tracked₂.mboxes.give inside fresh fun j =>
    @setMbox_freed p₂ mbox entry j
  refine ⟨{ p₂.setMbox mbox entry with mboxFree := p₂.mboxFree.insertHead mbox }, ?_,
    ⟨tracked₂.sems, tracks⟩, fun j => ?_⟩
  · rw [same] at taken
    rw [sysMboxFree, if_neg (not_not.mpr inside), if_neg (Bool.eq_false_iff.mp taken), queued, ran₁]
    change (p₁.sysSemFree (p₁.mboxes mbox).freeMsg).bind _ = _
    rw [same₁, free, ran₂]
    rfl
  · change (update p₂.mboxes mbox entry j).queuedMsg = _ ∧ (update p₂.mboxes mbox entry j).freeMsg = _
    rw [update_apply, same]
    split
    · case isTrue here => rw [here, ← same]; exact ⟨rfl, rfl⟩
    · case isFalse differs => exact ⟨rfl, rfl⟩

theorem semFree_null : p.sysSemFree sysSemNull = .error .outside := if_pos (by decide)

theorem setMbox_apply {entry : Mbox} {j : Int} : (p.setMbox i entry).mboxes j =
    if j = i then entry else p.mboxes j := update_apply p.mboxes i entry j

/-- The end of `sys_mbox_new`, by what the two calls of `sys_sem_new` return. -/
theorem newSems_eq {q f : Int} {p₁ p₂ : Pools} (first : p.sysSemNew 0 = .ok (q, p₁))
    (second : (p₁.setMbox i { p₁.mboxes i with queuedMsg := q }).sysSemNew
      (BitVec.ofNat 8 mboxSlots) = .ok (f, p₂)) :
    p.newSems i =
      if q = sysSemNull ∨ f = sysSemNull then
        ((p₂.setMbox i { p₂.mboxes i with freeMsg := f }).sysMboxFree i).bind fun p =>
          .ok (sysMboxNull, p)
      else .ok (i, p₂.setMbox i { p₂.mboxes i with freeMsg := f }) := by
  rw [newSems, first]
  change ((p₁.setMbox i { p₁.mboxes i with queuedMsg := q }).sysSemNew
    (BitVec.ofNat 8 mboxSlots)).bind _ = _
  rw [second]
  rfl

theorem Tracked.newSems_enough {a b : Int} (tracked : p.Tracked (a :: b :: sems) mboxes) :
    ∃ p', p.newSems i = .ok (i, p') ∧ p'.Tracked sems mboxes ∧
      (p'.mboxes i).queuedMsg = a ∧ (p'.mboxes i).freeMsg = b ∧
      ∀ j, j ≠ i → p'.mboxes j = p.mboxes j := by
  obtain ⟨p₁, ran₁, tracked₁, same₁⟩ := @Tracked.semNew_some p (b :: sems) mboxes a tracked 0
  let first : Mbox := { p₁.mboxes i with queuedMsg := a }
  have tracked₂ : (p₁.setMbox i first).Tracked (b :: sems) mboxes := tracked₁.setMbox rfl
  obtain ⟨p₃, ran₃, tracked₃, same₃⟩ :=
    @Tracked.semNew_some (p₁.setMbox i first) sems mboxes b tracked₂ (BitVec.ofNat 8 mboxSlots)
  let second : Mbox := { p₃.mboxes i with freeMsg := b }
  have inside (k : Int) (member : k ∈ a :: b :: sems) : k ≠ sysSemNull := by
    rintro rfl
    exact absurd (tracked.sems.inside _ member) (by decide)
  have some : ¬(a = sysSemNull ∨ b = sysSemNull) :=
    not_or.mpr ⟨inside a List.mem_cons_self, inside b (List.mem_cons_of_mem _ List.mem_cons_self)⟩
  have kept : p₃.mboxes i = first := by rw [same₃, setMbox_apply, if_pos rfl]
  refine ⟨p₃.setMbox i second, ?_, tracked₃.setMbox rfl, ?_, ?_, fun j differs => ?_⟩
  · exact (newSems_eq ran₁ ran₃).trans (if_neg some)
  · rw [setMbox_apply, if_pos rfl]
    exact congrArg Mbox.queuedMsg kept
  · rw [setMbox_apply, if_pos rfl]
  · rw [setMbox_apply, if_neg differs, same₃, setMbox_apply, if_neg differs, same₁]

/-- Without a second semaphore, the mailbox is given back with a null handle in it. -/
theorem newSems_fails {q : Int} {p₁ : Pools} (first : p.sysSemNew 0 = .ok (q, p₁))
    (tracked : p₁.Tracked [] mboxes) (inside : Inside nmbox i) (fresh : i ∉ mboxes)
    (queued : q = sysSemNull ∨ Inside nsem q) : p.newSems i = .error .outside := by
  let p₂ := p₁.setMbox i { p₁.mboxes i with queuedMsg := q }
  let p₃ := p₂.setMbox i { p₂.mboxes i with freeMsg := sysSemNull }
  have tracked₂ : p₂.Tracked [] mboxes := tracked.setMbox rfl
  have tracked₃ : p₃.Tracked [] mboxes := tracked₂.setMbox rfl
  have live : (p₃.mboxes i).freed = false :=
    Bool.eq_false_iff.mpr ((tracked₃.mboxes.flag i inside).not.mp fresh)
  have free : (p₃.mboxes i).freeMsg = sysSemNull := by rw [setMbox_apply, if_pos rfl]
  have same : (p₃.mboxes i).queuedMsg = q := by
    rw [setMbox_apply, if_pos rfl]
    change (p₂.mboxes i).queuedMsg = q
    rw [setMbox_apply, if_pos rfl]
  have failed : p₃.sysMboxFree i = .error .outside := by
    rw [sysMboxFree, if_neg (not_not.mpr inside), if_neg (Bool.eq_false_iff.mp live), same]
    cases queued with
    | inl null =>
      rw [null, semFree_null]
      rfl
    | inr index =>
      obtain ⟨p₄, ran, -, kept⟩ := tracked₃.semFree index List.not_mem_nil
      rw [ran]
      change (p₄.sysSemFree (p₄.mboxes i).freeMsg).bind _ = _
      rw [kept, free, semFree_null]
      rfl
  rw [newSems_eq first tracked₂.semNew_none, if_pos (.inr rfl)]
  change (p₃.sysMboxFree i).bind _ = _
  rw [failed]
  rfl

theorem Tracked.newSems_short (tracked : p.Tracked sems mboxes) (inside : Inside nmbox i)
    (fresh : i ∉ mboxes) (short : sems.length < 2) : p.newSems i = .error .outside := by
  cases sems with
  | nil => exact newSems_fails tracked.semNew_none tracked inside fresh (.inl rfl)
  | cons a rest =>
    obtain rfl : rest = [] := List.length_eq_zero_iff.mp (by rw [List.length_cons] at short; omega)
    obtain ⟨p₁, ran, tracked₁, -⟩ := @Tracked.semNew_some p [] mboxes a tracked 0
    exact newSems_fails ran tracked₁ inside fresh (.inr (tracked.sems.inside a List.mem_cons_self))

/-- What `sys_mbox_new` does with the first free mailbox. -/
theorem Tracked.mboxNew_eq {size : Int} (tracked : p.Tracked sems (mbox :: mboxes))
    (fits : size < mboxSlots) :
    ∃ p₁ : Pools, p.sysMboxNew size = p₁.newSems mbox ∧ p₁.Tracked sems mboxes ∧
      ∀ j, j ≠ mbox → p₁.mboxes j = p.mboxes j := by
  have head : p.mboxFree.first = some mbox := tracked.mboxes.lists.chain.1
  let entry : Mbox := { p.mboxes mbox with freed := false, head := -1, nextq := 0 }
  obtain ⟨freed, rest, removed, tracks⟩ := tracked.mboxes.take fun j =>
    @setMbox_freed p mbox entry j
  refine ⟨{ p with mboxFree := rest }.setMbox mbox entry, ?_, ⟨tracked.sems, tracks⟩,
    fun j differs => setMbox_apply.trans (if_neg differs)⟩
  rw [sysMboxNew, if_neg (not_not.mpr fits), head]
  dsimp only
  rw [removed]
  exact if_neg (not_not.mpr freed)

theorem Tracked.mboxNew_none {size : Int} (tracked : p.Tracked sems []) (fits : size < mboxSlots) :
    p.sysMboxNew size = .ok (sysMboxNull, p) := by
  have empty : p.mboxFree.first = none := tracked.mboxes.lists.chain
  rw [sysMboxNew, if_neg (not_not.mpr fits), empty]

end Pools

/-- The indices of an array of `n` entries. -/
def indices (n : Nat) : List Int := (List.range n).map Int.ofNat

theorem mem_indices {n : Nat} {i : Int} : i ∈ indices n ↔ Inside n i := by
  rw [indices, List.mem_map]
  constructor
  · rintro ⟨k, below, rfl⟩
    exact ⟨Int.natCast_nonneg k, Int.ofNat_lt.mpr (List.mem_range.mp below)⟩
  · rintro ⟨least, most⟩
    exact ⟨i.toNat, List.mem_range.mpr (by omega), Int.toNat_of_nonneg least⟩

theorem nodup_indices {n : Nat} : (indices n).Nodup :=
  List.Nodup.map (fun _ _ => Int.ofNat.inj) List.nodup_range

theorem indices_succ {n : Nat} : indices (n + 1) = indices n ++ [(n : Int)] := by
  rw [indices, List.range_succ, List.map_append]
  rfl

theorem tracks_init {σ : Type} {init : σ → Nat → σ} {links : σ → Links Int} {freed : σ → Int → Bool}
    {n : Nat} {s : σ} (inserts : ∀ s i, links (init s i) = (links s).insertHead i)
    (frees : ∀ s i j, freed (init s i) j = if j = (i : Int) then true else freed s j)
    (empty : links s = .empty) (used : ∀ j, freed s j = false) {k : Nat} (bound : k ≤ n) :
    Tracks n (links ((List.range k).foldl init s)) (freed ((List.range k).foldl init s))
      (indices k).reverse := by
  induction k with
  | zero =>
    refine ⟨?_, nofun, fun i _ => iff_of_false List.not_mem_nil ?_⟩
    · exact empty ▸ Links.lists_empty
    · exact Bool.eq_false_iff.mp (used i)
  | succ k ih =>
    have inside : Inside n k := ⟨Int.natCast_nonneg k, Int.ofNat_lt.mpr bound⟩
    have fresh : (k : Int) ∉ (indices k).reverse := fun member =>
      absurd (mem_indices.mp (List.mem_reverse.mp member)).2 (Int.lt_irrefl _)
    rw [List.range_succ, List.foldl_append, List.foldl_cons, List.foldl_nil, inserts, indices_succ,
      List.reverse_append, List.reverse_singleton, List.singleton_append]
    exact ((ih (by omega)).give inside fresh (frees _ k)).2

namespace Pools

theorem foldl_initSem_mboxes {l : List Nat} {p : Pools} :
    (l.foldl initSem p).mboxes = p.mboxes ∧ (l.foldl initSem p).mboxFree = p.mboxFree := by
  induction l generalizing p with
  | nil => exact ⟨rfl, rfl⟩
  | cons i l ih => exact @ih (p.initSem i)

theorem foldl_initMbox_sems {l : List Nat} {p : Pools} :
    (l.foldl initMbox p).sems = p.sems ∧ (l.foldl initMbox p).semFree = p.semFree := by
  induction l generalizing p with
  | nil => exact ⟨rfl, rfl⟩
  | cons i l ih => exact @ih (p.initMbox i)

theorem sysInit_tracked :
    sysInit.Tracked (indices nsem).reverse (indices nmbox).reverse := by
  have sems := @tracks_init Pools initSem (·.semFree) (fun p i => (p.sems i).freed) nsem zeroed
    (fun p i => rfl) (fun p i j => setSem_freed) rfl (fun j => rfl) nsem (Nat.le_refl _)
  obtain ⟨mboxes, empty⟩ := @foldl_initSem_mboxes (List.range nsem) zeroed
  obtain ⟨kept, links⟩ := @foldl_initMbox_sems (List.range nmbox) ((List.range nsem).foldl initSem zeroed)
  refine ⟨?_, ?_⟩
  · rw [sysInit, kept, links]
    exact sems
  · exact @tracks_init Pools initMbox (·.mboxFree) (fun p i => (p.mboxes i).freed) nmbox _
      (fun p i => rfl) (fun p i j => setMbox_freed) empty (fun j => by rw [mboxes]; rfl) nmbox
      (Nat.le_refl _)

end Pools

namespace World

structure Sound (w : World) (sems mboxes : List Int) : Prop where
  tracked : w.pools.Tracked sems mboxes
  sems : (sems ++ (w.sems ++ w.inner)).Perm (indices nsem)
  mboxes : (mboxes ++ w.mboxes).Perm (indices nmbox)

variable {w w' : World} {p : Pools} {sems mboxes : List Int} {sem mbox : Int}

theorem inner_congr (same : ∀ i ∈ w.mboxes, (p.mboxes i).queuedMsg = (w.pools.mboxes i).queuedMsg ∧
    (p.mboxes i).freeMsg = (w.pools.mboxes i).freeMsg) {handles : List Int} :
    inner { w with pools := p, sems := handles } = w.inner :=
  List.flatMap_congr fun i member => by rw [(same i member).1, (same i member).2]

theorem inner_split (held : mbox ∈ w.mboxes) : w.inner.Perm
    ((w.pools.mboxes mbox).queuedMsg :: (w.pools.mboxes mbox).freeMsg ::
      inner ⟨w.pools, w.sems, w.mboxes.erase mbox⟩) :=
  (List.perm_cons_erase held).flatMap_right _

theorem inner_cons {handles rest : List Int} : inner ⟨p, handles, mbox :: rest⟩ =
    (p.mboxes mbox).queuedMsg :: (p.mboxes mbox).freeMsg :: inner ⟨p, handles, rest⟩ := rfl

namespace Sound

section

variable (sound : w.Sound sems mboxes)

include sound

theorem sem_apart {i : Int} (free : i ∈ sems) : i ∉ w.sems ++ w.inner := fun held =>
  (List.nodup_append.mp (sound.sems.nodup_iff.mpr nodup_indices)).2.2 i free i held rfl

theorem mbox_apart {i : Int} (free : i ∈ mboxes) : i ∉ w.mboxes := fun held =>
  (List.nodup_append.mp (sound.mboxes.nodup_iff.mpr nodup_indices)).2.2 i free i held rfl

/-- A semaphore that is held, by its holder or by a mailbox, can be given back. -/
theorem sem_held {i : Int} (held : i ∈ w.sems ++ w.inner) : Inside nsem i ∧ i ∉ sems :=
  ⟨mem_indices.mp (sound.sems.mem_iff.mp (List.mem_append_right _ held)),
    fun free => sound.sem_apart free held⟩

theorem mbox_held {i : Int} (held : i ∈ w.mboxes) : Inside nmbox i ∧ i ∉ mboxes :=
  ⟨mem_indices.mp (sound.mboxes.mem_iff.mp (List.mem_append_right _ held)),
    fun free => sound.mbox_apart free held⟩

theorem mboxFree_ok (held : mbox ∈ w.mboxes) : ∃ p, w.pools.sysMboxFree mbox = .ok p ∧
      p.Tracked ((w.pools.mboxes mbox).freeMsg :: (w.pools.mboxes mbox).queuedMsg :: sems)
        (mbox :: mboxes) ∧ Pools.SameSems w.pools p := by
  obtain ⟨inside, fresh⟩ := sound.mbox_held held
  have split := inner_split held
  have nodup := (List.nodup_append.mp (sound.sems.nodup_iff.mpr nodup_indices)).2.1
  have apart := (List.nodup_cons.mp (split.nodup_iff.mp (List.nodup_append.mp nodup).2.1)).1
  have queued := sound.sem_held (List.mem_append_right _ (split.mem_iff.mpr List.mem_cons_self))
  have free := sound.sem_held (List.mem_append_right _
    (split.mem_iff.mpr (List.mem_cons_of_mem _ List.mem_cons_self)))
  exact sound.tracked.mboxFree inside fresh rfl rfl queued free fun same =>
    apart (same ▸ List.mem_cons_self)

end

theorem semNew (sound : w.Sound (sem :: sems) mboxes) (tracked : p.Tracked sems mboxes)
    (same : p.mboxes = w.pools.mboxes) : Sound ⟨p, sem :: w.sems, w.mboxes⟩ sems mboxes := by
  refine ⟨tracked, ?_, sound.mboxes⟩
  have inner : inner ⟨p, sem :: w.sems, w.mboxes⟩ = w.inner :=
    inner_congr fun i _ => same ▸ ⟨rfl, rfl⟩
  rw [inner]
  exact List.perm_middle.trans sound.sems

theorem semFree (sound : w.Sound sems mboxes) (held : sem ∈ w.sems)
    (tracked : p.Tracked (sem :: sems) mboxes) (same : p.mboxes = w.pools.mboxes) :
    Sound ⟨p, w.sems.erase sem, w.mboxes⟩ (sem :: sems) mboxes := by
  refine ⟨tracked, ?_, sound.mboxes⟩
  have inner : inner ⟨p, w.sems.erase sem, w.mboxes⟩ = w.inner :=
    inner_congr fun i _ => same ▸ ⟨rfl, rfl⟩
  have split : (w.sems ++ w.inner).Perm (sem :: (w.sems.erase sem ++ w.inner)) :=
    (List.perm_cons_erase held).append_right _
  rw [inner]
  exact (List.perm_middle.symm.trans (split.symm.append_left sems)).trans sound.sems

theorem mboxNew {a b : Int} (sound : w.Sound (a :: b :: sems) (mbox :: mboxes))
    (tracked : p.Tracked sems mboxes) (queued : (p.mboxes mbox).queuedMsg = a)
    (free : (p.mboxes mbox).freeMsg = b)
    (same : ∀ j, j ≠ mbox → p.mboxes j = w.pools.mboxes j) :
    Sound ⟨p, w.sems, mbox :: w.mboxes⟩ sems mboxes := by
  have fresh : mbox ∉ w.mboxes := sound.mbox_apart List.mem_cons_self
  have inner : inner ⟨p, w.sems, mbox :: w.mboxes⟩ = a :: b :: w.inner := by
    have old : inner ⟨p, w.sems, w.mboxes⟩ = w.inner := inner_congr fun i member => by
      rw [same i fun equal => fresh (equal ▸ member)]
      exact ⟨rfl, rfl⟩
    rw [inner_cons, queued, free, old]
  refine ⟨tracked, ?_, List.perm_middle.trans sound.mboxes⟩
  rw [inner]
  have out : (w.sems ++ a :: b :: w.inner).Perm (a :: b :: (w.sems ++ w.inner)) :=
    List.perm_middle.trans (List.perm_middle.cons a)
  have moved : (sems ++ a :: b :: (w.sems ++ w.inner)).Perm
      (a :: b :: sems ++ (w.sems ++ w.inner)) :=
    List.perm_middle.trans (List.perm_middle.cons a)
  exact ((out.append_left sems).trans moved).trans sound.sems

theorem mboxFree {q f : Int} (sound : w.Sound sems mboxes) (held : mbox ∈ w.mboxes)
    (queued : (w.pools.mboxes mbox).queuedMsg = q) (free : (w.pools.mboxes mbox).freeMsg = f)
    (tracked : p.Tracked (f :: q :: sems) (mbox :: mboxes)) (same : Pools.SameSems w.pools p) :
    Sound ⟨p, w.sems, w.mboxes.erase mbox⟩ (f :: q :: sems) (mbox :: mboxes) := by
  have split := List.perm_cons_erase held
  have inner : w.inner.Perm (f :: q :: inner ⟨p, w.sems, w.mboxes.erase mbox⟩) := by
    have parts := inner_split held
    have rest : inner ⟨p, w.sems, w.mboxes.erase mbox⟩ =
        inner ⟨w.pools, w.sems, w.mboxes.erase mbox⟩ :=
      List.flatMap_congr fun i _ => by rw [(same i).1, (same i).2]
    rw [queued, free] at parts
    rw [rest]
    exact parts.trans (List.Perm.swap f q _)
  refine ⟨tracked, ?_, ?_⟩
  · have out : (w.sems ++ w.inner).Perm
        (f :: q :: (w.sems ++ World.inner ⟨p, w.sems, w.mboxes.erase mbox⟩)) :=
      (inner.append_left w.sems).trans (List.perm_middle.trans (List.perm_middle.cons f))
    have moved := (out.append_left sems).trans
      (List.perm_middle.trans (List.perm_middle.cons f))
    exact moved.symm.trans sound.sems
  · exact (List.perm_middle.symm.trans (split.symm.append_left mboxes)).trans sound.mboxes

end Sound

structure Conserved (w : World) : Prop where
  sems : ∃ free, Chain w.pools.semFree.next w.pools.semFree.first free ∧
    (∀ i ∈ free, Inside nsem i) ∧ ∀ i, Inside nsem i → (i ∈ free ↔ (w.pools.sems i).freed = true)
  mboxes : ∃ free, Chain w.pools.mboxFree.next w.pools.mboxFree.first free ∧
    (∀ i ∈ free, Inside nmbox i) ∧
    ∀ i, Inside nmbox i → (i ∈ free ↔ (w.pools.mboxes i).freed = true)
  semNew : ∀ count, ∃ sem p, w.pools.sysSemNew count = .ok (sem, p) ∧
    (sem = sysSemNull → p = w.pools) ∧ (sem ≠ sysSemNull → sem ∉ w.sems ∧ sem ∉ w.inner)
  semFree : ∀ sem ∈ w.sems, ∃ p, w.pools.sysSemFree sem = .ok p
  mboxFree : ∀ mbox ∈ w.mboxes, ∃ p, w.pools.sysMboxFree mbox = .ok p

/-- What `sys_mbox_new` promises. -/
def NewMbox (w : World) (size : Int) : Prop :=
  ∃ mbox p, w.pools.sysMboxNew size = .ok (mbox, p) ∧ (mbox = sysMboxNull → p = w.pools) ∧
    (mbox ≠ sysMboxNull → mbox ∉ w.mboxes ∧
      (p.mboxes mbox).queuedMsg ≠ (p.mboxes mbox).freeMsg ∧
      ∀ sem ∈ [(p.mboxes mbox).queuedMsg, (p.mboxes mbox).freeMsg], sem ∉ w.sems ∧ sem ∉ w.inner)

namespace Sound

section

variable (sound : w.Sound sems mboxes)

include sound

theorem enough_iff : w.Enough ↔ mboxes = [] ∨ ∃ a b rest, sems = a :: b :: rest := by
  have semFlag := sound.tracked.sems.flag
  have mboxFlag := sound.tracked.mboxes.flag
  constructor
  · intro enough
    cases mboxes with
    | nil => exact .inl rfl
    | cons mbox rest =>
      have here := sound.tracked.mboxes.inside mbox List.mem_cons_self
      obtain ⟨i, j, apart, first, second⟩ :=
        enough ⟨mbox, here, (mboxFlag mbox here).mp List.mem_cons_self⟩
      have i_mem := (semFlag i first.1).mpr first.2
      have j_mem := (semFlag j second.1).mpr second.2
      refine .inr ?_
      match sems with
      | [] => cases i_mem
      | [a] =>
        exact absurd ((List.mem_singleton.mp i_mem).trans (List.mem_singleton.mp j_mem).symm) apart
      | a :: b :: rest => exact ⟨a, b, rest, rfl⟩
  · rintro (rfl | ⟨a, b, rest, rfl⟩) ⟨i, inside, freed⟩
    · exact absurd ((mboxFlag i inside).mpr freed) List.not_mem_nil
    · have first : a ∈ a :: b :: rest := List.mem_cons_self
      have second : b ∈ a :: b :: rest := List.mem_cons_of_mem _ List.mem_cons_self
      have apart := (List.nodup_cons.mp sound.tracked.sems.lists.chain.nodup).1
      have free {k : Int} (member : k ∈ a :: b :: rest) :
          Inside nsem k ∧ (w.pools.sems k).freed = true :=
        have inside := sound.tracked.sems.inside k member
        ⟨inside, (semFlag k inside).mp member⟩
      exact ⟨a, b, fun same => apart (same ▸ List.mem_cons_self), free first, free second⟩

theorem newMbox_iff {size : Int} (fits : size < mboxSlots) : w.NewMbox size ↔ w.Enough := by
  rw [sound.enough_iff]
  cases mboxes with
  | nil =>
    refine iff_of_true ⟨sysMboxNull, w.pools, ?_, fun _ => rfl, fun some => ?_⟩ (.inl rfl)
    · exact sound.tracked.mboxNew_none fits
    · exact absurd rfl some
  | cons mbox rest =>
    have inside := sound.tracked.mboxes.inside mbox List.mem_cons_self
    have apart := (List.nodup_cons.mp sound.tracked.mboxes.lists.chain.nodup).1
    obtain ⟨p₁, ran, tracked, same⟩ := sound.tracked.mboxNew_eq fits
    constructor
    · rintro ⟨handle, p, ran', -⟩
      by_contra short
      have few : sems.length < 2 := by
        match sems with
        | [] => exact Nat.zero_lt_two
        | [a] => exact Nat.one_lt_two
        | a :: b :: rest => exact absurd (.inr ⟨a, b, rest, rfl⟩) short
      rw [ran, tracked.newSems_short inside apart few] at ran'
      cases ran'
    · rintro (none | ⟨a, b, left, rfl⟩)
      · cases none
      · obtain ⟨p, ran', -, queued, free, -⟩ :=
          @Pools.Tracked.newSems_enough p₁ left rest mbox a b tracked
        have distinct := (List.nodup_cons.mp tracked.sems.lists.chain.nodup).1
        refine ⟨mbox, p, ran.trans ran', fun null => ?_, fun _ => ⟨?_, ?_, fun sem member => ?_⟩⟩
        · exact absurd (null ▸ inside) (by decide)
        · exact sound.mbox_apart List.mem_cons_self
        · rw [queued, free]
          exact fun same => distinct (same ▸ List.mem_cons_self)
        · rw [queued, free] at member
          exact not_or.mp (List.mem_append.not.mp
            (sound.sem_apart (List.mem_append_left left (show sem ∈ [a, b] from member))))

theorem conserved : w.Conserved := by
  refine ⟨⟨sems, sound.tracked.sems.lists.chain, sound.tracked.sems.inside,
    sound.tracked.sems.flag⟩, ⟨mboxes, sound.tracked.mboxes.lists.chain,
    sound.tracked.mboxes.inside, sound.tracked.mboxes.flag⟩, fun count => ?_, fun sem held => ?_,
    fun mbox held => ?_⟩
  · cases sems with
    | nil =>
      exact ⟨sysSemNull, w.pools, sound.tracked.semNew_none, fun _ => rfl, fun some =>
        absurd rfl some⟩
    | cons sem rest =>
      obtain ⟨p, ran, -, -⟩ := @Pools.Tracked.semNew_some w.pools rest mboxes sem sound.tracked count
      refine ⟨sem, p, ran, fun null => ?_, fun _ => ?_⟩
      · exact absurd (null ▸ sound.tracked.sems.inside sem List.mem_cons_self) (by decide)
      · exact not_or.mp (List.mem_append.not.mp (sound.sem_apart List.mem_cons_self))
  · obtain ⟨inside, fresh⟩ := sound.sem_held (List.mem_append_left _ held)
    obtain ⟨p, ran, -, -⟩ := sound.tracked.semFree inside fresh
    exact ⟨p, ran⟩
  · obtain ⟨p, ran, -⟩ := sound.mboxFree_ok held
    exact ⟨p, ran⟩

theorem step {request : Request} (admitted : w.Admitted request)
    (stepped : w.step request = some w') : ∃ sems' mboxes', w'.Sound sems' mboxes' := by
  cases request with
  | mboxNew size =>
    by_cases fits : size < mboxSlots
    · cases mboxes with
      | nil =>
        rw [World.step, sound.tracked.mboxNew_none fits] at stepped
        cases stepped
        exact ⟨_, _, sound⟩
      | cons mbox rest =>
        have inside := sound.tracked.mboxes.inside mbox List.mem_cons_self
        obtain ⟨p₁, ran, tracked, same⟩ := sound.tracked.mboxNew_eq fits
        obtain ⟨a, b, left, rfl⟩ := (sound.enough_iff.mp admitted).resolve_left nofun
        obtain ⟨p, ran', tracked', queued, free, same'⟩ :=
          @Pools.Tracked.newSems_enough p₁ left rest mbox a b tracked
        have some : mbox ≠ sysMboxNull := fun null => absurd (null ▸ inside) (by decide)
        rw [World.step, ran, ran'] at stepped
        cases stepped
        rw [if_neg some]
        exact ⟨left, rest, sound.mboxNew tracked' queued free fun j differs =>
          (same' j differs).trans (same j differs)⟩
    · rw [World.step, Pools.sysMboxNew, if_pos fits] at stepped
      cases stepped
  | mboxFree mbox =>
    obtain ⟨p, ran, tracked, same⟩ := sound.mboxFree_ok admitted
    rw [World.step, ran] at stepped
    cases stepped
    exact ⟨_, _, sound.mboxFree admitted rfl rfl tracked same⟩
  | semNew count =>
    cases sems with
    | nil =>
      rw [World.step, sound.tracked.semNew_none] at stepped
      cases stepped
      exact ⟨_, _, sound⟩
    | cons sem rest =>
      have inside := sound.tracked.sems.inside sem List.mem_cons_self
      obtain ⟨p, ran, tracked, same⟩ :=
        @Pools.Tracked.semNew_some w.pools rest mboxes sem sound.tracked count
      have some : sem ≠ sysSemNull := fun null => absurd (null ▸ inside) (by decide)
      rw [World.step, ran] at stepped
      cases stepped
      rw [if_neg some]
      exact ⟨rest, mboxes, sound.semNew tracked same⟩
  | semFree sem =>
    obtain ⟨inside, fresh⟩ := sound.sem_held (List.mem_append_left _ admitted)
    obtain ⟨p, ran, tracked, same⟩ := sound.tracked.semFree inside fresh
    rw [World.step, ran] at stepped
    cases stepped
    exact ⟨_, _, sound.semFree admitted tracked same⟩

end

end Sound

theorem start_sound : start.Sound (indices nsem).reverse (indices nmbox).reverse := by
  refine ⟨Pools.sysInit_tracked, ?_, ?_⟩
  · rw [show start.sems ++ start.inner = [] from rfl, List.append_nil]
    exact List.reverse_perm _
  · rw [show start.mboxes = [] from rfl, List.append_nil]
    exact List.reverse_perm _

/-- In every run that asks for no mailbox without semaphores for it, the free lists and the flags
agree, handles are given out once, and what fails changes nothing. The next mailbox keeps to that
exactly if there is none or there are semaphores for it. -/
theorem pools_conserved (reached : Reachable (· = start) step Admitted w) :
    w.Conserved ∧ ∀ size : Int, size < mboxSlots → (w.NewMbox size ↔ w.Enough) := by
  obtain ⟨sems, mboxes, sound⟩ : ∃ sems mboxes, w.Sound sems mboxes := by
    refine reached.invariant (fun w => ∃ sems mboxes, w.Sound sems mboxes) ?_ ?_
    · rintro w rfl
      exact ⟨_, _, start_sound⟩
    · rintro before request after ⟨sems, mboxes, sound⟩ admitted stepped
      exact sound.step admitted stepped
  exact ⟨sound.conserved, fun size fits => sound.newMbox_iff fits⟩

/-- Right after `sys_init` there are semaphores for a mailbox. -/
theorem start_conserved : start.Conserved ∧
    ∀ size : Int, size < mboxSlots → (start.NewMbox size ↔ start.Enough) :=
  pools_conserved ⟨start, [], rfl, .nil⟩

theorem Sound.drain (sound : w.Sound sems mboxes) :
    ∃ w' requests, Along World.step Admitted w requests w' ∧ w'.Sound [] mboxes := by
  induction sems generalizing w with
  | nil => exact ⟨w, [], .nil, sound⟩
  | cons sem rest ih =>
    have inside := sound.tracked.sems.inside sem List.mem_cons_self
    obtain ⟨p, ran, tracked, same⟩ :=
      @Pools.Tracked.semNew_some w.pools rest mboxes sem sound.tracked 0
    have some : sem ≠ sysSemNull := fun null => absurd (null ▸ inside) (by decide)
    have stepped : w.step (.semNew 0) = Option.some ⟨p, sem :: w.sems, w.mboxes⟩ := by
      rw [World.step, ran]
      dsimp only
      rw [if_neg some]
    obtain ⟨w', requests, along, sound'⟩ := ih (sound.semNew tracked same)
    have first : Along World.step Admitted w [.semNew 0] ⟨p, sem :: w.sems, w.mboxes⟩ :=
      Along.nil.snoc trivial stepped
    exact ⟨w', _, first.trans along, sound'⟩

/-- With no semaphore left, a mailbox gives back the null handle. -/
theorem exhausted : ∃ w, Reachable (· = start) step Admitted w ∧
    w.pools.sysMboxNew 0 = .error .outside ∧ ¬w.NewMbox 0 := by
  obtain ⟨w, requests, along, sound⟩ := start_sound.drain
  have some : ∃ mbox rest, (indices nmbox).reverse = mbox :: rest :=
    List.exists_cons_of_ne_nil (by decide)
  obtain ⟨mbox, rest, same⟩ := some
  rw [same] at sound
  obtain ⟨p, ran, tracked, -⟩ := sound.tracked.mboxNew_eq (show (0 : Int) < mboxSlots by decide)
  have inside := sound.tracked.mboxes.inside mbox List.mem_cons_self
  have apart := (List.nodup_cons.mp sound.tracked.mboxes.lists.chain.nodup).1
  have failed := ran.trans (tracked.newSems_short inside apart Nat.zero_lt_two)
  refine ⟨w, ⟨start, requests, rfl, along⟩, failed, ?_⟩
  rintro ⟨handle, p', ran', -⟩
  cases failed.symm.trans ran'

end World

end SysArch

end Jos
