import Jos.Lib.Socket

/-! The end of file of a pipe that several environments share: `dup`, `close`, `fork`
and `spawn` change the mappings of its pages one system call at a time, while
`_pipeisclosed` of lib/pipe.c loads their reference counts. -/

set_option autoImplicit false

namespace Jos

open Foundation Function Sockets

namespace Eof

inductive End where
  | reader
  | writer
deriving DecidableEq, Repr

def End.other : End → End
  | .reader => .writer
  | .writer => .reader

/-- A page that `fork` and `spawn` copy to the child. -/
inductive Copied where
  | fd (i : Fin maxFd)
  | data (i : Fin maxFd)
deriving DecidableEq, Repr

/-- `fork` goes from USTACKTOP down: the data pages lie above the descriptors. -/
def forkOrder : List Copied :=
  (List.finRange maxFd).reverse.map Copied.data ++ (List.finRange maxFd).reverse.map Copied.fd

/-- `copy_shared_pages` goes from UTEXT up. -/
def spawnOrder : List Copied :=
  (List.finRange maxFd).map Copied.fd ++ (List.finRange maxFd).map Copied.data

/-- A count that `_pipeisclosed` has loaded, and at which descriptors the opposite
end was open then. -/
structure Sample where
  ref : BitVec 16
  opposite : Finset Descriptor
deriving DecidableEq

inductive Place where
  | idle
  /-- `dup` has mapped the data page. -/
  | dupping (pipeEnd : End) (target : Fin maxFd)
  /-- `devpipe_close` has unmapped the descriptor page. -/
  | closing (fd : Fin maxFd)
  | copying (child : EnvIdx) (left : List Copied)
  /-- At the head of the loop of `_pipeisclosed`. -/
  | asking (pipeEnd : End)
  /-- `n` has been loaded when the environment had been run so often, and perhaps the
  two counts. -/
  | loaded (pipeEnd : End) (runs : Nat) (fd page : Option Sample)
deriving DecidableEq

inductive Life where
  | free
  /-- The parent has not made it runnable yet. -/
  | made (parent : EnvIdx)
  | ready
deriving DecidableEq, Repr

/-- The descriptors at which the pages of one pipe are mapped, and what the
environments do. `runs` counts all runs; `env_runs` is its low 32 bits. -/
structure Copies where
  fd : End → Finset Descriptor
  data : Finset Descriptor
  place : EnvIdx → Place
  life : EnvIdx → Life
  runs : EnvIdx → Nat
  running : Finset EnvIdx

inductive Event where
  /-- `env_run`, also of the environment that ran last. -/
  | run (e : EnvIdx)
  /-- Into the kernel, which runs somebody else. -/
  | stop (e : EnvIdx)
  /-- By `sys_env_destroy`, or the environment itself has gone wrong. -/
  | destroy (actor e : EnvIdx)
  /-- `dup` up to the mapping of the data page; the target has been closed. -/
  | dup (e : EnvIdx) (pipeEnd : End) (old target : Fin maxFd)
  /-- `dup` unmaps the target again when the mapping of the descriptor page fails. -/
  | dupFd (e : EnvIdx) (mapped : Bool)
  | close (e : EnvIdx) (fd : Fin maxFd)
  | closeData (e : EnvIdx)
  | fork (e child : EnvIdx)
  | spawn (e child : EnvIdx)
  /-- The next page of `fork` or `spawn`, whose `sys_page_map` may fail. -/
  | copy (e : EnvIdx) (mapped : Bool)
  | ask (e : EnvIdx) (pipeEnd : End) (fd : Fin maxFd)
  /-- A call of `pageref`; the compiler chooses the order of the two. -/
  | load (e : EnvIdx) (page : Bool)
  /-- `nn` is loaded and compared. -/
  | test (e : EnvIdx)
deriving DecidableEq, Repr

namespace Copies

/-- `pageref` of a descriptor page. -/
def pageref (s : Copies) (pipeEnd : End) : BitVec 16 := BitVec.ofNat 16 (s.fd pipeEnd).card

def dataref (s : Copies) : BitVec 16 := BitVec.ofNat 16 s.data.card

def move (s : Copies) (e : EnvIdx) (place : Place) : Copies :=
  { s with place := update s.place e place }

def mapFd (s : Copies) (pipeEnd : End) (x : Descriptor) : Copies :=
  { s with fd := fun k => if k = pipeEnd then insert x (s.fd k) else (s.fd k).erase x }

def mapData (s : Copies) (x : Descriptor) : Copies := { s with data := insert x s.data }

def unmapFd (s : Copies) (x : Descriptor) : Copies := { s with fd := fun k => (s.fd k).erase x }

def copyPage (s : Copies) (e child : EnvIdx) : Copied → Copies
  | .fd i =>
    if (e, i) ∈ s.fd .reader then s.mapFd .reader (child, i)
    else if (e, i) ∈ s.fd .writer then s.mapFd .writer (child, i)
    else s
  | .data i => if (e, i) ∈ s.data then s.mapData (child, i) else s

def sample (s : Copies) (pipeEnd : End) (ref : BitVec 16) : Sample := ⟨ref, s.fd pipeEnd.other⟩

def Free (s : Copies) (e : EnvIdx) : Prop := e ∈ s.running ∧ s.place e = .idle

instance (s : Copies) (e : EnvIdx) : Decidable (s.Free e) := inferInstanceAs (Decidable (_ ∧ _))

/-- `sys_exofork` at the start of `fork` and `spawn`. -/
def create (s : Copies) (e child : EnvIdx) (order : List Copied) : Option Copies :=
  if s.Free e ∧ s.life child = .free then
    some { s.move e (.copying child order) with life := update s.life child (.made e) }
  else none

/-- `none` says that the environment does not take this step here. -/
def step (s : Copies) : Event → Option Copies
  | .run e =>
    if s.life e = .ready then
      some { s with running := insert e s.running, runs := update s.runs e (s.runs e + 1) }
    else none
  | .stop e => some { s with running := s.running.erase e }
  | .destroy actor e =>
    if s.Free actor ∨ actor = e ∧ e ∈ s.running then
      some { s.move e .idle with
        fd := fun k => (s.fd k).filter fun x => x.1 ≠ e
        data := s.data.filter fun x => x.1 ≠ e
        life := update s.life e .free
        running := s.running.erase e }
    else none
  | .dup e pipeEnd old target =>
    if s.Free e ∧ (e, old) ∈ s.fd pipeEnd ∧ (e, target) ∉ s.data ∧
        ∀ k ∈ [End.reader, End.writer], (e, target) ∉ s.fd k then
      let s := if (e, old) ∈ s.data then s.mapData (e, target) else s
      some (s.move e (.dupping pipeEnd target))
    else none
  | .dupFd e mapped =>
    match s.place e with
    | .dupping pipeEnd target =>
      if e ∈ s.running then
        if mapped then some ((s.mapFd pipeEnd (e, target)).move e .idle)
        else some ((s.unmapFd (e, target)).move e (.closing target))
      else none
    | _ => none
  | .close e fd =>
    if s.Free e ∧ ((e, fd) ∈ s.fd .reader ∨ (e, fd) ∈ s.fd .writer) then
      some ((s.unmapFd (e, fd)).move e (.closing fd))
    else none
  | .closeData e =>
    match s.place e with
    | .closing fd =>
      if e ∈ s.running then
        some { s.move e .idle with data := s.data.erase (e, fd) }
      else none
    | _ => none
  | .fork e child => s.create e child forkOrder
  | .spawn e child => s.create e child spawnOrder
  | .copy e mapped =>
    match s.place e with
    | .copying child (page :: left) =>
      if e ∈ s.running then
        let s := if mapped ∧ s.life child = .made e then s.copyPage e child page else s
        some (s.move e (.copying child left))
      else none
    -- `sys_env_set_status` of the child
    | .copying child [] =>
      if e ∈ s.running then
        some { s.move e .idle with
          life := if s.life child = .made e then update s.life child .ready else s.life }
      else none
    | _ => none
  | .ask e pipeEnd fd =>
    if s.Free e ∧ (e, fd) ∈ s.fd pipeEnd then some (s.move e (.asking pipeEnd)) else none
  | .load e page =>
    if e ∈ s.running then
      match s.place e with
      | .asking pipeEnd => some (s.move e (.loaded pipeEnd (s.runs e) none none))
      | .loaded pipeEnd runs fd none =>
        if page then
          some (s.move e (.loaded pipeEnd runs fd (some (s.sample pipeEnd s.dataref))))
        else if fd.isNone then
          some (s.move e (.loaded pipeEnd runs (some (s.sample pipeEnd (s.pageref pipeEnd)))
            none))
        else none
      | .loaded pipeEnd runs none (some seen) =>
        some (s.move e (.loaded pipeEnd runs (some (s.sample pipeEnd (s.pageref pipeEnd)))
          (some seen)))
      | _ => none
    else none
  | .test e =>
    match s.place e with
    | .loaded pipeEnd runs (some _) (some _) =>
      if e ∈ s.running then
        some (s.move e (if runs % 2 ^ 32 = s.runs e % 2 ^ 32 then .idle else .asking pipeEnd))
      else none
    | _ => none

/-- A pipe that is open at some descriptors, with nobody at work on it. -/
structure Open (s : Copies) : Prop where
  apart : Disjoint (s.fd .reader) (s.fd .writer)
  data : s.data = s.fd .reader ∪ s.fd .writer
  ready : ∀ x ∈ s.data, s.life x.1 = .ready
  idle : ∀ e, s.place e = .idle
  halted : s.running = ∅

/-- The page of the pipe is mapped at least as often as the two descriptor pages. -/
def Counted (s : Copies) : Prop :=
  (s.pageref .reader).toNat + (s.pageref .writer).toNat ≤ s.dataref.toNat

/-- `_pipeisclosed` is about to return 1 after these two loads. -/
def Answers (s : Copies) (e : EnvIdx) (fd page : Sample) : Prop :=
  e ∈ s.running ∧ ∃ pipeEnd runs, s.place e = .loaded pipeEnd runs (some fd) (some page) ∧
    runs % 2 ^ 32 = s.runs e % 2 ^ 32 ∧ fd.ref = page.ref

end Copies

/-- What `fork` and `spawn` must not do, and what `_pipeisclosed` relies on: a child
has the data page of a number before the descriptor page, there is one processor, and
no environment is run 2^32 times between two loads. -/
def Spaced (s : Copies) : Event → Prop
  | .copy e mapped => ∀ child i left, s.place e = .copying child (.fd i :: left) →
      mapped = true → s.life child = .made e →
      ((e, i) ∈ s.fd .reader ∨ (e, i) ∈ s.fd .writer) → (child, i) ∈ s.data
  | .run _ => s.running = ∅
  | .test e => ∀ pipeEnd runs fd page, s.place e = .loaded pipeEnd runs fd page →
      s.runs e < runs + 2 ^ 32
  | _ => True

variable {s s' : Copies} {e x : EnvIdx} {k : End} {event : Event} {place : Place} {y z : Descriptor}

structure Standing (s : Copies) : Prop where
  held : ∀ {k y}, y ∈ s.fd k → y ∈ s.data
  apart : ∀ {y}, y ∈ s.fd .reader → y ∉ s.fd .writer
  busy : ∀ {e}, e ∈ s.running ∨ s.place e ≠ .idle → s.life e = .ready
  alone : ∀ {e x}, e ∈ s.running → x ∈ s.running → e = x
  dupping : ∀ {e k j}, s.place e = .dupping k j → (e, j) ∈ s.data
  closing : ∀ {e j}, s.place e = .closing j → ∀ k, (e, j) ∉ s.fd k
  /-- While the environment has not been interrupted, what it has loaded is so. -/
  loaded : ∀ {e k runs fd page}, s.place e = .loaded k runs fd page → runs ≤ s.runs e ∧
    (e ∈ s.running → runs = s.runs e →
      (∀ seen, fd = some seen → seen = s.sample k (s.pageref k)) ∧
      ∀ seen, page = some seen → seen = s.sample k s.dataref)

namespace Copies

@[simp] theorem move_fd : (s.move e place).fd = s.fd := rfl
@[simp] theorem move_data : (s.move e place).data = s.data := rfl
@[simp] theorem move_life : (s.move e place).life = s.life := rfl
@[simp] theorem move_runs : (s.move e place).runs = s.runs := rfl
@[simp] theorem move_running : (s.move e place).running = s.running := rfl
@[simp] theorem move_pageref : (s.move e place).pageref k = s.pageref k := rfl
@[simp] theorem move_dataref : (s.move e place).dataref = s.dataref := rfl

theorem mem_mapFd {other : End} :
    y ∈ (s.mapFd k z).fd other ↔ y = z ∧ other = k ∨ y ≠ z ∧ y ∈ s.fd other := by
  unfold mapFd
  by_cases same : other = k
  · simp only [same, if_true, Finset.mem_insert, and_true]
    tauto
  · simp [same]

theorem mem_unmapFd : y ∈ (s.unmapFd z).fd k ↔ y ≠ z ∧ y ∈ s.fd k :=
  Finset.mem_erase

theorem mem_mapData : y ∈ (s.mapData z).data ↔ y = z ∨ y ∈ s.data :=
  Finset.mem_insert

/-- The counts are exact: there are fewer descriptors than the counter can hold. -/
theorem card_small (mapped : Finset Descriptor) :
    (BitVec.ofNat 16 mapped.card).toNat = mapped.card := by
  have few : mapped.card ≤ 1024 * 32 := by
    refine (Finset.card_le_univ _).trans ?_
    rw [Fintype.card_prod, Fintype.card_fin, Fintype.card_fin]
  rw [BitVec.toNat_ofNat, Nat.mod_eq_of_lt (by omega)]

end Copies

namespace Standing

open Copies

/-- The mappings that a step of the environment `e` leaves to the others. -/
structure Leaves (s s' : Copies) (e : EnvIdx) : Prop where
  runs : s'.runs = s.runs
  running : s'.running = s.running
  life : ∀ {x}, s.life x = .ready → s'.life x = .ready
  data : ∀ {x j}, x ≠ e → (x, j) ∈ s.data → (x, j) ∈ s'.data
  fd : ∀ {x j}, x ≠ e → s.life x = .ready → (∀ k, (x, j) ∉ s.fd k) → ∀ k, (x, j) ∉ s'.fd k

theorem Leaves.refl : Leaves s (s.move e place) e :=
  ⟨rfl, rfl, id, fun _ => id, fun _ _ => id⟩

/-- A step of an environment that executes user code: it owes the facts of the place
that it comes to, and leaves the facts of the others. -/
theorem act (standing : Standing s) (here : e ∈ s.running) (leaves : Leaves s s' e)
    (moved : s'.place = update s.place e place)
    (held : ∀ {k y}, y ∈ s'.fd k → y ∈ s'.data)
    (apart : ∀ {y}, y ∈ s'.fd .reader → y ∉ s'.fd .writer)
    (dupping : ∀ k j, place = .dupping k j → (e, j) ∈ s'.data)
    (closing : ∀ j, place = .closing j → ∀ k, (e, j) ∉ s'.fd k)
    (loaded : ∀ k runs fd page, place = .loaded k runs fd page → runs ≤ s.runs e ∧
      (runs = s.runs e → (∀ seen, fd = some seen → seen = s'.sample k (s'.pageref k)) ∧
        ∀ seen, page = some seen → seen = s'.sample k s'.dataref)) : Standing s' where
  held := held
  apart := apart
  busy {x} busy := by
    refine leaves.life ?_
    by_cases same : x = e
    · subst same
      exact standing.busy (.inl here)
    · rw [leaves.running, moved, update_of_ne same] at busy
      exact standing.busy busy
  alone first second := by
    rw [leaves.running] at first second
    exact standing.alone first second
  dupping {x k j} at_ := by
    by_cases same : x = e
    · subst same
      rw [moved, update_self] at at_
      exact dupping k j at_
    · rw [moved, update_of_ne same] at at_
      exact leaves.data same (standing.dupping at_)
  closing {x j} at_ := by
    by_cases same : x = e
    · subst same
      rw [moved, update_self] at at_
      exact closing j at_
    · rw [moved, update_of_ne same] at at_
      exact leaves.fd same (standing.busy (.inr (by rw [at_]; exact nofun))) (standing.closing at_)
  loaded {x k runs fd page} at_ := by
    rw [leaves.runs, leaves.running]
    by_cases same : x = e
    · subst same
      rw [moved, update_self] at at_
      exact (loaded k runs fd page at_).imp id fun facts _ => facts
    · rw [moved, update_of_ne same] at at_
      exact ⟨(standing.loaded at_).1, fun there _ => absurd (standing.alone there here) same⟩

theorem stay (standing : Standing s) (here : e ∈ s.running)
    (dupping : ∀ k j, place ≠ .dupping k j) (closing : ∀ j, place ≠ .closing j)
    (loaded : ∀ k runs fd page, place = .loaded k runs fd page → runs ≤ s.runs e ∧
      (runs = s.runs e → (∀ seen, fd = some seen → seen = s.sample k (s.pageref k)) ∧
        ∀ seen, page = some seen → seen = s.sample k s.dataref)) :
    Standing (s.move e place) :=
  standing.act here .refl rfl standing.held standing.apart (fun k j at_ => absurd at_ (dupping k j))
    (fun j at_ => absurd at_ (closing j)) loaded

theorem counted (standing : Standing s) : s.Counted := by
  unfold Counted pageref dataref
  rw [card_small, card_small, card_small,
    ← Finset.card_union_of_disjoint (Finset.disjoint_left.mpr fun _ => standing.apart)]
  refine Finset.card_le_card fun y there => ?_
  rcases Finset.mem_union.mp there with first | second
  · exact standing.held first
  · exact standing.held second

theorem opposite (standing : Standing s) (same : s.pageref k = s.dataref) :
    s.fd k.other = ∅ := by
  have counted := standing.counted
  have equal := congrArg BitVec.toNat same
  unfold Counted at counted
  unfold pageref dataref at counted equal
  simp only [card_small] at counted equal
  rw [← Finset.card_eq_zero]
  cases k <;> simp only [End.other] <;> omega

end Standing

namespace Standing

open Copies

theorem of_open (opened : s.Open) : Standing s where
  held {k y} there := by
    rw [opened.data, Finset.mem_union]
    cases k
    · exact .inl there
    · exact .inr there
  apart there := Finset.disjoint_left.mp opened.apart there
  busy busy := by
    rw [opened.halted] at busy
    rcases busy with there | busy
    · cases there
    · exact absurd (opened.idle _) busy
  alone there := by
    rw [opened.halted] at there
    cases there
  dupping at_ := by
    rw [opened.idle] at at_
    cases at_
  closing at_ := by
    rw [opened.idle] at at_
    cases at_
  loaded at_ := by
    rw [opened.idle] at at_
    cases at_

section

variable (standing : Standing s)

include standing

theorem run (ready : s.life e = .ready) (halted : s.running = ∅) :
    Standing { s with running := insert e s.running, runs := update s.runs e (s.runs e + 1) } where
  held := standing.held
  apart := standing.apart
  busy {x} busy := by
    rcases busy with there | busy
    · rcases Finset.mem_insert.mp there with rfl | there
      · exact ready
      · exact standing.busy (.inl there)
    · exact standing.busy (.inr busy)
  alone {x y} first second := by
    simp only [halted, insert_empty_eq, Finset.mem_singleton] at first second
    rw [first, second]
  dupping := standing.dupping
  closing := standing.closing
  loaded {x k runs fd page} at_ := by
    obtain ⟨old, -⟩ := standing.loaded at_
    by_cases same : x = e
    · subst same
      simp only [update_self]
      exact ⟨Nat.le_succ_of_le old, fun _ now => by omega⟩
    · simp only [update_of_ne same]
      refine ⟨old, fun there => ?_⟩
      simp only [halted, insert_empty_eq, Finset.mem_singleton] at there
      exact absurd there same

theorem stop : Standing { s with running := s.running.erase e } where
  held := standing.held
  apart := standing.apart
  busy busy := standing.busy (busy.imp Finset.mem_of_mem_erase id)
  alone first second :=
    standing.alone (Finset.mem_of_mem_erase first) (Finset.mem_of_mem_erase second)
  dupping := standing.dupping
  closing := standing.closing
  loaded at_ := (standing.loaded at_).imp id fun facts there => facts (Finset.mem_of_mem_erase there)

theorem destroy {actor : EnvIdx} (stepped : s.step (.destroy actor e) = some s') : Standing s' := by
  simp only [step] at stepped
  split at stepped
  case isFalse => cases stepped
  rename_i able
  cases stepped
  have other {x : EnvIdx} {place : Place} (at_ : update s.place e .idle x = place)
      (busy : place ≠ .idle) : x ≠ e ∧ s.place x = place := by
    by_cases same : x = e
    · subst same
      rw [update_self] at at_
      exact absurd at_.symm busy
    · rw [update_of_ne same] at at_
      exact ⟨same, at_⟩
  refine ⟨?_, ?_, ?_, ?_, ?_, ?_, ?_⟩
  · intro k y there
    rw [Finset.mem_filter] at there ⊢
    exact ⟨standing.held there.1, there.2⟩
  · intro y first second
    exact standing.apart (Finset.mem_filter.mp first).1 (Finset.mem_filter.mp second).1
  · intro x busy
    have differs : x ≠ e ∧ (x ∈ s.running ∨ s.place x ≠ .idle) := by
      rcases busy with there | busy
      · exact ⟨Finset.ne_of_mem_erase there, .inl (Finset.mem_of_mem_erase there)⟩
      · obtain ⟨differs, same⟩ := other rfl busy
        exact ⟨differs, .inr (same ▸ busy)⟩
    simp only [update_of_ne differs.1]
    exact standing.busy differs.2
  · intro x y first second
    exact standing.alone (Finset.mem_of_mem_erase first) (Finset.mem_of_mem_erase second)
  · intro x k j at_
    obtain ⟨differs, at_⟩ := other at_ nofun
    exact Finset.mem_filter.mpr ⟨standing.dupping at_, differs⟩
  · intro x j at_ k there
    obtain ⟨-, at_⟩ := other at_ nofun
    exact standing.closing at_ k (Finset.mem_filter.mp there).1
  · intro x k runs fd page at_
    obtain ⟨differs, at_⟩ := other at_ nofun
    obtain ⟨old, facts⟩ := standing.loaded at_
    refine ⟨old, fun there _ => ?_⟩
    have running := Finset.mem_of_mem_erase there
    rcases able with ⟨acts, idle⟩ | ⟨rfl, acts⟩
    · rw [standing.alone running acts, idle] at at_
      cases at_
    · exact absurd (standing.alone running acts) differs

theorem create {child : EnvIdx} {order : List Copied}
    (stepped : s.create e child order = some s') : Standing s' := by
  unfold Copies.create at stepped
  split at stepped
  case isFalse => cases stepped
  rename_i able
  cases stepped
  refine standing.act able.1.1 ⟨rfl, rfl, ?_, fun _ => id, fun _ _ => id⟩ rfl standing.held
    standing.apart nofun nofun nofun
  intro x ready
  have differs : x ≠ child := by
    rintro rfl
    rw [able.2] at ready
    cases ready
  simp only [update_of_ne differs]
  exact ready

theorem dup {old target : Fin maxFd}
    (stepped : s.step (.dup e k old target) = some s') : Standing s' := by
  simp only [step] at stepped
  split at stepped
  case isFalse => cases stepped
  rename_i able
  rw [if_pos (standing.held able.2.1)] at stepped
  cases stepped
  refine standing.act able.1.1
    ⟨rfl, rfl, id, fun _ there => mem_mapData.mpr (.inr there), fun _ _ => id⟩ rfl
    (fun there => mem_mapData.mpr (.inr (standing.held there))) standing.apart ?_ nofun nofun
  intro k' j at_
  cases at_
  exact mem_mapData.mpr (.inl rfl)

theorem mapFd_held {z : Descriptor} (there : z ∈ s.data)
    {k' : End} {y : Descriptor} (mapped : y ∈ (s.mapFd k z).fd k') : y ∈ s.data := by
  rcases mem_mapFd.mp mapped with ⟨rfl, -⟩ | ⟨-, before⟩
  · exact there
  · exact standing.held before

theorem mapFd_apart (first : y ∈ (s.mapFd k z).fd .reader) : y ∉ (s.mapFd k z).fd .writer := by
  intro second
  rcases mem_mapFd.mp first with ⟨same, rfl⟩ | ⟨differs, first⟩
  · rcases mem_mapFd.mp second with ⟨-, other⟩ | ⟨differs, -⟩
    · cases other
    · exact differs same
  · rcases mem_mapFd.mp second with ⟨same, -⟩ | ⟨-, second⟩
    · exact differs same
    · exact standing.apart first second

theorem dupFd {mapped : Bool} (stepped : s.step (.dupFd e mapped) = some s') : Standing s' := by
  simp only [step] at stepped
  split at stepped
  case h_2 => cases stepped
  rename_i pipeEnd target at_
  split at stepped
  case isFalse => cases stepped
  rename_i here
  split at stepped
  · obtain rfl := Option.some.inj stepped
    refine standing.act here ⟨rfl, rfl, id, fun _ => id, ?_⟩ rfl
      (standing.mapFd_held (standing.dupping at_)) standing.mapFd_apart nofun nofun nofun
    intro x j differs _ nowhere k there
    rcases mem_mapFd.mp there with ⟨same, -⟩ | ⟨-, there⟩
    · exact differs (congrArg Prod.fst same)
    · exact nowhere k there
  · obtain rfl := Option.some.inj stepped
    refine standing.act here
      ⟨rfl, rfl, id, fun _ => id, fun _ _ nowhere k there => nowhere k (mem_unmapFd.mp there).2⟩ rfl
      (fun there => standing.held (mem_unmapFd.mp there).2)
      (fun first second => standing.apart (mem_unmapFd.mp first).2 (mem_unmapFd.mp second).2)
      nofun ?_ nofun
    intro j closes k there
    cases closes
    exact (mem_unmapFd.mp there).1 rfl

theorem close {fd : Fin maxFd} (stepped : s.step (.close e fd) = some s') : Standing s' := by
  simp only [step] at stepped
  split at stepped
  case isFalse => cases stepped
  rename_i able
  cases stepped
  refine standing.act able.1.1
    ⟨rfl, rfl, id, fun _ => id, fun _ _ nowhere k there => nowhere k (mem_unmapFd.mp there).2⟩ rfl
    (fun there => standing.held (mem_unmapFd.mp there).2)
    (fun first second => standing.apart (mem_unmapFd.mp first).2 (mem_unmapFd.mp second).2)
    nofun ?_ nofun
  intro j closes k there
  cases closes
  exact (mem_unmapFd.mp there).1 rfl

theorem closeData (stepped : s.step (.closeData e) = some s') : Standing s' := by
  simp only [step] at stepped
  split at stepped
  case h_2 => cases stepped
  rename_i fd at_
  split at stepped
  case isFalse => cases stepped
  rename_i here
  cases stepped
  refine standing.act here ⟨rfl, rfl, id, ?_, fun _ _ => id⟩ rfl ?_ standing.apart nofun nofun nofun
  · intro x j differs there
    exact Finset.mem_erase.mpr ⟨fun same => differs (congrArg Prod.fst same), there⟩
  · intro k y there
    refine Finset.mem_erase.mpr ⟨?_, standing.held there⟩
    rintro rfl
    exact standing.closing at_ k there

end

theorem child_ne {child : EnvIdx} (made : s.life child = .made e) (ready : s.life x = .ready) :
    x ≠ child := by
  rintro rfl
  rw [made] at ready
  cases ready

section

variable (standing : Standing s)

include standing

theorem copyFd (here : e ∈ s.running) {child : EnvIdx} {i : Fin maxFd}
    {left : List Copied} (made : s.life child = .made e) (there : (child, i) ∈ s.data) :
    Standing ((s.mapFd k (child, i)).move e (.copying child left)) := by
  refine standing.act here ⟨rfl, rfl, id, fun _ => id, ?_⟩ rfl (standing.mapFd_held there)
    standing.mapFd_apart nofun nofun nofun
  intro x j _ ready nowhere k' mapped
  rcases mem_mapFd.mp mapped with ⟨same, -⟩ | ⟨-, before⟩
  · exact child_ne made ready (congrArg Prod.fst same)
  · exact nowhere k' before

theorem copyPage (here : e ∈ s.running) {child : EnvIdx} {page : Copied}
    {left : List Copied} (made : s.life child = .made e)
    (ordered : ∀ i, page = .fd i → ((e, i) ∈ s.fd .reader ∨ (e, i) ∈ s.fd .writer) →
      (child, i) ∈ s.data) : Standing ((s.copyPage e child page).move e (.copying child left)) := by
  cases page with
  | fd i =>
    simp only [Copies.copyPage]
    split
    · rename_i open_
      exact standing.copyFd here made (ordered i rfl (.inl open_))
    · split
      · rename_i open_
        exact standing.copyFd here made (ordered i rfl (.inr open_))
      · exact standing.stay here nofun nofun nofun
  | data i =>
    simp only [Copies.copyPage]
    split
    · exact standing.act here
        ⟨rfl, rfl, id, fun _ there => mem_mapData.mpr (.inr there), fun _ _ => id⟩ rfl
        (fun there => mem_mapData.mpr (.inr (standing.held there))) standing.apart
        nofun nofun nofun
    · exact standing.stay here nofun nofun nofun

theorem copy {mapped : Bool} (spaced : Spaced s (.copy e mapped))
    (stepped : s.step (.copy e mapped) = some s') : Standing s' := by
  simp only [step] at stepped
  split at stepped
  · rename_i child page left at_
    split at stepped
    case isFalse => cases stepped
    rename_i here
    cases stepped
    split
    · rename_i does
      refine standing.copyPage here does.2 fun i same open_ => ?_
      subst same
      exact spaced child i left at_ does.1 does.2 open_
    · exact standing.stay here nofun nofun nofun
  · rename_i child at_
    split at stepped
    case isFalse => cases stepped
    rename_i here
    cases stepped
    refine standing.act here ⟨rfl, rfl, ?_, fun _ => id, fun _ _ => id⟩ rfl standing.held
      standing.apart nofun nofun nofun
    intro x ready
    dsimp only
    split
    · by_cases same : x = child
      · subst same
        exact update_self ..
      · rw [update_of_ne same]
        exact ready
    · exact ready
  · cases stepped

theorem ask {fd : Fin maxFd} (stepped : s.step (.ask e k fd) = some s') : Standing s' := by
  simp only [step] at stepped
  split at stepped
  case isFalse => cases stepped
  rename_i able
  cases stepped
  exact standing.stay able.1.1 nofun nofun nofun

theorem load {page : Bool} (stepped : s.step (.load e page) = some s') : Standing s' := by
  simp only [step] at stepped
  split at stepped
  case isFalse => cases stepped
  rename_i here
  split at stepped
  · obtain rfl := Option.some.inj stepped
    refine standing.stay here nofun nofun fun k runs fd page at_ => ?_
    cases at_
    exact ⟨le_rfl, fun _ => ⟨nofun, nofun⟩⟩
  · rename_i k runs fd at_
    obtain ⟨old, facts⟩ := standing.loaded at_
    split at stepped
    · obtain rfl := Option.some.inj stepped
      refine standing.stay here nofun nofun fun k' runs' fd' page' at_' => ?_
      cases at_'
      refine ⟨old, fun now => ⟨(facts here now).1, fun seen same => ?_⟩⟩
      exact (Option.some.inj same).symm
    · split at stepped
      case isFalse => cases stepped
      cases stepped
      refine standing.stay here nofun nofun fun k' runs' fd' page' at_' => ?_
      cases at_'
      exact ⟨old, fun _ => ⟨fun seen same => (Option.some.inj same).symm, nofun⟩⟩
  · rename_i k runs seen at_
    obtain ⟨old, facts⟩ := standing.loaded at_
    cases stepped
    refine standing.stay here nofun nofun fun k' runs' fd' page' at_' => ?_
    cases at_'
    exact ⟨old, fun now => ⟨fun seen same => (Option.some.inj same).symm, (facts here now).2⟩⟩
  · cases stepped

theorem test (stepped : s.step (.test e) = some s') : Standing s' := by
  simp only [step] at stepped
  split at stepped
  case h_2 => cases stepped
  split at stepped
  case isFalse => cases stepped
  rename_i here
  cases stepped
  split
  · exact standing.stay here nofun nofun nofun
  · exact standing.stay here nofun nofun nofun

theorem step (spaced : Spaced s event) (stepped : s.step event = some s') : Standing s' := by
  cases event with
  | run e =>
    simp only [Copies.step] at stepped
    split at stepped
    case isFalse => cases stepped
    rename_i ready
    cases stepped
    exact standing.run ready spaced
  | stop e =>
    cases stepped
    exact standing.stop
  | destroy actor e => exact standing.destroy stepped
  | dup e k old target => exact standing.dup stepped
  | dupFd e mapped => exact standing.dupFd stepped
  | close e fd => exact standing.close stepped
  | closeData e => exact standing.closeData stepped
  | fork e child => exact standing.create stepped
  | spawn e child => exact standing.create stepped
  | copy e mapped => exact standing.copy spaced stepped
  | ask e k fd => exact standing.ask stepped
  | load e page => exact standing.load stepped
  | test e => exact standing.test stepped

/-- `env_runs` has not moved, so both loads are of the present counts. -/
theorem answer {fd page : Sample} (spaced : Spaced s (.test e))
    (answers : s.Answers e fd page) : fd.opposite = ∅ ∧ page.opposite = ∅ := by
  obtain ⟨here, k, runs, at_, agree, equal⟩ := answers
  obtain ⟨old, facts⟩ := standing.loaded at_
  have now : runs = s.runs e := by
    have near := spaced k runs (some fd) (some page) at_
    omega
  obtain ⟨fdIs, pageIs⟩ := facts here now
  have fdIs := fdIs fd rfl
  have pageIs := pageIs page rfl
  subst fdIs pageIs
  exact ⟨standing.opposite equal, standing.opposite equal⟩

end

end Standing

/-- A pipe that several environments share is never taken for closed early: its page
counts for both ends, and `_pipeisclosed` answers 1 only when the opposite end was
open nowhere at either load. -/
theorem end_of_file_not_early (reached : Reachable Copies.Open Copies.step Spaced s) :
    s.Counted ∧ ∀ e fd page, Spaced s (.test e) → s.Answers e fd page →
      fd.opposite = ∅ ∧ page.opposite = ∅ := by
  have standing : Standing s := reached.invariant Standing (fun _ => Standing.of_open)
    fun _ _ _ standing spaced stepped => standing.step spaced stepped
  exact ⟨standing.counted, fun _ _ _ spaced answers => standing.answer spaced answers⟩

def pair : Copies where
  fd
    | .reader => {(0, 0), (1, 0)}
    | .writer => {(0, 1)}
  data := {(0, 0), (0, 1), (1, 0)}
  place := fun _ => .idle
  life := fun e => if e = 0 ∨ e = 1 then .ready else .free
  runs := fun _ => 0
  running := ∅

theorem pair_open : pair.Open where
  apart := Finset.disjoint_iff_inter_eq_empty.mpr (by decide)
  data := by decide
  ready x there := by
    simp only [pair, Finset.mem_insert, Finset.mem_singleton] at there
    rcases there with rfl | rfl | rfl <;> rfl
  idle _ := rfl
  halted := rfl

def closeAndAsk : List Event :=
  [.close 0 1, .closeData 0, .ask 0 .reader 0, .load 0 false, .load 0 false, .load 0 true]

def asked : Copies := (run Copies.step pair (.run 0 :: closeAndAsk)).get (by decide)

theorem asked_reached : Reachable Copies.Open Copies.step Spaced asked := by
  have ran : run Copies.step pair (.run 0 :: closeAndAsk) = some asked := (Option.some_get _).symm
  obtain ⟨next, stepped, rest⟩ := Option.bind_eq_some_iff.mp ran
  have first : Along Copies.step Spaced pair ([] ++ [Event.run 0]) next := Along.nil.snoc rfl stepped
  exact ⟨pair, _, pair_open, first.trans (.of_admitted (by simp [closeAndAsk, Spaced]) rest)⟩

theorem asked_place :
    asked.place 0 = .loaded .reader 1 (some ⟨2, ∅⟩) (some ⟨2, ∅⟩) := by decide

theorem asked_spaced : Spaced asked (.test 0) := by
  intro k runs fd page at_
  rw [asked_place] at at_
  cases at_
  have once : asked.runs 0 = 1 := by decide
  omega

/-- The readers are told that the only writer has closed its end. -/
theorem end_of_file_pair : asked.Answers 0 ⟨2, ∅⟩ ⟨2, ∅⟩ ∧ asked.Counted ∧
    (⟨2, ∅⟩ : Sample).opposite = ∅ := by
  have answers : asked.Answers 0 ⟨2, ∅⟩ ⟨2, ∅⟩ :=
    ⟨by decide, .reader, 1, asked_place, by decide, rfl⟩
  obtain ⟨counted, early⟩ := end_of_file_not_early asked_reached
  exact ⟨answers, counted, (early 0 _ _ asked_spaced answers).1⟩

def spawned : Copies :=
  (run Copies.step pair [.run 0, .spawn 0 2, .copy 0 true, .stop 0, .run 1, .ask 1 .reader 0,
    .load 1 false, .load 1 false, .load 1 true]).get (by decide)

theorem spawned_reached : Reachable Copies.Open Copies.step (fun _ _ => True) spawned :=
  ⟨pair, _, pair_open, Along.of_run (Option.some_get _).symm⟩

theorem spawned_place :
    spawned.place 1 = .loaded .reader 1 (some ⟨3, {(0, 1)}⟩) (some ⟨3, {(0, 1)}⟩) := by decide

/-- `spawn` maps the descriptor page in the child before the pipe's own page: the
counts of the reader's page and of the pipe agree while the writer is open. -/
theorem end_of_file_early : ¬ (∀ s, Reachable Copies.Open Copies.step (fun _ _ => True) s →
      s.Counted) ∧
    ¬ ∀ s, Reachable Copies.Open Copies.step (fun _ _ => True) s → ∀ e fd page,
      s.Answers e fd page → fd.opposite = ∅ ∧ page.opposite = ∅ := by
  refine ⟨fun always => ?_, fun always => ?_⟩
  · have counted := always spawned spawned_reached
    unfold Copies.Counted at counted
    revert counted
    decide
  · have early := always spawned spawned_reached 1 _ _
      ⟨by decide, .reader, 1, spawned_place, by decide, rfl⟩
    exact absurd early.1 (Finset.singleton_ne_empty _)

end Eof

end Jos
