import Mathlib.Data.Fintype.Card
import Mathlib.Data.Fintype.Prod
import Jos.Foundation.Run
import Jos.Inc.Env

/-! Closing a socket that several environments share: `devsock_close` of
lib/sockets.c within `fd_close` of lib/fd.c, one load of the reference count or
one system call at a time. -/

set_option autoImplicit false

namespace Jos

open Foundation Function

namespace Sockets

abbrev maxFd : Nat := 32

abbrev Descriptor := EnvIdx × Fin maxFd

/-- Where the `close` of an environment stands. -/
inductive ClosePoint where
  | idle
  /-- `devsock_close` has called `pageref`. -/
  | counted (fd : Fin maxFd) (ref : BitVec 16)
  /-- `nsipc_close` has returned. -/
  | told (fd : Fin maxFd)
deriving DecidableEq, Repr

/-- A request that the network server receives: who sends it, and which mappings
of the descriptor page there are then. -/
structure Request where
  sender : Descriptor
  mapped : Finset Descriptor
deriving DecidableEq

/-- The descriptors at which the page of one socket is mapped, where each
environment stands, and the requests to close the socket, latest first. -/
structure Socket where
  mapped : Finset Descriptor
  place : EnvIdx → ClosePoint
  requests : List Request

/-- `pages[PPN(pte)].pp_ref` -/
def Socket.pageref (s : Socket) : BitVec 16 := BitVec.ofNat 16 s.mapped.card

inductive Event where
  /-- `fd_lookup` finds the descriptor, and `devsock_close` loads the count. -/
  | count (e : EnvIdx) (fd : Fin maxFd)
  | nsipcClose (e : EnvIdx)
  /-- `sys_page_unmap` at the end of `fd_close` -/
  | unmap (e : EnvIdx)
  /-- An environment outside `close` maps the page for `dup`, `fork` or `spawn`. -/
  | share (e : EnvIdx) (fd : Fin maxFd) (target : Descriptor)
deriving DecidableEq, Repr

def Socket.move (s : Socket) (e : EnvIdx) (place : ClosePoint) : Socket :=
  { s with place := update s.place e place }

/-- `none` says that the environment does not take this step here. -/
def Socket.step (s : Socket) : Event → Option Socket
  | .count e fd =>
    if s.place e = .idle ∧ (e, fd) ∈ s.mapped then some (s.move e (.counted fd s.pageref))
    else none
  | .nsipcClose e =>
    match s.place e with
    | .counted fd ref =>
      if ref = 1 then
        some { s.move e (.told fd) with requests := ⟨(e, fd), s.mapped⟩ :: s.requests }
      else none
    | _ => none
  | .unmap e =>
    match s.place e with
    | .counted fd ref =>
      if ref = 1 then none else some { s.move e .idle with mapped := s.mapped.erase (e, fd) }
    | .told fd => some { s.move e .idle with mapped := s.mapped.erase (e, fd) }
    | .idle => none
  | .share e fd target =>
    if s.place e = .idle ∧ (e, fd) ∈ s.mapped ∧ target ∉ s.mapped then
      some { s with mapped := insert target s.mapped }
    else none

/-- A socket that is open at some descriptors and that nobody is closing. -/
structure Socket.Shared (s : Socket) : Prop where
  mapped : s.mapped.Nonempty
  idle : ∀ e, s.place e = .idle
  quiet : s.requests = []

/-- Exactly one request has been sent, when nobody but the sender had the page. -/
def Socket.ClosedOnce (s : Socket) : Prop :=
  ∃ sender, s.requests = [⟨sender, {sender}⟩]

/-- A `close` of the descriptor stands between its load of the count and its
unmapping. -/
def Socket.Closing (s : Socket) (x : Descriptor) : Prop :=
  (∃ ref, s.place x.1 = .counted x.2 ref) ∨ s.place x.1 = .told x.2

/-- A count is loaded only for the last descriptor, or while another one is not
being closed. -/
def Spaced (s : Socket) : Event → Prop
  | .count e fd => s.mapped = {(e, fd)} ∨ ∃ x ∈ s.mapped, x ≠ (e, fd) ∧ ¬ s.Closing x
  | _ => True

variable {s s' : Socket} {event : Event} {e : EnvIdx} {fd : Fin maxFd}

namespace Socket

@[simp] theorem move_mapped {place : ClosePoint} : (s.move e place).mapped = s.mapped := rfl
@[simp] theorem move_requests {place : ClosePoint} : (s.move e place).requests = s.requests := rfl

theorem move_place {place : ClosePoint} (x : EnvIdx) :
    (s.move e place).place x = if x = e then place else s.place x := by
  unfold move
  by_cases same : x = e
  · subst same
    simp
  · simp [same]

/-- The count is exact: there are fewer descriptors than the counter can hold. -/
theorem pageref_eq_one : s.pageref = 1 ↔ s.mapped.card = 1 := by
  have few : s.mapped.card ≤ 1024 * 32 := by
    refine (Finset.card_le_univ _).trans ?_
    rw [Fintype.card_prod, Fintype.card_fin, Fintype.card_fin]
  unfold pageref
  rw [← BitVec.toNat_inj, BitVec.toNat_ofNat, Nat.mod_eq_of_lt (by omega)]
  rfl

theorem eq_of_pageref (one : s.pageref = 1) {x : Descriptor} (here : x ∈ s.mapped) :
    s.mapped = {x} := by
  obtain ⟨y, only⟩ := Finset.card_eq_one.mp (pageref_eq_one.mp one)
  rw [only, Finset.mem_singleton] at here
  rw [only, here]

structure Standing (s : Socket) : Prop where
  closing : ∀ {x}, s.Closing x → x ∈ s.mapped
  last : ∀ {e fd}, s.place e = .counted fd 1 ∨ s.place e = .told fd → s.mapped = {(e, fd)}
  request : s.requests = [] ∨ s.ClosedOnce ∧
    (s.mapped = ∅ ∨ ∃ e fd, s.place e = .told fd ∧ s.mapped = {(e, fd)})

theorem Shared.standing (shared : s.Shared) : s.Standing where
  closing closing := by
    rcases closing with ⟨ref, here⟩ | here
    · exact absurd ((shared.idle _).symm.trans here) nofun
    · exact absurd ((shared.idle _).symm.trans here) nofun
  last here := by
    rw [shared.idle] at here
    exact here.elim nofun nofun
  request := .inl shared.quiet

theorem step_cases (stepped : s.step event = some s') :
    (∃ e fd, event = .count e fd ∧ s.place e = .idle ∧ (e, fd) ∈ s.mapped ∧
      s' = s.move e (.counted fd s.pageref)) ∨
    (∃ e fd, event = .nsipcClose e ∧ s.place e = .counted fd 1 ∧
      s' = { s.move e (.told fd) with requests := ⟨(e, fd), s.mapped⟩ :: s.requests }) ∨
    (∃ e fd, event = .unmap e ∧
      ((∃ ref, ref ≠ 1 ∧ s.place e = .counted fd ref) ∨ s.place e = .told fd) ∧
      s' = { s.move e .idle with mapped := s.mapped.erase (e, fd) }) ∨
    (∃ e fd target, event = .share e fd target ∧ s.place e = .idle ∧ (e, fd) ∈ s.mapped ∧
      target ∉ s.mapped ∧ s' = { s with mapped := insert target s.mapped }) := by
  cases event with
  | count e fd =>
    simp only [step] at stepped
    split at stepped
    · rename_i here
      exact .inl ⟨e, fd, rfl, here.1, here.2, (Option.some.inj stepped).symm⟩
    · cases stepped
  | nsipcClose e =>
    simp only [step] at stepped
    split at stepped
    · rename_i fd ref here
      split at stepped
      · rename_i one
        subst one
        exact .inr (.inl ⟨e, fd, rfl, here, (Option.some.inj stepped).symm⟩)
      · cases stepped
    · cases stepped
  | unmap e =>
    simp only [step] at stepped
    split at stepped
    · rename_i fd ref here
      split at stepped
      · cases stepped
      · rename_i many
        exact .inr (.inr (.inl ⟨e, fd, rfl, .inl ⟨ref, many, here⟩,
          (Option.some.inj stepped).symm⟩))
    · rename_i fd here
      exact .inr (.inr (.inl ⟨e, fd, rfl, .inr here, (Option.some.inj stepped).symm⟩))
    · cases stepped
  | share e fd target =>
    simp only [step] at stepped
    split at stepped
    · rename_i here
      exact .inr (.inr (.inr ⟨e, fd, target, rfl, here.1, here.2.1, here.2.2,
        (Option.some.inj stepped).symm⟩))
    · cases stepped

/-- An environment outside `close` that maps the page keeps every other from
being at the last mapping. -/
theorem Standing.not_last (standing : s.Standing) {e x : EnvIdx} {fd fx : Fin maxFd}
    (idle : s.place e = .idle) (here : (e, fd) ∈ s.mapped)
    (there : s.place x = .counted fx 1 ∨ s.place x = .told fx) : False := by
  rw [standing.last there, Finset.mem_singleton] at here
  cases here
  rw [idle] at there
  exact there.elim nofun nofun

theorem Standing.quiet (standing : s.Standing) (idle : s.place e = .idle)
    (here : (e, fd) ∈ s.mapped) : s.requests = [] := by
  rcases standing.request with quiet | ⟨-, gone | ⟨x, fx, there, -⟩⟩
  · exact quiet
  · rw [gone] at here
    exact absurd here (Finset.notMem_empty _)
  · exact (standing.not_last idle here (.inr there)).elim

theorem Closing.of_move {place : ClosePoint} {x : Descriptor} (closing : (s.move e place).Closing x)
    (differs : x.1 ≠ e) : s.Closing x := by
  unfold Closing at closing
  rw [move_place, if_neg differs] at closing
  exact closing

theorem Closing.fd_eq {x : Descriptor} (closing : s.Closing x)
    (here : (∃ ref, s.place x.1 = .counted fd ref) ∨ s.place x.1 = .told fd) : x.2 = fd := by
  rcases closing with ⟨ref, there⟩ | there <;> rcases here with ⟨ref', here⟩ | here <;>
    rw [there] at here <;> cases here <;> rfl

theorem Standing.step (standing : s.Standing) (stepped : s.step event = some s') :
    s'.Standing := by
  rcases step_cases stepped with ⟨e, fd, -, idle, here, rfl⟩ | ⟨e, fd, -, here, rfl⟩ |
    ⟨e, fd, -, here, rfl⟩ | ⟨e, fd, target, -, idle, here, fresh, rfl⟩
  · refine ⟨fun {x} closing => ?_, fun {x fx} there => ?_, .inl (standing.quiet idle here)⟩
    · by_cases same : x.1 = e
      · obtain ⟨x, fx⟩ := x
        obtain rfl : x = e := same
        have equal : fx = fd := closing.fd_eq (.inl ⟨s.pageref, by rw [move_place, if_pos rfl]⟩)
        subst equal
        exact here
      · exact standing.closing (closing.of_move same)
    · rw [move_place] at there
      split at there
      · rename_i same
        subst same
        rcases there with counted | told
        · injection counted with equal one
          subst equal
          exact eq_of_pageref one here
        · cases told
      · exact (standing.not_last idle here there).elim
  · have only := standing.last (.inl here)
    have quiet : s.requests = [] := by
      rcases standing.request with quiet | ⟨-, gone | ⟨x, fx, there, only'⟩⟩
      · exact quiet
      · rw [gone] at only
        exact absurd only.symm (Finset.singleton_ne_empty _)
      · obtain ⟨rfl, rfl⟩ := Prod.mk.inj (Finset.singleton_inj.mp (only.symm.trans only'))
        rw [here] at there
        cases there
    refine ⟨fun {x} closing => ?_, fun {x fx} there => ?_, .inr ⟨⟨(e, fd), ?_⟩, .inr ⟨e, fd, ?_⟩⟩⟩
    · have closing : (s.move e (.told fd)).Closing x := closing
      by_cases same : x.1 = e
      · obtain ⟨x, fx⟩ := x
        obtain rfl : x = e := same
        have equal : fx = fd := closing.fd_eq (.inr (by rw [move_place, if_pos rfl]))
        subst equal
        exact standing.closing (.inl ⟨1, here⟩)
      · exact standing.closing (closing.of_move same)
    · have there : (s.move e (.told fd)).place x = .counted fx 1 ∨
          (s.move e (.told fd)).place x = .told fx := there
      by_cases same : x = e
      · rw [move_place, if_pos same] at there
        rcases there with counted | equal
        · cases counted
        · obtain rfl : fd = fx := ClosePoint.told.inj equal
          rw [same]
          exact only
      · rw [move_place, if_neg same] at there
        exact standing.last there
    · change ⟨(e, fd), s.mapped⟩ :: s.requests = _
      rw [quiet, only]
    · exact ⟨by rw [show Socket.place _ e = (s.move e (.told fd)).place e from rfl, move_place,
        if_pos rfl], only⟩
  · have inside : (e, fd) ∈ s.mapped := standing.closing (here.imp (fun ⟨ref, _, at_⟩ => ⟨ref, at_⟩) id)
    -- whoever is at the last mapping is the environment that gives it up
    have apart {x : EnvIdx} {fx : Fin maxFd}
        (there : s.place x = .counted fx 1 ∨ s.place x = .told fx) : x = e := by
      have only := standing.last there
      rw [only, Finset.mem_singleton] at inside
      exact (Prod.mk.inj inside).1.symm
    refine ⟨fun {x} closing => ?_, fun {x fx} there => ?_, ?_⟩
    · have closing : (s.move e .idle).Closing x := closing
      by_cases same : x.1 = e
      · unfold Closing at closing
        rw [move_place, if_pos same] at closing
        exact closing.elim nofun nofun
      · refine Finset.mem_erase.mpr ⟨?_, standing.closing (closing.of_move same)⟩
        rintro rfl
        exact same rfl
    · have there : (s.move e .idle).place x = .counted fx 1 ∨
          (s.move e .idle).place x = .told fx := there
      rw [move_place] at there
      split at there
      · exact there.elim nofun nofun
      · rename_i differs
        exact absurd (apart there) differs
    · rcases standing.request with quiet | ⟨once, gone | ⟨x, fx, there, only⟩⟩
      · exact .inl quiet
      · rw [gone] at inside
        exact absurd inside (Finset.notMem_empty _)
      · obtain rfl := apart (.inr there)
        refine .inr ⟨once, .inl ?_⟩
        change s.mapped.erase (x, fd) = ∅
        rw [only, Finset.mem_singleton] at inside
        rw [only, inside, Finset.erase_singleton]
  · refine ⟨fun {x} closing => Finset.mem_insert_of_mem (standing.closing closing),
      fun {x fx} there => (standing.not_last idle here there).elim,
      .inl (standing.quiet idle here)⟩

/-- Every descriptor is being closed by somebody who has decided to send nothing. -/
structure Lost (s : Socket) : Prop where
  quiet : s.requests = []
  decided : ∀ x ∈ s.mapped, ∃ ref, ref ≠ 1 ∧ s.place x.1 = .counted x.2 ref

theorem Lost.step (lost : s.Lost) (standing : s.Standing) (stepped : s.step event = some s') :
    s'.Lost := by
  rcases step_cases stepped with ⟨e, fd, -, idle, here, rfl⟩ | ⟨e, fd, -, here, rfl⟩ |
    ⟨e, fd, -, here, rfl⟩ | ⟨e, fd, target, -, idle, here, fresh, rfl⟩
  · obtain ⟨ref, -, there⟩ := lost.decided _ here
    rw [idle] at there
    cases there
  · obtain ⟨ref, many, there⟩ := lost.decided _ (standing.closing (x := (e, fd)) (.inl ⟨1, here⟩))
    rw [here] at there
    exact absurd (ClosePoint.counted.inj there).2.symm many
  · refine ⟨lost.quiet, fun x left => ?_⟩
    obtain ⟨differs, mapped⟩ := Finset.mem_erase.mp left
    obtain ⟨ref, many, there⟩ := lost.decided x mapped
    have other : x.1 ≠ e := by
      rintro same
      rw [← same] at here
      have equal : x.2 = fd := Closing.fd_eq (.inl ⟨ref, there⟩)
        (here.imp (fun ⟨ref, _, at_⟩ => ⟨ref, at_⟩) id)
      exact differs (Prod.ext same equal)
    refine ⟨ref, many, ?_⟩
    change (s.move e .idle).place x.1 = _
    rw [move_place, if_neg other]
    exact there
  · obtain ⟨ref, -, there⟩ := lost.decided _ here
    rw [idle] at there
    cases there

def Pending (s : Socket) : Prop :=
  s.requests ≠ [] ∨ (∃ x ∈ s.mapped, ¬ s.Closing x) ∨ ∃ e fd, s.place e = .counted fd 1

theorem Shared.pending (shared : s.Shared) : s.Pending := by
  obtain ⟨x, here⟩ := shared.mapped
  refine .inr (.inl ⟨x, here, fun closing => ?_⟩)
  rcases closing with ⟨ref, there⟩ | there
  · exact absurd ((shared.idle _).symm.trans there) nofun
  · exact absurd ((shared.idle _).symm.trans there) nofun

theorem Pending.step (pending : s.Pending) (standing : s.Standing) (spaced : Spaced s event)
    (stepped : s.step event = some s') : s'.Pending := by
  rcases step_cases stepped with ⟨e, fd, rfl, idle, here, rfl⟩ | ⟨e, fd, -, here, rfl⟩ |
    ⟨e, fd, -, here, rfl⟩ | ⟨e, fd, target, -, idle, here, fresh, rfl⟩
  · rcases spaced with only | ⟨x, mapped, differs, open_⟩
    · refine .inr (.inr ⟨e, fd, ?_⟩)
      have one : s.pageref = 1 := pageref_eq_one.mpr (by rw [only, Finset.card_singleton])
      rw [move_place, if_pos rfl, one]
    · refine .inr (.inl ⟨x, mapped, fun closing => ?_⟩)
      by_cases same : x.1 = e
      · have equal : x.2 = fd := closing.fd_eq
          (.inl ⟨s.pageref, by rw [move_place, if_pos same]⟩)
        exact differs (Prod.ext same equal)
      · exact open_ (closing.of_move same)
  · exact .inl (List.cons_ne_nil _ _)
  · rcases pending with sent | ⟨x, mapped, open_⟩ | ⟨x, fx, there⟩
    · exact .inl sent
    · have closing : s.Closing (e, fd) := here.imp (fun ⟨ref, _, at_⟩ => ⟨ref, at_⟩) id
      have differs : x ≠ (e, fd) := by
        rintro rfl
        exact open_ closing
      refine .inr (.inl ⟨x, Finset.mem_erase.mpr ⟨differs, mapped⟩, fun closing' => ?_⟩)
      have closing' : (s.move e .idle).Closing x := closing'
      by_cases same : x.1 = e
      · unfold Closing at closing'
        rw [move_place, if_pos same] at closing'
        exact closing'.elim nofun nofun
      · exact open_ (closing'.of_move same)
    · have only := standing.last (.inl there)
      have inside : (e, fd) ∈ s.mapped :=
        standing.closing (here.imp (fun ⟨ref, _, at_⟩ => ⟨ref, at_⟩) id)
      rw [only, Finset.mem_singleton] at inside
      cases inside
      rcases here with ⟨ref, many, here⟩ | here
      · rw [here] at there
        exact absurd (ClosePoint.counted.inj there).2 many
      · rw [here] at there
        cases there
  · refine .inr (.inl ⟨(e, fd), Finset.mem_insert_of_mem here, fun closing => ?_⟩)
    have closing : s.Closing (e, fd) := closing
    unfold Closing at closing
    rw [idle] at closing
    exact closing.elim nofun nofun

theorem Standing.lost (standing : s.Standing) (stepped : s.step event = some s')
    (crowded : ¬ Spaced s event) : s'.Lost := by
  rcases step_cases stepped with ⟨e, fd, rfl, idle, here, rfl⟩ | ⟨e, fd, rfl, -, -⟩ |
    ⟨e, fd, rfl, -, -⟩ | ⟨e, fd, target, rfl, -⟩
  · have many : s.pageref ≠ 1 := fun one => crowded (.inl (eq_of_pageref one here))
    refine ⟨standing.quiet idle here, fun x mapped => ?_⟩
    have mapped : x ∈ s.mapped := mapped
    by_cases same : x = (e, fd)
    · subst same
      exact ⟨s.pageref, many, by rw [move_place, if_pos rfl]⟩
    · have closing : s.Closing x := of_not_not fun open_ => crowded (.inr ⟨x, mapped, same, open_⟩)
      have other : x.1 ≠ e := by
        rintro rfl
        unfold Closing at closing
        rw [idle] at closing
        exact closing.elim nofun nofun
      rw [move_place, if_neg other]
      rcases closing with ⟨ref, there⟩ | there
      · refine ⟨ref, ?_, there⟩
        rintro rfl
        exact standing.not_last idle here (.inl there)
      · exact (standing.not_last idle here (.inr there)).elim
  · exact (crowded trivial).elim
  · exact (crowded trivial).elim
  · exact (crowded trivial).elim

theorem Lost.not_pending (lost : s.Lost) (standing : s.Standing) : ¬ s.Pending := by
  rintro (sent | ⟨x, mapped, open_⟩ | ⟨e, fd, there⟩)
  · exact sent lost.quiet
  · obtain ⟨ref, -, there⟩ := lost.decided x mapped
    exact open_ (.inl ⟨ref, there⟩)
  · obtain ⟨ref, many, there'⟩ :=
      lost.decided _ (standing.closing (x := (e, fd)) (.inl ⟨1, there⟩))
    rw [there] at there'
    exact many (ClosePoint.counted.inj there').2.symm

theorem Standing.pending_iff (standing : s.Standing) (gone : s.mapped = ∅) :
    s.Pending ↔ s.ClosedOnce := by
  constructor
  · intro pending
    rcases standing.request with quiet | ⟨once, -⟩
    · rcases pending with sent | ⟨x, mapped, -⟩ | ⟨e, fd, there⟩
      · exact absurd quiet sent
      · rw [gone] at mapped
        exact absurd mapped (Finset.notMem_empty _)
      · have only := standing.last (.inl there)
        rw [gone] at only
        exact absurd only.symm (Finset.singleton_ne_empty _)
    · exact once
  · rintro ⟨sender, sent⟩
    refine .inl ?_
    rw [sent]
    exact List.cons_ne_nil _ _

theorem spaced_or_lost {start final : Socket} {events : List Event} (shared : start.Shared)
    (along : Along Socket.step (fun _ _ => True) start events final) :
    final.Standing ∧ (Along Socket.step Spaced start events final ∨ final.Lost) := by
  induction along with
  | nil => exact ⟨shared.standing, .inl .nil⟩
  | @snoc _ middle _ event _ _ stepped ih =>
    obtain ⟨standing, spaced | lost⟩ := ih
    · refine ⟨standing.step stepped, ?_⟩
      by_cases here : Spaced middle event
      · exact .inl (spaced.snoc here stepped)
      · exact .inr (standing.lost stepped here)
    · exact ⟨standing.step stepped, .inr (lost.step standing stepped)⟩

theorem pending_of_spaced {start final : Socket} {events : List Event} (shared : start.Shared)
    (along : Along Socket.step Spaced start events final) : final.Standing ∧ final.Pending :=
  along.preserves (fun s => s.Standing ∧ s.Pending) ⟨shared.standing, shared.pending⟩
    fun _ _ _ holds spaced stepped =>
      ⟨holds.1.step stepped, holds.2.step holds.1 spaced stepped⟩

/-- When every descriptor has been closed, the server has received exactly one
request, sent by the last holder of the page, if and only if no count was loaded
while all the other descriptors were being closed. -/
theorem closed_once {start final : Socket} {events : List Event} (shared : start.Shared)
    (ran : run Socket.step start events = some final) (gone : final.mapped = ∅) :
    final.ClosedOnce ↔ Along Socket.step Spaced start events final := by
  obtain ⟨standing, way⟩ := spaced_or_lost shared (Along.of_run ran)
  rw [← standing.pending_iff gone]
  constructor
  · intro pending
    exact way.resolve_right fun lost => lost.not_pending standing pending
  · intro spaced
    exact (pending_of_spaced shared spaced).2

def pair : Socket where
  mapped := {(0, 0), (1, 0)}
  place := fun _ => .idle
  requests := []

theorem pair_shared : pair.Shared := ⟨⟨(0, 0), by decide⟩, fun _ => rfl, rfl⟩

/-- One after the other. -/
theorem closed_once_pair : ∃ final : Socket,
    run Socket.step pair [.count 0 0, .unmap 0, .count 1 0, .nsipcClose 1, .unmap 1] = some final ∧
      (final.ClosedOnce ↔ Along Socket.step Spaced pair
        [.count 0 0, .unmap 0, .count 1 0, .nsipcClose 1, .unmap 1] final) := by
  have ran := Option.some_get (show (run Socket.step pair
    [.count 0 0, .unmap 0, .count 1 0, .nsipcClose 1, .unmap 1]).isSome by decide)
  exact ⟨_, ran.symm, closed_once pair_shared ran.symm (by decide)⟩

/-- Both load the count before either unmaps: the server keeps the socket. -/
theorem never_closed : ¬ ∀ start final events, Shared start →
    run Socket.step start events = some final → final.mapped = ∅ → final.ClosedOnce := by
  intro always
  have ran := Option.some_get (show (run Socket.step pair
    [.count 0 0, .count 1 0, .unmap 0, .unmap 1]).isSome by decide)
  obtain ⟨sender, sent⟩ := always _ _ _ pair_shared ran.symm (by decide)
  have quiet : ((run Socket.step pair
      [.count 0 0, .count 1 0, .unmap 0, .unmap 1]).get (by decide)).requests = [] := by decide
  rw [quiet] at sent
  cases sent

end Socket

end Sockets

end Jos
