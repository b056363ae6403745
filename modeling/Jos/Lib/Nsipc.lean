import Jos.Fs.Serv
import Jos.Lib.Fd

/-! `write` of lib/fd.c on a socket, with `devsock_write` and `nsipc_send`. The length is a
`size_t` in `write`, an `int` in `nsipc_send` and a `size_t` again in `memmove`. -/

set_option autoImplicit false

namespace Jos

open Fds
open Fs (oAccMode)

namespace Nsipc

abbrev Byte := BitVec 8

def oRdonly : BitVec 32 := 0x0000

/-- The bound in the assertion of `nsipc_send`. -/
def sendLimit : Int := 1600

/-- The bytes of `nsipcbuf` from `send.req_buf` on, behind three words. -/
def reqBufSize : Nat := pgSize - 12

/-- What `write` reads of a `struct Fd`, apart from `fd_dev_id`. -/
structure Fd where
  omode : BitVec 32
  sockid : BitVec 32

/-- `nsipcbuf.send` when it goes to the network server. -/
structure NsreqSend where
  reqS : BitVec 32
  reqSize : BitVec 32
  reqFlags : BitVec 32
  reqBuf : List Byte

/-- `returned` has the request that was sent, if any. `overrun` is a `memmove` beyond the end of
`nsipcbuf`, and `panic` the failed assertion. -/
inductive Outcome where
  | returned (r : Int) (request : Option NsreqSend)
  | panic
  | overrun

/-- What `serve_thread` answers: `lwip_send` returns the size it was given when lwIP accepts the
data, and -1 otherwise. -/
def serveSend (accepted : Bool) (request : NsreqSend) : Int :=
  if accepted then request.reqSize.toInt else -1

def nsipcSend (accepted : Bool) (s : BitVec 32) (buf : Nat → Byte) (size flags : BitVec 32) :
    Outcome :=
  if ¬ size.toInt < sendLimit then .panic
  else
    -- `memmove` takes a `size_t`
    let n := (size.signExtend 64).toNat
    if reqBufSize < n then .overrun
    else
      let request : NsreqSend := ⟨s, size, flags, (List.range n).map buf⟩
      .returned (serveSend accepted request) (some request)

def devsockWrite (accepted : Bool) (fd : Fd) (buf : Nat → Byte) (n : BitVec 64) : Outcome :=
  nsipcSend accepted fd.sockid buf (n.setWidth 32) 0

section Write

variable (f : Files) (fds : Nat → Fd) (fdnum : BitVec 32)

def page (fd : Va) : Nat := (f.pte fd).elim 0 Pte.ppn

/-- `write`. The devices of files, pipes and the console return `other`. -/
def write (accepted : Bool) (other : Int) (buf : Nat → Byte) (n : BitVec 64) : Outcome :=
  match f.fdLookup fdnum with
  | none => .returned (-eInval) none
  | some fd =>
    let id := f.devId (page f fd)
    if ¬ (id = devfileId ∨ id = devsockId ∨ id = devpipeId ∨ id = devconsId) then
      .returned (-eInval) none
    else if (fds (page f fd)).omode &&& oAccMode = oRdonly then .returned (-eInval) none
    else if id = devsockId then devsockWrite accepted (fds (page f fd)) buf n
    else .returned other none

def IsSocket : Prop := ∀ fd, f.fdLookup fdnum = some fd → f.devId (page f fd) = devsockId

/-- `write` does not get as far as `devsock_write`. -/
def Refused : Prop :=
  ∀ fd, f.fdLookup fdnum = some fd → (fds (page f fd)).omode &&& oAccMode = oRdonly

def NsreqSend.data (request : NsreqSend) : List Byte := request.reqBuf.take request.reqSize.toNat

/-- The writer lives on: it has an error, or as many bytes as it is told are on their way, and
what was put into `nsipcbuf` fits. -/
def Survives (buf : Nat → Byte) (n : BitVec 64) : Outcome → Prop
  | .returned r request =>
    (∀ q ∈ request, q.reqBuf.length ≤ reqBufSize) ∧
      (r < 0 ∨ 0 ≤ r ∧ r.toNat ≤ n.toNat ∧ ∃ q fd, request = some q ∧
        f.fdLookup fdnum = some fd ∧ q.reqS = (fds (page f fd)).sockid ∧
          q.data = (List.range r.toNat).map buf)
  | .panic => False
  | .overrun => False

end Write

section Lengths

variable {f : Files} {fds : Nat → Fd} {fdnum : BitVec 32} {accepted : Bool} {other : Int}
  {buf : Nat → Byte} {n : BitVec 64} {s size flags : BitVec 32}

theorem small_length (small : size.toNat < 1600) :
    size.toInt = size.toNat ∧ (size.signExtend 64).toNat = size.toNat := by
  have positive : size.msb = false := by
    rw [BitVec.msb_eq_false_iff_two_mul_lt]
    omega
  refine ⟨BitVec.toInt_eq_toNat_of_msb positive, ?_⟩
  rw [BitVec.signExtend_eq_setWidth_of_msb_false positive, BitVec.toNat_setWidth]
  omega

/-- A length that passes the assertion without being small is negative, and huge as a `size_t`. -/
theorem large_length (large : 1600 ≤ size.toNat) (passes : size.toInt < sendLimit) :
    reqBufSize < (size.signExtend 64).toNat := by
  have limit : sendLimit = 1600 := rfl
  have capacity : reqBufSize = 4084 := rfl
  rw [limit, BitVec.toInt_eq_toNat_cond] at passes
  rw [capacity, BitVec.toNat_signExtend, BitVec.toNat_setWidth, BitVec.msb_eq_decide]
  split at passes
  · omega
  · have negative : 2 ^ (32 - 1) ≤ size.toNat := by omega
    rw [decide_eq_true negative, if_pos rfl]
    omega

theorem nsipcSend_small (small : size.toNat < 1600) : nsipcSend accepted s buf size flags =
    .returned (if accepted then (size.toNat : Int) else -1)
      (some ⟨s, size, flags, (List.range size.toNat).map buf⟩) := by
  obtain ⟨value, count⟩ := small_length small
  have passes : size.toInt < sendLimit := by
    have limit : sendLimit = 1600 := rfl
    omega
  have fits : ¬ reqBufSize < size.toNat := by
    have capacity : reqBufSize = 4084 := rfl
    omega
  rw [nsipcSend, if_neg (not_not.mpr passes), count, if_neg fits, ← value]
  rfl

theorem nsipcSend_large (large : 1600 ≤ size.toNat) :
    nsipcSend accepted s buf size flags = .panic ∨
      nsipcSend accepted s buf size flags = .overrun := by
  rw [nsipcSend]
  by_cases passes : size.toInt < sendLimit
  · rw [if_neg (not_not.mpr passes), if_pos (large_length large passes)]
    exact .inr rfl
  · rw [if_pos passes]
    exact .inl rfl

theorem write_refused (socket : IsSocket f fdnum) (refused : Refused f fds fdnum) :
    write f fds fdnum accepted other buf n = .returned (-eInval) none := by
  unfold write
  cases found : f.fdLookup fdnum with
  | none => rfl
  | some fd =>
    simp only
    rw [socket fd found, refused fd found]
    rfl

theorem write_passed (socket : IsSocket f fdnum) (passed : ¬Refused f fds fdnum) : ∃ fd,
    f.fdLookup fdnum = some fd ∧ write f fds fdnum accepted other buf n =
      nsipcSend accepted (fds (page f fd)).sockid buf (n.setWidth 32) 0 := by
  unfold Refused at passed
  push Not at passed
  obtain ⟨fd, found, mode⟩ := passed
  refine ⟨fd, found, ?_⟩
  unfold write
  rw [found]
  simp only
  rw [socket fd found, if_neg (by decide), if_neg mode, if_pos rfl, devsockWrite]

/-- A write to a socket is safe when it is refused by the descriptor, or when the low 32 bits of
the length are less than 1600. Otherwise the writer panics or overruns `nsipcbuf`. -/
theorem write_survives_iff (socket : IsSocket f fdnum) :
    Survives f fds fdnum buf n (write f fds fdnum accepted other buf n) ↔
      Refused f fds fdnum ∨ n.toNat % 2 ^ 32 < 1600 := by
  by_cases refused : Refused f fds fdnum
  · rw [write_refused socket refused]
    exact ⟨fun _ => .inl refused, fun _ => ⟨nofun, .inl (by decide)⟩⟩
  obtain ⟨fd, found, wrote⟩ := @write_passed f fds fdnum accepted other buf n socket refused
  rw [wrote]
  have low : (n.setWidth 32).toNat = n.toNat % 2 ^ 32 := BitVec.toNat_setWidth 32 n
  rw [or_iff_right refused, ← low]
  constructor
  · intro survives
    by_contra large
    rcases @nsipcSend_large accepted buf (fds (page f fd)).sockid _ 0 (Nat.not_lt.mp large) with
      dies | dies <;> exact (dies ▸ survives :)
  · intro small
    rw [nsipcSend_small small]
    refine ⟨fun q member => ?_, ?_⟩
    · cases member
      rw [List.length_map, List.length_range]
      have capacity : reqBufSize = 4084 := rfl
      omega
    · cases accepted with
      | false => exact .inl (Int.negSucc_lt_zero 0)
      | true =>
        refine .inr ⟨Int.natCast_nonneg _, ?_, _, fd, rfl, found, rfl, ?_⟩
        · rw [if_pos rfl, Int.toNat_natCast, low]
          exact Nat.mod_le _ _
        · rw [if_pos rfl, Int.toNat_natCast]
          refine List.take_of_length_le ?_
          rw [List.length_map, List.length_range]

/-- One socket, at number 0. -/
def oneSocket : Files := ⟨Space.empty.insert 0xD0000 ⟨1, permShare⟩, fun _ => devsockId, 2⟩

def socketFd : Nat → Fd := fun _ => ⟨2, 5⟩

theorem oneSocket_isSocket {k : BitVec 32} : IsSocket oneSocket k := fun _ _ => rfl

theorem write_survives_ten : Survives oneSocket socketFd 0 (fun _ => 7) 10
    (write oneSocket socketFd 0 true 0 (fun _ => 7) 10) :=
  (write_survives_iff oneSocket_isSocket).mpr (.inr (by decide))

/-- 1600 bytes, and a length that is negative as an `int`. -/
theorem writer_killed : ¬Survives oneSocket socketFd 0 (fun _ => 7) 1600
      (write oneSocket socketFd 0 true 0 (fun _ => 7) 1600) ∧
    ¬Survives oneSocket socketFd 0 (fun _ => 7) 0x80000000
      (write oneSocket socketFd 0 true 0 (fun _ => 7) 0x80000000) := by
  have panics : write oneSocket socketFd 0 true 0 (fun _ => 7) 1600 = .panic := rfl
  have overruns : nsipcSend true 5 (fun _ => 7) 0x80000000 0 = .overrun := by
    rw [nsipcSend, if_neg (by decide), if_pos (by decide)]
  have wrote : write oneSocket socketFd 0 true 0 (fun _ => 7) 0x80000000 =
      nsipcSend true 5 (fun _ => 7) 0x80000000 0 := rfl
  rw [panics, wrote, overruns]
  exact ⟨id, id⟩

end Lengths

end Nsipc

end Jos
