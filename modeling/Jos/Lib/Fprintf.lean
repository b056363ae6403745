import Jos.Foundation.Delivery
import Jos.Lib.Sprintf

/-! `vfprintf` of lib/fprintf.c: the characters go to `write` in pieces of 256. What `write` does
with them is left open. -/

set_option autoImplicit false

namespace Jos

open Foundation Function

namespace Printfmt

/-- The length of `buf` in `struct printbuf`. -/
def printbufSize : Nat := 256

/-- `struct printbuf`, with the calls of `write` so far. -/
structure Printbuf where
  fd : Int
  idx : Nat
  result : Int
  error : Int
  buf : Nat → Byte
  calls : List (Call Byte)

def Printbuf.filled (b : Printbuf) : List Byte := (List.range b.idx).map b.buf

def writebuf (write : Int → Taker Byte) (b : Printbuf) : Printbuf :=
  if b.error > 0 then
    let result := (write b.fd).take b.calls b.filled
    { b with
      calls := b.calls ++ [⟨b.filled, result⟩]
      result := if result > 0 then wrap (b.result + result) else b.result
      -- error, or wrote less than supplied
      error := if result ≠ b.idx then (if result < 0 then result else 0) else b.error }
  else b

def putch (write : Int → Taker Byte) (b : Printbuf) (ch : Int) : Printbuf :=
  let b := { b with buf := update b.buf b.idx (BitVec.ofInt 8 ch), idx := b.idx + 1 }
  if b.idx = printbufSize then { writebuf write b with idx := 0 } else b

def Printbuf.flush (write : Int → Taker Byte) (b : Printbuf) : Printbuf :=
  if b.idx > 0 then writebuf write b else b

def Printbuf.returned (b : Printbuf) : Int := if b.result ≠ 0 then b.result else b.error

/-- `vfprintf`, whose `b.buf` is on the stack. The calls of `write` come with what is returned. -/
def vfprintf (write : Int → Taker Byte) (high : BitVec 32) (fuel : Nat) (stack : Nat → Byte)
    (fd : Int) (fmt : List Byte) (args : List Arg) : Option (Int × List (Call Byte)) :=
  (vprintfmt (putch write) high fuel [] fmt args ⟨fd, 0, 0, 1, stack, []⟩).map fun b =>
    let b := b.flush write
    (b.returned, b.calls)

/-- What is passed to `write` is `out` from its start on, to the end or to that of a whole piece.
The number of bytes written is returned, or what `write` returned if it failed and none was. -/
structure Preserves (out : List Byte) (ret : Int) (calls : List (Call Byte)) : Prop where
  start : sent calls <+: out
  ends : sent calls = out ∨ printbufSize ∣ (sent calls).length
  whole : (∀ call ∈ calls, call.Full) → sent calls = out
  stops : ∀ call ∈ calls.dropLast, call.Full
  total : amount calls ≠ 0 ∨ (∀ call ∈ calls, 0 ≤ call.result) → ret = amount calls
  failed : amount calls = 0 → ∀ call ∈ calls, call.result < 0 → ret = call.result

/-- `result` and `error` after these calls. -/
structure Printbuf.Reports (b : Printbuf) : Prop where
  result : b.result = wrap (amount b.calls)
  going : (∀ call ∈ b.calls, call.Full) → b.error = 1
  stopped : ∀ call ∈ b.calls, ¬call.Full → b.error = min call.result 0

/-- The buffer when `out` has been put into it. -/
structure Printbuf.Holds (b : Printbuf) (write : Int → Taker Byte) (fd : Int) (out : List Byte) :
    Prop where
  same : b.fd = fd
  filled : b.filled = (cut printbufSize out).2
  calls : b.calls = (write fd).deliver (cut printbufSize out).1
  reports : b.Reports

section Fprintf

variable {write : Int → Taker Byte} {b : Printbuf} {fd : Int} {out : List Byte} {c : Int}
  {fuel : Nat} {high : BitVec 32} {stack : Nat → Byte} {text : List Byte} {args : List Arg}
  {outs : List Int}

theorem Printbuf.filled_length : b.filled.length = b.idx := by
  rw [filled, List.length_map, List.length_range]

theorem wrap_add (n k : Int) : wrap (wrap n + k) = wrap (n + k) := Int.bmod_add_bmod

/-- `error` is positive as long as all was taken. -/
theorem Printbuf.Reports.error_pos (reports : b.Reports) :
    b.error > 0 ↔ ∀ call ∈ b.calls, call.Full := by
  constructor
  · intro positive call member
    by_contra short
    have error := reports.stopped call member short
    omega
  · intro full
    rw [reports.going full]
    decide

theorem writebuf_fd : (writebuf write b).fd = b.fd := by
  rw [writebuf]
  split <;> rfl

theorem Printbuf.Reports.writebuf_calls (reports : b.Reports) :
    (writebuf write b).calls = (write b.fd).send b.calls b.filled := by
  rw [writebuf]
  by_cases full : ∀ call ∈ b.calls, call.Full
  · rw [if_pos (reports.error_pos.mpr full), Taker.send_full full]
  · rw [if_neg (reports.error_pos.not.mpr full), Taker.send_stopped full]

theorem Printbuf.Reports.writebuf (reports : b.Reports) : (writebuf write b).Reports := by
  by_cases full : ∀ call ∈ b.calls, call.Full
  · have error := reports.error_pos.mpr full
    let call : Call Byte := ⟨b.filled, (write b.fd).take b.calls b.filled⟩
    have all : call.Full ↔ call.result = b.idx := by rw [Call.Full, filled_length]
    rw [Printfmt.writebuf, if_pos error]
    constructor
    · change (if call.result > 0 then wrap (b.result + call.result) else b.result) =
        wrap (amount (b.calls ++ [call]))
      rw [amount_snoc, reports.result, Call.taken]
      split
      · case isTrue some => rw [wrap_add, Nat.cast_add, Int.toNat_of_nonneg (by omega)]
      · case isFalse none => rw [Int.toNat_of_nonpos (by omega), Nat.add_zero]
    · intro still
      have last : call.Full := still call (List.mem_append_right _ (List.mem_singleton_self _))
      change (if call.result ≠ b.idx then _ else b.error) = 1
      rw [if_neg (not_not.mpr (all.mp last)), reports.going full]
    · intro other member short
      have last : other = call := by
        rcases List.mem_append.mp member with old | new
        · exact absurd (full other old) short
        · exact List.mem_singleton.mp new
      subst last
      change (if call.result ≠ b.idx then (if call.result < 0 then call.result else 0) else b.error) =
        min call.result 0
      rw [if_pos (all.not.mp short)]
      split <;> omega
  · rw [Printfmt.writebuf, if_neg (reports.error_pos.not.mpr full)]
    exact reports

theorem Printbuf.Holds.room (holds : b.Holds write fd out) : b.idx < printbufSize := by
  rw [← filled_length, holds.filled]
  exact cut_rest (by decide)

theorem Printbuf.filled_put {ch : Byte} :
    { b with buf := update b.buf b.idx ch, idx := b.idx + 1 }.filled = b.filled ++ [ch] := by
  have early : ∀ k ∈ List.range b.idx, update b.buf b.idx ch k = b.buf k := fun k below =>
    update_of_ne (Nat.ne_of_lt (List.mem_range.mp below)) ch b.buf
  change (List.range (b.idx + 1)).map (update b.buf b.idx ch) = _
  rw [List.range_succ, List.map_append, List.map_congr_left early, List.map_singleton, update_self]
  rfl

theorem Printbuf.Holds.put (holds : b.Holds write fd out) :
    (putch write b c).Holds write fd (out ++ [BitVec.ofInt 8 c]) := by
  let put : Printbuf := { b with buf := update b.buf b.idx (BitVec.ofInt 8 c), idx := b.idx + 1 }
  have filled : put.filled = (cut printbufSize out).2 ++ [BitVec.ofInt 8 c] := by
    rw [filled_put, holds.filled]
  have reports : put.Reports := ⟨holds.reports.result, holds.reports.going, holds.reports.stopped⟩
  have length : put.idx = (cut printbufSize out).2.length + 1 := by
    rw [← holds.filled, filled_length]
  change (if put.idx = printbufSize then { writebuf write put with idx := 0 } else put).Holds _ _ _
  split
  · case isTrue whole =>
      have cuts := (@cut_snoc _ printbufSize out (BitVec.ofInt 8 c)).trans
        (if_pos (length ▸ whole))
      have written : (writebuf write put).Reports := reports.writebuf
      constructor
      · exact writebuf_fd.trans holds.same
      · rw [cuts]
        rfl
      · change (writebuf write put).calls = _
        have fd' : put.fd = fd := holds.same
        have calls' : put.calls = (write fd).deliver (cut printbufSize out).1 := holds.calls
        rw [cuts, reports.writebuf_calls, filled, fd', calls', Taker.deliver_snoc]
      · exact ⟨written.result, written.going, written.stopped⟩
  · case isFalse more =>
      have cuts := (@cut_snoc _ printbufSize out (BitVec.ofInt 8 c)).trans
        (if_neg (length ▸ more))
      constructor
      · exact holds.same
      · rw [cuts]
        exact filled
      · rw [cuts]
        exact holds.calls
      · exact reports

theorem foldl_putch : (outs.foldl (putch write) ⟨fd, 0, 0, 1, stack, []⟩).Holds write fd
    (outs.map (BitVec.ofInt 8)) := by
  induction outs using List.reverseRecOn with
  | nil =>
    have nothing : wrap (0 : Nat) = 0 := by decide
    exact ⟨rfl, rfl, rfl, ⟨nothing.symm, fun _ => rfl, nofun⟩⟩
  | append_singleton outs c ih =>
    rw [List.foldl_append, List.map_append]
    exact ih.put

theorem Printbuf.Holds.flush (holds : b.Holds write fd out) :
    (b.flush write).Reports ∧
      (b.flush write).calls = (write fd).deliver (pieces printbufSize out) := by
  have length : b.idx = (cut printbufSize out).2.length := by rw [← holds.filled, filled_length]
  rw [Printbuf.flush, pieces]
  by_cases none : (cut printbufSize out).2 = []
  · rw [none, List.length_nil] at length
    rw [if_neg (by omega), if_pos none]
    exact ⟨holds.reports, holds.calls⟩
  · have some := List.length_pos_iff.mpr none
    rw [if_pos (by omega), if_neg none, holds.reports.writebuf_calls, holds.filled, holds.calls,
      holds.same, Taker.deliver_snoc]
    exact ⟨holds.reports.writebuf, rfl⟩

/-- Something was offered, so there is a call; if nothing was taken, it fell short. -/
theorem deliver_none {taker : Taker Byte} (nonempty : out ≠ [])
    (none : amount (taker.deliver (pieces printbufSize out)) = 0) :
    ∃ call ∈ taker.deliver (pieces printbufSize out), ¬call.Full := by
  by_contra all
  push Not at all
  have offered := Taker.deliver_all all
  have whole := @pieces_flatten _ printbufSize out
  rw [← offered] at whole
  refine nonempty (whole.symm.trans (List.flatten_eq_nil_iff.mpr fun piece member => ?_))
  obtain ⟨call, called, same⟩ := List.mem_map.mp member
  have taken : call.taken = 0 :=
    List.sum_eq_zero_iff_forall_eq_nat.mp none _ (List.mem_map_of_mem called)
  have full : call.result = call.piece.length := all call called
  rw [Call.taken, full, Int.toNat_natCast] at taken
  rw [← same]
  exact List.length_eq_zero_iff.mp taken

theorem Printbuf.Reports.short (reports : b.Reports) {call : Call Byte} (member : call ∈ b.calls)
    (short : call.result < 0) : b.error = call.result := by
  have notfull : ¬call.Full := by
    rw [Call.Full]
    omega
  rw [reports.stopped call member notfull]
  omega

theorem Printbuf.Reports.error_le (reports : b.Reports) : b.error ≤ 1 := by
  by_cases full : ∀ call ∈ b.calls, call.Full
  · exact (reports.going full).le
  · push Not at full
    obtain ⟨call, member, short⟩ := full
    rw [reports.stopped call member short]
    omega

theorem Printbuf.Reports.preserves {taker : Taker Byte} (reports : b.Reports)
    (calls : b.calls = taker.deliver (pieces printbufSize out)) (nonempty : out ≠ [])
    (few : amount b.calls < 2 ^ 31) : Preserves out b.returned b.calls := by
  have part : b.calls.map Call.piece <+: pieces printbufSize out := calls ▸ Taker.deliver_prefix
  have result : b.result = amount b.calls :=
    reports.result.trans (wrap_of_int (by omega) (by omega))
  have nothing (none : amount b.calls = 0) : b.returned = b.error := by
    rw [returned, result, none]
    rfl
  constructor
  · exact (List.IsPrefix.flatten part).trans (by rw [pieces_flatten])
  · exact pieces_cut part
  · intro full
    rw [calls] at full ⊢
    exact (congrArg List.flatten (Taker.deliver_all full)).trans pieces_flatten
  · exact calls ▸ Taker.deliver_stops
  · intro good
    by_cases none : amount b.calls = 0
    · obtain ⟨call, member, short⟩ := deliver_none nonempty (calls ▸ none)
      have sound := good.resolve_left (not_not.mpr none) call (calls ▸ member)
      rw [nothing none, reports.stopped call (calls ▸ member) short, none]
      omega
    · rw [returned, if_pos (by omega), result]
  · intro none call member short
    rw [nothing none, reports.short member short]

/-- Nothing to print is reported as one character, and a count that is no `int` as another. -/
theorem Printbuf.Reports.preserves_iff {taker : Taker Byte} (reports : b.Reports)
    (calls : b.calls = taker.deliver (pieces printbufSize out)) :
    Preserves out b.returned b.calls ↔
      out ≠ [] ∧ amount (taker.deliver (pieces printbufSize out)) < 2 ^ 31 := by
  rw [← calls]
  refine ⟨fun holds => ⟨?_, ?_⟩, fun ⟨nonempty, few⟩ => reports.preserves calls nonempty few⟩
  · rintro rfl
    have empty : b.calls = [] := calls
    have result : b.result = 0 := by
      rw [reports.result, empty]
      decide
    have error := reports.going (empty ▸ nofun)
    have total := holds.total (.inr (empty ▸ nofun))
    rw [returned, if_neg (not_not.mpr result), error, empty] at total
    exact absurd total (by decide)
  · by_contra many
    have error := reports.error_le
    have total := holds.total (.inl (by omega))
    have small : wrap (amount b.calls) < 2 ^ 31 := Int.bmod_lt (by decide)
    rw [returned, reports.result] at total
    split at total <;> omega

/-- `vfprintf` keeps all that there is to print, if there is something and what is written of it
can be counted in an `int`. -/
theorem vfprintf_preserves_iff (nonul : 0 ∉ text) (puts : emitted high text args = some outs)
    (fuels : text.length + 8 ≤ fuel) :
    ∃ ret calls, vfprintf write high fuel stack fd (text ++ [0]) args = some (ret, calls) ∧
      (Preserves (outs.map (BitVec.ofInt 8)) ret calls ↔ outs ≠ [] ∧
        amount ((write fd).deliver (pieces printbufSize (outs.map (BitVec.ofInt 8)))) < 2 ^ 31) := by
  let b := (outs.foldl (putch write) ⟨fd, 0, 0, 1, stack, []⟩).flush write
  obtain ⟨reports, calls⟩ := (@foldl_putch write fd stack outs).flush
  refine ⟨b.returned, b.calls, ?_, ?_⟩
  · rw [vfprintf, vprintfmt_emitted nonul fuels puts]
    rfl
  · have same : outs.map (BitVec.ofInt 8) ≠ [] ↔ outs ≠ [] := List.map_eq_nil_iff.not
    rw [← same]
    exact reports.preserves_iff calls

def takesAll : Taker Byte where
  take _ piece := piece.length
  most _ _ := Int.le_refl _

/-- Two characters, written in one call. -/
theorem vfprintf_two : ∃ ret calls,
    vfprintf (fun _ => takesAll) 0 10 (fun _ => 7) 1 (bytes "ab" ++ [0]) [] = some (ret, calls) ∧
      (Preserves [97, 98] ret calls ↔ [97, 98] ≠ ([] : List Int) ∧
        amount (takesAll.deliver (pieces printbufSize [97, 98])) < 2 ^ 31) :=
  @vfprintf_preserves_iff _ 1 10 0 (fun _ => 7) (bytes "ab") [] [97, 98] (by decide) rfl (by decide)

/-- Nothing to print, and one character is reported. -/
theorem vfprintf_nothing : emitted 0 [] [] = some [] ∧
    vfprintf (fun _ => takesAll) 0 10 (fun _ => 7) 1 [0] [] = some (1, []) ∧
      ¬Preserves [] 1 [] := by
  refine ⟨rfl, rfl, fun holds => ?_⟩
  exact absurd (holds.total (.inr nofun)) (by decide)

end Fprintf

end Printfmt

end Jos
