import Mathlib.Data.List.FinRange
import Jos.Foundation.Run
import Jos.Kern.Boot
import Jos.Kern.Trap

/-! The clock of the kernel: `time_tick` and `time_msec` of kern/time.c, and the interrupts that
`trap_dispatch` counts. -/

set_option autoImplicit false

namespace Jos

open Foundation

namespace Time

/-- `time_tick`, with the panic as `none`. -/
def timeTick (ticks : BitVec 32) : Option (BitVec 32) :=
  let ticks := ticks + 1
  if ticks * 10 < ticks then none else some ticks

def timeMsec (ticks : BitVec 32) : BitVec 32 := ticks * 10

/-- A trap on one of `n` processors. -/
structure Interrupt (n : Nat) where
  cpu : Fin n
  trapno : Nat

variable {n : Nat}

def Interrupt.timer (i : Interrupt n) : Bool := i.trapno = irqOffset + irqTimer

/-- What `trap_dispatch` does to the count. -/
def dispatch (ticks : BitVec 32) (i : Interrupt n) : Option (BitVec 32) :=
  if i.timer then timeTick ticks else some ticks

/-- What happens in 10 ms: each processor has one timer interrupt, and there may be other traps. -/
def Period (traps : List (Interrupt n)) : Prop :=
  ((traps.filter Interrupt.timer).map Interrupt.cpu).Perm (List.finRange n)

/-- The clock of a machine with `n` processors keeps time, up to one period, does not run back, and
panics when the milliseconds do not fit in 32 bits. -/
structure KeepsTime (n : Nat) : Prop where
  onTime : ∀ periods : List (List (Interrupt n)), (∀ traps ∈ periods, Period traps) →
    10 * periods.length < 2 ^ 32 → ∃ ticks, run dispatch 0 periods.flatten = some ticks ∧
      (timeMsec ticks).toNat ≤ 10 * periods.length + 10 ∧
      10 * periods.length ≤ (timeMsec ticks).toNat + 10
  forward : ∀ (traps : List (Interrupt n)) (next : Interrupt n) (ticks ticks' : BitVec 32),
    run dispatch 0 traps = some ticks → dispatch ticks next = some ticks' →
      (timeMsec ticks).toNat ≤ (timeMsec ticks').toNat
  overflow : ∀ periods : List (List (Interrupt n)), (∀ traps ∈ periods, Period traps) →
    (run dispatch 0 periods.flatten = none ↔ 2 ^ 32 ≤ 10 * periods.length)

section Count

variable {traps : List (Interrupt n)} {periods : List (List (Interrupt n))} {ticks : BitVec 32}
  {k : Nat}

theorem timeMsec_ofNat (few : 10 * k < 2 ^ 32) : (timeMsec (BitVec.ofNat 32 k)).toNat = 10 * k := by
  have ten : (10 : BitVec 32).toNat = 10 := rfl
  rw [timeMsec, BitVec.toNat_mul, BitVec.toNat_ofNat, ten]
  omega

theorem timeTick_ofNat (few : 10 * k < 2 ^ 32) : timeTick (BitVec.ofNat 32 k) =
    if 10 * (k + 1) < 2 ^ 32 then some (BitVec.ofNat 32 (k + 1)) else none := by
  have next : BitVec.ofNat 32 k + 1 = BitVec.ofNat 32 (k + 1) := (BitVec.ofNat_add ..).symm
  have ten : (10 : BitVec 32).toNat = 10 := rfl
  have product : (BitVec.ofNat 32 (k + 1) * 10).toNat = (k + 1) * 10 % 2 ^ 32 := by
    rw [BitVec.toNat_mul, BitVec.toNat_ofNat, ten, Nat.mod_eq_of_lt (by omega : k + 1 < 2 ^ 32)]
  have count : (BitVec.ofNat 32 (k + 1)).toNat = k + 1 := by
    rw [BitVec.toNat_ofNat, Nat.mod_eq_of_lt (by omega)]
  rw [timeTick, next]
  by_cases fits : 10 * (k + 1) < 2 ^ 32
  · have same : (k + 1) * 10 % 2 ^ 32 = (k + 1) * 10 := Nat.mod_eq_of_lt (by omega)
    rw [if_neg (by rw [BitVec.lt_def, product, count]; omega), if_pos fits]
  · have less : (k + 1) * 10 % 2 ^ 32 = (k + 1) * 10 - 2 ^ 32 := by omega
    rw [if_pos (by rw [BitVec.lt_def, product, count]; omega), if_neg fits]

theorem run_ticks (few : 10 * k < 2 ^ 32) : run dispatch (BitVec.ofNat 32 k) traps =
    if 10 * (k + traps.countP Interrupt.timer) < 2 ^ 32 then
      some (BitVec.ofNat 32 (k + traps.countP Interrupt.timer)) else none := by
  induction traps generalizing k with
  | nil => exact (if_pos few).symm
  | cons i rest ih =>
    rw [run, dispatch]
    by_cases timer : i.timer = true
    · rw [if_pos timer, timeTick_ofNat few, List.countP_cons_of_pos timer]
      by_cases fits : 10 * (k + 1) < 2 ^ 32
      · rw [if_pos fits, Option.bind_some, ih fits, Nat.add_right_comm, Nat.add_assoc]
      · rw [if_neg fits, if_neg (by omega)]
        rfl
    · rw [if_neg timer, Option.bind_some, ih few, List.countP_cons_of_neg timer]

theorem Period.count (period : Period traps) : traps.countP Interrupt.timer = n := by
  have length := period.length_eq
  rwa [List.length_map, List.length_finRange, ← List.countP_eq_length_filter] at length

theorem count_flatten (all : ∀ traps ∈ periods, Period traps) :
    periods.flatten.countP Interrupt.timer = n * periods.length := by
  induction periods with
  | nil => rfl
  | cons traps rest ih =>
    rw [List.flatten_cons, List.countP_append, (all traps List.mem_cons_self).count,
      ih fun later member => all later (List.mem_cons_of_mem _ member), List.length_cons,
      Nat.mul_succ, Nat.add_comm]

theorem run_periods (all : ∀ traps ∈ periods, Period traps) :
    run dispatch 0 periods.flatten = if 10 * (n * periods.length) < 2 ^ 32 then
      some (BitVec.ofNat 32 (n * periods.length)) else none := by
  have ran := @run_ticks n periods.flatten 0 (by decide)
  rw [count_flatten all, Nat.zero_add] at ran
  exact ran

theorem forward {next : Interrupt n} {ticks' : BitVec 32} (ran : run dispatch 0 traps = some ticks)
    (more : dispatch ticks next = some ticks') :
    (timeMsec ticks).toNat ≤ (timeMsec ticks').toNat := by
  have counted := @run_ticks n traps 0 (by decide)
  rw [Nat.zero_add] at counted
  rw [show run dispatch 0 traps = _ from counted] at ran
  by_cases fits : 10 * traps.countP Interrupt.timer < 2 ^ 32
  · rw [if_pos fits] at ran
    cases ran
    unfold dispatch at more
    by_cases timer : next.timer = true
    · rw [if_pos timer, timeTick_ofNat fits] at more
      by_cases fits' : 10 * (traps.countP Interrupt.timer + 1) < 2 ^ 32
      · rw [if_pos fits'] at more
        cases more
        rw [timeMsec_ofNat fits, timeMsec_ofNat fits']
        omega
      · rw [if_neg fits'] at more
        cases more
    · rw [if_neg timer] at more
      cases more
      exact Nat.le_refl _
  · rw [if_neg fits] at ran
    cases ran

def quiet (n : Nat) : List (Interrupt n) :=
  (List.finRange n).map fun cpu => ⟨cpu, irqOffset + irqTimer⟩

theorem quiet_period : Period (quiet n) := by
  have all : (quiet n).filter Interrupt.timer = quiet n := by
    refine List.filter_eq_self.mpr fun i member => ?_
    obtain ⟨cpu, -, rfl⟩ := List.mem_map.mp member
    exact decide_eq_true rfl
  rw [Period, all, quiet, List.map_map]
  exact List.Perm.of_eq (List.map_id _)

/-- After two periods, the clock of more than one processor is ahead by more than one. -/
theorem KeepsTime.single (keeps : KeepsTime n) (few : n ≤ ncpuMax) : n ≤ 1 := by
  have few : n ≤ 8 := few
  have all : ∀ traps ∈ [quiet n, quiet n], Period traps := fun traps member => by
    rcases List.mem_pair.mp member with rfl | rfl <;> exact quiet_period
  obtain ⟨ticks, ran, early, -⟩ := keeps.onTime [quiet n, quiet n] all (by change 10 * 2 < 2 ^ 32; decide)
  rw [run_periods all] at ran
  have length : [quiet n, quiet n].length = 2 := rfl
  rw [length] at ran early
  rw [if_pos (by omega)] at ran
  cases ran
  rw [timeMsec_ofNat (by omega)] at early
  omega

/-- Every processor counts every period: the clock is right on a machine with one processor. -/
theorem keepsTime_iff (least : 1 ≤ n) (few : n ≤ ncpuMax) : KeepsTime n ↔ n = 1 := by
  refine ⟨fun keeps => Nat.le_antisymm (keeps.single few) least, ?_⟩
  rintro rfl
  refine ⟨fun periods all fits => ?_, fun _ _ _ _ => forward, fun periods all => ?_⟩
  · refine ⟨BitVec.ofNat 32 periods.length, ?_, ?_, ?_⟩
    · rw [run_periods all, Nat.one_mul, if_pos fits]
    · rw [timeMsec_ofNat fits]
      omega
    · rw [timeMsec_ofNat fits]
      omega
  · rw [run_periods all, Nat.one_mul]
    by_cases fits : 10 * periods.length < 2 ^ 32
    · rw [if_pos fits]
      exact ⟨nofun, fun wraps => absurd fits (Nat.not_lt.mpr wraps)⟩
    · rw [if_neg fits]
      exact ⟨fun _ => Nat.not_lt.mp fits, fun _ => rfl⟩

theorem keepsTime_one : KeepsTime 1 := (keepsTime_iff (by decide) (by decide)).mpr rfl

theorem not_keepsTime_two : ¬KeepsTime 2 := fun keeps =>
  absurd (keeps.single (by decide)) (by decide)

end Count

end Time

end Jos
