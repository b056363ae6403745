import Jos.Foundation.Run
import Jos.Kern.Lock

/-! `spin_lock` and `spin_unlock` of kern/spinlock.c, with each load, store and `xchg` of a
processor a step of its own. What `Smp` does to its lock in one step is what they amount to. -/

set_option autoImplicit false

namespace Jos

open Foundation Function

variable {npages ncpu : Nat}

/-- Where a processor is in the two functions. -/
inductive SpinPc where
  /-- In neither, and it has not the lock. -/
  | out
  /-- `holding` in `spin_lock`, when `lock->locked` was set -/
  | lockHolding
  /-- The `xchg` of `spin_lock` -/
  | lockXchg
  /-- `lk->cpu = thiscpu` -/
  | lockCpu
  /-- `spin_lock` has returned. -/
  | held
  /-- `holding` in `spin_unlock`, when `lock->locked` was set -/
  | unlockHolding
  /-- `lk->cpu = 0` -/
  | unlockCpu
  /-- The `xchg` of `spin_unlock` -/
  | unlockXchg
  | panicked
deriving DecidableEq

/-- Between the two `xchg`. -/
def SpinPc.owns : SpinPc → Bool
  | .lockCpu | .held | .unlockHolding | .unlockCpu | .unlockXchg => true
  | _ => false

/-- Between the two stores to `lk->cpu`. -/
def SpinPc.recorded : SpinPc → Bool
  | .held | .unlockHolding | .unlockCpu => true
  | _ => false

structure Spinning (ncpu : Nat) where
  lk : Spinlock ncpu
  pc : Fin ncpu → SpinPc

namespace Spinning

def goto (s : Spinning ncpu) (c : Fin ncpu) (lk : Spinlock ncpu) (pc : SpinPc) : Spinning ncpu :=
  ⟨lk, update s.pc c pc⟩

/-- The next access of a processor. Outside the functions it turns to `spin_lock`, or to
`spin_unlock` when it has the lock. -/
def step (s : Spinning ncpu) (c : Fin ncpu) : Option (Spinning ncpu) :=
  match s.pc c with
  | .out => some (s.goto c s.lk (if s.lk.locked then .lockHolding else .lockXchg))
  | .lockHolding => some (s.goto c s.lk (if s.lk.cpu = some c then .panicked else .lockXchg))
  | .lockXchg =>
    some (s.goto c { s.lk with locked := true } (if s.lk.locked then .lockXchg else .lockCpu))
  | .lockCpu => some (s.goto c { s.lk with cpu := some c } .held)
  | .held => some (s.goto c s.lk (if s.lk.locked then .unlockHolding else .panicked))
  | .unlockHolding => some (s.goto c s.lk (if s.lk.cpu = some c then .unlockCpu else .panicked))
  | .unlockCpu => some (s.goto c { s.lk with cpu := none } .unlockXchg)
  | .unlockXchg => some (s.goto c { s.lk with locked := false } .out)
  | .panicked => none

/-- `__spin_initlock`, and no processor has come to the lock. -/
def Fresh (s : Spinning ncpu) : Prop := s = ⟨⟨false, none⟩, fun _ => .out⟩

end Spinning

/-- A `spin_lock` that gets the lock, or a `spin_unlock`, in one step. -/
def Spinlock.call (lk : Spinlock ncpu) : Fin ncpu × LockCall → Option (Spinlock ncpu)
  | (c, .lock) => if lk.holding c ∨ lk.locked then none else some ⟨true, some c⟩
  | (c, .unlock) => if lk.holding c then some ⟨false, none⟩ else none

/-- What `Smp` does to its lock. -/
theorem Smp.lock_call (s : Smp npages ncpu) (c : Fin ncpu) (next : Spot ncpu) :
    (s.spinLock c next).lock = (s.lock.call (c, .lock)).getD s.lock ∧
      (s.spinUnlock c next).lock = (s.lock.call (c, .unlock)).getD s.lock := by
  simp only [Smp.spinLock, Smp.spinUnlock, Spinlock.call]
  constructor <;> split_ifs <;> simp_all [Smp.panic, Smp.goto, Smp.record]

namespace Spinning

/-- The lock when `holder` has it. -/
def lockOf (holder : Option (Fin ncpu)) : Spinlock ncpu := ⟨holder.isSome, holder⟩

/-- Who has the lock, from the first `xchg` to the second. -/
structure HeldBy (s : Spinning ncpu) (holder : Option (Fin ncpu)) : Prop where
  locked : s.lk.locked = holder.isSome
  owner : ∀ c, (s.pc c).owns = true ↔ holder = some c
  cpu : ∀ c, (s.pc c).recorded = true ↔ s.lk.cpu = some c
  calm : ∀ c, s.pc c ≠ .panicked

variable {s s' : Spinning ncpu} {c : Fin ncpu} {holder holder' : Option (Fin ncpu)}

/-- A processor moves on. For the others nothing has changed. -/
theorem HeldBy.goto (held : s.HeldBy holder) {pc : SpinPc} {lk : Spinlock ncpu}
    (locked : lk.locked = holder'.isSome) (owns : pc.owns = true ↔ holder' = some c)
    (recorded : pc.recorded = true ↔ lk.cpu = some c)
    (owner : ∀ other, other ≠ c → (holder = some other ↔ holder' = some other))
    (cpu : ∀ other, other ≠ c → (s.lk.cpu = some other ↔ lk.cpu = some other))
    (calm : pc ≠ .panicked) : HeldBy (s.goto c lk pc) holder' := by
  refine ⟨locked, fun other => ?_, fun other => ?_, fun other => ?_⟩ <;>
    by_cases same : other = c
  · simpa only [same, Spinning.goto, update_self] using owns
  · simpa only [Spinning.goto, update_of_ne same, ← owner other same] using held.owner other
  · simpa only [same, Spinning.goto, update_self] using recorded
  · simpa only [Spinning.goto, update_of_ne same, ← cpu other same] using held.cpu other
  · simpa only [same, Spinning.goto, update_self] using calm
  · simpa only [Spinning.goto, update_of_ne same] using held.calm other

/-- One access. The `xchg` of a processor that gets the lock is its call of `spin_lock`, and the
`xchg` of `spin_unlock` is the call of that. -/
theorem HeldBy.step (held : s.HeldBy holder) (stepped : s.step c = some s') :
    ∃ calls holder', run Spinlock.call (lockOf holder) calls = some (lockOf holder') ∧
      s'.HeldBy holder' := by
  have owner := held.owner c
  have cpu := held.cpu c
  have locked := held.locked
  have stays {pc : SpinPc} {lk : Spinlock ncpu} (same : lk.locked = s.lk.locked)
      (owns : pc.owns = (s.pc c).owns) (recorded : pc.recorded = true ↔ lk.cpu = some c)
      (others : ∀ other, other ≠ c → (s.lk.cpu = some other ↔ lk.cpu = some other))
      (calm : pc ≠ .panicked) :
      ∃ calls holder', run Spinlock.call (lockOf holder) calls = some (lockOf holder') ∧
        HeldBy (s.goto c lk pc) holder' :=
    ⟨[], holder, rfl, held.goto (same.trans locked) (by rw [owns, owner]) recorded
      (fun _ _ => Iff.rfl) others calm⟩
  cases at' : s.pc c <;>
    simp only [Spinning.step, at', Option.some.injEq, reduceCtorEq] at stepped
  all_goals
    subst stepped
    simp only [at', SpinPc.owns, SpinPc.recorded, Bool.false_eq_true, false_iff, true_iff] at owner cpu stays
  case out =>
    split <;> exact stays rfl rfl (by simpa using cpu) (fun _ _ => Iff.rfl) (by simp)
  case lockHolding =>
    rw [if_neg cpu]
    exact stays rfl rfl (by simpa using cpu) (fun _ _ => Iff.rfl) (by simp)
  case lockXchg =>
    cases taken : s.lk.locked with
    | true => exact stays taken.symm rfl (by simpa using cpu) (fun _ _ => Iff.rfl) (by simp)
    | false =>
      rw [taken] at locked
      obtain rfl := Option.isNone_iff_eq_none.mp (by simpa using locked.symm)
      exact ⟨[(c, .lock)], some c, by simp [run, Spinlock.call, Spinlock.holding, lockOf],
        held.goto rfl (by simp [SpinPc.owns]) (by simpa [SpinPc.recorded] using cpu)
          (fun _ differs => by simp [differs.symm]) (fun _ _ => Iff.rfl) (by simp)⟩
  case lockCpu =>
    refine stays rfl rfl (by simp) (fun other differs => ?_) (by simp)
    have mine : (s.pc other).recorded = true → (s.pc other).owns = true := by
      cases s.pc other <;> simp [SpinPc.owns, SpinPc.recorded]
    rw [held.cpu, held.owner, owner] at mine
    exact ⟨fun noted => mine noted, fun same => absurd (Option.some.inj same).symm differs⟩
  case held =>
    rw [if_pos (by rw [locked, owner]; rfl)]
    exact stays rfl rfl (by simpa using cpu) (fun _ _ => Iff.rfl) (by simp)
  case unlockHolding =>
    rw [if_pos cpu]
    exact stays rfl rfl (by simpa using cpu) (fun _ _ => Iff.rfl) (by simp)
  case unlockCpu =>
    exact stays rfl rfl (by simp) (fun _ differs => by simp [cpu, differs.symm]) (by simp)
  case unlockXchg =>
    subst owner
    exact ⟨[(c, .unlock)], none, by simp [run, Spinlock.call, Spinlock.holding, lockOf],
      held.goto rfl (by simp [SpinPc.owns]) (by simpa [SpinPc.recorded] using cpu)
        (fun _ differs => by simp [differs.symm]) (fun _ _ => Iff.rfl) (by simp)⟩

/-- In every interleaving of the accesses of any number of processors, at most one of them has the
lock, none panics in `spin_lock` or `spin_unlock`, and the lock is where the calls lead that have
been made, each in one step. -/
theorem spin_lock_refines (reached : Reachable (@Fresh ncpu) step (fun _ _ => True) s) :
    (∀ c c', (s.pc c).owns → (s.pc c').owns → c = c') ∧ (∀ c, s.pc c ≠ .panicked) ∧
      (∀ c, (s.pc c).recorded ↔ s.lk.cpu = some c) ∧
      ∃ calls lk, run Spinlock.call ⟨false, none⟩ calls = some lk ∧ s.lk.locked = lk.locked ∧
        ∀ c, lk.holding c ↔ (s.pc c).owns := by
  obtain ⟨calls, holder, ran, held⟩ := reached.invariant (fun s => ∃ calls holder,
      run Spinlock.call ⟨false, none⟩ calls = some (lockOf holder) ∧ s.HeldBy holder)
    (fun s fresh => by
      subst fresh
      exact ⟨[], none, rfl, rfl, by simp [SpinPc.owns], by simp [SpinPc.recorded], by simp⟩)
    fun before c after ⟨calls, holder, ran, held⟩ _ stepped => by
      obtain ⟨more, holder', ran', held'⟩ := held.step stepped
      exact ⟨calls ++ more, holder', by rw [run_append, ran]; exact ran', held'⟩
  refine ⟨fun c c' owns owns' => ?_, held.calm, held.cpu, calls, lockOf holder, ran, held.locked,
    fun c => ?_⟩
  · exact Option.some.inj (((held.owner c).mp owns).symm.trans ((held.owner c').mp owns'))
  · rw [held.owner]
    constructor
    · intro holding
      exact holding.2
    · intro same
      rw [same]
      exact ⟨rfl, rfl⟩

/-- Processor 1 spins while processor 0 has the lock. -/
theorem spin_lock_two : ∃ s : Spinning 2, s.pc 0 = .held ∧ s.pc 1 = .lockXchg ∧
    ∀ c c', (s.pc c).owns → (s.pc c').owns → c = c' := by
  have runs : ((run step ⟨⟨false, none⟩, fun _ => .out⟩ [0, 0, 1, 0, 1, 1]).any fun s =>
      s.pc (0 : Fin 2) = .held ∧ s.pc 1 = .lockXchg) = true := by decide
  obtain ⟨s, ran, facts⟩ := (Option.any_eq_true _ _).mp runs
  obtain ⟨first, second⟩ := of_decide_eq_true facts
  exact ⟨s, first, second, (spin_lock_refines ⟨_, _, rfl, .of_run ran⟩).1⟩

end Spinning

end Jos
