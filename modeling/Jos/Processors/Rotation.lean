import Mathlib.Data.Fintype.Card
import Jos.Kern.Sched

/-! The turns of the environments. All processors share the counter of `sched_yield`;
where it stands, seen from the place where an environment began to wait, only moves
towards that environment. -/

set_option autoImplicit false

namespace Jos

variable {npages ncpu : Nat}

/-- What happens between two calls of `sched_yield` is not looked at: the kernel data
and the processors may change in any way, but the counter is its own. -/
inductive SchedEvent (npages ncpu : Nat) where
  | yield (cpu : Fin ncpu)
  | change (kernel : Kernel npages) (cpus : Fin ncpu → CpuInfo)

namespace Machine

variable {s s' start : Machine npages ncpu} {event : SchedEvent npages ncpu} {e x : EnvIdx}
  {log : List EnvIdx}

def schedStep (s : Machine npages ncpu) : SchedEvent npages ncpu → Option (Machine npages ncpu)
  | .yield cpu => schedYield s cpu
  | .change kernel cpus => some ⟨kernel, cpus, s.envCounter⟩

def selected (s : Machine npages ncpu) : SchedEvent npages ncpu → Option EnvIdx
  | .yield _ => nextRunnable s.kernel s.envCounter
  | .change _ _ => none

/-- Runs with the selections made, while an environment is runnable before every
step. -/
inductive Waits (e : EnvIdx) (start : Machine npages ncpu) :
    List EnvIdx → Machine npages ncpu → Prop where
  | nil : Waits e start [] start
  | snoc {log : List EnvIdx} {s s' : Machine npages ncpu} {event : SchedEvent npages ncpu} :
      Waits e start log s → s.status e = .runnable → s.schedStep event = some s' →
      Waits e start (log ++ (s.selected event).toList) s'

/-- How many slots the loop looks at from a counter on to come to a slot. -/
def turns (counter x : EnvIdx) : Nat := (x.val + nenv - (counter.val + 1)) % nenv + 1

theorem nextRunnable_spec {k : Kernel npages} {counter : EnvIdx}
    (found : nextRunnable k counter = some x) :
    (k.envs x).envStatus = .runnable ∧
      ∀ y, (k.envs y).envStatus = .runnable → turns counter x ≤ turns counter y := by
  unfold nextRunnable at found
  obtain ⟨runnable, i, bound, here, before⟩ := List.find?_eq_some_iff_getElem.mp found
  refine ⟨by simpa using runnable, fun y waiting => ?_⟩
  by_contra later
  have size : nenv = 1024 := rfl
  have small := counter.isLt
  have smallX := x.isLt
  have smallY := y.isLt
  simp only [schedOrder, List.length_map, List.length_range] at bound
  simp only [schedOrder, List.getElem_map, List.getElem_range] at here
  have place := congrArg Fin.val here
  simp only [Fin.val_ofNat, size] at place
  have less : turns counter y - 1 < i := by
    unfold turns at later ⊢
    simp only [size] at *
    omega
  have skipped := before (turns counter y - 1) less
  have inside : turns counter y - 1 < (schedOrder counter).length := by
    simp only [schedOrder, List.length_map, List.length_range]
    omega
  have there : (schedOrder counter)[turns counter y - 1] = y := by
    simp only [schedOrder, List.getElem_map, List.getElem_range]
    refine Fin.ext ?_
    simp only [turns, Fin.val_ofNat, size] at *
    omega
  rw [there] at skipped
  simp [waiting] at skipped

theorem schedStep_counter (ran : s.schedStep event = some s') :
    s'.envCounter = (s.selected event).getD s.envCounter := by
  cases event with
  | change kernel cpus =>
    cases ran
    rfl
  | yield cpu =>
    change schedYield s cpu = some s' at ran
    unfold schedYield at ran
    change s'.envCounter = (nextRunnable s.kernel s.envCounter).getD s.envCounter
    cases found : nextRunnable s.kernel s.envCounter with
    | some x =>
      rw [found] at ran
      cases ran
      rfl
    | none =>
      have halted (halts : schedHalt s cpu = some s') : s'.envCounter = s.envCounter := by
        unfold schedHalt at halts
        split at halts
        · obtain rfl := Option.some.inj halts
          rfl
        · cases halts
      rw [found] at ran
      simp only at ran
      split at ran
      · split at ran
        · obtain rfl := Option.some.inj ran
          rfl
        · exact halted ran
      · exact halted ran

theorem selected_runnable (selects : s.selected event = some x) :
    s.status x = .runnable ∧
      ∀ y, s.status y = .runnable → turns s.envCounter x ≤ turns s.envCounter y := by
  cases event with
  | change => cases selects
  | yield => exact nextRunnable_spec selects

theorem selected_runs {cpu : Fin ncpu} (selects : s.selected (.yield cpu) = some x)
    (ran : s.schedStep (.yield cpu) = some s') : s'.curenv cpu = some x := by
  change schedYield s cpu = some s' at ran
  change nextRunnable s.kernel s.envCounter = some x at selects
  unfold schedYield at ran
  rw [selects] at ran
  cases ran
  simp [envRun, setKernel, setCurenv, curenv]

theorem turns_add {counter : EnvIdx} {ahead : Nat} {c : EnvIdx}
    (there : c.val = (counter.val + ahead) % nenv) (before : ahead < turns counter e)
    (first : turns c x ≤ turns c e) (other : x ≠ e) :
    turns counter x = ahead + turns c x ∧ ahead + turns c x < turns counter e ∧
      x.val = (counter.val + (ahead + turns c x)) % nenv := by
  have differs : x.val ≠ e.val := fun same => other (Fin.ext same)
  have small := counter.isLt
  have smallX := x.isLt
  have smallE := e.isLt
  unfold turns at *
  have size : nenv = 1024 := rfl
  simp only [size] at *
  omega

/-- While the environment waits, the slots selected come nearer and nearer to it. -/
theorem Waits.nearer (waits : Waits e start log s) (waiting : e ∉ log) :
    ∃ ahead, ahead < turns start.envCounter e ∧
      s.envCounter.val = (start.envCounter.val + ahead) % nenv ∧
      (∀ x ∈ log, turns start.envCounter x ≤ ahead) ∧
      log.Pairwise fun x y => turns start.envCounter x < turns start.envCounter y := by
  induction waits with
  | nil =>
    exact ⟨0, Nat.succ_pos _, (Nat.mod_eq_of_lt start.envCounter.isLt).symm, nofun, .nil⟩
  | @snoc log s s' event _ runnable ran ih =>
    have counter := schedStep_counter ran
    obtain ⟨ahead, before, there, passed, ordered⟩ :=
      ih fun member => waiting (List.mem_append_left _ member)
    cases selects : s.selected event with
    | none =>
      rw [selects] at counter
      have same : s'.envCounter = s.envCounter := counter
      refine ⟨ahead, before, same ▸ there, ?_, ?_⟩
      · simpa using passed
      · simpa using ordered
    | some x =>
      rw [selects] at counter waiting
      have same : s'.envCounter = x := counter
      have other : x ≠ e := fun equal => waiting (by simp [equal])
      obtain ⟨turn, nearer, position⟩ := turns_add there before
        ((selected_runnable selects).2 e runnable) other
      have positive : 0 < turns s.envCounter x := Nat.succ_pos _
      refine ⟨_, nearer, same ▸ position, fun y member => ?_, ?_⟩
      · rcases List.mem_append.mp member with old | new
        · have := passed y old
          omega
        · obtain rfl : y = x := by simpa using new
          exact turn.le
      · refine List.pairwise_append.mpr ⟨ordered, List.pairwise_singleton .., ?_⟩
        intro y old z new
        obtain rfl : z = x := by simpa using new
        have := passed y old
        omega

theorem Waits.before {earlier later : List EnvIdx} (waits : Waits e start log s)
    (split : log = earlier ++ later) : ∃ s', Waits e start earlier s' := by
  induction waits generalizing earlier later with
  | nil =>
    obtain ⟨rfl, -⟩ := List.append_eq_nil_iff.mp split.symm
    exact ⟨start, .nil⟩
  | @snoc log s s' event waits runnable ran ih =>
    have whole : Waits e start (log ++ (s.selected event).toList) s' := waits.snoc runnable ran
    rcases List.eq_nil_or_concat' later with rfl | ⟨later, last, rfl⟩
    · rw [List.append_nil] at split
      exact ⟨s', split ▸ whole⟩
    · cases selects : s.selected event with
      | none =>
        rw [selects] at split
        exact ih (by simpa using split)
      | some x =>
        rw [selects, ← List.append_assoc] at split
        exact ih (List.append_inj_left' split rfl)

end Machine

end Jos
