import Mathlib.Data.Nat.Prime.Nth
import Mathlib.Tactic
import Jos.Foundation.Run

/-! user/primes.c: a chain of environments that hand numbers to the right over `ipc_send` and
`ipc_recv`. A number is sent when the receiver waits, since `ipc_send` tries until then. -/

set_option autoImplicit false

namespace Jos

namespace Primes

open Foundation

/-- Where an environment of the chain is in `primeproc`. -/
inductive Pc where
  /-- `p = ipc_recv(&envid, 0, 0)` -/
  | top
  | print (p : Nat)
  | fork (p : Nat)
  /-- `i = ipc_recv(&envid, 0, 0)` -/
  | recv (p : Nat)
  /-- `ipc_send(id, i, 0, 0)` -/
  | send (p i : Nat)
  /-- The `int3` of a panic traps again and again. -/
  | panicked (p : Nat)
deriving DecidableEq

/-- What a receiver does with a number, unless it does not wait for one. -/
def Pc.receive (i : Nat) : Pc → Option Pc
  | .top => some (.print i)
  | .recv p => some (if i % p ≠ 0 then .send p i else .recv p)
  | _ => none

/-- The environments from left to right: `id` of each is the next one. -/
structure State where
  /-- `i` of `umain` -/
  i : Nat
  chain : List Pc
  console : List Nat
deriving DecidableEq

/-- A send to the first of some environments. -/
def sendTo (i : Nat) : List Pc → Option (List Pc)
  | [] => none
  | pc :: rest => (pc.receive i).map (· :: rest)

/-- An environment of the chain goes on, with what it prints. A fork may fail. -/
def goOn (forks : Bool) : Nat → List Pc → Option (List Pc × List Nat)
  | _, [] => none
  | n + 1, pc :: rest => (goOn forks n rest).map fun (rest, out) => (pc :: rest, out)
  | 0, .print p :: rest => some (.fork p :: rest, [p])
  | 0, .fork p :: rest => some (if forks then .recv p :: .top :: rest else .panicked p :: rest, [])
  | 0, .send p i :: rest => (sendTo i rest).map fun rest => (.recv p :: rest, [])
  | 0, _ => none

inductive Event where
  | umain
  | primeproc (n : Nat) (forks : Bool)

/-- No step is given to `umain` when its `int` would overflow. -/
def State.step (s : State) : Event → Option State
  | .umain =>
    if s.i + 1 < 2 ^ 31 then (sendTo s.i s.chain).map fun chain => { s with i := s.i + 1, chain }
    else none
  | .primeproc n forks =>
    (goOn forks n s.chain).map fun (chain, out) => { s with chain, console := s.console ++ out }

/-- The first fork has succeeded. -/
def start : State := ⟨2, [.top], []⟩

/-- A number that all the primes of a list let through. -/
def Passes (ps : List Nat) (n : Nat) : Prop := 2 ≤ n ∧ ∀ p ∈ ps, ¬ p ∣ n

/-- Of the numbers below `b`, some environments of the chain have `ps` to their left and have
got those that pass. -/
def Chain : List Nat → Nat → List Pc → Prop
  | _, _, [] => False
  | ps, b, .top :: rest => rest = [] ∧ ∀ n < b, ¬ Passes ps n
  | ps, b, .print p :: rest | ps, b, .fork p :: rest | ps, b, .panicked p :: rest =>
    rest = [] ∧ IsLeast {n | Passes ps n} p ∧ ∀ n < b, ¬ Passes (ps ++ [p]) n
  | ps, b, .recv p :: rest => IsLeast {n | Passes ps n} p ∧ Chain (ps ++ [p]) b rest
  | ps, b, .send p i :: rest => IsLeast {n | Passes ps n} p ∧ Passes (ps ++ [p]) i ∧
    (∀ n < b, i < n → ¬ Passes (ps ++ [p]) n) ∧ Chain (ps ++ [p]) i rest

/-- The primes of the environments that have printed one. -/
def found : List Pc → List Nat
  | .fork p :: rest | .recv p :: rest | .send p _ :: rest | .panicked p :: rest => p :: found rest
  | _ => []

noncomputable def firstPrimes (k : Nat) : List Nat := (List.range k).map (Nat.nth Nat.Prime)

variable {ps : List Nat} {b b' p i k : Nat} {chain chain' : List Pc} {out : List Nat}

theorem passes_snoc {n : Nat} : Passes (ps ++ [p]) n ↔ Passes ps n ∧ ¬ p ∣ n := by
  constructor
  · intro passes
    exact ⟨⟨passes.1, fun q member => passes.2 q (List.mem_append_left _ member)⟩,
      passes.2 p List.mem_concat_self⟩
  · intro passes
    refine ⟨passes.1.1, fun q member => ?_⟩
    rcases List.mem_append.mp member with before | last
    · exact passes.1.2 q before
    · exact List.mem_singleton.mp last ▸ passes.2

theorem none_below {Q : Nat → Prop} (before : ∀ n < b, ¬ Q n) (later : ∀ n < b', b ≤ n → ¬ Q n) :
    ∀ n < b', ¬ Q n := by
  intro n below
  rcases Nat.lt_or_ge n b with early | late
  · exact before n early
  · exact later n below late

/-- Numbers that do not pass are not missed. -/
theorem Chain.skip (holds : Chain ps b chain) (none : ∀ n < b', b ≤ n → ¬ Passes ps n) :
    Chain ps b' chain := by
  induction chain generalizing ps b b' with
  | nil => exact holds
  | cons pc rest ih =>
    have deeper (p : Nat) : ∀ n < b', b ≤ n → ¬ Passes (ps ++ [p]) n :=
      fun n below above passes => none n below above (passes_snoc.mp passes).1
    cases pc with
    | top => exact ⟨holds.1, none_below holds.2 none⟩
    | recv p => exact ⟨holds.1, ih holds.2 (deeper p)⟩
    | send p i =>
      refine ⟨holds.1, holds.2.1, fun n below after => ?_, holds.2.2.2⟩
      rcases Nat.lt_or_ge n b with early | late
      · exact holds.2.2.1 n early after
      · exact deeper p n below late
    | print p | fork p | panicked p =>
      exact ⟨holds.1, holds.2.1, none_below holds.2.2 (deeper p)⟩

/-- The first environment gets the next number that passes. -/
theorem Chain.sent (holds : Chain ps i chain) (passes : Passes ps i)
    (sent : sendTo i chain = some chain') :
    Chain ps (i + 1) chain' ∧ found chain' = found chain := by
  cases chain with
  | nil => cases sent
  | cons pc rest =>
    cases pc with
    | top =>
      cases sent
      obtain ⟨rfl, none⟩ := holds
      refine ⟨⟨rfl, ⟨passes, fun n there => Nat.le_of_not_lt fun below => none n below there⟩,
        fun n below => ?_⟩, rfl⟩
      intro through
      obtain ⟨there, divides⟩ := passes_snoc.mp through
      rcases Nat.lt_succ_iff_lt_or_eq.mp below with below | rfl
      · exact none n below there
      · exact divides (Nat.dvd_refl n)
    | recv p =>
      obtain ⟨least, rest⟩ := holds
      by_cases multiple : i % p = 0
      · obtain rfl : Pc.recv p :: _ = chain' := by
          simpa [sendTo, Pc.receive, multiple] using sent
        refine ⟨⟨least, rest.skip fun n below above through => ?_⟩, rfl⟩
        obtain rfl : n = i := by omega
        exact (passes_snoc.mp through).2 (Nat.dvd_of_mod_eq_zero multiple)
      · obtain rfl : Pc.send p i :: _ = chain' := by
          simpa [sendTo, Pc.receive, multiple] using sent
        refine ⟨⟨least, passes_snoc.mpr ⟨passes, fun divides => multiple ?_⟩, ?_, rest⟩, rfl⟩
        · exact Nat.mod_eq_zero_of_dvd divides
        · intro n below after
          omega
    | print | fork | send | panicked => cases sent

theorem Chain.went {forks : Bool} {n : Nat} (holds : Chain ps b chain)
    (went : goOn forks n chain = some (chain', out)) :
    Chain ps b chain' ∧ found chain' = found chain ++ out := by
  induction chain generalizing ps b n chain' with
  | nil => cases n <;> cases went
  | cons pc rest ih =>
    cases n with
    | succ n =>
      obtain ⟨⟨rest', out'⟩, later, same⟩ := Option.map_eq_some_iff.mp went
      cases same
      cases pc with
      | recv p =>
        obtain ⟨chain, prints⟩ := ih holds.2 later
        exact ⟨⟨holds.1, chain⟩, congrArg (p :: ·) prints⟩
      | send p i =>
        obtain ⟨chain, prints⟩ := ih holds.2.2.2 later
        exact ⟨⟨holds.1, holds.2.1, holds.2.2.1, chain⟩, congrArg (p :: ·) prints⟩
      | top | print | fork | panicked =>
        obtain rfl := holds.1
        cases n <;> cases later
    | zero =>
      cases pc with
      | print p =>
        cases went
        exact ⟨holds, by rw [holds.1]; rfl⟩
      | fork p =>
        obtain ⟨rfl, least, none⟩ := holds
        cases forks with
        | true =>
          cases went
          exact ⟨⟨least, rfl, none⟩, rfl⟩
        | false =>
          cases went
          exact ⟨⟨rfl, least, none⟩, rfl⟩
      | send p i =>
        obtain ⟨least, passes, later, rest⟩ := holds
        obtain ⟨rest', sent, same⟩ := Option.map_eq_some_iff.mp went
        cases same
        obtain ⟨got, prints⟩ := rest.sent passes sent
        refine ⟨⟨least, got.skip fun n below above => later n below above⟩, ?_⟩
        rw [List.append_nil]
        exact congrArg (p :: ·) prints
      | top | recv | panicked => cases went

/-- The next prime is the least number that the primes before it let through. -/
theorem least_passes (least : IsLeast {n | Passes (firstPrimes k) n} p) :
    p = Nat.nth Nat.Prime k := by
  obtain ⟨⟨large, passes⟩, lower⟩ := least
  have infinite := Nat.infinite_setOfPred_prime
  have next := Nat.nth_mem_of_infinite infinite k
  apply Nat.le_antisymm
  · refine lower ⟨next.two_le, fun q member divides => ?_⟩
    obtain ⟨j, below, rfl⟩ := List.mem_map.mp member
    have same := (Nat.prime_dvd_prime_iff_eq (Nat.nth_mem_of_infinite infinite j) next).mp divides
    have earlier := List.mem_range.mp below
    exact earlier.ne (Nat.nth_injective infinite same)
  · have prime : p.minFac.Prime := Nat.minFac_prime (by omega)
    have counted := Nat.nth_count prime
    refine le_trans ?_ (Nat.minFac_le (by omega))
    rw [← counted]
    apply Nat.nth_monotone infinite
    apply Nat.le_of_not_lt
    intro earlier
    exact passes _ (List.mem_map.mpr ⟨_, List.mem_range.mpr earlier, counted⟩) p.minFac_dvd

theorem Chain.found_eq (holds : Chain (firstPrimes k) b chain) :
    found chain = (List.range' k (found chain).length).map (Nat.nth Nat.Prime) := by
  induction chain generalizing k b with
  | nil => rfl
  | cons pc rest ih =>
    have deeper {p b : Nat} (least : IsLeast {n | Passes (firstPrimes k) n} p)
        (chain : Chain (firstPrimes k ++ [p]) b rest) :
        p :: found rest =
          (List.range' k ((found rest).length + 1)).map (Nat.nth Nat.Prime) := by
      have next : firstPrimes k ++ [p] = firstPrimes (k + 1) := by
        rw [least_passes least, firstPrimes, firstPrimes, List.range_succ, List.map_append]
        rfl
      rw [List.range'_succ, List.map_cons, ← ih (next ▸ chain), ← least_passes least]
    cases pc with
    | top | print => rfl
    | recv p => exact deeper holds.1 holds.2
    | send p i => exact deeper holds.1 holds.2.2.2
    | fork p | panicked p =>
      obtain ⟨rfl, least, -⟩ := holds
      exact congrArg (· :: []) (least_passes least)

/-- Unless an environment has panicked, one of them goes on or the first one waits. -/
theorem Chain.awake (holds : Chain ps b chain) (calm : ∀ p, .panicked p ∉ chain) :
    (∀ i, (sendTo i chain).isSome) ∨ ∃ n, (goOn true n chain).isSome := by
  induction chain generalizing ps b with
  | nil => cases holds
  | cons pc rest ih =>
    cases pc with
    | top | recv => exact .inl fun i => rfl
    | print | fork => exact .inr ⟨0, rfl⟩
    | panicked p => exact absurd List.mem_cons_self (calm p)
    | send p i =>
      rcases ih holds.2.2.2 fun p member => calm p (List.mem_cons_of_mem _ member) with
        waits | ⟨n, goes⟩
      · exact .inr ⟨0, by simpa [goOn] using waits i⟩
      · exact .inr ⟨n + 1, by simpa [goOn] using goes⟩

structure State.Sieved (s : State) : Prop where
  sent : 2 ≤ s.i
  chain : Chain [] s.i s.chain
  printed : s.console = found s.chain

theorem State.Sieved.step {s s' : State} {event : Event} (sieved : s.Sieved)
    (stepped : s.step event = some s') : s'.Sieved := by
  cases event with
  | umain =>
    rw [State.step] at stepped
    split at stepped
    · obtain ⟨chain, sent, rfl⟩ := Option.map_eq_some_iff.mp stepped
      obtain ⟨got, prints⟩ := sieved.chain.sent ⟨sieved.sent, by simp⟩ sent
      exact ⟨Nat.le_succ_of_le sieved.sent, got, sieved.printed.trans prints.symm⟩
    · cases stepped
  | primeproc n forks =>
    obtain ⟨⟨chain, out⟩, went, rfl⟩ := Option.map_eq_some_iff.mp stepped
    obtain ⟨goes, prints⟩ := sieved.chain.went went
    exact ⟨sieved.sent, goes, by rw [prints, sieved.printed]⟩

/-- However the environments take turns, the primes are printed in order, and before a fork has
failed some environment can go on. -/
theorem primes_printed {events : List Event} {s : State}
    (ran : run State.step start events = some s) :
    s.console = (List.range s.console.length).map (Nat.nth Nat.Prime) ∧
    ((∀ p, .panicked p ∉ s.chain) → s.i + 1 < 2 ^ 31 → ∃ event, (s.step event).isSome) := by
  have begins : start.Sieved := ⟨le_rfl, ⟨rfl, fun n below passes => below.not_ge passes.1⟩, rfl⟩
  have sieved := (Along.of_run ran).preserves State.Sieved begins fun _ _ _ holds _ => holds.step
  constructor
  · have printed := Chain.found_eq (k := 0) sieved.chain
    rwa [← sieved.printed, ← List.range_eq_range'] at printed
  · intro calm small
    rcases sieved.chain.awake calm with waits | ⟨n, goes⟩
    · refine ⟨.umain, ?_⟩
      rw [State.step, if_pos small, Option.isSome_map]
      exact waits s.i
    · exact ⟨.primeproc n true, by simpa [State.step] using goes⟩

/-- The second environment prints 3 while the first one has 4. -/
theorem primes_printed_three : ∃ s : State, s.console = [Nat.nth Nat.Prime 0, Nat.nth Nat.Prime 1] ∧
    ∃ event, (s.step event).isSome := by
  have printed := @primes_printed [.umain, .primeproc 0 true, .primeproc 0 true, .umain,
    .primeproc 0 true, .umain, .primeproc 1 true] ⟨5, [.recv 2, .fork 3], [2, 3]⟩ (by decide)
  exact ⟨_, printed.1, printed.2 (by simp) (by decide)⟩

end Primes

end Jos
