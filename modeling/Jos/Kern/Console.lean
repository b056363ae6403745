import Mathlib.Data.List.TakeDrop
import Mathlib.Tactic.Common
import Jos.Foundation.Run

/-! The input buffer of the console: `cons_intr` and `cons_getc` of kern/console.c. -/

set_option autoImplicit false

namespace Jos

open Foundation Function

namespace Console

def consBufSize : Nat := 512

abbrev Char := BitVec 8

structure Cons where
  buf : Nat → Char
  rpos : Nat
  wpos : Nat

def next (pos : Nat) : Nat := if pos + 1 = consBufSize then 0 else pos + 1

/-- `cons_intr`, on the characters that the device has until it has none. It is `none` when it
stores outside the buffer. -/
def consIntr : List Char → Cons → Option Cons
  | [], cons => some cons
  | c :: rest, cons =>
    if c = 0 then consIntr rest cons
    else if cons.wpos < consBufSize then
      consIntr rest { cons with buf := update cons.buf cons.wpos c, wpos := next cons.wpos }
    else none

/-- `cons_getc`, with what the serial port and the keyboard have for it. -/
def consGetc (serial kbd : List Char) (cons : Cons) : Option (Char × Cons) :=
  (consIntr serial cons).bind fun cons =>
    (consIntr kbd cons).bind fun cons =>
      if cons.rpos ≠ cons.wpos then
        if cons.rpos < consBufSize then
          some (cons.buf cons.rpos, { cons with rpos := next cons.rpos })
        else none
      else some (0, cons)

def Cons.pending (cons : Cons) : List Char :=
  (List.range ((cons.wpos + consBufSize - cons.rpos) % consBufSize)).map fun k =>
    cons.buf ((cons.rpos + k) % consBufSize)

/-- The buffer, the characters that the devices have delivered, and those that `cons_getc` has
returned. -/
structure Terminal where
  cons : Cons
  delivered : List Char
  returned : List Char

inductive Event where
  | intr (chars : List Char)
  | getc (serial kbd : List Char)

def real (chars : List Char) : List Char := chars.filter (· ≠ 0)

def Event.chars : Event → List Char
  | .intr chars => real chars
  | .getc serial kbd => real (serial ++ kbd)

def step (s : Terminal) : Event → Option Terminal
  | .intr chars => (consIntr chars s.cons).map fun cons =>
    { s with cons := cons, delivered := s.delivered ++ real chars }
  | .getc serial kbd => (consGetc serial kbd s.cons).map fun (c, cons) =>
    { cons := cons, delivered := s.delivered ++ real (serial ++ kbd),
      returned := if c = 0 then s.returned else s.returned ++ [c] }

/-- Fewer characters than the buffer has places are then delivered and not returned. -/
def Fits (s : Terminal) (event : Event) : Prop :=
  s.delivered.length + event.chars.length < s.returned.length + consBufSize

def Fresh (s : Terminal) : Prop :=
  s.cons.rpos = 0 ∧ s.cons.wpos = 0 ∧ s.delivered = [] ∧ s.returned = []

/-- The buffer holds what has been delivered from the place `first` on. -/
structure Cons.Holds (cons : Cons) (delivered : List Char) (first : Nat) : Prop where
  low : first ≤ delivered.length
  few : delivered.length < first + consBufSize
  rpos : cons.rpos = first % consBufSize
  wpos : cons.wpos = delivered.length % consBufSize
  bytes : ∀ k c, first ≤ k → delivered[k]? = some c → cons.buf (k % consBufSize) = c

section Ring

variable {cons cons' : Cons} {delivered chars serial kbd : List Char} {first : Nat} {c : Char}

theorem next_mod (k : Nat) : next (k % consBufSize) = (k + 1) % consBufSize := by
  have size : consBufSize = 512 := rfl
  unfold next
  rw [size]
  split <;> omega

section

variable (holds : cons.Holds delivered first)

include holds

theorem Cons.Holds.put :
    Cons.Holds { cons with buf := update cons.buf cons.wpos c, wpos := next cons.wpos }
      (delivered ++ [c])
      (if delivered.length + 1 < first + consBufSize then first else delivered.length + 1) := by
  have size : consBufSize = 512 := rfl
  have low := holds.low
  have few := holds.few
  have length : (delivered ++ [c]).length = delivered.length + 1 := List.length_append
  by_cases room : delivered.length + 1 < first + consBufSize
  · rw [if_pos room]
    refine ⟨by omega, by omega, holds.rpos, ?_, fun k c' above found => ?_⟩
    · rw [length, ← next_mod, holds.wpos]
    · dsimp only
      rw [holds.wpos]
      by_cases last : k = delivered.length
      · rw [last, List.getElem?_concat_length] at found
        rw [last, update_self]
        exact Option.some.inj found
      · have below : k < delivered.length := by
          have := (List.getElem?_eq_some_iff.mp found).1
          omega
        rw [List.getElem?_append_left below] at found
        rw [update_of_ne (by rw [size]; omega)]
        exact holds.bytes k c' above found
  · rw [if_neg room]
    refine ⟨by omega, by omega, ?_, ?_, fun k c' above found => ?_⟩
    · rw [holds.rpos, size]
      omega
    · rw [length, ← next_mod, holds.wpos]
    · have := (List.getElem?_eq_some_iff.mp found).1
      omega

/-- `cons_intr` never stores outside the buffer. It loses nothing while there is room. -/
theorem Cons.Holds.consIntr : ∃ cons' first', consIntr chars cons = some cons' ∧
      cons'.Holds (delivered ++ real chars) first' ∧ first ≤ first' ∧
      (delivered.length + (real chars).length < first + consBufSize → first' = first) := by
  induction chars generalizing cons delivered first with
  | nil =>
    refine ⟨cons, first, rfl, ?_, Nat.le_refl first, fun _ => rfl⟩
    rw [real, List.filter_nil, List.append_nil]
    exact holds
  | cons c rest ih =>
    have size : consBufSize = 512 := rfl
    rw [Console.consIntr]
    by_cases null : c = 0
    · have same : real (c :: rest) = real rest := List.filter_cons_of_neg (by simpa using null)
      rw [if_pos null, same]
      exact ih holds
    · have more : real (c :: rest) = c :: real rest := List.filter_cons_of_pos (by simpa using null)
      have inside : cons.wpos < consBufSize := by
        rw [holds.wpos]
        exact Nat.mod_lt _ (by decide)
      obtain ⟨cons', first', ran, holds', later, kept⟩ := ih (@Cons.Holds.put cons delivered first c holds)
      rw [if_neg null, if_pos inside, more]
      rw [List.append_assoc, List.singleton_append] at holds'
      have low := holds.low
      have length : (delivered ++ [c]).length = delivered.length + 1 := List.length_append
      refine ⟨cons', first', ran, holds', Nat.le_trans ?_ later, fun room => ?_⟩
      · split <;> omega
      · rw [List.length_cons] at room
        rw [if_pos (by omega)] at kept
        exact kept (by omega)

theorem Cons.Holds.get :
    (cons.rpos = cons.wpos ↔ first = delivered.length) ∧ cons.rpos < consBufSize ∧
      (first < delivered.length → delivered[first]? = some (cons.buf cons.rpos) ∧
        Cons.Holds { cons with rpos := next cons.rpos } delivered (first + 1)) := by
  have size : consBufSize = 512 := rfl
  have low := holds.low
  have few := holds.few
  rw [holds.rpos]
  refine ⟨?_, Nat.mod_lt _ (by decide), fun more => ?_⟩
  · rw [holds.wpos, size]
    omega
  · have found : delivered[first]? = some delivered[first] := List.getElem?_eq_getElem more
    rw [holds.bytes first _ (Nat.le_refl first) found]
    exact ⟨found, by omega, by omega, next_mod first, holds.wpos,
      fun k c above => holds.bytes k c (Nat.le_of_succ_le above)⟩

theorem Cons.Holds.pending : cons.pending = delivered.drop first := by
  have size : consBufSize = 512 := rfl
  have low := holds.low
  have few := holds.few
  have count : (cons.wpos + consBufSize - cons.rpos) % consBufSize = delivered.length - first := by
    rw [holds.rpos, holds.wpos, size]
    omega
  unfold Cons.pending
  rw [count]
  refine List.ext_getElem (by simp) fun k below below' => ?_
  rw [List.length_drop] at below'
  have place : (cons.rpos + k) % consBufSize = (first + k) % consBufSize := by
    rw [holds.rpos, Nat.mod_add_mod]
  rw [List.getElem_map, List.getElem_range, List.getElem_drop, place]
  exact holds.bytes (first + k) _ (Nat.le_add_right _ _) (List.getElem?_eq_getElem _)

end

end Ring

/-- What has been returned is from before the place `first`, and what is in the buffer from there
on. -/
structure Terminal.Holds (s : Terminal) (first : Nat) : Prop where
  cons : s.cons.Holds s.delivered first
  real : ∀ c ∈ s.delivered, c ≠ 0
  returned : s.returned.Sublist (s.delivered.take first)

section Runs

variable {s s' : Terminal} {first : Nat} {event : Event} {events : List Event}

theorem mem_real {chars : List Char} {c : Char} (member : c ∈ real chars) : c ≠ 0 :=
  of_decide_eq_true (List.mem_filter.mp member).2

theorem Terminal.Holds.deliver (holds : s.Holds first) (chars : List Char) :
    ∃ cons' first', consIntr chars s.cons = some cons' ∧
      Terminal.Holds ⟨cons', s.delivered ++ Console.real chars, s.returned⟩ first' ∧
      (s.delivered.length + (Console.real chars).length < first + consBufSize → first' = first) := by
  obtain ⟨cons', first', ran, holds', later, kept⟩ := @Cons.Holds.consIntr s.cons s.delivered chars first
    holds.cons
  refine ⟨cons', first', ran, ⟨holds', fun c member => ?_, ?_⟩, kept⟩
  · exact (List.mem_append.mp member).elim (holds.real c) mem_real
  · have same : (s.delivered ++ Console.real chars).take first = s.delivered.take first :=
      List.take_append_of_le_length holds.cons.low
    exact (same ▸ holds.returned).trans (List.take_prefix_take_left later).sublist

theorem consIntr_append {chars more : List Char} {cons : Cons} :
    consIntr (chars ++ more) cons = (consIntr chars cons).bind (consIntr more) := by
  induction chars generalizing cons with
  | nil => rfl
  | cons c rest ih =>
    rw [List.cons_append, consIntr, consIntr]
    by_cases null : c = 0
    · rw [if_pos null, if_pos null, ih]
    · rw [if_neg null, if_neg null]
      by_cases inside : cons.wpos < consBufSize
      · rw [if_pos inside, if_pos inside, ih]
      · rw [if_neg inside, if_neg inside]
        rfl

/-- What has been returned is all that was delivered before the place `first`. -/
def Terminal.Exact (s : Terminal) (first : Nat) : Prop := s.returned = s.delivered.take first

theorem Terminal.Holds.first_eq (holds : s.Holds first) (whole : s.Exact first) :
    s.returned.length = first := by
  rw [whole, List.length_take, Nat.min_eq_left holds.cons.low]

/-- One event. A character that `cons_getc` returns is the next one that was delivered. -/
theorem Terminal.Holds.getc (holds : s.Holds first) : ∃ c cons',
    consGetc [] [] s.cons = some (c, cons') ∧
      (c = 0 ↔ first = s.delivered.length) ∧ ∃ first', Terminal.Holds
        ⟨cons', s.delivered, if c = 0 then s.returned else s.returned ++ [c]⟩ first' ∧
        (s.Exact first → Terminal.Exact
          ⟨cons', s.delivered, if c = 0 then s.returned else s.returned ++ [c]⟩ first') := by
  obtain ⟨empty, inside, get⟩ := holds.cons.get
  have low := holds.cons.low
  by_cases none : s.cons.rpos = s.cons.wpos
  · refine ⟨0, s.cons, if_neg (not_not.mpr none), ?_, first, ?_⟩
    · exact ⟨fun _ => empty.mp none, fun _ => rfl⟩
    · rw [if_pos rfl]
      exact ⟨holds, id⟩
  · have more : first < s.delivered.length := by
      have := mt empty.mpr none
      omega
    obtain ⟨found, holds'⟩ := get more
    have there := holds.real _ (List.mem_of_getElem? found)
    refine ⟨s.cons.buf s.cons.rpos, { s.cons with rpos := next s.cons.rpos }, ?_, ?_, first + 1, ?_⟩
    · exact (if_pos none).trans (if_pos inside)
    · exact ⟨fun null => absurd null there, fun ended => absurd ended (by omega)⟩
    · have taken : s.delivered.take (first + 1) =
          s.delivered.take first ++ [s.cons.buf s.cons.rpos] := by
        rw [List.take_add_one, found]
        rfl
      rw [if_neg there]
      refine ⟨⟨holds', holds.real, ?_⟩, fun whole => ?_⟩
      · dsimp only
        rw [taken]
        exact holds.returned.append (List.Sublist.refl _)
      · change s.returned ++ _ = s.delivered.take (first + 1)
        rw [taken, whole]

theorem consGetc_eq {serial kbd : List Char} {cons : Cons} :
    consGetc serial kbd cons = (consIntr (serial ++ kbd) cons).bind (consGetc [] []) := by
  rw [consIntr_append, Option.bind_assoc]
  rfl

theorem Terminal.Holds.step (holds : s.Holds first) : ∃ s' first', Console.step s event = some s' ∧
    s'.Holds first' ∧ (Fits s event → s.Exact first → s'.Exact first') := by
  have whole_delivered {cons' : Cons} {first' : Nat} {chars : List Char} (same : first' = first)
      (whole : s.Exact first) : Terminal.Exact ⟨cons', s.delivered ++ chars, s.returned⟩ first' := by
    change s.returned = (s.delivered ++ chars).take first'
    rw [same, List.take_append_of_le_length holds.cons.low]
    exact whole
  cases event with
  | intr chars =>
    obtain ⟨cons', first', ran, holds', kept⟩ := holds.deliver chars
    refine ⟨_, first', by rw [Console.step, ran]; rfl, holds', fun fits whole => ?_⟩
    have length := holds.first_eq whole
    exact whole_delivered (kept (length ▸ fits)) whole
  | getc serial kbd =>
    obtain ⟨cons', first', ran, holds', kept⟩ := holds.deliver (serial ++ kbd)
    obtain ⟨c, cons'', got, -, first'', holds'', exact'⟩ := holds'.getc
    refine ⟨_, first'', by rw [Console.step, consGetc_eq, ran, Option.bind_some, got]; rfl, holds'',
      fun fits whole => exact' ?_⟩
    have length := holds.first_eq whole
    exact whole_delivered (kept (length ▸ fits)) whole

theorem Fresh.holds (fresh : Fresh s) : s.Holds 0 ∧ s.Exact 0 := by
  obtain ⟨rpos, wpos, delivered, returned⟩ := fresh
  refine ⟨⟨⟨Nat.zero_le _, ?_, rpos, ?_, fun k c _ found => ?_⟩, fun c member => ?_, ?_⟩, returned⟩
  · rw [delivered]
    decide
  · rw [wpos, delivered]
    rfl
  · rw [delivered] at found
    cases found
  · rw [delivered] at member
    cases member
  · rw [returned]
    exact List.nil_sublist _

/-- The state after any run, and after a run in which what is delivered always fits. -/
theorem reached_holds {guard : Terminal → Event → Prop} (reached : Reachable Fresh step guard s)
    (fits : ∀ s event, guard s event → Fits s event) : ∃ first, s.Holds first ∧ s.Exact first :=
  reached.invariant (fun s => ∃ first, s.Holds first ∧ s.Exact first)
    (fun _ fresh => ⟨0, fresh.holds⟩) fun before event after ⟨first, holds, whole⟩ admitted ran => by
      obtain ⟨s', first', ran', holds', kept⟩ := @Terminal.Holds.step before first event holds
      cases ran.symm.trans ran'
      exact ⟨first', holds', kept (fits before event admitted) whole⟩

theorem any_holds (reached : Reachable Fresh step (fun _ _ => True) s) : ∃ first, s.Holds first :=
  reached.invariant (fun s => ∃ first, s.Holds first) (fun _ fresh => ⟨0, fresh.holds.1⟩)
    fun before event after ⟨first, holds⟩ _ ran => by
      obtain ⟨s', first', ran', holds', -⟩ := @Terminal.Holds.step before first event holds
      cases ran.symm.trans ran'
      exact ⟨first', holds'⟩

/-- In every run the positions stay in the buffer, no step stores or loads outside it, and what is
returned was delivered, in that order. While what is delivered fits, nothing is lost or returned
twice, and there is no character only when none is pending. -/
theorem console_in_order : (Reachable Fresh step (fun _ _ => True) s →
      s.returned.Sublist s.delivered ∧ s.cons.rpos < consBufSize ∧ s.cons.wpos < consBufSize ∧
        ∀ event, (step s event).isSome = true) ∧
    (Reachable Fresh step Fits s → s.returned ++ s.cons.pending = s.delivered ∧
      ∀ serial kbd c cons', Fits s (.getc serial kbd) → consGetc serial kbd s.cons = some (c, cons') →
        (c = 0 ↔ s.delivered.length + (real (serial ++ kbd)).length = s.returned.length)) := by
  refine ⟨fun reached => ?_, fun reached => ?_⟩
  · obtain ⟨first, holds⟩ := any_holds reached
    refine ⟨holds.returned.trans (List.take_sublist _ _), ?_, ?_, fun event => ?_⟩
    · rw [holds.cons.rpos]
      exact Nat.mod_lt _ (by decide)
    · rw [holds.cons.wpos]
      exact Nat.mod_lt _ (by decide)
    · obtain ⟨s', first', ran, -⟩ := @Terminal.Holds.step s first event holds
      rw [ran]
      rfl
  · obtain ⟨first, holds, whole⟩ := reached_holds reached fun _ _ fits => fits
    refine ⟨?_, fun serial kbd c cons' fits got => ?_⟩
    · rw [holds.cons.pending, whole, List.take_append_drop]
    · obtain ⟨cons₁, first', ran, holds', kept⟩ := holds.deliver (serial ++ kbd)
      obtain ⟨c', cons₂, got', empty, -⟩ := holds'.getc
      have length := holds.first_eq whole
      rw [consGetc_eq, ran, Option.bind_some, got'] at got
      cases got
      rw [empty, kept (length ▸ fits), List.length_append, length]
      exact eq_comm

def fresh : Terminal := ⟨⟨fun _ => 0, 0, 0⟩, [], []⟩

/-- Two characters are delivered, and the first one is taken. -/
theorem console_small : ∃ s, run step fresh [.intr [97], .getc [0] [98]] = some s ∧
    s.returned ++ s.cons.pending = [97, 98] := by
  have runs : (run step fresh [.intr [97], .getc [0] [98]]).map (·.delivered) = some [97, 98] := by
    decide
  obtain ⟨s, ran, delivered⟩ := Option.map_eq_some_iff.mp runs
  obtain ⟨middle, first, ran⟩ := Option.bind_eq_some_iff.mp ran
  obtain ⟨last, second, ran⟩ := Option.bind_eq_some_iff.mp ran
  cases ran
  have middle_eq : middle.delivered.length = 1 ∧ middle.returned.length = 0 := by
    cases first
    decide
  have fits : Fits middle (.getc [0] [98]) := by
    change middle.delivered.length + 1 < middle.returned.length + 512
    omega
  have begun : Fits fresh (.intr [97]) := by
    change 0 + 1 < 0 + 512
    decide
  have reached : Reachable Fresh step Fits s :=
    ⟨fresh, [] ++ [.intr [97]] ++ [.getc [0] [98]], ⟨rfl, rfl, rfl, rfl⟩,
      (Along.nil.snoc begun first).snoc fits second⟩
  exact ⟨s, by rw [run, first, Option.bind_some, run, second]; rfl,
    delivered ▸ (console_in_order.2 reached).1⟩

/-- After 512 characters, `cons_getc` says that there is none. -/
theorem console_lost : ∃ s, Reachable Fresh step (fun _ _ => True) s ∧
    s.delivered.length = 512 ∧ s.returned = [] ∧ consGetc [] [] s.cons = some (0, s.cons) := by
  have runs : ((step fresh (.intr (List.replicate 512 97))).any fun s =>
      s.delivered.length = 512 ∧ s.returned = [] ∧ s.cons.rpos = s.cons.wpos) = true := by
    decide +kernel
  obtain ⟨s, ran, facts⟩ := (Option.any_eq_true _ _).mp runs
  obtain ⟨delivered, returned, same⟩ := of_decide_eq_true facts
  exact ⟨s, ⟨fresh, [] ++ [_], ⟨rfl, rfl, rfl, rfl⟩, Along.nil.snoc trivial ran⟩, delivered, returned,
    if_neg (not_not.mpr same)⟩

end Runs

end Console

end Jos
