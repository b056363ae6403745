import Jos.Lib.Pipe

/-! The positions of a pipe under any traffic: its ends may be closed or copied on the way. -/

set_option autoImplicit false

namespace Jos

open Foundation Function

namespace Pipes

/-- The bytes that a step of `devpipe_read` counts. -/
def ReadAt.counts : ReadAt → Nat
  | .store _ => 1
  | _ => 0

/-- Those that a step of `devpipe_write` counts. -/
def WriteAt.counts : WriteAt → Nat
  | .store _ => 1
  | _ => 0

/-- A pipe with the bytes that have been put into it and got out of it since it was made. -/
structure Traffic where
  state : State
  put : Nat
  got : Nat

/-- A step of the reader or the writer, with what `pageref` would find then. -/
def Traffic.step (t : Traffic) (event : Refs × Event) : Option Traffic :=
  (Pipes.step event.1 t.state event.2).map fun s =>
    match event.2 with
    | .reader _ => ⟨s, t.put, t.got + t.state.reading.elim 0 fun c => c.pc.counts⟩
    | .writer _ => ⟨s, t.put + t.state.writing.elim 0 fun c => c.pc.counts, t.got⟩
    | _ => ⟨s, t.put, t.got⟩

structure Traffic.Starts (t : Traffic) : Prop where
  fresh : Fresh t.state
  put : t.put = 0
  got : t.got = 0

/-- The indices of the next bytes are in the buffer, and the tests for an empty and for a full
pipe agree with the count of the bytes that are unread. -/
structure Traffic.Agrees (t : Traffic) : Prop where
  wslot : 0 ≤ (slot t.state.pipe.p_wpos).toInt ∧ (slot t.state.pipe.p_wpos).toInt < pipebufsiz
  rslot : 0 ≤ (slot t.state.pipe.p_rpos).toInt ∧ (slot t.state.pipe.p_rpos).toInt < pipebufsiz
  empty : t.state.pipe.p_rpos = t.state.pipe.p_wpos ↔ t.put - t.got = 0
  full : full t.state.pipe.p_rpos t.state.pipe.p_wpos = true ↔ pipebufsiz ≤ t.put - t.got

/-- What `devpipe_read` knows of the positions. -/
def ReadAt.Sees (put got : Nat) : ReadAt → Prop
  | .head => True
  | .test rpos wpos =>
    (∀ pos ∈ rpos, pos = BitVec.ofNat 32 got) ∧
      ∀ pos ∈ wpos, ∃ seen, got ≤ seen ∧ seen ≤ put ∧ pos = BitVec.ofNat 32 seen
  | .closing _ => True
  | .store rpos => got < put ∧ rpos = BitVec.ofNat 32 got
  | _ => got < put

/-- What `devpipe_write` knows of them. -/
def WriteAt.Sees (put got : Nat) : WriteAt → Prop
  | .head => True
  | .test rpos wpos =>
    (∀ pos ∈ wpos, pos = BitVec.ofNat 32 put) ∧
      ∀ pos ∈ rpos, ∃ seen, seen ≤ got ∧ pos = BitVec.ofNat 32 seen
  | .closing _ => True
  | .store wpos => put < got + 32 ∧ wpos = BitVec.ofNat 32 put
  | _ => put < got + 32

structure Counts (s : State) (put got : Nat) : Prop where
  rpos : s.pipe.p_rpos = BitVec.ofNat 32 got
  wpos : s.pipe.p_wpos = BitVec.ofNat 32 put
  order : got ≤ put
  room : put ≤ got + 32
  reader : ∀ c, s.reading = some c → c.pc.Sees put got
  writer : ∀ c, s.writing = some c → c.pc.Sees put got

section Steps

variable {refs : Refs} {s after : State} {put got : Nat}

theorem ReadAt.Sees.later {pc : ReadAt} (sees : pc.Sees put got) : pc.Sees (put + 1) got := by
  cases pc with
  | head => trivial
  | closing pc => trivial
  | test rpos wpos =>
    refine ⟨sees.1, fun pos here => ?_⟩
    obtain ⟨seen, low, high, same⟩ := sees.2 pos here
    exact ⟨seen, low, Nat.le_succ_of_le high, same⟩
  | store rpos => exact ⟨Nat.lt_succ_of_lt sees.1, sees.2⟩
  | take => exact Nat.lt_succ_of_lt sees
  | index rpos => exact Nat.lt_succ_of_lt sees
  | put byte => exact Nat.lt_succ_of_lt sees
  | bump => exact Nat.lt_succ_of_lt sees

theorem WriteAt.Sees.later {pc : WriteAt} (sees : pc.Sees put got) : pc.Sees put (got + 1) := by
  cases pc with
  | head => trivial
  | closing pc => trivial
  | test rpos wpos =>
    refine ⟨sees.1, fun pos here => ?_⟩
    obtain ⟨seen, high, same⟩ := sees.2 pos here
    exact ⟨seen, Nat.le_succ_of_le high, same⟩
  | store wpos => exact ⟨Nat.lt_succ_of_lt sees.1, sees.2⟩
  | take => exact Nat.lt_succ_of_lt sees
  | put wpos => exact Nat.lt_succ_of_lt sees
  | bump => exact Nat.lt_succ_of_lt sees

theorem Counts.readOn {c : Reading} {pc : ReadAt} (counts : Counts s put got)
    (sees : pc.Sees put got) : Counts (s.readOn c pc) put got where
  rpos := counts.rpos
  wpos := counts.wpos
  order := counts.order
  room := counts.room
  reader d here := by
    cases here
    exact sees
  writer := counts.writer

theorem Counts.readReturn {c : Reading} {count : Nat} (counts : Counts s put got) :
    Counts (s.readReturn c count) put got where
  rpos := counts.rpos
  wpos := counts.wpos
  order := counts.order
  room := counts.room
  reader _ here := nomatch here
  writer := counts.writer

theorem Counts.writeOn {c : Writing} {pc : WriteAt} (counts : Counts s put got)
    (sees : pc.Sees put got) : Counts (s.writeOn c pc) put got where
  rpos := counts.rpos
  wpos := counts.wpos
  order := counts.order
  room := counts.room
  reader := counts.reader
  writer d here := by
    cases here
    exact sees

theorem Counts.writeReturn {count : Nat} (counts : Counts s put got) :
    Counts (s.writeReturn count) put got where
  rpos := counts.rpos
  wpos := counts.wpos
  order := counts.order
  room := counts.room
  reader := counts.reader
  writer _ here := nomatch here

/-- Every load and store of `devpipe_read` keeps the counts. -/
theorem Counts.readStep {c : Reading} {choice : Choice} (counts : Counts s put got)
    (here : s.reading = some c) :
    Counts (s.readStep refs c choice) put (got + c.pc.counts) := by
  have sees := counts.reader c here
  unfold State.readStep
  split
  case h_1 place =>
    rw [place]
    split
    · exact counts.readOn ⟨nofun, nofun⟩
    · exact counts.readReturn
  case h_2 rpos wpos place =>
    rw [place] at sees ⊢
    obtain ⟨seen, low, high, same⟩ := sees.2 wpos rfl
    split
    · split
      · exact counts.readReturn
      · exact counts.readOn trivial
    · case isFalse differ =>
        have less : got ≠ seen := fun equal => differ (by rw [sees.1 rpos rfl, same, equal])
        exact counts.readOn (show got < put by omega)
  case h_3 rpos wpos place =>
    rw [place] at sees ⊢
    split
    · refine counts.readOn ⟨fun pos here => ?_, sees.2⟩
      cases here
      exact counts.rpos
    · refine counts.readOn ⟨sees.1, fun pos here => ?_⟩
      cases here
      exact ⟨put, counts.order, Nat.le_refl _, counts.wpos⟩
  case h_4 pc place =>
    rw [place]
    split
    · exact counts.readOn trivial
    · exact counts.readReturn
    · exact counts.readOn ⟨nofun, nofun⟩
  case h_5 place =>
    rw [place] at sees ⊢
    exact counts.readOn sees
  case h_6 rpos place =>
    rw [place] at sees ⊢
    exact counts.readOn sees
  case h_7 byte place =>
    rw [place] at sees ⊢
    exact counts.readOn sees
  case h_8 place =>
    rw [place] at sees ⊢
    exact counts.readOn ⟨sees, counts.rpos⟩
  case h_9 rpos place =>
    rw [place] at sees ⊢
    refine ⟨?_, counts.wpos, sees.1, Nat.le_trans counts.room (by simp only [ReadAt.counts]; omega),
      fun d here => ?_, fun d here => (counts.writer d here).later⟩
    · change rpos + 1 = BitVec.ofNat 32 (got + 1)
      rw [sees.2]
      simp [BitVec.ofNat_add]
    · obtain rfl := Option.some.inj here
      trivial

/-- Those of `devpipe_write` do as long as its position is not negative. -/
theorem Counts.writeStep {c : Writing} {choice : Choice} (counts : Counts s put got)
    (few : put < 2 ^ 31) (here : s.writing = some c)
    (ran : s.writeStep refs c choice = some after) : Counts after (put + c.pc.counts) got := by
  have sees := counts.writer c here
  unfold State.writeStep at ran
  split at ran
  case h_1 place =>
    rw [place]
    split at ran <;> cases ran
    · exact counts.writeOn ⟨nofun, nofun⟩
    · exact counts.writeReturn
  case h_2 rpos wpos place =>
    rw [place] at sees ⊢
    obtain ⟨seen, high, same⟩ := sees.2 rpos rfl
    split at ran <;> cases ran
    · exact counts.writeOn trivial
    · case isFalse room =>
        have order := counts.order
        rw [sees.1 wpos rfl, same, full_ofNat (by omega) few, decide_eq_true_eq] at room
        exact counts.writeOn (show put < got + 32 by omega)
  case h_3 rpos wpos place =>
    rw [place] at sees ⊢
    split at ran <;> cases ran
    · refine counts.writeOn ⟨sees.1, fun pos here => ?_⟩
      cases here
      exact ⟨got, Nat.le_refl _, counts.rpos⟩
    · refine counts.writeOn ⟨fun pos here => ?_, sees.2⟩
      cases here
      exact counts.wpos
  case h_4 pc place =>
    rw [place]
    split at ran <;> cases ran
    · exact counts.writeOn trivial
    · exact counts.writeReturn
    · exact counts.writeOn ⟨nofun, nofun⟩
  case h_5 place =>
    rw [place] at sees ⊢
    cases ran
    exact counts.writeOn sees
  case h_6 wpos place =>
    rw [place] at sees ⊢
    obtain ⟨byte, next, rfl⟩ := Option.map_eq_some_iff.mp ran
    refine Counts.writeOn ⟨counts.rpos, counts.wpos, counts.order, counts.room, counts.reader,
      counts.writer⟩ sees
  case h_7 place =>
    rw [place] at sees ⊢
    cases ran
    exact counts.writeOn ⟨sees, counts.wpos⟩
  case h_8 wpos place =>
    rw [place] at sees ⊢
    cases ran
    refine ⟨counts.rpos, ?_, Nat.le_succ_of_le counts.order, sees.1,
      fun d here => (counts.reader d here).later, fun d here => ?_⟩
    · change wpos + 1 = BitVec.ofNat 32 (put + 1)
      rw [sees.2]
      simp [BitVec.ofNat_add]
    · obtain rfl := Option.some.inj here
      trivial

/-- The positions of a run that starts each step with fewer than 2^31 bytes put. -/
theorem Traffic.counts {t : Traffic}
    (reached : Reachable Starts Traffic.step (fun before _ => before.put < 2 ^ 31) t) :
    Counts t.state t.put t.got ∧ t.got < 2 ^ 31 ∧ t.put ≤ 2 ^ 31 := by
  apply reached.invariant fun t =>
    Counts t.state t.put t.got ∧ t.got < 2 ^ 31 ∧ t.put ≤ 2 ^ 31
  · intro start starts
    obtain ⟨rpos, wpos, reading, writing, -, -, -⟩ := starts.fresh
    rw [starts.put, starts.got]
    exact ⟨⟨rpos, wpos, Nat.le_refl _, by decide, fun c here => (by rw [reading] at here; cases here),
      fun c here => by rw [writing] at here; cases here⟩, by decide, by decide⟩
  · rintro before ⟨refs, event⟩ after ⟨counts, small⟩ few ran
    obtain ⟨s, stepped, rfl⟩ := Option.map_eq_some_iff.mp ran
    cases event with
    | read n buf =>
      simp only [Pipes.step] at stepped
      split at stepped <;> cases stepped
      exact ⟨⟨counts.rpos, counts.wpos, counts.order, counts.room,
        fun d here => (by obtain rfl := Option.some.inj here; trivial), counts.writer⟩, small⟩
    | write buf =>
      simp only [Pipes.step] at stepped
      split at stepped <;> cases stepped
      exact ⟨⟨counts.rpos, counts.wpos, counts.order, counts.room, counts.reader,
        fun d here => by obtain rfl := Option.some.inj here; trivial⟩, small⟩
    | reader choice =>
      obtain ⟨c, here, rfl⟩ := Option.map_eq_some_iff.mp stepped
      have next := @Counts.readStep refs before.state before.put before.got c choice counts here
      simp only [here, Option.elim_some]
      exact ⟨next, Nat.lt_of_le_of_lt next.order few, small.2⟩
    | writer choice =>
      obtain ⟨c, here, stepped⟩ := Option.bind_eq_some_iff.mp stepped
      simp only [here, Option.elim_some]
      have one : c.pc.counts ≤ 1 := by
        cases c.pc with
        | store wpos => exact Nat.le_refl 1
        | _ => exact Nat.zero_le 1
      exact ⟨counts.writeStep few here stepped, small.1, Nat.le_trans (Nat.add_le_add_left one _) few⟩

end Steps

section Wrap

variable {t : Traffic}

theorem slot_inside {k : Nat} (small : k < 2 ^ 31) :
    0 ≤ (slot (BitVec.ofNat 32 k)).toInt ∧ (slot (BitVec.ofNat 32 k)).toInt < pipebufsiz := by
  rw [slot_ofNat small, toInt_ofNat (by omega), pipebufsiz]
  omega

theorem Counts.agrees (counts : Counts t.state t.put t.got) (few : t.put < 2 ^ 31) : t.Agrees := by
  have order := counts.order
  have small : t.got < 2 ^ 31 := Nat.lt_of_le_of_lt order few
  refine ⟨?_, ?_, ?_, ?_⟩
  · rw [counts.wpos]
    exact slot_inside few
  · rw [counts.rpos]
    exact slot_inside small
  · rw [counts.rpos, counts.wpos]
    constructor
    · intro same
      have equal := ofNat_inj small few same
      omega
    · intro none
      rw [show t.got = t.put by omega]
  · rw [counts.rpos, counts.wpos, full_ofNat small few, decide_eq_true_eq, pipebufsiz]
    omega

theorem full_wrapped {k : Nat} (small : k < 2 ^ 31) :
    full (BitVec.ofNat 32 k) (BitVec.ofNat 32 (2 ^ 31)) = true := by
  have wpos : ((BitVec.ofNat 32 (2 ^ 31)).signExtend 64).toNat = 2 ^ 64 - 2 ^ 31 := by decide
  rw [full, BitVec.ule, BitVec.toNat_add, toNat_signExtend_ofNat small, wpos, BitVec.toNat_ofNat,
    pipebufsiz, decide_eq_true_eq]
  omega

theorem Counts.agrees_wrapped (counts : Counts t.state t.put t.got) (small : t.got < 2 ^ 31)
    (many : t.put = 2 ^ 31) : t.Agrees ↔ t.put - t.got = pipebufsiz := by
  have room := counts.room
  have looksFull : full t.state.pipe.p_rpos t.state.pipe.p_wpos = true := by
    rw [counts.rpos, counts.wpos, many]
    exact full_wrapped small
  constructor
  · intro agrees
    have enough := agrees.full.mp looksFull
    unfold pipebufsiz at enough ⊢
    omega
  · intro whole
    refine ⟨?_, ?_, ?_, iff_of_true looksFull (Nat.le_of_eq whole.symm)⟩
    · rw [counts.wpos, many]
      decide
    · rw [counts.rpos]
      exact slot_inside small
    · rw [counts.rpos, counts.wpos, many]
      refine iff_of_false (fun same => ?_) (by omega)
      have values := congrArg BitVec.toNat same
      rw [toNat_ofNat32 small] at values
      change t.got = 2 ^ 31 at values
      omega

def pair : Refs := ⟨1, 1, 2⟩

/-- A call of `devpipe_write` for a byte, and one of `devpipe_read`. -/
def writeCall : List (Refs × Event) :=
  (.write [7] :: (writeByte ++ [.writer loadRpos])).map fun event => (pair, event)

def readCall : List (Refs × Event) :=
  (.read 1 (fun _ => 0) :: (readByte ++ [.reader loadRpos])).map fun event => (pair, event)

def between (rpos wpos : Off) (p_buf : Off → BitVec 8) (given returned : List (BitVec 8))
    (wrote put got : Nat) : Traffic :=
  ⟨⟨⟨rpos, wpos, p_buf⟩, none, none, given, returned, wrote⟩, put, got⟩

theorem ran_writeCall {rpos wpos : Off} {p_buf : Off → BitVec 8} {given returned : List (BitVec 8)}
    {wrote put got : Nat} (room : full rpos wpos = false) :
    run Traffic.step (between rpos wpos p_buf given returned wrote put got) writeCall =
      some (between rpos (wpos + 1) (update p_buf (slot wpos) 7) (given ++ [7]) returned (wrote + 1)
        (put + 1) got) := by
  simp [writeCall, writeByte, loadRpos, loadWpos, run, between, Traffic.step, Pipes.step,
    State.writeStep, State.writeOn, State.writeReturn, WriteAt.counts, room]

theorem ran_readCall {rpos wpos : Off} {p_buf : Off → BitVec 8} {given returned : List (BitVec 8)}
    {wrote put got : Nat} (unread : rpos ≠ wpos) :
    run Traffic.step (between rpos wpos p_buf given returned wrote put got) readCall =
      some (between (rpos + 1) wpos p_buf given (returned ++ [p_buf (slot rpos)]) wrote put
        (got + 1)) := by
  simp [readCall, readByte, loadRpos, loadWpos, run, between, Traffic.step, Pipes.step,
    State.readStep, State.readOn, State.readReturn, Reading.bytes, ReadAt.counts, unread]

theorem alternating_reached {k : Nat} (small : k < 2 ^ 31) :
    ∃ p_buf given returned wrote, Reachable Traffic.Starts Traffic.step (fun _ _ => True)
      (between (BitVec.ofNat 32 k) (BitVec.ofNat 32 k) p_buf given returned wrote k k) := by
  induction k with
  | zero => exact ⟨_, _, _, _, ⟨pipeNew, 0, 0⟩, [], ⟨pipeNew_fresh, rfl, rfl⟩, .nil⟩
  | succ k ih =>
    obtain ⟨p_buf, given, returned, wrote, start, events, starts, along⟩ := ih (by omega)
    have room : full (BitVec.ofNat 32 k) (BitVec.ofNat 32 k) = false := by
      rw [full_ofNat (by omega) (by omega), decide_eq_false_iff_not]
      omega
    have next : BitVec.ofNat 32 k + 1 = BitVec.ofNat 32 (k + 1) := by simp [BitVec.ofNat_add]
    have unread : BitVec.ofNat 32 k ≠ BitVec.ofNat 32 k + 1 := fun same => by
      rw [next] at same
      have equal := ofNat_inj (by omega) small same
      omega
    have wrote' := Along.of_run (@ran_writeCall (BitVec.ofNat 32 k) (BitVec.ofNat 32 k) p_buf given
      returned wrote k k room)
    have read := Along.of_run (@ran_readCall (BitVec.ofNat 32 k) (BitVec.ofNat 32 k + 1)
      (update p_buf (slot (BitVec.ofNat 32 k)) 7) (given ++ [7]) returned (wrote + 1) (k + 1) k unread)
    rw [next] at wrote' read
    exact ⟨_, _, _, _, start, _, starts, (along.trans wrote').trans read⟩

end Wrap

end Pipes

end Jos
