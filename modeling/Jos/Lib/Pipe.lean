import Mathlib.Data.List.Basic
import Mathlib.Logic.Function.Basic
import Jos.Foundation.Run
import Jos.Foundation.Signed

/-! Pipes of lib/pipe.c, one load or store of shared memory at a time. -/

set_option autoImplicit false

namespace Jos

open Foundation Function

namespace Pipes

def pipebufsiz : Nat := 32

/-- `off_t` -/
abbrev Off := BitVec 32

/-- The page that both ends map. `p_buf` is indexed by the value that the code
computes for the index, which nothing here forces to lie in the array. -/
structure Pipe where
  p_rpos : Off
  p_wpos : Off
  p_buf : Off → BitVec 8

/-- `pos % PIPEBUFSIZ`, on signed operands -/
def slot (pos : Off) : Off := pos.srem (BitVec.ofNat 32 pipebufsiz)

/-- `p->p_wpos >= p->p_rpos + sizeof(p->p_buf)`, whose sum and comparison are
those of `size_t`. -/
def full (rpos wpos : Off) : Bool :=
  (rpos.signExtend 64 + BitVec.ofNat 64 pipebufsiz).ule (wpos.signExtend 64)

/-- `pageref` of the two descriptor pages and of the page of the pipe. -/
structure Refs where
  fd0 : Nat
  fd1 : Nat
  data : Nat

/-- Some environment maps each end, and whoever maps an end maps the pipe there. -/
structure Refs.Open (refs : Refs) : Prop where
  reader : 0 < refs.fd0
  writer : 0 < refs.fd1
  both : refs.data = refs.fd0 + refs.fd1

/-- Where `_pipeisclosed` stands, with what it has loaded. -/
inductive IsClosed where
  | runs
  | fd (n : Nat)
  | page (n ref : Nat)
  | again (n : Nat) (ret : Bool)

/-- A load of `_pipeisclosed`; the scheduler gives `runs` to `thisenv->env_runs`.
An answer ends it. -/
def IsClosed.step (fd data runs : Nat) : IsClosed → IsClosed ⊕ Bool
  | .runs => .inl (.fd runs)
  | .fd n => .inl (.page n fd)
  | .page n ref => .inl (.again n (ref == data))
  | .again n ret => if n = runs then .inr ret else .inl .runs

/-- Where `devpipe_read` stands. The test loads the two positions in either order. -/
inductive ReadAt where
  | head
  | test (rpos wpos : Option Off)
  | closing (progress : IsClosed)
  | take
  | index (rpos : Off)
  | put (byte : BitVec 8)
  | bump
  | store (rpos : Off)

/-- Where `devpipe_write` stands. -/
inductive WriteAt where
  | head
  | test (rpos wpos : Option Off)
  | closing (progress : IsClosed)
  | take
  | put (wpos : Off)
  | bump
  | store (wpos : Off)

/-- A call of `devpipe_read`, with the caller's buffer. -/
structure Reading where
  n : Nat
  i : Nat
  buf : Nat → BitVec 8
  pc : ReadAt

/-- A call of `devpipe_write` with its `n` bytes. -/
structure Writing where
  buf : List (BitVec 8)
  i : Nat
  pc : WriteAt

/-- Which position a load reads, and the run count that it would find. -/
structure Choice where
  rpos : Bool
  runs : Nat

/-- The pipe, the calls that run, and what the callers have seen: the bytes given to
`devpipe_write`, those that `devpipe_read` returned, and the count of bytes that the
calls of `devpipe_write` which returned say they wrote. -/
structure State where
  pipe : Pipe
  reading : Option Reading
  writing : Option Writing
  given : List (BitVec 8)
  returned : List (BitVec 8)
  wrote : Nat

def Reading.bytes (c : Reading) (count : Nat) : List (BitVec 8) := (List.range count).map c.buf

def State.readOn (s : State) (c : Reading) (pc : ReadAt) : State :=
  { s with reading := some { c with pc := pc } }

def State.readReturn (s : State) (c : Reading) (count : Nat) : State :=
  { s with reading := none, returned := s.returned ++ c.bytes count }

/-- The next load or store of `devpipe_read`. -/
def State.readStep (refs : Refs) (s : State) (c : Reading) (choice : Choice) : State :=
  match c.pc with
  | .head => if c.i < c.n then s.readOn c (.test none none) else s.readReturn c c.i
  | .test (some rpos) (some wpos) =>
    if rpos = wpos then
      if 0 < c.i then s.readReturn c c.i else s.readOn c (.closing .runs)
    else s.readOn c .take
  | .test rpos wpos =>
    if choice.rpos then s.readOn c (.test (some s.pipe.p_rpos) wpos)
    else s.readOn c (.test rpos (some s.pipe.p_wpos))
  | .closing pc =>
    match pc.step refs.fd0 refs.data choice.runs with
    | .inl pc => s.readOn c (.closing pc)
    | .inr true => s.readReturn c 0
    -- `sys_yield`
    | .inr false => s.readOn c (.test none none)
  | .take => s.readOn c (.index s.pipe.p_rpos)
  | .index rpos => s.readOn c (.put (s.pipe.p_buf (slot rpos)))
  | .put byte => s.readOn { c with buf := update c.buf c.i byte } .bump
  | .bump => s.readOn c (.store s.pipe.p_rpos)
  | .store rpos =>
    { s with pipe := { s.pipe with p_rpos := rpos + 1 } }.readOn { c with i := c.i + 1 } .head

def State.writeOn (s : State) (c : Writing) (pc : WriteAt) : State :=
  { s with writing := some { c with pc := pc } }

def State.writeReturn (s : State) (count : Nat) : State :=
  { s with writing := none, wrote := s.wrote + count }

/-- The next load or store of `devpipe_write`. -/
def State.writeStep (refs : Refs) (s : State) (c : Writing) (choice : Choice) : Option State :=
  match c.pc with
  | .head =>
    if c.i < c.buf.length then some (s.writeOn c (.test none none))
    else some (s.writeReturn c.i)
  | .test (some rpos) (some wpos) =>
    if full rpos wpos then some (s.writeOn c (.closing .runs)) else some (s.writeOn c .take)
  | .test rpos wpos =>
    if choice.rpos then some (s.writeOn c (.test (some s.pipe.p_rpos) wpos))
    else some (s.writeOn c (.test rpos (some s.pipe.p_wpos)))
  | .closing pc =>
    match pc.step refs.fd1 refs.data choice.runs with
    | .inl pc => some (s.writeOn c (.closing pc))
    | .inr true => some (s.writeReturn 0)
    -- `sys_yield`
    | .inr false => some (s.writeOn c (.test none none))
  | .take => some (s.writeOn c (.put s.pipe.p_wpos))
  | .put wpos =>
    c.buf[c.i]?.map fun byte =>
      { s with pipe := { s.pipe with p_buf := update s.pipe.p_buf (slot wpos) byte } }.writeOn
        c .bump
  | .bump => some (s.writeOn c (.store s.pipe.p_wpos))
  | .store wpos =>
    some ({ s with pipe := { s.pipe with p_wpos := wpos + 1 } }.writeOn
      { c with i := c.i + 1 } .head)

/-- What the two environments do: begin a call when none runs, or take its next step. -/
inductive Event where
  | read (n : Nat) (buf : Nat → BitVec 8)
  | write (buf : List (BitVec 8))
  | reader (choice : Choice)
  | writer (choice : Choice)

def step (refs : Refs) (s : State) : Event → Option State
  | .read n buf =>
    if s.reading.isNone then some { s with reading := some ⟨n, 0, buf, .head⟩ } else none
  | .write buf =>
    if s.writing.isNone then
      some { s with writing := some ⟨buf, 0, .head⟩, given := s.given ++ buf }
    else none
  | .reader choice => s.reading.map fun c => s.readStep refs c choice
  | .writer choice => s.writing.bind fun c => s.writeStep refs c choice

/-- The bytes that the writer has stored and counted, finished calls and the running one. -/
def State.stored (s : State) : Nat := s.wrote + (s.writing.elim 0 Writing.i)

def State.taken (s : State) : List (BitVec 8) :=
  s.returned ++ s.reading.elim [] fun c => c.bytes c.i

/-- A pipe that `pipe` has just made, with no call running; `sys_page_alloc` clears
its page. -/
structure Fresh (s : State) : Prop where
  rpos : s.pipe.p_rpos = 0
  wpos : s.pipe.p_wpos = 0
  reading : s.reading = none
  writing : s.writing = none
  given : s.given = []
  returned : s.returned = []
  wrote : s.wrote = 0

section Positions

variable {k m : Nat}

theorem slot_ofNat (small : k < 2 ^ 31) : slot (BitVec.ofNat 32 k) = BitVec.ofNat 32 (k % 32) :=
  srem_ofNat small (by decide)

theorem full_ofNat (small : k < 2 ^ 31) (other : m < 2 ^ 31) :
    full (BitVec.ofNat 32 k) (BitVec.ofNat 32 m) = decide (k + 32 ≤ m) := by
  rw [full, BitVec.ule, BitVec.toNat_add, toNat_signExtend_ofNat small,
    toNat_signExtend_ofNat other, BitVec.toNat_ofNat, pipebufsiz]
  congr 1
  apply propext
  omega

end Positions

/-! `_pipeisclosed` -/

/-- `_pipeisclosed` has seen what the open ends of the pipe let it see. -/
def IsClosed.Sees (fd data : Nat) : IsClosed → Prop
  | .runs => True
  | .fd _ => True
  | .page _ ref => ref = fd
  | .again _ ret => ret = (fd == data)

theorem IsClosed.step_sees {fd data runs : Nat} {pc next : IsClosed} (sees : pc.Sees fd data)
    (ran : pc.step fd data runs = .inl next) : next.Sees fd data := by
  cases pc with
  | runs => cases ran; trivial
  | fd n => cases ran; rfl
  | page n ref => cases ran; exact congrArg (· == data) sees
  | again n ret =>
    simp only [IsClosed.step] at ran
    split at ran <;> cases ran
    trivial

/-- `_pipeisclosed` answers by the reference counts. -/
theorem IsClosed.step_answer {fd data runs : Nat} {pc : IsClosed} {ret : Bool}
    (sees : pc.Sees fd data) (ran : pc.step fd data runs = .inr ret) : ret = (fd == data) := by
  cases pc with
  | runs => cases ran
  | fd n => cases ran
  | page n ref => cases ran
  | again n seen =>
    simp only [IsClosed.step] at ran
    split at ran <;> cases ran
    exact sees

theorem Refs.Open.not_reader {refs : Refs} (isOpen : refs.Open) : (refs.fd0 == refs.data) = false := by
  have writer := isOpen.writer
  have both := isOpen.both
  simp only [beq_eq_false_iff_ne]
  omega

theorem Refs.Open.not_writer {refs : Refs} (isOpen : refs.Open) : (refs.fd1 == refs.data) = false := by
  have reader := isOpen.reader
  have both := isOpen.both
  simp only [beq_eq_false_iff_ne]
  omega

/-! What each place in the two functions knows, with `taken` bytes taken from the pipe
and `stored` bytes put into it. -/

/-- What `devpipe_read` knows at a place in it. -/
def ReadAt.Knows (refs : Refs) (taken stored : Nat) (given : List (BitVec 8)) (c : Reading) :
    ReadAt → Prop
  | .head => True
  | .test rpos wpos =>
    (∀ pos ∈ rpos, pos = BitVec.ofNat 32 taken) ∧
      ∀ pos ∈ wpos, ∃ seen, taken ≤ seen ∧ seen ≤ stored ∧ pos = BitVec.ofNat 32 seen
  | .closing pc => pc.Sees refs.fd0 refs.data
  | .take => taken < stored
  | .index rpos => taken < stored ∧ rpos = BitVec.ofNat 32 taken
  | .put byte => taken < stored ∧ given[taken]? = some byte
  | .bump => taken < stored ∧ given[taken]? = some (c.buf c.i)
  | .store rpos =>
    (taken < stored ∧ given[taken]? = some (c.buf c.i)) ∧ rpos = BitVec.ofNat 32 taken

/-- What `devpipe_write` knows at a place in it. -/
def WriteAt.Knows (refs : Refs) (taken stored : Nat) (p_buf : Off → BitVec 8) (c : Writing) :
    WriteAt → Prop
  | .head => True
  | .test rpos wpos =>
    (∀ pos ∈ wpos, pos = BitVec.ofNat 32 stored) ∧
      ∀ pos ∈ rpos, ∃ seen, seen ≤ taken ∧ pos = BitVec.ofNat 32 seen
  | .closing pc => pc.Sees refs.fd1 refs.data
  | .take => stored < taken + 32
  | .put wpos => stored < taken + 32 ∧ wpos = BitVec.ofNat 32 stored
  | .bump => stored < taken + 32 ∧ c.buf[c.i]? = some (p_buf (BitVec.ofNat 32 (stored % 32)))
  | .store wpos =>
    (stored < taken + 32 ∧ c.buf[c.i]? = some (p_buf (BitVec.ofNat 32 (stored % 32)))) ∧
      wpos = BitVec.ofNat 32 stored

/-- The reader is in the call `c` and may know more of the writer later. -/
theorem ReadAt.Knows.later {refs : Refs} {taken stored after : Nat} {given more : List (BitVec 8)}
    {c : Reading} {pc : ReadAt} (knows : pc.Knows refs taken stored given c)
    (grows : stored ≤ after) (counted : stored ≤ given.length) :
    pc.Knows refs taken after (given ++ more) c := by
  have keeps : ∀ {byte}, taken < stored ∧ given[taken]? = some byte →
      taken < after ∧ (given ++ more)[taken]? = some byte := fun ⟨less, here⟩ =>
    ⟨by omega, by rw [List.getElem?_append_left (by omega), here]⟩
  cases pc with
  | head => trivial
  | test rpos wpos =>
    refine ⟨knows.1, fun pos seen => ?_⟩
    obtain ⟨count, low, high, same⟩ := knows.2 pos seen
    exact ⟨count, low, Nat.le_trans high grows, same⟩
  | closing pc => exact knows
  | take => exact Nat.lt_of_lt_of_le knows grows
  | index rpos => exact ⟨Nat.lt_of_lt_of_le knows.1 grows, knows.2⟩
  | put byte => exact keeps knows
  | bump => exact keeps knows
  | store rpos => exact ⟨keeps knows.1, knows.2⟩

theorem WriteAt.Knows.later {refs : Refs} {taken after stored : Nat} {p_buf : Off → BitVec 8}
    {c : Writing} {pc : WriteAt} (knows : pc.Knows refs taken stored p_buf c)
    (grows : taken ≤ after) : pc.Knows refs after stored p_buf c := by
  cases pc with
  | head => trivial
  | test rpos wpos =>
    refine ⟨knows.1, fun pos seen => ?_⟩
    obtain ⟨count, high, same⟩ := knows.2 pos seen
    exact ⟨count, Nat.le_trans high grows, same⟩
  | closing pc => exact knows
  | take => exact Nat.lt_of_lt_of_le knows (Nat.add_le_add_right grows 32)
  | put wpos => exact ⟨Nat.lt_of_lt_of_le knows.1 (Nat.add_le_add_right grows 32), knows.2⟩
  | bump => exact ⟨Nat.lt_of_lt_of_le knows.1 (Nat.add_le_add_right grows 32), knows.2⟩
  | store wpos =>
    exact ⟨⟨Nat.lt_of_lt_of_le knows.1.1 (Nat.add_le_add_right grows 32), knows.1.2⟩, knows.2⟩

/-! The positions count the bytes, and the bytes between them are in the buffer. -/

theorem bytes_congr {c d : Reading} {count : Nat} (same : ∀ i < count, d.buf i = c.buf i) :
    d.bytes count = c.bytes count :=
  List.map_congr_left fun i member => same i (List.mem_range.mp member)

structure Kept (refs : Refs) (s : State) : Prop where
  rpos : s.pipe.p_rpos = BitVec.ofNat 32 s.taken.length
  wpos : s.pipe.p_wpos = BitVec.ofNat 32 s.stored
  order : s.taken.length ≤ s.stored
  room : s.stored ≤ s.taken.length + 32
  taken : s.taken <+: s.given
  counted : s.stored ≤ s.given.length
  left : s.given.drop s.stored = s.writing.elim [] fun c => c.buf.drop c.i
  held : ∀ k, s.taken.length ≤ k → k < s.stored →
    s.given[k]? = some (s.pipe.p_buf (BitVec.ofNat 32 (k % 32)))
  reader : ∀ c, s.reading = some c → c.pc.Knows refs s.taken.length s.stored s.given c
  writer : ∀ c, s.writing = some c →
    c.i ≤ c.buf.length ∧ c.pc.Knows refs s.taken.length s.stored s.pipe.p_buf c

section Steps

variable {refs : Refs} {s : State}

theorem taken_reading {c : Reading} (here : s.reading = some c) :
    s.taken = s.returned ++ c.bytes c.i := by
  simp [State.taken, here]

theorem stored_writing {c : Writing} (here : s.writing = some c) : s.stored = s.wrote + c.i := by
  simp [State.stored, here]

/-- The reader goes on to a place that knows what it should, with the same bytes taken. -/
theorem Kept.reads {c d : Reading} (kept : Kept refs s) (here : s.reading = some c)
    (same : d.bytes d.i = c.bytes c.i)
    (knows : d.pc.Knows refs s.taken.length s.stored s.given d) :
    Kept refs { s with reading := some d } := by
  have taken : State.taken { s with reading := some d } = s.taken := by
    rw [taken_reading here, ← same]
    rfl
  constructor
  case reader =>
    intro e running
    cases running
    rw [taken]
    exact knows
  all_goals try rw [taken]
  exacts [kept.rpos, kept.wpos, kept.order, kept.room, kept.taken, kept.counted, kept.left,
    kept.held, kept.writer]

theorem Kept.readReturn {c : Reading} (kept : Kept refs s) (here : s.reading = some c) :
    Kept refs (s.readReturn c c.i) := by
  have taken : (s.readReturn c c.i).taken = s.taken := by
    rw [taken_reading here]
    exact List.append_nil _
  constructor
  case reader =>
    intro e running
    cases running
  all_goals try rw [taken]
  exacts [kept.rpos, kept.wpos, kept.order, kept.room, kept.taken, kept.counted, kept.left,
    kept.held, kept.writer]

/-- The writer goes on to a place that knows what it should, with the same bytes stored. -/
theorem Kept.writes {c d : Writing} (kept : Kept refs s) (here : s.writing = some c)
    (buf : d.buf = c.buf) (count : d.i = c.i)
    (knows : d.pc.Knows refs s.taken.length s.stored s.pipe.p_buf d) :
    Kept refs { s with writing := some d } := by
  have stored : State.stored { s with writing := some d } = s.stored := by
    rw [stored_writing here, ← count]
    rfl
  have left := kept.left
  rw [here] at left
  constructor
  case left =>
    rw [stored]
    simpa [buf, count] using left
  case writer =>
    intro e running
    cases running
    rw [stored, buf, count]
    exact ⟨(kept.writer c here).1, knows⟩
  all_goals try rw [stored]
  exacts [kept.rpos, kept.wpos, kept.order, kept.room, kept.taken, kept.counted, kept.held,
    kept.reader]

theorem Kept.writeReturn {c : Writing} (kept : Kept refs s) (here : s.writing = some c)
    (done : c.buf.length ≤ c.i) : Kept refs (s.writeReturn c.i) := by
  have stored : (s.writeReturn c.i).stored = s.stored := by
    rw [stored_writing here]
    rfl
  have left := kept.left
  rw [here] at left
  constructor
  case left =>
    rw [stored]
    simpa [State.writeReturn, List.drop_eq_nil_of_le done] using left
  case writer =>
    intro e running
    cases running
  all_goals try rw [stored]
  exacts [kept.rpos, kept.wpos, kept.order, kept.room, kept.taken, kept.counted, kept.held,
    kept.reader]

/-- `p->p_rpos++`, after the byte was taken. -/
theorem Kept.readStore {c : Reading} {rpos : Off} (kept : Kept refs s) (here : s.reading = some c)
    (place : c.pc = .store rpos) : Kept refs
      { s with
        pipe := { s.pipe with p_rpos := rpos + 1 }
        reading := some { c with i := c.i + 1, pc := .head } } := by
  have knows := kept.reader c here
  rw [place] at knows
  obtain ⟨⟨less, byte⟩, position⟩ := knows
  have taken : State.taken { s with
        pipe := { s.pipe with p_rpos := rpos + 1 }
        reading := some { c with i := c.i + 1, pc := .head } } = s.taken ++ [c.buf c.i] := by
    rw [taken_reading here]
    simp [State.taken, Reading.bytes, List.range_succ]
  have length : (s.taken ++ [c.buf c.i]).length = s.taken.length + 1 := by simp
  constructor
  case rpos =>
    rw [taken, length, position]
    simp [BitVec.ofNat_add]
  case wpos => exact kept.wpos
  case order =>
    rw [taken, length]
    exact less
  case room =>
    rw [taken, length]
    exact Nat.le_trans kept.room (by omega)
  case taken =>
    rw [taken]
    obtain ⟨rest, whole⟩ := kept.taken
    rw [← whole, List.getElem?_append_right (Nat.le_refl _), Nat.sub_self] at byte
    cases rest with
    | nil => cases byte
    | cons first rest =>
      cases byte
      exact ⟨rest, by rw [← whole, List.append_assoc]; rfl⟩
  case counted => exact kept.counted
  case left => exact kept.left
  case held =>
    rw [taken, length]
    exact fun k low high => kept.held k (by omega) high
  case reader =>
    intro e running
    cases running
    trivial
  case writer =>
    intro e running
    rw [taken, length]
    exact ⟨(kept.writer e running).1, (kept.writer e running).2.later (by omega)⟩

/-- The byte is stored in a place that holds none of the bytes still to be read. -/
theorem Kept.writePut {c : Writing} {wpos : Off} {byte : BitVec 8} (kept : Kept refs s)
    (few : s.stored < 2 ^ 31) (here : s.writing = some c) (place : c.pc = .put wpos)
    (next : c.buf[c.i]? = some byte) : Kept refs
      { s with
        pipe := { s.pipe with p_buf := update s.pipe.p_buf (slot wpos) byte }
        writing := some { c with pc := .bump } } := by
  have knows := (kept.writer c here).2
  rw [place] at knows
  obtain ⟨room, position⟩ := knows
  have stored : State.stored { s with
        pipe := { s.pipe with p_buf := update s.pipe.p_buf (slot wpos) byte }
        writing := some { c with pc := .bump } } = s.stored := by
    rw [stored_writing here]
    rfl
  rw [position, slot_ofNat few] at stored ⊢
  have left := kept.left
  rw [here] at left
  constructor
  case held =>
    rw [stored]
    intro k low high
    have low : s.taken.length ≤ k := low
    have other : BitVec.ofNat 32 (k % 32) ≠ BitVec.ofNat 32 (s.stored % 32) := fun same => by
      have equal := ofNat_inj (by omega) (by omega) same
      omega
    rw [kept.held k low high]
    simp [update_of_ne other]
  case writer =>
    intro e running
    cases running
    rw [stored]
    exact ⟨(kept.writer c here).1, room, by simpa using next⟩
  case left =>
    rw [stored]
    exact left
  all_goals try rw [stored]
  exacts [kept.rpos, kept.wpos, kept.order, kept.room, kept.taken, kept.counted, kept.reader]

/-- `p->p_wpos++`, after the byte was stored. -/
theorem Kept.writeStore {c : Writing} {wpos : Off} (kept : Kept refs s)
    (here : s.writing = some c) (place : c.pc = .store wpos) : Kept refs
      { s with
        pipe := { s.pipe with p_wpos := wpos + 1 }
        writing := some { c with i := c.i + 1, pc := .head } } := by
  have knows := (kept.writer c here).2
  rw [place] at knows
  obtain ⟨⟨room, byte⟩, position⟩ := knows
  have stored : State.stored { s with
        pipe := { s.pipe with p_wpos := wpos + 1 }
        writing := some { c with i := c.i + 1, pc := .head } } = s.stored + 1 := by
    rw [stored_writing here]
    rfl
  have left := kept.left
  rw [here] at left
  have next : s.given[s.stored]? = c.buf[c.i]? := by
    have heads := congrArg (·[0]?) left
    simpa using heads
  have inside : s.stored < s.given.length := by
    rw [byte] at next
    exact (List.getElem?_eq_some_iff.mp next).1
  constructor
  case rpos => exact kept.rpos
  case wpos =>
    rw [stored, position]
    simp [BitVec.ofNat_add]
  case order =>
    rw [stored]
    exact Nat.le_succ_of_le kept.order
  case room =>
    rw [stored]
    exact room
  case taken => exact kept.taken
  case counted =>
    rw [stored]
    exact inside
  case left =>
    rw [stored, ← List.drop_drop]
    have tails := congrArg (List.drop 1) left
    simpa using tails
  case held =>
    rw [stored]
    intro k low high
    by_cases last : k = s.stored
    · rw [last]
      exact next.trans byte
    · exact kept.held k low (by omega)
  case reader =>
    intro e running
    rw [stored]
    have later : e.pc.Knows refs s.taken.length (s.stored + 1) (s.given ++ []) e :=
      (kept.reader e running).later (Nat.le_succ s.stored) kept.counted
    rwa [List.append_nil] at later
  case writer =>
    intro e running
    cases running
    exact ⟨(List.getElem?_eq_some_iff.mp byte).1, trivial⟩

/-- Every load and store of `devpipe_read` keeps the pipe. -/
theorem Kept.readStep {c : Reading} {choice : Choice} (isOpen : refs.Open) (kept : Kept refs s)
    (few : s.stored < 2 ^ 31) (here : s.reading = some c) :
    Kept refs (s.readStep refs c choice) := by
  have knows := kept.reader c here
  have small : s.taken.length < 2 ^ 31 := Nat.lt_of_le_of_lt kept.order few
  unfold State.readStep
  split
  case h_1 place =>
    split
    · exact kept.reads here rfl ⟨by simp, by simp⟩
    · exact kept.readReturn here
  case h_2 rpos wpos place =>
    rw [place] at knows
    obtain ⟨seen, low, high, same⟩ := knows.2 wpos rfl
    split
    · split
      · exact kept.readReturn here
      · exact kept.reads here rfl trivial
    · case isFalse differ =>
        have less : s.taken.length ≠ seen := fun equal => differ (by
          rw [knows.1 rpos rfl, same, equal])
        exact kept.reads here rfl (show s.taken.length < s.stored by omega)
  case h_3 rpos wpos place =>
    rw [place] at knows
    split
    · refine kept.reads here rfl ⟨?_, knows.2⟩
      rintro pos ⟨⟩
      exact kept.rpos
    · refine kept.reads here rfl ⟨knows.1, ?_⟩
      rintro pos ⟨⟩
      exact ⟨s.stored, kept.order, Nat.le_refl _, kept.wpos⟩
  case h_4 pc place =>
    rw [place] at knows
    split
    · case h_1 next ran => exact kept.reads here rfl (IsClosed.step_sees knows ran)
    · case h_2 ran =>
        have closed := IsClosed.step_answer knows ran
        rw [isOpen.not_reader] at closed
        cases closed
    · exact kept.reads here rfl ⟨by simp, by simp⟩
  case h_5 place =>
    rw [place] at knows
    exact kept.reads here rfl ⟨knows, kept.rpos⟩
  case h_6 rpos place =>
    rw [place] at knows
    refine kept.reads here rfl ⟨knows.1, ?_⟩
    rw [knows.2, slot_ofNat small]
    exact kept.held _ (Nat.le_refl _) knows.1
  case h_7 byte place =>
    rw [place] at knows
    refine kept.reads here ?_ ⟨knows.1, ?_⟩
    · exact bytes_congr fun i less => update_of_ne (Nat.ne_of_lt less) ..
    · simpa using knows.2
  case h_8 place =>
    rw [place] at knows
    exact kept.reads here rfl ⟨knows, kept.rpos⟩
  case h_9 rpos place => exact kept.readStore here place

/-- Every load and store of `devpipe_write` keeps the pipe. -/
theorem Kept.writeStep {c : Writing} {choice : Choice} {after : State} (isOpen : refs.Open)
    (kept : Kept refs s) (few : s.stored < 2 ^ 31) (here : s.writing = some c)
    (ran : s.writeStep refs c choice = some after) : Kept refs after := by
  obtain ⟨inside, knows⟩ := kept.writer c here
  unfold State.writeStep at ran
  split at ran
  case h_1 place =>
    split at ran <;> cases ran
    · exact kept.writes here rfl rfl ⟨by simp, by simp⟩
    · case isFalse done => exact kept.writeReturn here (Nat.le_of_not_lt done)
  case h_2 rpos wpos place =>
    rw [place] at knows
    obtain ⟨seen, high, same⟩ := knows.2 rpos rfl
    split at ran <;> cases ran
    · exact kept.writes here rfl rfl trivial
    · case isFalse room =>
        have order := kept.order
        rw [knows.1 wpos rfl, same, full_ofNat (by omega) few, decide_eq_true_eq] at room
        exact kept.writes here rfl rfl (show s.stored < s.taken.length + 32 by omega)
  case h_3 rpos wpos place =>
    rw [place] at knows
    split at ran <;> cases ran
    · refine kept.writes here rfl rfl ⟨knows.1, ?_⟩
      rintro pos ⟨⟩
      exact ⟨s.taken.length, Nat.le_refl _, kept.rpos⟩
    · refine kept.writes here rfl rfl ⟨?_, knows.2⟩
      rintro pos ⟨⟩
      exact kept.wpos
  case h_4 pc place =>
    rw [place] at knows
    split at ran <;> cases ran
    · case h_1 next seen => exact kept.writes here rfl rfl (IsClosed.step_sees knows seen)
    · case h_2 seen =>
        have closed := IsClosed.step_answer knows seen
        rw [isOpen.not_writer] at closed
        cases closed
    · exact kept.writes here rfl rfl ⟨by simp, by simp⟩
  case h_5 place =>
    rw [place] at knows
    cases ran
    exact kept.writes here rfl rfl ⟨knows, kept.wpos⟩
  case h_6 wpos place =>
    obtain ⟨byte, next, rfl⟩ := Option.map_eq_some_iff.mp ran
    exact kept.writePut few here place next
  case h_7 place =>
    rw [place] at knows
    cases ran
    exact kept.writes here rfl rfl ⟨knows, kept.wpos⟩
  case h_8 wpos place =>
    cases ran
    exact kept.writeStore here place

/-- A call of `devpipe_write` begins. -/
theorem Kept.write {buf : List (BitVec 8)} (kept : Kept refs s) (idle : s.writing = none) :
    Kept refs { s with writing := some ⟨buf, 0, .head⟩, given := s.given ++ buf } := by
  have stored : State.stored { s with writing := some ⟨buf, 0, .head⟩, given := s.given ++ buf }
      = s.stored := by
    simp [State.stored, idle]
  have left := kept.left
  rw [idle] at left
  constructor
  case taken => exact kept.taken.trans (List.prefix_append ..)
  case counted =>
    rw [stored, List.length_append]
    exact Nat.le_add_right_of_le kept.counted
  case left =>
    rw [stored, List.drop_append, left, Nat.sub_eq_zero_of_le kept.counted]
    rfl
  case held =>
    rw [stored]
    intro k low high
    rw [List.getElem?_append_left (Nat.lt_of_lt_of_le high kept.counted)]
    exact kept.held k low high
  case reader =>
    intro e running
    rw [stored]
    exact (kept.reader e running).later (Nat.le_refl _) kept.counted
  case writer =>
    intro e running
    cases running
    exact ⟨Nat.zero_le _, trivial⟩
  all_goals try rw [stored]
  exacts [kept.rpos, kept.wpos, kept.order, kept.room]

/-- A call of `devpipe_read` begins. -/
theorem Kept.read {n : Nat} {buf : Nat → BitVec 8} (kept : Kept refs s)
    (idle : s.reading = none) : Kept refs { s with reading := some ⟨n, 0, buf, .head⟩ } := by
  have taken : State.taken { s with reading := some ⟨n, 0, buf, .head⟩ } = s.taken := by
    simp [State.taken, idle, Reading.bytes]
  constructor
  case reader =>
    intro e running
    cases running
    trivial
  all_goals try rw [taken]
  exacts [kept.rpos, kept.wpos, kept.order, kept.room, kept.taken, kept.counted, kept.left,
    kept.held, kept.writer]

theorem Kept.step {event : Event} {after : State} (isOpen : refs.Open) (kept : Kept refs s)
    (few : s.stored < 2 ^ 31) (ran : step refs s event = some after) : Kept refs after := by
  cases event with
  | read n buf =>
    simp only [Pipes.step] at ran
    split at ran
    case isTrue idle =>
      cases ran
      exact kept.read (Option.isNone_iff_eq_none.mp idle)
    case isFalse => cases ran
  | write buf =>
    simp only [Pipes.step] at ran
    split at ran
    case isTrue idle =>
      cases ran
      exact kept.write (Option.isNone_iff_eq_none.mp idle)
    case isFalse => cases ran
  | reader choice =>
    obtain ⟨c, here, rfl⟩ := Option.map_eq_some_iff.mp ran
    exact kept.readStep isOpen few here
  | writer choice =>
    obtain ⟨c, here, ran⟩ := Option.bind_eq_some_iff.mp ran
    exact kept.writeStep isOpen few here ran

/-! The count of the bytes stored never goes back, also where the counts are so large
that nothing else is known. -/

def Waits (refs : Refs) (s : State) : Prop :=
  ∀ c ∈ s.writing, ∀ pc, c.pc = .closing pc → pc.Sees refs.fd1 refs.data

theorem Waits.writeStep {c : Writing} {choice : Choice} {after : State} (isOpen : refs.Open)
    (waits : Waits refs s) (here : s.writing = some c)
    (ran : s.writeStep refs c choice = some after) :
    Waits refs after ∧ s.stored ≤ after.stored := by
  have stored : s.stored = s.wrote + c.i := stored_writing here
  unfold State.writeStep at ran
  split at ran
  case h_4 pc place =>
    have sees := waits c here pc place
    split at ran <;> cases ran
    · case h_1 next seen =>
        refine ⟨?_, Nat.le_of_eq stored⟩
        rintro d ⟨⟩ other ⟨⟩
        exact IsClosed.step_sees sees seen
    · case h_2 seen =>
        have closed := IsClosed.step_answer sees seen
        rw [isOpen.not_writer] at closed
        cases closed
    · refine ⟨?_, Nat.le_of_eq stored⟩
      rintro d ⟨⟩ other ⟨⟩
  case h_2 =>
    split at ran <;> cases ran
    · refine ⟨?_, Nat.le_of_eq stored⟩
      rintro d ⟨⟩ other ⟨⟩
      trivial
    · refine ⟨?_, Nat.le_of_eq stored⟩
      rintro d ⟨⟩ other ⟨⟩
  case h_6 =>
    obtain ⟨byte, next, rfl⟩ := Option.map_eq_some_iff.mp ran
    refine ⟨?_, Nat.le_of_eq stored⟩
    rintro d ⟨⟩ other ⟨⟩
  case h_8 =>
    cases ran
    refine ⟨?_, Nat.le_trans (Nat.le_of_eq stored) (Nat.le_succ _)⟩
    rintro d ⟨⟩ other ⟨⟩
  case h_1 | h_3 =>
    split at ran <;> cases ran
    all_goals
      refine ⟨?_, Nat.le_of_eq stored⟩
      rintro d ⟨⟩ other ⟨⟩
  case h_5 | h_7 =>
    cases ran
    refine ⟨?_, Nat.le_of_eq stored⟩
    rintro d ⟨⟩ other ⟨⟩

theorem readStep_stored (c : Reading) (choice : Choice) :
    (s.readStep refs c choice).writing = s.writing ∧
      (s.readStep refs c choice).wrote = s.wrote := by
  unfold State.readStep
  split <;> (repeat' split) <;> exact ⟨rfl, rfl⟩

theorem Waits.step {event : Event} {after : State} (isOpen : refs.Open) (waits : Waits refs s)
    (ran : step refs s event = some after) : Waits refs after ∧ s.stored ≤ after.stored := by
  cases event with
  | read n buf =>
    simp only [Pipes.step] at ran
    split at ran <;> cases ran
    exact ⟨waits, Nat.le_refl _⟩
  | write buf =>
    simp only [Pipes.step] at ran
    split at ran
    case isFalse => cases ran
    case isTrue idle =>
      cases ran
      have none := Option.isNone_iff_eq_none.mp idle
      refine ⟨?_, by simp [State.stored, none]⟩
      rintro d ⟨⟩ other ⟨⟩
  | reader choice =>
    obtain ⟨c, here, rfl⟩ := Option.map_eq_some_iff.mp ran
    have kept : (s.readStep refs c choice).writing = s.writing ∧
        (s.readStep refs c choice).wrote = s.wrote := readStep_stored c choice
    obtain ⟨writing, wrote⟩ := kept
    refine ⟨?_, by simp [State.stored, writing, wrote]⟩
    unfold Waits
    rw [writing]
    exact waits
  | writer choice =>
    obtain ⟨c, here, ran⟩ := Option.bind_eq_some_iff.mp ran
    exact waits.writeStep isOpen here ran

end Steps

theorem Fresh.kept {refs : Refs} {s : State} (fresh : Fresh s) : Kept refs s := by
  obtain ⟨rpos, wpos, reading, writing, given, returned, wrote⟩ := fresh
  constructor <;> simp [State.taken, State.stored, *]

def Reached (refs : Refs) : State → Prop := Reachable Fresh (step refs) fun _ _ => True

theorem Reached.kept {refs : Refs} {s : State} (reached : Reached refs s) (isOpen : refs.Open)
    (few : s.stored < 2 ^ 31) : Kept refs s := by
  have both : Waits refs s ∧ (s.stored < 2 ^ 31 → Kept refs s) := by
    apply reached.invariant fun s => Waits refs s ∧ (s.stored < 2 ^ 31 → Kept refs s)
    · intro start fresh
      exact ⟨by simp [Waits, fresh.writing], fun _ => fresh.kept⟩
    · rintro before event after ⟨waits, kept⟩ - ran
      obtain ⟨next, grows⟩ := waits.step isOpen ran
      refine ⟨next, fun few => ?_⟩
      have few := Nat.lt_of_le_of_lt grows few
      exact (kept few).step isOpen few ran
  exact both.2 few

def State.count (s : State) : Int := s.pipe.p_wpos.toInt - s.pipe.p_rpos.toInt

/-- The bytes between the two positions, in the places where the reader will look for
them. -/
def State.held (s : State) : List (BitVec 8) :=
  (List.range s.count.toNat).map fun k => s.pipe.p_buf (slot (s.pipe.p_rpos + BitVec.ofNat 32 k))

/-- The bytes of the running `devpipe_write` that are still to be stored. -/
def State.unsent (s : State) : List (BitVec 8) := s.writing.elim [] fun c => c.buf.drop c.i

theorem Kept.count {refs : Refs} {s : State} (kept : Kept refs s) (few : s.stored < 2 ^ 31) :
    s.count = s.stored - s.taken.length := by
  have order := kept.order
  rw [State.count, kept.wpos, kept.rpos, toInt_ofNat few, toInt_ofNat (by omega)]

theorem Kept.buffered {refs : Refs} {s : State} (kept : Kept refs s) (few : s.stored < 2 ^ 31) :
    s.held = (s.given.take s.stored).drop s.taken.length := by
  have order := kept.order
  have counted := kept.counted
  have count : s.count.toNat = s.stored - s.taken.length := by
    rw [kept.count few]
    omega
  apply List.ext_getElem?
  intro k
  rw [State.held, count, List.getElem?_drop]
  by_cases inside : k < s.stored - s.taken.length
  · have here := kept.held (s.taken.length + k) (by omega) (by omega)
    have sum : BitVec.ofNat 32 s.taken.length + BitVec.ofNat 32 k =
        BitVec.ofNat 32 (s.taken.length + k) := by simp [BitVec.ofNat_add]
    rw [List.getElem?_take_of_lt (by omega), here, kept.rpos, List.getElem?_map,
      List.getElem?_range inside]
    simp only [Option.map_some]
    rw [sum, slot_ofNat (by omega)]
  · rw [List.getElem?_eq_none (by simpa using inside), List.getElem?_eq_none]
    rw [List.length_take]
    omega

/-- The bytes given are those taken, those in the buffer and those still to be stored. -/
theorem Kept.split {refs : Refs} {s : State} (kept : Kept refs s) (few : s.stored < 2 ^ 31) :
    s.given = s.taken ++ s.held ++ s.unsent := by
  have order := kept.order
  have front : (s.given.take s.stored).take s.taken.length = s.taken := by
    rw [List.take_take, Nat.min_eq_left order]
    exact (List.prefix_iff_eq_take.mp kept.taken).symm
  have left : s.unsent = s.given.drop s.stored := kept.left.symm
  rw [kept.buffered few, left]
  conv_lhs => rw [← List.take_append_drop s.stored s.given]
  conv_lhs => rw [← List.take_append_drop s.taken.length (s.given.take s.stored), front]

/-- The page that `pipe` has allocated. -/
def pipeNew : State := ⟨⟨0, 0, fun _ => 0⟩, none, none, [], [], 0⟩

theorem pipeNew_fresh : Fresh pipeNew := ⟨rfl, rfl, rfl, rfl, rfl, rfl, rfl⟩

/-- A load that reads `p_rpos`, and one that reads `p_wpos`. -/
def loadRpos : Choice := ⟨true, 0⟩
def loadWpos : Choice := ⟨false, 0⟩

def writeByte : List Event :=
  [loadRpos, loadRpos, loadWpos, loadRpos, loadRpos, loadRpos, loadRpos, loadRpos].map .writer

def readByte : List Event :=
  [loadRpos, loadWpos, loadRpos, loadRpos, loadRpos, loadRpos, loadRpos, loadRpos,
    loadRpos].map .reader

/-- Two bytes are given, the first one comes through, and the second stays in the pipe. -/
def oneThrough : List Event :=
  [.write [7, 8], .read 1 fun _ => 0] ++ writeByte ++ readByte ++ writeByte ++ [.reader loadRpos]

/-- The state that the run `oneThrough` ends in. -/
def afterOne : State := (run (step ⟨1, 1, 2⟩) pipeNew oneThrough).getD pipeNew

theorem oneThrough_reached : Reached ⟨1, 1, 2⟩ afterOne :=
  ⟨pipeNew, oneThrough, pipeNew_fresh, .of_run rfl⟩

end Pipes

end Jos
