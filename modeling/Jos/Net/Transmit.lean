import Jos.Net.Descriptor
import Jos.Foundation.Run

/-! The transmit ring of kern/e1000.c: `pci_transmit_packet`, one store at a time, and
the network card, which sends what lies between its head and the tail register. -/

set_option autoImplicit false

namespace Jos

open Foundation Function

namespace Transmit

def numTxDesc : Nat := 64
/-- `E1000_TXD_BUFFER_LENGTH` -/
def txdBufferLength : Nat := 0x5EE

abbrev TxDesc := Desc

def initializeTxDescriptors (page : Nat → Nat) (i : Nat) : TxDesc where
  addr := page i * 4096
  length := BitVec.ofNat 16 txdBufferLength
  status := 1

/-- Where `pci_transmit_packet` stands with a packet. -/
inductive TxPoint where
  | idle
  /-- Its length and the status of the descriptor have been looked at. -/
  | checked (packet : Packet)
  /-- It has been copied to the buffer. -/
  | copied (packet : Packet)
  /-- The length and the status have been stored. -/
  | described (packet : Packet)
deriving DecidableEq, Repr

/-- The ring with the memory of its buffers, the tail that the driver keeps, the
registers TDH and TDT, the packets that the card has sent, and those for which
`pci_transmit_packet` has returned 0. -/
structure TxRing where
  txDescArr : Nat → TxDesc
  mem : Nat → BitVec 8
  txDescTail : Nat
  tdh : Nat
  tdt : Nat
  place : TxPoint
  sent : List Packet
  accepted : List Packet

namespace TxRing

def tail (s : TxRing) : TxDesc := s.txDescArr s.txDescTail

/-- The ring that `pci_func_attach_E1000` leaves. -/
def attach (page : Nat → Nat) (mem : Nat → BitVec 8) : TxRing where
  txDescArr := initializeTxDescriptors page
  mem := mem
  txDescTail := 0
  tdh := 0
  tdt := 0
  place := .idle
  sent := []
  accepted := []

/-- The ring has just been set up, with pages that `page_alloc` gave: no two are one. -/
def Attached (s : TxRing) : Prop :=
  ∃ page mem, (∀ i j, i < numTxDesc → j < numTxDesc → page i = page j → i = j) ∧
    s = attach page mem

end TxRing

inductive TxEvent where
  /-- `pci_transmit_packet` is called, and makes its checks. -/
  | call (src : Packet)
  /-- `memmove` to the buffer -/
  | copy
  | describe
  /-- The tail moves, and 0 is returned. -/
  | publish
  /-- The card sends a packet. -/
  | send
deriving DecidableEq, Repr

def TxEvent.driver : TxEvent → Bool
  | .send => false
  | _ => true

/-- `none` says that the step is not taken here. A packet that is too long, or finds
no free descriptor, is answered with -1 and leaves all as it is. -/
def TxRing.step (s : TxRing) : TxEvent → Option TxRing
  | .call src =>
    if s.place = .idle then
      if src.length > txdBufferLength then some s
      else if ¬ s.tail.done then some s
      else some { s with place := .checked src }
    else none
  | .copy =>
    match s.place with
    | .checked packet =>
      some { s with mem := store s.mem s.tail.addr packet, place := .copied packet }
    | _ => none
  | .describe =>
    match s.place with
    | .copied packet =>
      some
        { s with
          txDescArr := update s.txDescArr s.txDescTail
            { s.tail with length := BitVec.ofNat 16 packet.length, status := 0 }
          place := .described packet }
    | _ => none
  | .publish =>
    match s.place with
    | .described packet =>
      let tail := (s.txDescTail + 1) % numTxDesc
      some
        { s with
          txDescTail := tail
          tdt := tail
          place := .idle
          accepted := s.accepted ++ [packet] }
    | _ => none
  | .send =>
    if s.tdh = s.tdt then none
    else
      let desc := s.txDescArr s.tdh
      some
        { s with
          sent := s.sent ++ [load s.mem desc.addr desc.length.toNat]
          txDescArr := update s.txDescArr s.tdh { desc with status := desc.status ||| 1 }
          tdh := (s.tdh + 1) % numTxDesc }

/-- The tail does not catch up with the head: the card takes that for an empty ring. -/
def Roomy (s : TxRing) : TxEvent → Prop
  | .publish => (s.txDescTail + 1) % numTxDesc ≠ s.tdh
  | _ => True

instance (s : TxRing) (event : TxEvent) : Decidable (Roomy s event) := by
  cases event <;> unfold Roomy <;> infer_instance

namespace TxRing

/-- The descriptors from the head up to the tail register are the card's. -/
def Owned (s : TxRing) (j : Nat) : Prop :=
  ∃ d, d < (s.tdt + numTxDesc - s.tdh) % numTxDesc ∧ j = (s.tdh + d) % numTxDesc

def buffer (s : TxRing) (j : Nat) : Packet :=
  load s.mem (s.txDescArr j).addr (s.txDescArr j).length.toNat

def Holds (s : TxRing) (j : Nat) (packet : Packet) : Prop :=
  Desc.Holds s.txDescArr s.mem j packet

def Working (s : TxRing) : Prop :=
  match s.place with
  | .idle => True
  | .checked packet => packet.length ≤ txdBufferLength
  | .copied packet => packet.length ≤ txdBufferLength ∧
      load s.mem s.tail.addr packet.length = packet
  | .described packet => s.Holds s.txDescTail packet

/-- The card has sent the first of the packets that the driver has accepted, and the
others lie in their descriptors. -/
structure Ordered (s : TxRing) : Prop where
  pages : Desc.Separate numTxDesc s.txDescArr
  tail : s.txDescTail = s.accepted.length % numTxDesc
  tdt : s.tdt = s.txDescTail
  tdh : s.tdh = s.sent.length % numTxDesc
  order : s.sent <+: s.accepted
  room : s.accepted.length < s.sent.length + numTxDesc
  pending : ∀ i packet, s.sent.length ≤ i → s.accepted[i]? = some packet →
    s.Holds (i % numTxDesc) packet
  working : s.Working

variable {s s' : TxRing} {event : TxEvent} {i j : Nat} {packet : Packet}

theorem Attached.ordered (attached : s.Attached) : s.Ordered := by
  obtain ⟨page, mem, distinct, rfl⟩ := attached
  exact
    { pages := .of_pages distinct fun _ => rfl
      tail := rfl
      tdt := rfl
      tdh := rfl
      order := List.nil_prefix
      room := show 0 < numTxDesc by decide
      pending := fun i packet _ there => by simp [attach] at there
      working := trivial }

namespace Ordered

theorem slot_lt : i % numTxDesc < numTxDesc := Nat.mod_lt _ (by decide)

section

variable (ordered : s.Ordered)

include ordered

theorem tail_lt : s.txDescTail < numTxDesc := ordered.tail ▸ slot_lt

/-- The descriptor at the tail holds no packet that the card still has to send. -/
theorem tail_apart (waits : s.sent.length ≤ i)
    (below : i < s.accepted.length) : i % numTxDesc ≠ s.txDescTail := by
  intro same
  rw [ordered.tail] at same
  have room := ordered.room
  have equal := ring_injective same waits (by omega) (by omega) room
  omega

theorem waiting : (s.tdt + numTxDesc - s.tdh) % numTxDesc = s.accepted.length - s.sent.length := by
  have fewer := ordered.order.length_le
  have room := ordered.room
  rw [ordered.tdt, ordered.tail, ordered.tdh]
  unfold numTxDesc at *
  omega

theorem owned_iff :
    s.Owned j ↔ ∃ i, s.sent.length ≤ i ∧ i < s.accepted.length ∧ j = i % numTxDesc := by
  have fewer := ordered.order.length_le
  unfold Owned
  rw [ordered.waiting, ordered.tdh]
  constructor
  · rintro ⟨d, within, rfl⟩
    exact ⟨s.sent.length + d, by omega, by omega, by rw [Nat.mod_add_mod]⟩
  · rintro ⟨i, waits, below, rfl⟩
    refine ⟨i - s.sent.length, by omega, ?_⟩
    rw [Nat.mod_add_mod, Nat.add_sub_cancel' waits]

theorem not_owned : ¬ s.Owned s.txDescTail := by
  rw [ordered.owned_iff]
  rintro ⟨i, waits, below, same⟩
  exact ordered.tail_apart waits below same.symm

end

theorem called {src : Packet} (ordered : s.Ordered) (stepped : s.step (.call src) = some s') :
    s'.Ordered := by
  simp only [TxRing.step] at stepped
  split at stepped
  · split at stepped
    · obtain rfl := Option.some.inj stepped
      exact ordered
    rename_i short
    split at stepped
    · obtain rfl := Option.some.inj stepped
      exact ordered
    cases stepped
    exact
      { ordered with
        pending := fun i other waits there =>
          (ordered.pending i other waits there).keep rfl rfl rfl
        working := Nat.le_of_not_lt short }
  · cases stepped

section

variable (ordered : s.Ordered)

include ordered

theorem copied (stepped : s.step .copy = some s') : s'.Ordered := by
  simp only [TxRing.step] at stepped
  split at stepped
  · rename_i packet place
    cases stepped
    have short : packet.length ≤ txdBufferLength := by
      have := ordered.working
      rwa [Working, place] at this
    exact
      { ordered with
        pending := by
          intro i other waits there
          have holds := ordered.pending i other waits there
          have below : i < s.accepted.length := (List.getElem?_eq_some_iff.mp there).1
          exact holds.keep rfl rfl (ordered.pages.store_apart (Nat.le_trans short (by decide))
            ordered.tail_lt slot_lt (ordered.tail_apart waits below) holds.short)
        working := ⟨short, load_store⟩ }
  · cases stepped

theorem described (stepped : s.step .describe = some s') : s'.Ordered := by
  simp only [TxRing.step] at stepped
  split at stepped
  · rename_i packet place
    cases stepped
    have working : packet.length ≤ txdBufferLength ∧
        load s.mem s.tail.addr packet.length = packet := by
      have := ordered.working
      rwa [Working, place] at this
    have addr (j : Nat) : (update s.txDescArr s.txDescTail
        { s.tail with length := BitVec.ofNat 16 packet.length, status := 0 } j).addr =
          (s.txDescArr j).addr := Desc.update_addr rfl
    exact
      { ordered with
        pages := ordered.pages.keep addr
        pending := by
          intro i other waits there
          have below : i < s.accepted.length := (List.getElem?_eq_some_iff.mp there).1
          have apart := ordered.tail_apart waits below
          exact (ordered.pending i other waits there).keep (addr _)
            (by simp only [update_of_ne apart]) rfl
        working := by
          refine ⟨Nat.le_trans working.1 (by decide), ?_, ?_⟩
          · have bound : packet.length < 2 ^ 16 := Nat.lt_of_le_of_lt working.1 (by decide)
            simp only [update_self, BitVec.toNat_ofNat]
            exact Nat.mod_eq_of_lt bound
          · simp only [addr]
            exact working.2 }
  · cases stepped

theorem published (roomy : Roomy s .publish)
    (stepped : s.step .publish = some s') : s'.Ordered := by
  simp only [TxRing.step] at stepped
  split at stepped
  · rename_i packet place
    cases stepped
    have working : s.Holds s.txDescTail packet := by
      have := ordered.working
      rwa [Working, place] at this
    have next : (s.txDescTail + 1) % numTxDesc = (s.accepted ++ [packet]).length % numTxDesc := by
      rw [ordered.tail, Nat.mod_add_mod, List.length_append, List.length_singleton]
    exact
      { pages := ordered.pages
        tail := next
        tdt := rfl
        tdh := ordered.tdh
        order := ordered.order.trans (List.prefix_append _ _)
        room := by
          have room := ordered.room
          have fewer := ordered.order.length_le
          have apart : (s.txDescTail + 1) % numTxDesc ≠ s.tdh := roomy
          rw [next, ordered.tdh, List.length_append, List.length_singleton] at apart
          change (s.accepted ++ [packet]).length < s.sent.length + numTxDesc
          rw [List.length_append, List.length_singleton]
          unfold numTxDesc at *
          omega
        pending := by
          intro i other waits there
          rcases Nat.lt_trichotomy i s.accepted.length with below | last | beyond
          · rw [List.getElem?_append_left below] at there
            exact (ordered.pending i other waits there).keep rfl rfl rfl
          · subst last
            obtain rfl : packet = other := by simpa using there
            rw [← ordered.tail]
            exact working.keep rfl rfl rfl
          · have none : (s.accepted ++ [packet])[i]? = none :=
              List.getElem?_eq_none (by rw [List.length_append, List.length_singleton]; omega)
            rw [none] at there
            cases there
        working := trivial }
  · cases stepped

theorem pending_of_differ (differ : s.tdh ≠ s.tdt) : s.sent.length < s.accepted.length := by
  have fewer := ordered.order.length_le
  have room := ordered.room
  rw [ordered.tdt, ordered.tail, ordered.tdh] at differ
  unfold numTxDesc at *
  omega

theorem sends (stepped : s.step .send = some s') : s'.Ordered := by
  simp only [TxRing.step] at stepped
  split at stepped
  · cases stepped
  rename_i differ
  cases stepped
  have more := ordered.pending_of_differ differ
  have there : s.accepted[s.sent.length]? = some s.accepted[s.sent.length] :=
    List.getElem?_eq_getElem more
  have holds := ordered.pending _ _ (Nat.le_refl _) there
  rw [← ordered.tdh] at holds
  have addr (j : Nat) : (update s.txDescArr s.tdh
      { s.txDescArr s.tdh with status := (s.txDescArr s.tdh).status ||| 1 } j).addr =
        (s.txDescArr j).addr := Desc.update_addr rfl
  have length (j : Nat) : (update s.txDescArr s.tdh
      { s.txDescArr s.tdh with status := (s.txDescArr s.tdh).status ||| 1 } j).length =
        (s.txDescArr j).length := Desc.update_length rfl
  exact
    { pages := ordered.pages.keep addr
      tail := ordered.tail
      tdt := ordered.tdt
      tdh := by
        change (s.tdh + 1) % numTxDesc = (s.sent ++ [s.buffer s.tdh]).length % numTxDesc
        rw [ordered.tdh, Nat.mod_add_mod, List.length_append, List.length_singleton]
      order := by
        change s.sent ++ [load s.mem (s.txDescArr s.tdh).addr (s.txDescArr s.tdh).length.toNat]
          <+: s.accepted
        rw [holds.load_eq]
        exact prefix_snoc ordered.order there
      room := by
        have room := ordered.room
        change s.accepted.length < (s.sent ++ [s.buffer s.tdh]).length + numTxDesc
        rw [List.length_append, List.length_singleton]
        omega
      pending := by
        intro i other waits there
        have later : s.sent.length ≤ i := by
          refine Nat.le_trans ?_ waits
          simp
        exact (ordered.pending i other later there).keep (addr _) (length _) rfl
      working := by
        have working := ordered.working
        unfold Working at working ⊢
        cases place : s.place with
        | idle => trivial
        | checked packet => rwa [place] at working
        | copied packet =>
          rw [place] at working
          refine ⟨working.1, ?_⟩
          change load s.mem (update s.txDescArr s.tdh _ s.txDescTail).addr _ = _
          rw [addr]
          exact working.2
        | described packet =>
          rw [place] at working
          exact working.keep (addr _) (length _) rfl }

theorem step (roomy : Roomy s event) (stepped : s.step event = some s') : s'.Ordered := by
  cases event with
  | call src => exact ordered.called stepped
  | copy => exact ordered.copied stepped
  | describe => exact ordered.described stepped
  | publish => exact ordered.published roomy stepped
  | send => exact ordered.sends stepped

/-- The driver leaves the descriptors of the card and their buffers as they are. -/
theorem apart (driver : event.driver) (stepped : s.step event = some s')
    (owned : s.Owned j) : s'.txDescArr j = s.txDescArr j ∧ s'.buffer j = s.buffer j := by
  obtain ⟨i, waits, below, rfl⟩ := ordered.owned_iff.mp owned
  have differs := ordered.tail_apart waits below
  have holds := ordered.pending i _ waits (List.getElem?_eq_getElem below)
  cases event with
  | call src =>
    simp only [TxRing.step] at stepped
    split at stepped
    · split at stepped
      · obtain rfl := Option.some.inj stepped
        exact ⟨rfl, rfl⟩
      split at stepped
      all_goals
        cases stepped
        exact ⟨rfl, rfl⟩
    · cases stepped
  | copy =>
    have after := ordered.copied stepped
    simp only [TxRing.step] at stepped
    split at stepped
    · obtain rfl := Option.some.inj stepped
      refine ⟨rfl, ?_⟩
      unfold buffer
      rw [holds.load_eq]
      exact (after.pending i _ waits (List.getElem?_eq_getElem below)).load_eq
    · cases stepped
  | describe =>
    simp only [TxRing.step] at stepped
    split at stepped
    · rename_i packet _
      cases stepped
      refine ⟨update_of_ne differs _ _, ?_⟩
      unfold buffer
      simp only [update_of_ne differs]
    · cases stepped
  | publish =>
    simp only [TxRing.step] at stepped
    split at stepped
    · obtain rfl := Option.some.inj stepped
      exact ⟨rfl, rfl⟩
    · cases stepped
  | send => cases driver

end

end Ordered

/-- What the card has sent is the first part of what the driver has accepted, and all of
it when the card has nothing left to do; no step of the driver touches what is the card's. -/
structure Transmitted (s : TxRing) : Prop where
  order : s.sent <+: s.accepted
  drained : s.tdh = s.tdt → s.sent = s.accepted
  apart : ∀ event s', event.driver → s.step event = some s' → ∀ j, s.Owned j →
    s'.txDescArr j = s.txDescArr j ∧ s'.buffer j = s.buffer j

theorem Ordered.transmitted (ordered : s.Ordered) : s.Transmitted where
  order := ordered.order
  drained still := by
    refine ordered.order.eq_of_length_le (Nat.le_of_not_lt fun more => ?_)
    have room := ordered.room
    rw [ordered.tdt, ordered.tail, ordered.tdh] at still
    unfold numTxDesc at *
    omega
  apart _ _ driver stepped _ owned := ordered.apart driver stepped owned

end TxRing

/-- In every run in which the driver never fills the last free descriptor, the card sends
what the driver accepts, in order. -/
theorem packets_transmitted {s : TxRing} (reached : Reachable TxRing.Attached TxRing.step Roomy s) :
    s.Transmitted :=
  (reached.invariant TxRing.Ordered (fun _ attached => attached.ordered)
    fun _ _ _ ordered roomy stepped => ordered.step roomy stepped).transmitted

def accepts (packet : Packet) : List TxEvent := [.call packet, .copy, .describe, .publish]

def TxRing.accepting (s : TxRing) (packet : Packet) : TxRing :=
  { s with
    txDescArr := update s.txDescArr s.txDescTail
      { s.tail with length := BitVec.ofNat 16 packet.length, status := 0 }
    mem := store s.mem s.tail.addr packet
    txDescTail := (s.txDescTail + 1) % numTxDesc
    tdt := (s.txDescTail + 1) % numTxDesc
    accepted := s.accepted ++ [packet] }

theorem run_accepts {s : TxRing} {packet : Packet} (short : packet.length ≤ txdBufferLength)
    (idle : s.place = .idle) (done : s.tail.done) :
    run TxRing.step s (accepts packet) = some (s.accepting packet) := by
  have fits : ¬ packet.length > txdBufferLength := Nat.not_lt_of_le short
  unfold TxRing.tail at done
  simp [accepts, run, TxRing.step, idle, fits, done, TxRing.accepting, TxRing.tail]

def samplePacket : Packet := [0x48, 0x69]

def sampleRing : TxRing := .attach id fun _ => 0

theorem sampleRing_attached : sampleRing.Attached :=
  ⟨id, fun _ => 0, fun _ _ _ _ same => same, rfl⟩

/-- A card that sends one packet. -/
theorem sample_packets_transmitted :
    ∃ s : TxRing, s.Transmitted ∧ s.tdh = s.tdt ∧ s.sent = [samplePacket] := by
  have ends : ((run TxRing.step sampleRing (accepts samplePacket ++ [.send])).map
      fun s => (s.tdh, s.tdt, s.sent)) = some (1, 1, [samplePacket]) := by decide
  obtain ⟨s, ran, same⟩ := Option.map_eq_some_iff.mp ends
  have along := @Along.of_admits _ _ _ Roomy _ _ _ _ (by decide) ran
  obtain ⟨tdh, tdt, sent⟩ : s.tdh = 1 ∧ s.tdt = 1 ∧ s.sent = [samplePacket] := by
    simpa using same
  exact ⟨s, packets_transmitted ⟨_, _, sampleRing_attached, along⟩, tdh.trans tdt.symm, sent⟩

/-- While the card does nothing, the driver accepts packets up to the last descriptor. -/
theorem fills {packet : Packet} (short : packet.length ≤ txdBufferLength) (page : Nat → Nat)
    (mem : Nat → BitVec 8) {n : Nat} (fits : n ≤ numTxDesc) :
    ∃ s, run TxRing.step (TxRing.attach page mem) (List.replicate n (accepts packet)).flatten =
        some s ∧ s.place = .idle ∧ s.txDescTail = n % numTxDesc ∧ s.tdt = n % numTxDesc ∧
      s.tdh = 0 ∧ s.sent = [] ∧ s.accepted = List.replicate n packet ∧
      ∀ j, n ≤ j → (s.txDescArr j).status = 1 := by
  induction n with
  | zero => exact ⟨_, rfl, rfl, rfl, rfl, rfl, rfl, rfl, fun _ _ => rfl⟩
  | succ n ih =>
    obtain ⟨s, ran, place, tail, tdt, tdh, sent, accepted, free⟩ := ih (by omega)
    have here : s.txDescTail = n := tail.trans (Nat.mod_eq_of_lt fits)
    have done : s.tail.done := by
      change (s.txDescArr s.txDescTail).status.getLsbD 0 = true
      rw [here, free n (Nat.le_refl n)]
      rfl
    rw [List.replicate_succ', List.flatten_append, List.flatten_singleton, run_append, ran]
    refine ⟨_, run_accepts short place done, place, ?_, ?_, tdh, sent, ?_, fun j above => ?_⟩
    · change (s.txDescTail + 1) % numTxDesc = _
      rw [here]
    · change (s.txDescTail + 1) % numTxDesc = _
      rw [here]
    · change s.accepted ++ [packet] = _
      rw [accepted, List.replicate_succ']
    · change (update s.txDescArr s.txDescTail _ j).status = 1
      rw [update_of_ne (by omega), free j (by omega)]

/-- After 64 packets the tail is where the head is: the card has nothing to do, and has
sent none of them. -/
theorem full_ring_looks_empty :
    sampleRing.Attached ∧ ∃ events s, run TxRing.step sampleRing events = some s ∧
      s.tdh = s.tdt ∧ s.step .send = none ∧ s.sent = [] ∧ s.accepted.length = 64 := by
  obtain ⟨s, ran, -, -, tdt, tdh, sent, accepted, -⟩ :=
    @fills samplePacket (by decide) id (fun _ => 0) numTxDesc (Nat.le_refl numTxDesc)
  have still : s.tdh = s.tdt := tdh.trans tdt.symm
  refine ⟨sampleRing_attached, _, s, ran, still, ?_, sent, ?_⟩
  · unfold TxRing.step
    rw [if_pos still]
  · rw [accepted, List.length_replicate]
    rfl

end Transmit

end Jos
