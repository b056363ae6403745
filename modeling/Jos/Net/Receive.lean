import Jos.Net.Descriptor
import Jos.Foundation.Run

/-! The receive ring of kern/e1000.c: `pci_receive_packet`, one access to the shared
memory at a time, and the network card, which fills what lies between its head and the
tail register. -/

set_option autoImplicit false

namespace Jos

open Foundation Function

namespace Receive

def numRxDesc : Nat := 64
def bsize : Nat := 2048

abbrev RxDesc := Desc

/-- Bit 1 of the status: the packet ends in this descriptor. -/
def eop (desc : RxDesc) : Bool := desc.status.getLsbD 1

def initializeRxDescriptors (page : Nat → Nat) (i : Nat) : RxDesc where
  addr := page i * 4096
  length := 0
  status := 0

/-- Where `pci_receive_packet` stands. -/
inductive RxPoint where
  | idle
  /-- The status of the next descriptor has been found set. -/
  | found
  /-- The length has been read. -/
  | sized (n : Nat)
  /-- The bytes have been copied to `dst`. -/
  | copied (packet : Packet)
  /-- The status has been reset. -/
  | released (packet : Packet)
  /-- panic: EOP bit not set -/
  | panicked
deriving DecidableEq, Repr

/-- The ring with the memory of its buffers, the tail that the driver keeps, the
registers RDH and RDT, the packets that the card has accepted, and those that
`pci_receive_packet` has returned. -/
structure RxRing where
  rxDescArr : Nat → RxDesc
  mem : Nat → BitVec 8
  rxDescTail : Nat
  rdh : Nat
  rdt : Nat
  place : RxPoint
  accepted : List Packet
  returned : List Packet

namespace RxRing

def tail (s : RxRing) : RxDesc := s.rxDescArr s.rxDescTail

/-- The ring that `pci_func_attach_E1000` leaves. -/
def attach (page : Nat → Nat) (mem : Nat → BitVec 8) : RxRing where
  rxDescArr := initializeRxDescriptors page
  mem := mem
  rxDescTail := 0
  rdh := 1
  rdt := 0
  place := .idle
  accepted := []
  returned := []

/-- The ring has just been set up, with pages that `page_alloc` gave: no two are one. -/
def Attached (s : RxRing) : Prop :=
  ∃ page mem, (∀ i j, i < numRxDesc → j < numRxDesc → page i = page j → i = j) ∧
    s = attach page mem

end RxRing

inductive RxEvent where
  /-- A packet arrives at the card. -/
  | arrive (packet : Packet)
  /-- `pci_receive_packet` is called, and looks at the status of the next descriptor. -/
  | poll
  /-- It checks EOP and reads the length. -/
  | look
  /-- `memmove` from the buffer -/
  | copy
  /-- It resets the status. -/
  | release
  /-- It stores the tail register, and the packet is returned. -/
  | publish
deriving DecidableEq, Repr

/-- `none` says that the step is not taken here. A packet that finds the ring full, or is
longer than the buffers, is dropped. A poll that finds nothing returns -1, and the driver is
idle again. -/
def RxRing.step (s : RxRing) : RxEvent → Option RxRing
  | .arrive packet =>
    if s.rdh = s.rdt ∨ bsize < packet.length then some s
    else
      let desc := s.rxDescArr s.rdh
      some
        { s with
          mem := store s.mem desc.addr packet
          rxDescArr := update s.rxDescArr s.rdh
            { desc with
              length := BitVec.ofNat 16 packet.length
              status := desc.status ||| 3 }
          rdh := (s.rdh + 1) % numRxDesc
          accepted := s.accepted ++ [packet] }
  | .poll =>
    if s.place = .idle then
      let tail := (s.rxDescTail + 1) % numRxDesc
      if ¬ (s.rxDescArr tail).done then some s
      else some { s with rxDescTail := tail, place := .found }
    else none
  | .look =>
    if s.place = .found then
      if ¬ eop s.tail then some { s with place := .panicked }
      else some { s with place := .sized s.tail.length.toNat }
    else none
  | .copy =>
    match s.place with
    | .sized n => some { s with place := .copied (load s.mem s.tail.addr n) }
    | _ => none
  | .release =>
    match s.place with
    | .copied packet =>
      some
        { s with
          rxDescArr := update s.rxDescArr s.rxDescTail
            { s.tail with status := s.tail.status &&& 0xfc }
          place := .released packet }
    | _ => none
  | .publish =>
    match s.place with
    | .released packet =>
      some
        { s with
          rdt := s.rxDescTail
          place := .idle
          returned := s.returned ++ [packet] }
    | _ => none

namespace RxRing

/-- The descriptors from the head up to the tail register are the card's. -/
def Owned (s : RxRing) (j : Nat) : Prop :=
  ∃ d, d < (s.rdt + numRxDesc - s.rdh) % numRxDesc ∧ j = (s.rdh + d) % numRxDesc

def Holds (s : RxRing) (j : Nat) (packet : Packet) : Prop :=
  Desc.Holds s.rxDescArr s.mem j packet

/-- The packets that the card had accepted before the first whose descriptor still has its
status set. -/
def unread (s : RxRing) : Nat :=
  match s.place with
  | .released _ => s.returned.length + 1
  | _ => s.returned.length

def Working (s : RxRing) : Prop :=
  match s.place with
  | .idle => s.rxDescTail = s.returned.length % numRxDesc
  | .found => s.rxDescTail = (s.returned.length + 1) % numRxDesc ∧
      s.returned.length < s.accepted.length
  | .sized n => s.rxDescTail = (s.returned.length + 1) % numRxDesc ∧
      ∃ packet, s.accepted[s.returned.length]? = some packet ∧ n = packet.length
  | .copied packet | .released packet => s.rxDescTail = (s.returned.length + 1) % numRxDesc ∧
      s.accepted[s.returned.length]? = some packet
  | .panicked => False

/-- The driver has returned the first of the packets that the card has accepted, the
others lie in their descriptors, and only these have their status set. -/
structure Ordered (s : RxRing) : Prop where
  pages : Desc.Separate numRxDesc s.rxDescArr
  rdt : s.rdt = s.returned.length % numRxDesc
  rdh : s.rdh = (s.accepted.length + 1) % numRxDesc
  order : s.returned <+: s.accepted
  room : s.accepted.length < s.returned.length + numRxDesc
  pending : ∀ i packet, s.returned.length ≤ i → s.accepted[i]? = some packet →
    s.Holds ((i + 1) % numRxDesc) packet
  ready : ∀ i, s.unread ≤ i → i < s.accepted.length →
    (s.rxDescArr ((i + 1) % numRxDesc)).done ∧ eop (s.rxDescArr ((i + 1) % numRxDesc))
  clear : ∀ j < numRxDesc, (s.rxDescArr j).done →
    ∃ i, s.unread ≤ i ∧ i < s.accepted.length ∧ j = (i + 1) % numRxDesc
  working : s.Working

variable {s s' : RxRing} {event : RxEvent} {i j : Nat} {packet : Packet}

theorem Attached.ordered (attached : s.Attached) : s.Ordered := by
  obtain ⟨page, mem, distinct, rfl⟩ := attached
  exact
    { pages := .of_pages distinct fun _ => rfl
      rdt := rfl
      rdh := rfl
      order := List.nil_prefix
      room := show 0 < numRxDesc by decide
      pending := fun i packet _ there => by simp [attach] at there
      ready := fun i _ below => absurd below (Nat.not_lt_zero i)
      clear := fun j _ done => by simp [attach, initializeRxDescriptors, Desc.done] at done
      working := rfl }

namespace Ordered

theorem slot_lt : i % numRxDesc < numRxDesc := Nat.mod_lt _ (by decide)

theorem unread_le (s : RxRing) : s.returned.length ≤ s.unread := by
  unfold unread
  split
  · exact Nat.le_succ _
  · exact Nat.le_refl _

section

variable (ordered : s.Ordered)

include ordered

theorem unread_le_accepted : s.unread ≤ s.accepted.length := by
  have working := ordered.working
  unfold unread
  unfold Working at working
  split
  · rename_i packet place
    rw [place] at working
    exact (List.getElem?_eq_some_iff.mp working.2).1
  · exact ordered.order.length_le

theorem slot_injective {first second : Nat}
    (low : s.returned.length ≤ first) (high : first ≤ s.accepted.length)
    (low' : s.returned.length ≤ second) (high' : second ≤ s.accepted.length)
    (same : (first + 1) % numRxDesc = (second + 1) % numRxDesc) : first = second := by
  have room := ordered.room
  exact Nat.succ.inj (ring_injective same (Nat.succ_le_succ low) (by omega)
    (Nat.succ_le_succ low') (by omega))

theorem free : (s.rdt + numRxDesc - s.rdh) % numRxDesc + 1 + s.accepted.length =
      s.returned.length + numRxDesc := by
  have fewer := ordered.order.length_le
  have room := ordered.room
  rw [ordered.rdt, ordered.rdh]
  unfold numRxDesc at *
  omega

theorem not_owned (waits : s.returned.length ≤ i)
    (below : i < s.accepted.length) : ¬ s.Owned ((i + 1) % numRxDesc) := by
  rintro ⟨d, within, same⟩
  have free := ordered.free
  rw [ordered.rdh, Nat.mod_add_mod] at same
  have equal := ring_injective same (Nat.succ_le_succ waits)
    (by have := ordered.room; omega) (by have := ordered.order.length_le; omega) (by omega)
  omega

theorem differ (more : s.rdh ≠ s.rdt) : s.accepted.length + 1 < s.returned.length + numRxDesc := by
  have fewer := ordered.order.length_le
  have room := ordered.room
  rw [ordered.rdt, ordered.rdh] at more
  unfold numRxDesc at *
  omega

theorem arrived (stepped : s.step (.arrive packet) = some s') : s'.Ordered := by
  simp only [RxRing.step] at stepped
  split at stepped
  · obtain rfl := Option.some.inj stepped
    exact ordered
  rename_i taken
  obtain ⟨more, short⟩ := not_or.mp taken
  cases stepped
  have short : packet.length ≤ 4096 := Nat.le_trans (Nat.le_of_not_lt short) (by decide)
  have bound : packet.length < 2 ^ 16 := Nat.lt_of_le_of_lt short (by decide)
  have apart {i : Nat} (waits : s.returned.length ≤ i) (below : i < s.accepted.length) :
      (i + 1) % numRxDesc ≠ s.rdh := by
    intro same
    rw [ordered.rdh] at same
    have fewer := ordered.order.length_le
    have equal := ordered.slot_injective waits (Nat.le_of_lt below) fewer (Nat.le_refl _) same
    omega
  have length : (s.accepted ++ [packet]).length = s.accepted.length + 1 := by
    rw [List.length_append, List.length_singleton]
  have fewer := ordered.order.length_le
  have inside : s.rdh < numRxDesc := ordered.rdh ▸ slot_lt
  have filled : Desc.Holds
      (update s.rxDescArr s.rdh
        { s.rxDescArr s.rdh with
          length := BitVec.ofNat 16 packet.length
          status := (s.rxDescArr s.rdh).status ||| 3 })
      (store s.mem (s.rxDescArr s.rdh).addr packet) s.rdh packet :=
    { short
      length := by
        simp only [update_self, BitVec.toNat_ofNat]
        exact Nat.mod_eq_of_lt bound
      bytes := by
        simp only [update_self]
        exact load_store }
  exact
    { pages := ordered.pages.keep fun _ => Desc.update_addr rfl
      rdt := ordered.rdt
      rdh := by
        change (s.rdh + 1) % numRxDesc = ((s.accepted ++ [packet]).length + 1) % numRxDesc
        rw [length, ordered.rdh, Nat.mod_add_mod]
      order := ordered.order.trans (List.prefix_append _ _)
      room := by
        have differ := ordered.differ fun same => more same
        change (s.accepted ++ [packet]).length < _
        rwa [length]
      pending := by
        intro i other waits there
        rcases Nat.lt_trichotomy i s.accepted.length with below | last | beyond
        · rw [List.getElem?_append_left below] at there
          have holds := ordered.pending i other waits there
          have differs := apart waits below
          refine holds.keep (Desc.update_addr rfl) ?_ ?_
          · simp only [update_of_ne differs]
          · exact ordered.pages.store_apart short inside slot_lt differs holds.short
        · subst last
          obtain rfl : packet = other := by simpa using there
          rw [← ordered.rdh]
          exact filled
        · have none : (s.accepted ++ [packet])[i]? = none :=
            List.getElem?_eq_none (by rw [length]; omega)
          rw [none] at there
          cases there
      ready := by
        intro i waits below
        change i < (s.accepted ++ [packet]).length at below
        rw [length] at below
        rcases Nat.lt_succ_iff_lt_or_eq.mp below with earlier | last
        · have differs := apart (Nat.le_trans (unread_le s) waits) earlier
          simp only [update_of_ne differs]
          exact ordered.ready i waits earlier
        · subst last
          rw [← ordered.rdh]
          simp only [update_self]
          constructor
          · unfold Desc.done
            simp
          · unfold eop
            simp
      clear := by
        intro j within done
        by_cases same : j = s.rdh
        · refine ⟨s.accepted.length, ?_, ?_, ?_⟩
          · exact ordered.unread_le_accepted
          · change _ < (s.accepted ++ [packet]).length
            omega
          · rw [same, ordered.rdh]
        · simp only [update_of_ne same] at done
          obtain ⟨i, waits, below, rfl⟩ := ordered.clear j within done
          refine ⟨i, waits, ?_, rfl⟩
          change _ < (s.accepted ++ [packet]).length
          omega
      working := by
        have working := ordered.working
        have kept {known : Packet} (there : s.accepted[s.returned.length]? = some known) :
            (s.accepted ++ [packet])[s.returned.length]? = some known := by
          rwa [List.getElem?_append_left (List.getElem?_eq_some_iff.mp there).1]
        unfold Working at working ⊢
        cases place : s.place with
        | idle => rwa [place] at working
        | found =>
          rw [place] at working
          refine ⟨working.1, ?_⟩
          change _ < (s.accepted ++ [packet]).length
          rw [length]
          exact Nat.lt_succ_of_lt working.2
        | sized n =>
          rw [place] at working
          obtain ⟨tail, known, there, same⟩ := working
          exact ⟨tail, known, kept there, same⟩
        | copied known =>
          rw [place] at working
          exact ⟨working.1, kept working.2⟩
        | released known =>
          rw [place] at working
          exact ⟨working.1, kept working.2⟩
        | panicked => rw [place] at working; exact working }

theorem private_step {place : RxPoint} {tail : Nat}
    (unread : { s with place, rxDescTail := tail }.unread = s.unread)
    (working : { s with place, rxDescTail := tail }.Working) :
    { s with place, rxDescTail := tail }.Ordered where
  pages := ordered.pages
  rdt := ordered.rdt
  rdh := ordered.rdh
  order := ordered.order
  room := ordered.room
  pending := ordered.pending
  ready := by
    rw [unread]
    exact ordered.ready
  clear := by
    rw [unread]
    exact ordered.clear
  working := working

theorem polled (stepped : s.step .poll = some s') : s'.Ordered := by
  simp only [RxRing.step] at stepped
  split at stepped
  · rename_i idle
    split at stepped
    · obtain rfl := Option.some.inj stepped
      exact ordered
    rename_i done
    cases stepped
    have unread : s.unread = s.returned.length := by rw [RxRing.unread, idle]
    have working := ordered.working
    rw [Working, idle] at working
    refine ordered.private_step unread.symm ⟨?_, ?_⟩
    · rw [working, Nat.mod_add_mod]
    · obtain ⟨i, waits, below, -⟩ := ordered.clear _ slot_lt (not_not.mp done)
      rw [unread] at waits
      exact Nat.lt_of_le_of_lt waits below
  · cases stepped

theorem found (place : s.place = .found) :
    eop s.tail ∧ ∃ packet, s.accepted[s.returned.length]? = some packet ∧
      s.Holds s.rxDescTail packet := by
  have working := ordered.working
  rw [Working, place] at working
  obtain ⟨tail, below⟩ := working
  have unread : s.unread = s.returned.length := by rw [RxRing.unread, place]
  have there := List.getElem?_eq_getElem below
  refine ⟨?_, _, there, ?_⟩
  · unfold RxRing.tail
    rw [tail]
    exact (ordered.ready _ (Nat.le_of_eq unread) below).2
  · rw [tail]
    exact ordered.pending _ _ (Nat.le_refl _) there

theorem looked (stepped : s.step .look = some s') : s'.Ordered := by
  simp only [RxRing.step] at stepped
  split at stepped
  · rename_i place
    obtain ⟨eop, packet, there, holds⟩ := ordered.found place
    rw [if_neg (not_not.mpr eop)] at stepped
    cases stepped
    have working := ordered.working
    rw [Working, place] at working
    refine ordered.private_step ?_ ⟨working.1, packet, there, holds.length⟩
    rw [RxRing.unread, RxRing.unread, place]
  · cases stepped

theorem copied (stepped : s.step .copy = some s') : s'.Ordered := by
  simp only [RxRing.step] at stepped
  split at stepped
  · rename_i n place
    cases stepped
    have working := ordered.working
    rw [Working, place] at working
    obtain ⟨tail, packet, there, rfl⟩ := working
    refine ordered.private_step ?_ ⟨tail, ?_⟩
    · rw [RxRing.unread, RxRing.unread, place]
    · have holds := ordered.pending _ _ (Nat.le_refl _) there
      rw [← tail] at holds
      have bytes : load s.mem s.tail.addr packet.length = packet := holds.bytes
      rw [bytes]
      exact there
  · cases stepped

theorem released (stepped : s.step .release = some s') : s'.Ordered := by
  simp only [RxRing.step] at stepped
  split at stepped
  · rename_i packet place
    cases stepped
    have working := ordered.working
    rw [Working, place] at working
    obtain ⟨tail, there⟩ := working
    have below := (List.getElem?_eq_some_iff.mp there).1
    have unread : s.unread = s.returned.length := by rw [RxRing.unread, place]
    have apart {i : Nat} (later : s.returned.length + 1 ≤ i) (pending : i < s.accepted.length) :
        (i + 1) % numRxDesc ≠ s.rxDescTail := by
      intro same
      rw [tail] at same
      have equal := ordered.slot_injective (Nat.le_of_succ_le later) (Nat.le_of_lt pending)
        (Nat.le_refl _) (Nat.le_of_lt below) same
      omega
    exact
      { pages := ordered.pages.keep fun _ => Desc.update_addr rfl
        rdt := ordered.rdt
        rdh := ordered.rdh
        order := ordered.order
        room := ordered.room
        pending := fun i other waits there =>
          (ordered.pending i other waits there).keep (Desc.update_addr rfl)
            (Desc.update_length rfl) rfl
        ready := by
          intro i later pending
          simp only [update_of_ne (apart later pending)]
          exact ordered.ready i (unread ▸ Nat.le_of_succ_le later) pending
        clear := by
          intro j within done
          by_cases same : j = s.rxDescTail
          · subst same
            simp [update_self, Desc.done] at done
          · simp only [update_of_ne same] at done
            obtain ⟨i, waits, pending, rfl⟩ := ordered.clear j within done
            refine ⟨i, ?_, pending, rfl⟩
            rw [unread] at waits
            rcases Nat.lt_or_eq_of_le waits with later | first
            · exact later
            · exact absurd (by rw [tail, first]) same
        working := ⟨tail, there⟩ }
  · cases stepped

theorem published (stepped : s.step .publish = some s') : s'.Ordered := by
  simp only [RxRing.step] at stepped
  split at stepped
  · rename_i packet place
    cases stepped
    have working := ordered.working
    rw [Working, place] at working
    obtain ⟨tail, there⟩ := working
    have unread : s.unread = s.returned.length + 1 := by rw [RxRing.unread, place]
    have length : (s.returned ++ [packet]).length = s.returned.length + 1 := by
      rw [List.length_append, List.length_singleton]
    exact
      { pages := ordered.pages
        rdt := by
          change s.rxDescTail = (s.returned ++ [packet]).length % numRxDesc
          rw [length, tail]
        rdh := ordered.rdh
        order := prefix_snoc ordered.order there
        room := by
          have room := ordered.room
          change s.accepted.length < (s.returned ++ [packet]).length + numRxDesc
          rw [length]
          omega
        pending := by
          intro i other waits there
          refine ordered.pending i other (Nat.le_trans ?_ waits) there
          change _ ≤ (s.returned ++ [packet]).length
          omega
        ready := by
          intro i waits pending
          refine ordered.ready i (Nat.le_trans (Nat.le_of_eq ?_) waits) pending
          exact unread.trans length.symm
        clear := by
          intro j within done
          obtain ⟨i, waits, pending, rfl⟩ := ordered.clear j within done
          refine ⟨i, ?_, pending, rfl⟩
          exact Nat.le_trans (Nat.le_of_eq (length.trans unread.symm)) waits
        working := by
          change s.rxDescTail = (s.returned ++ [packet]).length % numRxDesc
          rw [length, tail] }
  · cases stepped

theorem step (stepped : s.step event = some s') : s'.Ordered := by
  cases event with
  | arrive packet => exact ordered.arrived stepped
  | poll => exact ordered.polled stepped
  | look => exact ordered.looked stepped
  | copy => exact ordered.copied stepped
  | release => exact ordered.released stepped
  | publish => exact ordered.published stepped

theorem works (busy : s.place ≠ .idle) : s.rxDescTail = (s.returned.length + 1) % numRxDesc ∧
      s.returned.length < s.accepted.length := by
  have working := ordered.working
  unfold Working at working
  cases place : s.place with
  | idle => exact absurd place busy
  | found => rwa [place] at working
  | sized n =>
    rw [place] at working
    obtain ⟨tail, packet, there, -⟩ := working
    exact ⟨tail, (List.getElem?_eq_some_iff.mp there).1⟩
  | copied packet =>
    rw [place] at working
    exact ⟨working.1, (List.getElem?_eq_some_iff.mp working.2).1⟩
  | released packet =>
    rw [place] at working
    exact ⟨working.1, (List.getElem?_eq_some_iff.mp working.2).1⟩
  | panicked =>
    rw [place] at working
    exact working.elim

theorem none_pending (stepped : s.step .poll = some s')
    (empty : s'.place = .idle) : s.returned = s.accepted := by
  simp only [RxRing.step] at stepped
  split at stepped
  · rename_i idle
    split at stepped
    · rename_i unset
      refine ordered.order.eq_of_length_le (Nat.le_of_not_lt fun more => ?_)
      have unread : s.unread = s.returned.length := by rw [RxRing.unread, idle]
      have working := ordered.working
      rw [Working, idle] at working
      rw [working, Nat.mod_add_mod] at unset
      exact unset (ordered.ready _ (Nat.le_of_eq unread) more).1
    · obtain rfl := Option.some.inj stepped
      cases empty
  · cases stepped

end

end Ordered

/-- What the driver has returned is the first part of what the card has accepted, with its
bytes and length. The rest lies unread in descriptors that are not the card's, the driver
works on none that is, and when it returns -1 there is no rest. -/
structure Received (s : RxRing) : Prop where
  order : s.returned <+: s.accepted
  unread : ∀ i packet, s.returned.length ≤ i → s.accepted[i]? = some packet →
    s.Holds ((i + 1) % numRxDesc) packet ∧ ¬ s.Owned ((i + 1) % numRxDesc)
  finished : s.place ≠ .idle → ¬ s.Owned s.rxDescTail
  empty : ∀ s', s.step .poll = some s' → s'.place = .idle → s.returned = s.accepted
  ends : s.place ≠ .panicked

theorem Ordered.received (ordered : s.Ordered) : s.Received where
  order := ordered.order
  unread i packet waits there := ⟨ordered.pending i packet waits there,
    ordered.not_owned waits (List.getElem?_eq_some_iff.mp there).1⟩
  finished busy := by
    obtain ⟨tail, below⟩ := ordered.works busy
    rw [tail]
    exact ordered.not_owned (Nat.le_refl _) below
  empty _ stepped empty := ordered.none_pending stepped empty
  ends panicked := by
    have working := ordered.working
    rwa [Working, panicked] at working

end RxRing

/-- In every run the driver returns what the card accepts, in order. -/
theorem packets_received {s : RxRing}
    (reached : Reachable RxRing.Attached RxRing.step (fun _ _ => True) s) : s.Received :=
  (reached.invariant RxRing.Ordered (fun _ attached => attached.ordered)
    fun _ _ _ ordered _ stepped => ordered.step stepped).received

def samplePacket : Packet := [0x48, 0x69]

def sampleRing : RxRing := .attach id fun _ => 0

/-- A card that receives two packets, of which the driver returns one. -/
theorem sample_packets_received :
    ∃ s : RxRing, s.Received ∧ s.accepted = [samplePacket, []] ∧ s.returned = [samplePacket] := by
  have attached : sampleRing.Attached := ⟨id, fun _ => 0, fun _ _ _ _ same => same, rfl⟩
  have ends : ((run RxRing.step sampleRing
      [.poll, .arrive samplePacket, .poll, .look, .arrive [], .copy, .release, .publish]).map
      fun s => (s.accepted, s.returned)) = some ([samplePacket, []], [samplePacket]) := by decide
  obtain ⟨s, ran, same⟩ := Option.map_eq_some_iff.mp ends
  obtain ⟨accepted, returned⟩ := Prod.mk.inj same
  exact ⟨s, packets_received ⟨_, _, attached, .of_run ran⟩, accepted, returned⟩

end Receive

end Jos
