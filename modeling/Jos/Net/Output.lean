import Jos.Net.Serv
import Jos.Net.Transmit
import Jos.Runs.Crash
import Jos.Runs.KernelHalf

/-! The output environment of net/output.c, with what the kernel does for it: the check of
`sys_net_tx` and `pci_transmit_packet`, which is tried until it takes the packet. -/

set_option autoImplicit false

namespace Jos

open Foundation Function Transmit

variable {npages : Nat} {platform : Platform npages} {managed : Set (Fin npages)}
  {g : Ledger npages} {k k' : Kernel npages} {e : EnvIdx} {memory : UserMemory} {va : Nat}
  {ring ring' : TxRing}

namespace Ns

def nsreqOutput : BitVec 32 := 11
def sendReq : Nat := 0x0ffff000 - pgSize
/-- The address of `sendReq->jp_data`. -/
def jpData : Nat := sendReq + 4

/-- `sendReq->jp_len` -/
def jpLen (memory : UserMemory) : BitVec 32 :=
  let byte (i : Nat) := (memory.read (sendReq + i)).getD 0
  byte 3 ++ byte 2 ++ byte 1 ++ byte 0

/-- What `sys_net_tx` gets of it, as a `size_t`. -/
def jpSize (memory : UserMemory) : Nat := ((jpLen memory).signExtend 64).toNat

def packetAt (memory : UserMemory) (src n : Nat) : Packet :=
  (List.range n).map fun i => (memory.read (src + i)).getD 0

/-- `pci_transmit_packet`, with what it returns. `none` stands for a page fault in the kernel. -/
def pciTransmitPacket (memory : UserMemory) (ring : TxRing) (src n : Nat) :
    Option (Int × TxRing) := do
  Jos.pciTransmitPacket memory ⟨ring.tail.done, false, false, 0⟩ src n
  if n > txdBufferLength ∨ ¬ ring.tail.done then return (-1, ring)
  else return (0, ring.accepting (packetAt memory src n))

def sysNetTx (memory : UserMemory) (ring : TxRing) (k : Kernel npages) (e : EnvIdx)
    (buf size : Nat) : Option (Outcome × TxRing × Kernel npages) := do
  let (passed, k) ← userMemAssert k e buf size pteU
  if passed then
    let (result, ring) ← pciTransmitPacket memory ring buf size
    return (.returns result, ring, k)
  else return (.exits, ring, k)

/-- Why `output` is not back at `ipc_recv`. -/
inductive Stop where
  /-- It still tries. -/
  | retrying
  /-- It has read memory that is not mapped for it, as the handler of `fork` then does. -/
  | faulted
  | destroyed
  /-- The kernel has panicked. -/
  | panicked
deriving DecidableEq, Repr

inductive Ending where
  | rejected
  /-- The driver has taken the packet. -/
  | handed (ring : TxRing)

/-- The condition of the inner loop: the result of `sys_net_tx`. -/
def attempt (memory : UserMemory) (ring : TxRing) (k : Kernel npages) (e : EnvIdx) :
    Except Stop (Int × TxRing × Kernel npages) :=
  if (k.view e sendReq).any Translation.user then
    match sysNetTx memory ring k e jpData (jpSize memory) with
    | some (.returns result, ring, k) => .ok (result, ring, k)
    | some (_, _, _) => .error .destroyed
    | none => .error .panicked
  else .error .faulted

/-- The inner loop, from its attempt `j` on. `rings j` is what the driver finds then: the card
and other callers use the ring while `output` yields. -/
def transmit (memory : UserMemory) (rings : Nat → TxRing) (e : EnvIdx) :
    Nat → Nat → Kernel npages → Except Stop (TxRing × Kernel npages)
  | 0, _, _ => .error .retrying
  | fuel + 1, j, k => do
      let (result, ring, k) ← attempt memory (rings j) k e
      if result ≠ 0 then transmit memory rings e fuel (j + 1) k else return (ring, k)

/-- What `output` does with the page of a message. -/
def handlePage (memory : UserMemory) (rings : Nat → TxRing) (e : EnvIdx) (fuel : Nat)
    (m : Message) (k : Kernel npages) : Except Stop (Ending × Kernel npages) :=
  if m.reqno = nsreqOutput then
    (transmit memory rings e fuel 0 k).map fun (ring, k) => (.handed ring, k)
  else .ok (.rejected, k)

/-- The body of the loop of `output`, once `ipc_recv` has returned a message. -/
def output (memory : UserMemory) (rings : Nat → TxRing) (e : EnvIdx) (fuel : Nat) (m : Message)
    (k : Kernel npages) : Except Stop (Ending × Kernel npages) :=
  if ¬ m.paged then .ok (.rejected, k)
  else do
    let (ending, k) ← handlePage memory rings e fuel m k
    match sysPageUnmap k e 0 sendReq with
    | none => .error .panicked
    | some (_, k) => return (ending, k)

/-- The message is dealt with, and `output` is back at `ipc_recv`. -/
def Processed (memory : UserMemory) (rings : Nat → TxRing) (e : EnvIdx) (m : Message)
    (k : Kernel npages) : Prop :=
  ∃ fuel ending k', output memory rings e fuel m k = .ok (ending, k')

/-- What a message with a page needs: that the page can be unmapped and, for a packet, that it
can be read, that its length is one that the driver takes, and that the bytes from its data on
end with a NUL before the first that is not mapped. -/
def Digestible (managed : Set (Fin npages)) (memory : UserMemory) (e : EnvIdx) (m : Message)
    (k : Kernel npages) : Prop :=
  m.paged → k.Spares managed e sendReq ∧ (m.reqno = nsreqOutput →
    (k.view e sendReq).any Translation.user ∧
    (0 ≤ (jpLen memory).toInt ∧ (jpLen memory).toInt ≤ txdBufferLength) ∧
    Printable memory k e jpData (-1))

/-! The page. -/

theorem sendReq_eq : sendReq = 0x0fffe000 := by decide

theorem sendReq_low : sendReq < utop := by decide

section
variable (sound : Sound managed k g) (live : k.Live e)
include sound live

/-- `sys_page_unmap` comes back if and only if the page can be given up. -/
theorem unmaps_iff : (∃ result k', sysPageUnmap k e 0 sendReq = some (result, k')) ↔
    k.Spares managed e sendReq := by
  constructor
  · rintro ⟨result, k', ran⟩
    obtain ⟨root, rooted⟩ := live.root
    have range : ¬ (sendReq = 0 ∨ sendReq ≥ utop ∨ sendReq % pgSize ≠ 0) := by decide
    have self : envid2env k e 0 true = some e := rfl
    simp only [sysPageUnmap, self, if_neg range, rooted] at ran
    obtain ⟨m, removed, -⟩ := Option.bind_eq_some_iff.mp ran
    exact sound.spares live sendReq_low.le
      (sound.valid.droppable_of_removed rooted sendReq_low.le removed)
  · intro spares
    refine sound.sysPageUnmap_some live fun other found _ => ?_
    obtain rfl : e = other := Option.some.inj found
    exact sound.droppable live sendReq_low.le spares

end

theorem view_page {i : Nat} (inside : i < pgSize) : k.view e (sendReq + i) = k.view e sendReq := by
  have aligned : pgSize ∣ sendReq := by decide
  have start : roundDown (sendReq + i) = sendReq := by
    rw [roundDown, Nat.add_mod, Nat.mod_eq_zero_of_dvd aligned, Nat.zero_add, Nat.mod_mod,
      Nat.mod_eq_of_lt inside, Nat.add_sub_cancel]
  unfold Kernel.view Pmap.translateIn
  cases (k.envs e).envPml4e with
  | none => rw [Option.bind_none, Option.bind_none]
  | some root =>
    rw [Option.bind_some, Option.bind_some, ← Pmap.translate_roundDown (sendReq + i), start]

theorem jpSize_le_iff {n : Nat} (small : n < 2 ^ 31) :
    jpSize memory ≤ n ↔ 0 ≤ (jpLen memory).toInt ∧ (jpLen memory).toInt ≤ n := by
  unfold jpSize
  generalize jpLen memory = len
  have extended : (len.signExtend 64).toInt = len.toInt := BitVec.toInt_signExtend_of_le (by decide)
  have wide := BitVec.toInt_eq_toNat_cond (len.signExtend 64)
  have narrow := len.toInt_lt
  have least := len.le_toInt
  have range := (len.signExtend 64).isLt
  rw [extended] at wide
  split at wide <;> omega

section
variable (sound : Sound managed k g) (live : k.Live e)
include sound live

/-- The check of a buffer in the page passes, and leaves the tables as they are. -/
theorem checks {size : Nat} (small : size ≤ pgSize)
    (readable : (k.view e sendReq).any Translation.user) :
    userMemAssert k e jpData size pteU = some (true, k) := by
  obtain ⟨root, rooted⟩ := live.root
  have user : pml4 sendReq ≠ pml4 uvpt := by decide
  have mappable := Place.mappable_of_le (e := e) sendReq_low.le
  rw [Option.any_eq_true, sound.view_leaf live user, leafTranslation] at readable
  obtain ⟨found, mapped, allowed⟩ := readable
  split at mapped
  · rename_i present
    cases mapped
    have bit : (leafOf k g e sendReq).perm.getLsbD 2 = true := by
      simp only [Translation.user, Bool.and_eq_true] at allowed
      exact allowed.2
    -- the loop looks at one page at most
    have looked (rounds : Nat) (few : rounds ≤ 1) :
        userMemCheckLoop k.pmap (some root) pteU rounds sendReq = some (true, k.pmap) := by
      cases rounds with
      | zero => rfl
      | succ rounds =>
        obtain rfl : rounds = 0 := by omega
        rcases sound.valid.leaf_cases mappable with empty | ⟨holder, page, here, leaf, maps⟩
        · rw [leafOf, empty] at present
          cases present
        obtain ⟨-, holder', here', ran⟩ := sound.valid.pageLookup_present rooted user present
        cases here.symm.trans here'
        rw [maps.ppn, pa2page_val] at ran
        have low : ¬ sendReq ≥ ulim := by decide
        have some : (k.pmap.entry (holder, ptx sendReq)).perm &&& pteU ≠ 0 := by
          intro none
          rw [leafOf, leaf] at bit
          have clear := congrArg (fun perm : BitVec 12 => perm.getLsbD 2) none
          simp only [Pmap.entry, BitVec.getLsbD_and, bit] at clear
          exact absurd clear (by decide)
        simp only [userMemCheckLoop, if_neg low, ran, Option.map_some, Option.bind_eq_bind,
          Option.bind_some, if_neg some]
    have passed : userMemCheck k.pmap (some root) jpData size pteU = some (true, k.pmap) := by
      have page : pgSize = 4096 := rfl
      have start : roundDown jpData = sendReq := by decide
      unfold userMemCheck
      rw [start]
      refine looked _ ?_
      rw [page] at small
      rw [roundUp, roundDown, page, sendReq_eq]
      omega
    simp only [userMemAssert, rooted, BitVec.or_self, passed, Option.bind_eq_bind, Option.bind_some,
      if_true]
    rfl
  · cases mapped

end

/-! The driver. -/

/-- A packet that is taken has been printed, is short and has found a free descriptor. -/
theorem pciTransmitPacket_takes {src n : Nat}
    (ran : pciTransmitPacket memory ring src n = some (0, ring')) :
    cprintf memory.read src (-1) = some () ∧ n ≤ txdBufferLength ∧ ring.tail.done ∧
      ring' = ring.accepting (packetAt memory src n) := by
  obtain ⟨_, driven, ended⟩ := Option.bind_eq_some_iff.mp ran
  obtain ⟨_, printed, -⟩ := Option.bind_eq_some_iff.mp driven
  split at ended
  · cases ended
  · rename_i fine
    obtain ⟨short, free⟩ := not_or.mp fine
    cases ended
    exact ⟨printed, Nat.le_of_not_lt short, not_not.mp free, rfl⟩

/-- The call is that of kern/syscall.c, when the device answers what the driver returns. -/
theorem sysNetTx_call {buf size : Nat} {outcome : Outcome}
    (ran : sysNetTx memory ring k e buf size = some (outcome, ring', k')) :
    ∃ device, Jos.sysNetTx k e buf size ⟨none, device, none⟩ = some (outcome, k') := by
  obtain ⟨⟨passed, k₁⟩, asserted, after⟩ := Option.bind_eq_some_iff.mp ran
  cases passed with
  | false =>
    obtain ⟨rfl, -, rfl⟩ := Prod.mk.inj (Option.some.inj after) |>.imp id Prod.mk.inj
    exact ⟨0, by rw [Jos.sysNetTx, checkedCall, asserted]; rfl⟩
  | true =>
    obtain ⟨⟨result, ring₁⟩, -, ended⟩ := Option.bind_eq_some_iff.mp after
    obtain ⟨rfl, -, rfl⟩ := Prod.mk.inj (Option.some.inj ended) |>.imp id Prod.mk.inj
    exact ⟨result, by rw [Jos.sysNetTx, checkedCall, asserted]; rfl⟩

/-- A packet that is taken is one that the stores to an idle ring leave there. -/
theorem pciTransmitPacket_run {src n : Nat} (idle : ring.place = .idle)
    (ran : pciTransmitPacket memory ring src n = some (0, ring')) :
    run TxRing.step ring (accepts (packetAt memory src n)) = some ring' := by
  obtain ⟨-, short, free, rfl⟩ := pciTransmitPacket_takes ran
  have length : (packetAt memory src n).length = n := by
    rw [packetAt, List.length_map, List.length_range]
  exact run_accepts (length.le.trans short) idle free

theorem pciTransmitPacket_eq {ring : TxRing} {src n : Nat}
    (driven : Jos.pciTransmitPacket memory ⟨ring.tail.done, false, false, 0⟩ src n = some ()) :
    pciTransmitPacket memory ring src n = some
      (if n > txdBufferLength ∨ ¬ ring.tail.done then (-1, ring)
      else (0, ring.accepting (packetAt memory src n))) := by
  unfold pciTransmitPacket
  rw [driven]
  by_cases refused : n > txdBufferLength ∨ ¬ ring.tail.done
  · rw [if_pos refused, if_pos refused]
    rfl
  · rw [if_neg refused, if_neg refused]
    rfl

theorem sysNetTx_eq {buf size : Nat} {result : Int}
    (checked : userMemAssert k e buf size pteU = some (true, k))
    (driven : pciTransmitPacket memory ring buf size = some (result, ring')) :
    sysNetTx memory ring k e buf size = some (.returns result, ring', k) := by
  unfold sysNetTx
  rw [checked]
  change (pciTransmitPacket memory ring buf size).bind _ = _
  rw [driven]
  rfl

theorem attempt_readable {ring : TxRing} {result : Int × TxRing × Kernel npages}
    (ran : attempt memory ring k e = .ok result) : (k.view e sendReq).any Translation.user := by
  by_contra unreadable
  rw [attempt, if_neg unreadable] at ran
  cases ran

theorem attempt_takes (ran : attempt memory ring k e = .ok (0, ring', k')) :
    cprintf memory.read jpData (-1) = some () ∧ jpSize memory ≤ txdBufferLength ∧
      ring.tail.done ∧ ring' = ring.accepting (packetAt memory jpData (jpSize memory)) := by
  rw [attempt, if_pos (attempt_readable ran)] at ran
  cases called : sysNetTx memory ring k e jpData (jpSize memory) with
  | none =>
    rw [called] at ran
    cases ran
  | some outcome =>
    obtain ⟨⟨passed, k₁⟩, -, after⟩ := Option.bind_eq_some_iff.mp called
    cases passed with
    | false =>
      cases after
      rw [called] at ran
      cases ran
    | true =>
      obtain ⟨⟨result, ring₁⟩, driven, ended⟩ := Option.bind_eq_some_iff.mp after
      cases ended
      rw [called] at ran
      obtain ⟨rfl, ringed⟩ := Prod.mk.inj (Except.ok.inj ran)
      cases ringed
      exact pciTransmitPacket_takes driven

/-- The loop ends with the packet in a descriptor that was free at some attempt. -/
theorem transmit_takes {rings : Nat → TxRing} {fuel j : Nat} {ring : TxRing}
    (ran : transmit memory rings e fuel j k = .ok (ring, k')) :
    (k.view e sendReq).any Translation.user ∧ cprintf memory.read jpData (-1) = some () ∧
      jpSize memory ≤ txdBufferLength ∧ ∃ i, j ≤ i ∧ (rings i).tail.done ∧
        ring = (rings i).accepting (packetAt memory jpData (jpSize memory)) := by
  induction fuel generalizing j k with
  | zero => cases ran
  | succ fuel ih =>
    cases tried : attempt memory (rings j) k e with
    | error stop =>
      simp only [transmit, tried] at ran
      cases ran
    | ok outcome =>
      obtain ⟨result, ring₁, k₁⟩ := outcome
      simp only [transmit, tried] at ran
      refine ⟨attempt_readable tried, ?_⟩
      by_cases again : result ≠ 0
      · replace ran : transmit memory rings e fuel (j + 1) k₁ = .ok (ring, k') :=
          (if_pos again).symm.trans ran
        obtain ⟨-, printed, short, i, later, taken⟩ := ih ran
        exact ⟨printed, short, i, by omega, taken⟩
      · replace ran : Except.ok (ring₁, k₁) = Except.ok (ring, k') :=
          (if_neg again).symm.trans ran
        cases ran
        obtain rfl := not_not.mp again
        obtain ⟨printed, short, free, handed⟩ := attempt_takes tried
        exact ⟨printed, short, j, le_rfl, free, handed⟩

/-! A packet in a page that can be read. -/

section
variable (sound : Sound managed k g) (live : k.Live e) (agrees : memory.Of k e)
  (readable : (k.view e sendReq).any Translation.user)
  (printable : Printable memory k e jpData (-1)) (small : jpSize memory ≤ pgSize)
include sound live agrees readable printable small

/-- An attempt comes back, with 0 if the packet is short and a descriptor is free. -/
theorem attempt_eq (ring : TxRing) : attempt memory ring k e = .ok
    (if jpSize memory > txdBufferLength ∨ ¬ ring.tail.done then (-1, ring, k)
    else (0, ring.accepting (packetAt memory jpData (jpSize memory)), k)) := by
  have mapped (short : jpSize memory ≤ e1000TxdBufferLength) (_ : ring.tail.done = true) (i : Nat)
      (inside : i < jpSize memory) : k.view e (jpData + i) ≠ none := by
    have limit : 4 + e1000TxdBufferLength < pgSize := by decide
    have within : 4 + i < pgSize := by omega
    have shift : jpData + i = sendReq + (4 + i) := Nat.add_assoc _ _ _
    rw [shift, view_page within]
    intro unmapped
    rw [unmapped] at readable
    cases readable
  have driven : Jos.pciTransmitPacket memory ⟨ring.tail.done, false, false, 0⟩ jpData
      (jpSize memory) = some () := Jos.pciTransmitPacket_some agrees printable mapped
  have checked := checks sound live small readable
  have answered := pciTransmitPacket_eq driven
  rw [attempt, if_pos readable]
  by_cases refused : jpSize memory > txdBufferLength ∨ ¬ ring.tail.done
  · rw [if_pos refused] at answered ⊢
    rw [sysNetTx_eq checked answered]
  · rw [if_neg refused] at answered ⊢
    rw [sysNetTx_eq checked answered]

theorem transmit_keeps {rings : Nat → TxRing} {fuel j : Nat} {ring : TxRing}
    (ran : transmit memory rings e fuel j k = .ok (ring, k')) : k' = k := by
  induction fuel generalizing j with
  | zero => cases ran
  | succ fuel ih =>
    simp only [transmit, attempt_eq sound live agrees readable printable small] at ran
    split at ran
    · exact ih ran
    · exact (Prod.mk.inj (Except.ok.inj ran)).2.symm

/-- A short packet is taken at the first attempt that finds a free descriptor. -/
theorem transmit_ends {rings : Nat → TxRing} (short : jpSize memory ≤ txdBufferLength) {n j : Nat}
    (free : (rings (j + n)).tail.done) :
    ∃ fuel ring, transmit memory rings e fuel j k = .ok (ring, k) := by
  have attempts := attempt_eq sound live agrees readable printable small
  have fits : ¬ jpSize memory > txdBufferLength := Nat.not_lt.mpr short
  induction n generalizing j with
  | zero =>
    have refused : ¬ (jpSize memory > txdBufferLength ∨ ¬ (rings j).tail.done) :=
      not_or.mpr ⟨fits, not_not_intro free⟩
    refine ⟨1, (rings j).accepting (packetAt memory jpData (jpSize memory)), ?_⟩
    simp only [transmit, attempts, if_neg refused]
    rfl
  | succ n ih =>
    have later : (rings (j + 1 + n)).tail.done := by
      rw [Nat.add_assoc, Nat.add_comm 1]
      exact free
    obtain ⟨fuel, ring, ends⟩ := ih later
    by_cases refused : jpSize memory > txdBufferLength ∨ ¬ (rings j).tail.done
    · refine ⟨fuel + 1, ring, ?_⟩
      simp only [transmit, attempts, if_pos refused]
      exact ends
    · refine ⟨1, (rings j).accepting (packetAt memory jpData (jpSize memory)), ?_⟩
      simp only [transmit, attempts, if_neg refused]
      rfl

theorem transmit_long {rings : Nat → TxRing} (long : txdBufferLength < jpSize memory) (fuel j : Nat) :
    transmit memory rings e fuel j k = .error .retrying := by
  induction fuel generalizing j with
  | zero => rfl
  | succ fuel ih =>
    have refused : jpSize memory > txdBufferLength ∨ ¬ (rings j).tail.done := .inl long
    simp only [transmit, attempt_eq sound live agrees readable printable small, if_pos refused]
    exact ih (j + 1)

end

theorem output_paged {rings : Nat → TxRing} {fuel : Nat} {m : Message} {ending : Ending}
    (paged : m.paged) : output memory rings e fuel m k = .ok (ending, k') ↔
      ∃ k₁ result, handlePage memory rings e fuel m k = .ok (ending, k₁) ∧
        sysPageUnmap k₁ e 0 sendReq = some (result, k') := by
  rw [output, if_neg (not_not_intro paged)]
  cases handled : handlePage memory rings e fuel m k with
  | error stop => exact iff_of_false nofun nofun
  | ok outcome =>
    obtain ⟨ending', k₁⟩ := outcome
    simp only [bind, Except.bind]
    cases unmapped : sysPageUnmap k₁ e 0 sendReq with
    | none =>
      refine iff_of_false nofun ?_
      rintro ⟨k₂, result, same, ran⟩
      cases same
      rw [unmapped] at ran
      cases ran
    | some outcome =>
      obtain ⟨result, k₂⟩ := outcome
      constructor
      · intro same
        cases same
        exact ⟨k₁, result, rfl, unmapped⟩
      · rintro ⟨k₃, result', same, ran⟩
        cases same
        rw [unmapped] at ran
        cases ran
        rfl

/-- `output` gets to the next message if and only if this one is digestible. -/
theorem output_returns_iff (reached : Reached platform Orderly k) (live : k.Live e)
    (agrees : memory.Of k e) {rings : Nat → TxRing} (frees : ∃ j, (rings j).tail.done)
    (m : Message) :
    Processed memory rings e m k ↔ Digestible platform.managed memory e m k := by
  obtain ⟨g, sound⟩ := reached.sound
  have sizes := @jpSize_le_iff memory txdBufferLength (by decide)
  have unmaps := unmaps_iff sound live
  unfold Processed Digestible
  by_cases paged : m.paged
  · simp only [output_paged paged]
    by_cases sends : m.reqno = nsreqOutput
    · simp only [handlePage, if_pos sends]
      constructor
      · rintro ⟨fuel, ending, k', k₁, result, handled, unmapped⟩ -
        cases sent : transmit memory rings e fuel 0 k with
        | error stop =>
          rw [sent] at handled
          cases handled
        | ok outcome =>
          obtain ⟨ring, k₂⟩ := outcome
          rw [sent] at handled
          cases handled
          obtain ⟨readable, printed, short, -⟩ := transmit_takes sent
          have printable := (printable_iff agrees).mpr printed
          have kept := transmit_keeps sound live agrees readable printable
            (short.trans (by decide)) sent
          obtain rfl : k₂ = k := kept
          exact ⟨unmaps.mp ⟨result, k', unmapped⟩,
            fun _ => ⟨readable, sizes.mp short, printable⟩⟩
      · intro digestible
        obtain ⟨spares, packet⟩ := digestible paged
        obtain ⟨result, k', unmapped⟩ := unmaps.mpr spares
        obtain ⟨readable, range, printable⟩ := packet sends
        have short := sizes.mpr range
        obtain ⟨j, free⟩ := frees
        obtain ⟨fuel, ring, ends⟩ := transmit_ends sound live agrees readable printable
          (short.trans (by decide)) short (n := j) (j := 0) (by rwa [Nat.zero_add])
        exact ⟨fuel, .handed ring, k', k, result, by rw [ends]; rfl, unmapped⟩
    · simp only [handlePage, if_neg sends]
      constructor
      · rintro ⟨fuel, ending, k', k₁, result, handled, unmapped⟩ -
        cases handled
        exact ⟨unmaps.mp ⟨result, k', unmapped⟩, fun same => absurd same sends⟩
      · intro digestible
        obtain ⟨result, k', unmapped⟩ := unmaps.mpr (digestible paged).1
        exact ⟨0, .rejected, k', k, result, rfl, unmapped⟩
  · exact iff_of_true ⟨0, .rejected, k, if_pos paged⟩ fun page => absurd page paged

/-- An environment that has a page at `sendReq`. -/
theorem sample_page : ∃ (k : Kernel 4096) (e : EnvIdx), Reached sample Orderly k ∧ k.Live e ∧
    (k.view e sendReq).any Translation.user ∧ k.Spares sample.managed e sendReq := by
  obtain ⟨k, k', g, g', e, page, ⟨start, events, booted, along⟩, -, live, managed, stepped, after,
    leaf⟩ := sample_pageAlloc sendReq (by decide) sendReq_low.le
  have orderly : Orderly k (.call e ⟨none, 0, none⟩ (.pageAlloc 0 sendReq permUser)) := trivial
  have live' : k'.Live e := by
    rw [Kernel.Live, after.envs]
    exact live
  have mapped := after.sound.view_leaf live' (show pml4 sendReq ≠ pml4 uvpt by decide)
  rw [leaf, leafTranslation, if_pos present_or] at mapped
  refine ⟨k', e, ⟨start, _, booted, along.snoc orderly stepped⟩, live', ?_,
    fun found page' there same => ?_⟩
  · have bits : (tablePerm.getLsbD 2 && tablePerm.getLsbD 2 && tablePerm.getLsbD 2 &&
        (permUser.setWidth 12 ||| pteP).getLsbD 2) = true := by decide
    rw [mapped, Option.any_some]
    exact bits
  · obtain rfl := Option.some.inj (mapped.symm.trans there)
    obtain rfl : page' = page := Fin.ext same
    exact .inl managed

def bytesMemory (k : Kernel npages) (e : EnvIdx) (byte : Nat → BitVec 8) : UserMemory where
  read va := (k.view e va).map fun _ => byte va
  writes va := (k.view e va).any Translation.writable

theorem bytesMemory_of {byte : Nat → BitVec 8} : (bytesMemory k e byte).Of k e :=
  fun _ => ⟨Option.isSome_map, rfl⟩

section
variable (readable : (k.view e sendReq).any Translation.user) {byte : Nat → BitVec 8}
include readable

theorem bytesMemory_page {i : Nat} (inside : i < pgSize) :
    (bytesMemory k e byte).read (sendReq + i) = some (byte (sendReq + i)) := by
  obtain ⟨found, mapped, -⟩ := (Option.any_eq_true ..).mp readable
  change (k.view e (sendReq + i)).map _ = _
  rw [view_page inside, mapped, Option.map_some]

theorem jpLen_bytesMemory : jpLen (bytesMemory k e byte) =
    byte (sendReq + 3) ++ byte (sendReq + 2) ++ byte (sendReq + 1) ++ byte sendReq := by
  have read (i : Nat) (inside : i < pgSize) := @bytesMemory_page _ k e readable byte i inside
  unfold jpLen
  simp only [read 0 (by decide), read 1 (by decide), read 2 (by decide), read 3 (by decide),
    Option.getD_some]
  rfl

theorem printable_bytesMemory (ends : byte jpData = 0) :
    Printable (bytesMemory k e byte) k e jpData (-1) := by
  have four : (4 : Nat) < pgSize := by decide
  have first : (bytesMemory k e byte).read jpData = some 0 := by
    rw [jpData, bytesMemory_page readable four, ← jpData, ends]
  refine .inr ⟨0, by decide, fun i within unmapped => ?_, .inl first⟩
  obtain rfl : i = 0 := Nat.le_zero.mp within
  rw [Nat.add_zero, jpData, view_page four] at unmapped
  rw [unmapped] at readable
  cases readable

end

/-- A packet of no bytes. -/
theorem sample_output_returns : ∃ (k : Kernel 4096) (e : EnvIdx), Reached sample Orderly k ∧
    Processed (bytesMemory k e fun _ => 0) (fun _ => sampleRing) e ⟨nsreqOutput, 0, 7⟩ k := by
  obtain ⟨k, e, reached, live, readable, spares⟩ := sample_page
  have range : 0 ≤ (jpLen (bytesMemory k e fun _ => 0)).toInt ∧
      (jpLen (bytesMemory k e fun _ => 0)).toInt ≤ txdBufferLength := by
    rw [jpLen_bytesMemory readable]
    decide
  exact ⟨k, e, reached, (output_returns_iff reached live bytesMemory_of ⟨0, rfl⟩ _).mpr fun _ =>
    ⟨spares, fun _ => ⟨readable, range, printable_bytesMemory readable rfl⟩⟩⟩

/-- A packet of 1600 bytes is tried for ever, with all descriptors free. -/
theorem long_packet_retried : ∃ (k : Kernel 4096) (e : EnvIdx) (memory : UserMemory),
    Reached sample Orderly k ∧ k.Live e ∧ memory.Of k e ∧ sampleRing.tail.done ∧
    (jpLen memory).toInt = 1600 ∧
    (∀ fuel, output memory (fun _ => sampleRing) e fuel ⟨nsreqOutput, 0, 7⟩ k = .error .retrying) ∧
    ¬ Processed memory (fun _ => sampleRing) e ⟨nsreqOutput, 0, 7⟩ k := by
  obtain ⟨k, e, reached, live, readable, -⟩ := sample_page
  obtain ⟨g, sound⟩ := reached.sound
  let byte (va : Nat) : BitVec 8 := if va = sendReq then 0x40 else if va = sendReq + 1 then 6 else 0
  have ends : byte jpData = 0 := by decide
  have len : jpLen (bytesMemory k e byte) = 1600 := by
    rw [jpLen_bytesMemory readable]
    decide
  have size : jpSize (bytesMemory k e byte) = 1600 := by
    rw [jpSize, len]
    decide
  have retried (fuel : Nat) : output (bytesMemory k e byte) (fun _ => sampleRing) e fuel
      ⟨nsreqOutput, 0, 7⟩ k = .error .retrying := by
    have long := @transmit_long _ _ _ _ _ _ sound live bytesMemory_of readable
      (printable_bytesMemory readable ends) (by rw [size]; decide) (fun _ => sampleRing)
      (by rw [size]; decide) fuel 0
    rw [output, if_neg (by decide), handlePage, if_pos rfl, long]
    rfl
  refine ⟨k, e, bytesMemory k e byte, reached, live, bytesMemory_of, rfl, by rw [len]; rfl,
    retried, ?_⟩
  rintro ⟨fuel, ending, k', ran⟩
  rw [retried] at ran
  cases ran

end Ns

end Jos
