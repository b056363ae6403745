import Jos.Calls.Survival
import Jos.Kern.Access
import Jos.Memory.Check
import Jos.Runs.Sound

/-! Traps that the kernel survives: what a trap from user mode, with any arguments, needs
to find in the memory of the environments if the kernel is not to panic or fault. -/

set_option autoImplicit false

namespace Jos

open Foundation

variable {npages : Nat} {platform : Platform npages} {managed : Set (Fin npages)}
  {g g' : Ledger npages} {k k' : Kernel npages} {c e : EnvIdx} {root : Fin npages} {va : Nat}
  {memory : UserMemory} {card : Card} {ambient : Ambient} {read : Nat → Option (BitVec 8)}

/-- The bytes that can be read are those that the page tables map, and stores are
allowed where all four levels allow them. -/
def UserMemory.Of (memory : UserMemory) (k : Kernel npages) (c : EnvIdx) : Prop :=
  ∀ va, (memory.read va).isSome = (k.view c va).isSome ∧
    memory.writes va = (k.view c va).any Translation.writable

namespace Kernel

/-- The page mapped at an address is one of the allocator's, or is not referred to once
only: giving it up does not free a page that `page_free` refuses. -/
def Spares (managed : Set (Fin npages)) (k : Kernel npages) (e : EnvIdx) (va : Nat) : Prop :=
  ∀ found (page : Fin npages), k.view e va = some found → page.val = found.ppn →
    page ∈ managed ∨ (k.pmap.pages page).ppRef ≠ 1

/-- `env_free` of the environment finds nothing that it cannot give up: not in the first
512 gigabytes, and not in physical page 0 when it takes that for a missing table. -/
structure Expendable (managed : Set (Fin npages)) (k : Kernel npages) (e : EnvIdx) : Prop where
  clean : k.Clean e
  spare : ∀ root, (k.envs e).envPml4e = some root → k.pmap.mem root 0 = 0 →
    ∀ zero : Fin npages, zero.val = 0 → (k.pmap.pages zero).ppRef ≠ 1
  backed : ∀ va, va < 2 ^ 39 → ∀ found (page : Fin npages), k.view e va = some found →
    page.val = found.ppn → page ∈ managed

/-- What the environment sees of the kernel between UTOP and ULIM is RAM. -/
def SeesRam (k : Kernel npages) (c : EnvIdx) : Prop :=
  ∀ va found, utop < va → va < ulim → k.view c va = some found → found.ppn < npages

end Kernel

/-- The bytes that printing a string reads are mapped, up to and including the first NUL
or the one after the last that the precision admits. -/
def Printable (memory : UserMemory) (k : Kernel npages) (c : EnvIdx) (s : Nat)
    (precision : Int) : Prop :=
  s = 0 ∨ ∃ n, s + n < 2 ^ 64 ∧ (∀ i ≤ n, k.view c (s + i) ≠ none) ∧
    (memory.read (s + n) = some 0 ∨ precision = n)

def Checked (k : Kernel npages) (c : EnvIdx) (va len : Nat) : Prop :=
  ∃ m, userMemCheck k.pmap (k.envs c).envPml4e va len pteU = some (true, m)

/-- What a call needs, beside its own checks, for the kernel to survive it. -/
def SurvivesCall (managed : Set (Fin npages)) (memory : UserMemory) (card : Card)
    (k : Kernel npages) (c : EnvIdx) (ambient : Ambient) : Syscall → Prop
  | .cputs s len => k.SeesRam c ∧ k.Expendable managed c ∧
      (Checked k c s len → Printable memory k c s (BitVec.ofNat 32 len).toInt)
  | .netTx buf size => k.SeesRam c ∧ k.Expendable managed c ∧ (Checked k c buf size →
      Printable memory k c buf (-1) ∧ (size ≤ e1000TxdBufferLength → card.txFree = true →
        ∀ i < size, k.view c (buf + i) ≠ none))
  | .netRx buf => k.SeesRam c ∧ k.Expendable managed c ∧ (Checked k c buf pgSize →
      card.rxFilled = true → card.rxEop = true ∧ ∀ i < card.rxLength,
        ∃ found, k.view c (buf + i) = some found ∧ found.writable = true)
  | .envDestroy envid => ∀ e, envid2env k c envid true = some e →
      ¬ ((k.envs e).envStatus = .running ∧ c ≠ e) → k.Expendable managed e
  | .pageAlloc envid va _ => ∀ e, envid2env k c envid true = some e → va ≤ utop →
      k.Spares managed e va
  | .pageMap _ _ dstenvid dstva _ => ∀ dst, envid2env k c dstenvid false = some dst →
      dstva ≤ utop → k.Spares managed dst dstva
  | .pageUnmap envid va => ∀ e, envid2env k c envid true = some e → va < utop →
      k.Spares managed e va
  | .ipcTrySend envid _ srcva _ =>
    (envid = (k.envs c).envId → (k.envs c).envIpcRecving = false) ∧
    (∀ dst, envid2env k c envid false = some dst → (k.envs dst).envIpcRecving = true →
      utop ≤ srcva → Sound.Lands k.pmap (k.envs c).envPml4e srcva) ∧
    ∀ dst, envid2env k c envid false = some dst → srcva < utop →
      (k.envs dst).envIpcDstva < utop → k.Spares managed dst (k.envs dst).envIpcDstva
  | .envSetTrapframe envid tf => tf ≠ 0 → ambient.userTf ≠ none ∧
      (envid2env k c envid true = none → ∃ found, k.view c 0 = some found ∧ found.writable = true)
  | _ => True

def Survives (managed : Set (Fin npages)) (memory : UserMemory) (card : Card)
    (k : Kernel npages) (c : EnvIdx) (ambient : Ambient) : Prop :=
  if (k.envs c).envTf.tfTrapno.toNat = tPgflt then
    k.Expendable managed c ∧ ((k.envs c).envPgfaultUpcall ≠ 0 → ∀ found,
      k.view c (uxstackTop - pgSize) = some found → found.writable = true)
  else SurvivesCall managed memory card k c ambient (k.envs c).envTf.request

theorem Valid.droppable_of_removed {roots : EnvIdx → Option (Fin npages)} {m m' : Pmap npages}
    (valid : Valid managed roots m g) (rooted : roots e = some root) (bound : va ≤ utop)
    (ran : pageRemove m (some root) va = some m') : Droppable managed m g e va := by
  have mappable := Place.mappable_of_le (e := e) bound
  intro page refers
  rcases valid.leaf_cases mappable with empty | ⟨holder, target, here, leaf, maps⟩
  · rw [empty] at refers
    exact absurd refers not_refers_zero
  · obtain rfl : page = target := maps.refers.mp (leaf ▸ refers)
    rw [valid.pageRemove_mapped rooted (Place.mappable_user mappable) here maps] at ran
    obtain ⟨m₁, dropped, -⟩ := Option.map_eq_some_iff.mp ran
    by_contra neither
    obtain ⟨outside, one⟩ := not_or.mp neither
    exact valid.pool.reserved page outside ((Pmap.pageDecref_some dropped).2 (not_not.mp one))

section
variable (sound : Sound managed k g)
include sound

theorem Sound.view_leaf (live : k.Live e) (user : pml4 va ≠ pml4 uvpt) :
    k.view e va = leafTranslation (leafOf k g e va) := sound.translateIn live user

theorem Sound.view_refers (live : k.Live e) (user : pml4 va ≠ pml4 uvpt) {page : Fin npages}
    (refers : (leafOf k g e va).Refers page) :
    ∃ found, k.view e va = some found ∧ page.val = found.ppn :=
  ⟨_, (sound.view_leaf live user).trans (if_pos refers.1), refers.2.symm⟩

theorem Sound.droppable (live : k.Live e) (bound : va ≤ utop) (spares : k.Spares managed e va) :
    Droppable managed k.pmap g e va := by
  intro page refers
  obtain ⟨found, mapped, here⟩ := sound.view_refers live
    (Place.mappable_user (Place.mappable_of_le (e := e) bound)) refers
  exact spares found page mapped here

theorem Sound.spares (live : k.Live e) (bound : va ≤ utop)
    (droppable : Droppable managed k.pmap g e va) : k.Spares managed e va := by
  intro found page mapped here
  rw [sound.view_leaf live (Place.mappable_user (Place.mappable_of_le (e := e) bound)),
    leafTranslation] at mapped
  split at mapped
  · rename_i present
    cases mapped
    exact droppable page ⟨present, here.symm⟩
  · cases mapped

/-- What an environment maps in the first 512 gigabytes is found in its tables. -/
theorem Sound.backed (live : k.Live e) (inside : ∀ va, va < 2 ^ 39 →
      ∀ found (page : Fin npages), k.view e va = some found → page.val = found.ppn → page ∈ managed) :
    Backed managed k.pmap.mem g.table e := by
  intro i j t page refers
  obtain ⟨table, index, user⟩ := table_low (e := e) (i := i) (k := j) (t := t)
  have leaf : leafOf k g e (pgAddr 0 i j t 0) = leafEntry k.pmap.mem g.table ⟨some e, [j, i, 0]⟩ t := by
    rw [leafOf, table, index]
  obtain ⟨found, mapped, here⟩ := sound.view_refers live user (leaf ▸ refers)
  refine inside _ ?_ found page mapped here
  rw [pgAddr_eq (by decide)]
  have := i.isLt
  have := j.isLt
  have := t.isLt
  change 0 * 2 ^ 39 + _ + _ + _ + _ < _
  omega

theorem Sound.disposable (rooted : (k.envs e).envPml4e = some root)
    (expendable : k.Expendable managed e) : Sound.Disposable managed k.pmap g e root where
  clean := expendable.clean root rooted
  spare := expendable.spare root rooted
  backed := sound.backed (Kernel.live_of rooted) expendable.backed

theorem Sound.ram (live : k.Live c) (sees : k.SeesRam c) (va : Nat) : Valid.Ram k.pmap g c va := by
  intro low high present
  have mapped := (sound.view_leaf live (Valid.user_of_ulim high)).trans (if_pos present)
  exact sees va _ low high mapped

theorem Sound.framed (rooted : (k.envs e).envPml4e = some root) (sees : k.SeesRam e) :
    k.pmap.Framed root := by
  intro va found low there
  have live := Kernel.live_of rooted
  have leaf := sound.view_leaf live (Valid.user_of_ulim low)
  have translated : k.view e va = some found := by
    rw [Kernel.view, rooted]
    exact there
  by_cases bound : va ≤ utop
  · rw [translated, leafTranslation] at leaf
    split at leaf
    · rename_i present
      cases leaf
      rcases sound.valid.leaf_cases (Place.mappable_of_le (e := e) bound) with
        empty | ⟨holder, page, -, same, maps⟩
      · rw [leafOf, empty] at present
        cases present
      · change (leafOf k g e va).ppn < npages
        rw [leafOf, same, maps.ppn]
        exact page.isLt
    · cases leaf
  · exact sees va found (Nat.lt_of_not_le bound) low translated

end

theorem printString_some {left p n : Nat} {precision : Int}
    (room : n < left) (mapped : ∀ i ≤ n, read (p + i) ≠ none)
    (ends : read (p + n) = some 0 ∨ precision = n) : printString read left p precision = some () := by
  induction left generalizing p n precision with
  | zero => exact absurd room (Nat.not_lt_zero n)
  | succ left ih =>
    obtain ⟨ch, first⟩ := Option.ne_none_iff_exists'.mp (mapped 0 (Nat.zero_le n))
    rw [Nat.add_zero] at first
    unfold printString
    simp only [first]
    by_cases nul : ch = 0
    · rw [if_pos nul]
    rw [if_neg nul]
    cases n with
    | zero =>
      have precise : precision = 0 := by
        refine ends.resolve_left fun zero => nul ?_
        rw [Nat.add_zero, first] at zero
        exact Option.some.inj zero
      subst precise
      rfl
    | succ n =>
      have next (i : Nat) (within : i ≤ n) : read (p + 1 + i) ≠ none := by
        rw [Nat.add_assoc, Nat.add_comm 1 i]
        exact mapped (i + 1) (Nat.succ_le_succ within)
      have shifted : p + 1 + n = p + (n + 1) := by omega
      by_cases unlimited : precision < 0
      · rw [if_pos unlimited]
        refine ih (Nat.lt_of_succ_lt_succ room) next (.inl ?_)
        rw [shifted]
        exact ends.resolve_right (by omega)
      rw [if_neg unlimited]
      by_cases more : precision - 1 ≥ 0
      · rw [if_pos more]
        refine ih (Nat.lt_of_succ_lt_succ room) next (ends.imp (fun zero => shifted ▸ zero) ?_)
        intro precise
        rw [precise]
        omega
      · rw [if_neg more]

theorem printString_ends {left p : Nat} (printed : printString read left p (-1) = some ()) :
    ∃ n < left, (∀ i ≤ n, read (p + i) ≠ none) ∧ read (p + n) = some 0 := by
  induction left generalizing p with
  | zero => cases printed
  | succ left ih =>
    unfold printString at printed
    cases first : read p with
    | none =>
      rw [first] at printed
      cases printed
    | some ch =>
      have mapped : read p ≠ none := by
        rw [first]
        exact Option.some_ne_none ch
      simp only [first] at printed
      by_cases nul : ch = 0
      · subst nul
        refine ⟨0, Nat.succ_pos left, fun i within => ?_, first⟩
        obtain rfl : i = 0 := Nat.le_zero.mp within
        exact mapped
      · rw [if_neg nul, if_pos (by decide)] at printed
        obtain ⟨n, less, all, ends⟩ := ih printed
        have shift (i : Nat) : p + (i + 1) = p + 1 + i := by omega
        refine ⟨n + 1, Nat.succ_lt_succ less, fun i within => ?_, (shift n).symm ▸ ends⟩
        cases i with
        | zero => exact mapped
        | succ i => exact (shift i).symm ▸ all i (Nat.le_of_succ_le_succ within)

theorem checked_of_returns {len : Nat} {answer value : Int}
    (ran : checkedCall k c va len answer = some (.returns value, k')) : Checked k c va len := by
  obtain ⟨⟨passed, k₁⟩, asserted, ended⟩ := Option.bind_eq_some_iff.mp ran
  cases passed with
  | false => cases ended
  | true =>
    obtain ⟨⟨result, m⟩, checked, settled⟩ := Option.bind_eq_some_iff.mp asserted
    rw [BitVec.or_self] at checked
    dsimp only at settled
    split at settled
    · rename_i passed
      exact ⟨m, by rw [checked, passed]⟩
    · obtain ⟨freed, -, failed⟩ := Option.bind_eq_some_iff.mp settled
      cases failed

section
variable (agrees : memory.Of k c)
include agrees

theorem UserMemory.Of.read_ne (mapped : k.view c va ≠ none) : memory.read va ≠ none := by
  rw [← Option.isSome_iff_ne_none, (agrees va).1]
  exact Option.isSome_iff_ne_none.mpr mapped

theorem cprintf_some {s : Nat} {precision : Int} (printable : Printable memory k c s precision) :
    cprintf memory.read s precision = some () := by
  unfold cprintf
  split
  · rfl
  · rename_i nonzero
    obtain ⟨n, room, mapped, ends⟩ := printable.resolve_left nonzero
    exact printString_some (by omega) (fun i within => agrees.read_ne (mapped i within)) ends

theorem printable_iff {s : Nat} :
    Printable memory k c s (-1) ↔ cprintf memory.read s (-1) = some () := by
  constructor
  · exact fun printable => cprintf_some agrees printable
  · intro printed
    unfold cprintf at printed
    split at printed
    · rename_i null
      exact .inl null
    · obtain ⟨n, less, mapped, ends⟩ := printString_ends printed
      refine .inr ⟨n, by omega, fun i within unmapped => mapped i within ?_, .inl ends⟩
      have same := (agrees (s + i)).1
      rw [unmapped] at same
      exact Option.not_isSome_iff_eq_none.mp (Bool.eq_false_iff.mp same)

theorem pciTransmitPacket_some {src n : Nat} (printable : Printable memory k c src (-1))
    (mapped : n ≤ e1000TxdBufferLength → card.txFree = true → ∀ i < n, k.view c (src + i) ≠ none) :
    pciTransmitPacket memory card src n = some () := by
  unfold pciTransmitPacket
  simp only [cprintf_some agrees printable, Option.bind_eq_bind, Option.bind_some]
  split
  · rfl
  · rename_i sent
    have small : n ≤ e1000TxdBufferLength := Nat.not_lt.mp fun large => sent (.inl large)
    have free : card.txFree = true := by
      by_contra busy
      exact sent (.inr busy)
    refine if_pos (List.all_eq_true.mpr fun i listed => ?_)
    exact Option.isSome_iff_ne_none.mpr
      (agrees.read_ne (mapped small free i (List.mem_range.mp listed)))

theorem pciReceivePacket_some {dst : Nat} (received : card.rxFilled = true → card.rxEop = true ∧
      ∀ i < card.rxLength, ∃ found, k.view c (dst + i) = some found ∧ found.writable = true) :
    pciReceivePacket memory card dst = some () := by
  unfold pciReceivePacket
  split
  · rfl
  · rename_i filled
    obtain ⟨whole, mapped⟩ := received (by simpa using filled)
    rw [if_neg (not_not_intro whole)]
    refine if_pos (List.all_eq_true.mpr fun i listed => ?_)
    obtain ⟨found, there, writable⟩ := mapped i (List.mem_range.mp listed)
    rw [(agrees (dst + i)).2, there]
    exact writable

theorem userAccess_some {ambient' : Ambient} {call : Syscall} {value : Int}
    (survives : SurvivesCall managed memory card k c ambient call)
    (ran : syscall k c ambient' call = some (.returns value, k')) :
    userAccess memory card call = some () := by
  cases call with
  | cputs s len => exact cprintf_some agrees (survives.2.2 (checked_of_returns ran))
  | netTx buf size =>
    obtain ⟨printable, mapped⟩ := survives.2.2 (checked_of_returns ran)
    exact pciTransmitPacket_some agrees printable mapped
  | netRx buf => exact pciReceivePacket_some agrees (survives.2.2 (checked_of_returns ran))
  | _ => rfl

end

theorem returning_some {result : Option (Int × Kernel npages)}
    (some : ∃ value k', result = .some (value, k')) :
    ∃ outcome k', returning result = .some (outcome, k') := by
  obtain ⟨value, k', rfl⟩ := some
  exact ⟨.returns value, k', rfl⟩

section
variable (sound : Sound managed k g)
include sound

theorem Sound.checkedCall_survived (live : k.Live c) (sees : k.SeesRam c)
    (expendable : k.Expendable managed c) (va len : Nat) (answer : Int) :
    ∃ outcome k', Jos.checkedCall k c va len answer = some (outcome, k') := by
  obtain ⟨root, rooted⟩ := live.root
  exact sound.checkedCall_some rooted (sound.ram live sees) (sound.disposable rooted expendable)
    va len answer

theorem Sound.syscall_survived (live : k.Live c) {call : Syscall}
    (survives : SurvivesCall managed memory card k c ambient call) :
    ∃ outcome k', Jos.syscall k c { ambient with stalePte := none } call = some (outcome, k') := by
  cases call with
  | cputs s len => exact sound.checkedCall_survived live survives.1 survives.2.1 s len 0
  | netTx buf size =>
    exact sound.checkedCall_survived live survives.1 survives.2.1 buf size ambient.device
  | netRx buf =>
    exact sound.checkedCall_survived live survives.1 survives.2.1 buf pgSize ambient.device
  | envDestroy envid =>
    simp only [Jos.syscall, Jos.sysEnvDestroy]
    cases found : envid2env k c envid true with
    | none => exact ⟨_, _, rfl⟩
    | some e =>
      obtain ⟨root, rooted⟩ := sound.envid2env_live live found
      obtain ⟨how, k', ran⟩ := sound.envDestroy_some (c := c) rooted fun here =>
        sound.disposable rooted (survives e found here)
      simp only [ran, Option.bind_eq_bind, Option.bind_some]
      exact ⟨_, _, rfl⟩
  | pageAlloc envid va perm =>
    exact returning_some (sound.sysPageAlloc_some live fun e found bound =>
      sound.droppable (sound.envid2env_root live found) bound (survives e found bound))
  | pageMap srcenvid srcva dstenvid dstva perm =>
    exact returning_some (sound.sysPageMap_some live fun dst found bound =>
      sound.droppable (sound.envid2env_root live found) bound (survives dst found bound))
  | pageUnmap envid va =>
    exact returning_some (sound.sysPageUnmap_some live fun e found low =>
      sound.droppable (sound.envid2env_root live found) low.le (survives e found low))
  | ipcTrySend envid value srcva perm =>
    obtain ⟨others, lands, spares⟩ := survives
    exact returning_some (sound.sysIpcTrySend_some live others lands fun dst found low low' =>
      sound.droppable (sound.envid2env_root live found) low'.le (spares dst found low low'))
  | envSetTrapframe envid tf =>
    exact returning_some (Sound.sysEnvSetTrapframe_some (fun given => (survives given).1)
      fun given => (survives given).2)
  | _ => exact ⟨_, _, rfl⟩

theorem Sound.pageFaultHandler_survived (live : k.Live c) (expendable : k.Expendable managed c)
    (writable : (k.envs c).envPgfaultUpcall ≠ 0 → ∀ found,
      k.view c (uxstackTop - pgSize) = some found → found.writable = true) :
    ∃ exit k', Jos.pageFaultHandler k c = some (exit, k') := by
  obtain ⟨root, rooted⟩ := live.root
  refine sound.pageFaultHandler_some rooted (sound.disposable rooted expendable)
    fun handled present => ?_
  have mapped := (sound.view_leaf live (by decide)).trans (if_pos present)
  have allowed := writable handled _ mapped
  rwa [leafTranslation_writable (if_pos present)] at allowed

end

/-- A trap with the given frame, as `trap` saves it. -/
def Kernel.trapped (k : Kernel npages) (e : EnvIdx) (tf : Trapframe) : Kernel npages :=
  k.setEnv e { k.envs e with envTf := tf }

theorem Reached.trapped (reached : Reached platform Orderly k) (tf : Trapframe) :
    Reached platform Orderly (k.trapped e tf) := by
  obtain ⟨k₀, events, booted, along⟩ := reached
  have stepped : kernelStep k (.frame e tf) = some (k.trapped e tf) := rfl
  have orderly : Orderly k (.frame e tf) := trivial
  exact ⟨k₀, _, booted, along.snoc orderly stepped⟩

@[simp]
theorem Kernel.trapped_tf {tf : Trapframe} : ((k.trapped e tf).envs e).envTf = tf := by
  simp [Kernel.trapped, Kernel.setEnv]

@[simp]
theorem Kernel.trapped_pml4e {tf : Trapframe} :
    ((k.trapped e tf).envs e).envPml4e = (k.envs e).envPml4e := by
  simp [Kernel.trapped, Kernel.setEnv]

@[simp]
theorem Kernel.trapped_view {tf : Trapframe} : (k.trapped e tf).view e va = k.view e va := by
  rw [Kernel.view, Kernel.trapped_pml4e]
  rfl

/-- Nothing is mapped in the first 512 gigabytes of an environment without tables. -/
theorem Sound.view_bare (sound : Sound managed k g) (live : k.Live e)
    (bare : ∀ i path, g.table ⟨some e, i :: path⟩ = none) (low : va < 2 ^ 39) :
    k.view e va = none := by
  have first : (pml4 va).val = 0 := by
    rw [pml4_eq]
    omega
  have user : pml4 va ≠ pml4 uvpt := fun same => by
    rw [same] at first
    exact absurd first (by decide)
  have unshared : pml4 va ≠ 1 := fun same => by
    rw [same] at first
    exact absurd first (by decide)
  rw [sound.view_leaf live user, leafOf, Place.table_own unshared user, leafEntry_none (bare _ _)]
  rfl

def zeroMemory (k : Kernel npages) (e : EnvIdx) : UserMemory where
  read va := (k.view e va).map fun _ => 0
  writes va := (k.view e va).any Translation.writable

theorem zeroMemory_of : (zeroMemory k e).Of k e := fun _ => ⟨Option.isSome_map, rfl⟩

theorem printString_none {left p : Nat} {precision : Int}
    (unmapped : read p = none) : printString read left p precision = none := by
  cases left with
  | zero => rfl
  | succ left => simp only [printString, unmapped]

theorem checkedCall_empty {answer : Int} (aligned : va % pgSize = 0) (below : va < 2 ^ 64 - pgSize) :
    checkedCall k c va 0 answer = some (.returns answer, k) := by
  have page : pgSize = 4096 := rfl
  rw [page] at aligned below
  have start : roundDown va = va := by
    rw [roundDown, page, aligned, Nat.sub_zero]
  have stop : roundUp ((va + 0) % 2 ^ 64) = va := by
    rw [roundUp, roundDown, page]
    omega
  have passed : userMemCheck k.pmap (k.envs c).envPml4e va 0 pteU = some (true, k.pmap) := by
    simp only [userMemCheck, start, stop, Nat.sub_self, Nat.zero_div]
    rfl
  simp only [checkedCall, userMemAssert, BitVec.or_self, passed, Option.bind_eq_bind,
    Option.bind_some, if_true]
  rfl

theorem Fresh.expendable {k : Kernel 4096} {g : Ledger 4096} {pages : Nat}
    (fresh : Fresh sample k g pages) (live : k.Live e)
    (bare : ∀ i path, g.table ⟨some e, i :: path⟩ = none) : k.Expendable sample.managed e := by
  refine ⟨fun root rooted empty zero first i _ => ?_, fun root rooted empty zero first => ?_,
    fun va low found page mapped => ?_⟩
  · obtain ⟨outside, other⟩ := fresh.sound.reserved zero first
    rw [fresh.idle zero outside other]
    change (0 : Pte).present = false
    decide
  · rw [fresh.refs zero (fresh.sound.reserved zero first).1]
    decide
  · rw [fresh.sound.view_bare live bare low] at mapped
    cases mapped

end Jos
