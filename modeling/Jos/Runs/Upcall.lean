import Jos.Kern.Upcall
import Jos.Calls.Table
import Jos.Runs.Sound

/-! Where the record of a page fault goes, in runs from the boot. User code may put
anything in its registers and in its memory before it faults. -/

set_option autoImplicit false

namespace Jos

open Foundation Function

variable {npages : Nat} {platform : Platform npages} {k k' : Kernel npages} {c : EnvIdx}
  {ram ram' : Ram} {faultVa : BitVec 64} {exit : Exit}

theorem UTrapframe.length_words {utf : UTrapframe} : 8 * utf.words.length = utrapframeSize := rfl

theorem Pmap.translateIn_page {m : Pmap npages} {pml4e : Option (Fin npages)} {va va' : Nat}
    (same : va / pgSize = va' / pgSize) : m.translateIn pml4e va = m.translateIn pml4e va' := by
  have size : pgSize = 4096 := rfl
  rw [size] at same
  have top : pml4 va = pml4 va' := Fin.ext (by rw [pml4_eq, pml4_eq]; omega)
  have second : pdpe va = pdpe va' := Fin.ext (by rw [pdpe_eq, pdpe_eq]; omega)
  have third : pdx va = pdx va' := Fin.ext (by rw [pdx_eq, pdx_eq]; omega)
  have last : ptx va = ptx va' := Fin.ext (by rw [ptx_eq, ptx_eq]; omega)
  simp only [Pmap.translateIn, Pmap.translate, top, second, third, last]

theorem Kernel.physAddr_page {va va' : Nat} {found : Translation}
    (mapped : k.pmap.translateIn (k.envs c).envPml4e va = some found)
    (same : va' / pgSize = va / pgSize) :
    k.physAddr c va' = found.ppn * pgSize + va' % pgSize := by
  rw [Kernel.physAddr, Pmap.translateIn_page same, mapped]

theorem Kernel.physAddr_inj {base va va' : Nat} {found : Translation}
    (mapped : k.pmap.translateIn (k.envs c).envPml4e base = some found)
    (here : va / pgSize = base / pgSize) (here' : va' / pgSize = base / pgSize)
    (same : k.physAddr c va = k.physAddr c va') : va = va' := by
  rw [physAddr_page mapped here, physAddr_page mapped here'] at same
  have quotient := here.trans here'.symm
  have whole := Nat.div_add_mod va pgSize
  have whole' := Nat.div_add_mod va' pgSize
  rw [quotient] at whole
  omega

/-- The fault finds a handler and passes the check of the exception stack. -/
def Kernel.Upcalls (k : Kernel npages) (c : EnvIdx) : Prop :=
  (k.envs c).envPgfaultUpcall ≠ 0 ∧ ∃ m, userMemCheck k.pmap (k.envs c).envPml4e
    (uxstackTop - pgSize) pgSize (pteW ||| pteU ||| pteP ||| pteU) = some (true, m)

def Kernel.rspOf (k : Kernel npages) (c : EnvIdx) : Nat := (k.envs c).envTf.tfRsp.toNat

def Nested (rsp : Nat) : Prop := rsp < uxstackTop ∧ rsp > uxstackTop - pgSize

instance (rsp : Nat) : Decidable (Nested rsp) := inferInstanceAs (Decidable (_ ∧ _))

structure Pushed (k : Kernel npages) (ram : Ram) (c : EnvIdx) (faultVa : BitVec 64)
    (k' : Kernel npages) (ram' : Ram) (utf : Nat) : Prop where
  upcalls : k.Upcalls c
  nested : Nested (k.rspOf c) → utf + utrapframeSize + 8 = k.rspOf c ∧ uxstackTop - pgSize ≤ utf
  first : ¬ Nested (k.rspOf c) → utf + utrapframeSize = uxstackTop
  mapped : ∃ found, k'.pmap.translateIn (k'.envs c).envPml4e utf = some found ∧
    found.writable = true
  after : ∃ m, k' = (k.setPmap m).setEnv c { k.envs c with envTf := { (k.envs c).envTf with
    tfRip := (k.envs c).envPgfaultUpcall, tfRsp := BitVec.ofNat 64 utf } }
  stored : ram' = storeWords ram (k'.place c (BitVec.ofNat 64 utf))
    ((k.envs c).envTf.utrapframe faultVa).words

theorem pageFault_cases (ran : pageFault k ram c faultVa = some (exit, k', ram')) :
    (exit = .toSchedAfterExit ∧ ram' = ram ∧ (∃ m, envFree (k.setPmap m) c = some k') ∧
      (k.Upcalls c → Nested (k.rspOf c) ∧
        k.rspOf c < uxstackTop - pgSize + utrapframeSize + 8)) ∨
    exit = .toUser ∧ ∃ utf, Pushed k ram c faultVa k' ram' utf := by
  unfold pageFault at ran
  split at ran
  · rename_i none
    obtain ⟨⟨exit₁, k₁⟩, destroyed, same⟩ := Option.map_eq_some_iff.mp ran
    simp only [Prod.mk.injEq] at same
    obtain ⟨rfl, rfl, rfl⟩ := same
    obtain ⟨rfl, freed⟩ := destroyCurenv_free destroyed
    exact .inl ⟨rfl, rfl, ⟨k.pmap, freed⟩, fun upcalls => absurd none upcalls.1⟩
  · rename_i some
    obtain ⟨⟨passed, k₁⟩, asserted, ran⟩ := Option.bind_eq_some_iff.mp ran
    obtain ⟨m, checked, after⟩ := userMemAssert_cases asserted
    cases passed with
    | false =>
      simp only [Bool.false_eq_true, not_false_eq_true, if_true] at ran after
      simp only [pure, Option.some.injEq, Prod.mk.injEq] at ran
      obtain ⟨rfl, rfl, rfl⟩ := ran
      refine .inl ⟨rfl, rfl, ⟨m, after⟩, fun upcalls => ?_⟩
      obtain ⟨-, m', passed⟩ := upcalls
      cases checked.symm.trans passed
    | true =>
      simp only [if_true] at after
      subst after
      simp only [not_true_eq_false, if_false] at ran
      have upcalls : k.Upcalls c := ⟨some, m, checked⟩
      split at ran
      · rename_i overflow
        obtain ⟨⟨exit₁, k₁⟩, destroyed, same⟩ := Option.map_eq_some_iff.mp ran
        simp only [Prod.mk.injEq] at same
        obtain ⟨rfl, rfl, rfl⟩ := same
        obtain ⟨rfl, freed⟩ := destroyCurenv_free destroyed
        refine .inl ⟨rfl, rfl, ⟨m, freed⟩, fun _ => ⟨overflow.1, ?_⟩⟩
        have low : k.rspOf c - utrapframeSize - 8 < uxstackTop - pgSize := overflow.2
        omega
      · rename_i fits
        obtain ⟨found, mapped, ran⟩ := Option.bind_eq_some_iff.mp ran
        split at ran
        · rename_i writable
          simp only [pure, Option.some.injEq, Prod.mk.injEq] at ran
          obtain ⟨rfl, rfl, rfl⟩ := ran
          refine .inr ⟨rfl, _, upcalls, fun nested => ?_, fun first => ?_, ⟨found, ?_, writable⟩,
            ⟨m, rfl⟩, ?_⟩
          · have room : ¬ k.rspOf c - utrapframeSize - 8 < uxstackTop - pgSize := fun low =>
              fits ⟨nested, low⟩
            have here := nested.2
            have bottom : uxstackTop - pgSize = 4018139136 := rfl
            have inside : ((k.setPmap m).envs c).envTf.tfRsp.toNat < uxstackTop ∧
                ((k.setPmap m).envs c).envTf.tfRsp.toNat > uxstackTop - pgSize := nested
            rw [if_pos inside]
            change k.rspOf c - utrapframeSize - 8 + utrapframeSize + 8 = k.rspOf c ∧ _
            have size : utrapframeSize = 160 := rfl
            omega
          · have outside : ¬ (((k.setPmap m).envs c).envTf.tfRsp.toNat < uxstackTop ∧
                ((k.setPmap m).envs c).envTf.tfRsp.toNat > uxstackTop - pgSize) := first
            rw [if_neg outside]
            rfl
          · rw [← mapped]
            simp [Kernel.setEnv]
          · congr 1
            funext i
            unfold Kernel.place Kernel.physAddr
            simp [Kernel.setEnv]
        · cases ran

structure Fault (npages : Nat) where
  env : EnvIdx
  faultVa : BitVec 64
  before : Kernel npages
  ram : Ram
  exit : Exit
  after : Kernel npages
  ramAfter : Ram

/-- The environment already runs its handler: its stack pointer is in the exception
stack or at the lower end of it. -/
def Fault.Handling (f : Fault npages) : Prop :=
  uxstackTop - pgSize ≤ f.before.rspOf f.env ∧ f.before.rspOf f.env < uxstackTop

def Fault.utf (f : Fault npages) : Nat := f.after.rspOf f.env

/-- The record stays within the exception stack and off what lives there. -/
structure Fault.Contained (f : Fault npages) : Prop where
  inside : f.exit = .toUser → uxstackTop - pgSize ≤ f.utf ∧ f.utf + utrapframeSize ≤ uxstackTop ∧
    ∀ p, (∀ i < utrapframeSize, p ≠ f.after.physAddr f.env (f.utf + i)) → f.ramAfter p = f.ram p
  below : f.Handling → f.exit = .toUser → f.utf + utrapframeSize + 8 ≤ f.before.rspOf f.env ∧
    ∀ va, f.before.rspOf f.env - 8 ≤ va → va < uxstackTop →
      f.ramAfter (f.after.physAddr f.env va) = f.ram (f.after.physAddr f.env va)
  overflow : f.Handling →
    f.before.rspOf f.env < uxstackTop - pgSize + utrapframeSize + 8 → f.exit = .toSchedAfterExit
  ended : f.exit ≠ .toUser →
    f.exit = .toSchedAfterExit ∧ f.ramAfter = f.ram ∧ ¬ f.after.Live f.env

def Fault.AtLowerEnd (f : Fault npages) : Prop :=
  f.before.Upcalls f.env ∧ f.before.rspOf f.env = uxstackTop - pgSize

/-- The kernel data, the memory, and the page faults so far, the last one first. -/
structure Faulting (npages : Nat) where
  kernel : Kernel npages
  ram : Ram
  faults : List (Fault npages)

inductive FaultEvent where
  /-- Any event but a page fault. -/
  | kernel (event : KernelEvent)
  /-- User code, or a device, or the kernel, stores to memory. -/
  | stores (ram : Ram)
  | fault (c : EnvIdx) (faultVa : BitVec 64)

def faultStep (s : Faulting npages) : FaultEvent → Option (Faulting npages)
  | .kernel (.fault _) => none
  | .kernel event => (kernelStep s.kernel event).map fun k => { s with kernel := k }
  | .stores ram => some { s with ram }
  | .fault c faultVa =>
    if s.kernel.Live c then
      (pageFault s.kernel s.ram c faultVa).map fun (exit, k, ram) =>
        ⟨k, ram, ⟨c, faultVa, s.kernel, s.ram, exit, k, ram⟩ :: s.faults⟩
    else none

def FaultsReached (platform : Platform npages) : Faulting npages → Prop :=
  Reachable (fun s => boot platform = some s.kernel ∧ s.faults = []) faultStep fun _ _ => True

def Fault.Handled (f : Fault npages) : Prop :=
  pageFault f.before f.ram f.env f.faultVa = some (f.exit, f.after, f.ramAfter)

theorem FaultsReached.handled {s : Faulting npages} (reached : FaultsReached platform s) :
    ∀ f ∈ s.faults, f.Handled := by
  refine Reachable.invariant reached (fun s => ∀ f ∈ s.faults, f.Handled) ?_ ?_
  · rintro start ⟨-, none⟩
    rw [none]
    nofun
  · intro before event after handled _ ran
    cases event with
    | kernel event =>
      obtain ⟨k, -, rfl⟩ : ∃ k, kernelStep before.kernel event = some k ∧
          { before with kernel := k } = after := by
        cases event with
        | fault c => cases ran
        | _ => exact Option.map_eq_some_iff.mp ran
      exact handled
    | stores ram =>
      cases ran
      exact handled
    | fault c faultVa =>
      simp only [faultStep] at ran
      split at ran
      · obtain ⟨⟨exit, k, ram⟩, faulted, rfl⟩ := Option.map_eq_some_iff.mp ran
        exact List.forall_mem_cons.mpr ⟨faulted, handled⟩
      · cases ran

namespace Pushed

variable {utf : Nat}

section

variable (pushed : Pushed k ram c faultVa k' ram' utf)

include pushed

theorem bounds : uxstackTop - pgSize ≤ utf ∧ utf + utrapframeSize ≤ uxstackTop := by
  have bottom : uxstackTop - pgSize = 4018139136 := rfl
  have top : uxstackTop = 4018143232 := rfl
  have size : utrapframeSize = 160 := rfl
  by_cases nested : Nested (k.rspOf c)
  · obtain ⟨spot, low⟩ := pushed.nested nested
    have high := nested.1
    omega
  · have spot := pushed.first nested
    omega

theorem rspOf : k'.rspOf c = utf := by
  obtain ⟨m, after⟩ := pushed.after
  have top : uxstackTop = 4018143232 := rfl
  have bounds := pushed.bounds.2
  simp only [Kernel.rspOf, after, Kernel.setEnv, update_self]
  exact Nat.mod_eq_of_lt (by omega)

theorem place {k₁ : Kernel npages} {i : Nat} (below : i < utrapframeSize) :
    k₁.place c (BitVec.ofNat 64 utf) i = k₁.physAddr c (utf + i) := by
  have top : uxstackTop = 4018143232 := rfl
  have bounds := pushed.bounds.2
  rw [Kernel.place, ← BitVec.ofNat_add, BitVec.toNat_ofNat, Nat.mod_eq_of_lt (by omega)]

theorem page {va : Nat}
    (low : uxstackTop - pgSize ≤ va) (high : va < uxstackTop) : va / pgSize = utf / pgSize := by
  have bottom : uxstackTop - pgSize = 4018139136 := rfl
  have top : uxstackTop = 4018143232 := rfl
  have size : utrapframeSize = 160 := rfl
  have bounds := pushed.bounds
  change va / 4096 = utf / 4096
  omega

theorem other {p : Nat}
    (outside : ∀ i < utrapframeSize, p ≠ k'.physAddr c (utf + i)) : ram' p = ram p := by
  rw [pushed.stored]
  refine storeWords_other fun i below => ?_
  rw [pushed.place below]
  exact outside i below

theorem above {va : Nat} (low : utf + utrapframeSize ≤ va) (high : va < uxstackTop) :
    ram' (k'.physAddr c va) = ram (k'.physAddr c va) := by
  obtain ⟨found, mapped, -⟩ := pushed.mapped
  obtain ⟨bottom, top⟩ := pushed.bounds
  refine pushed.other fun i below same => ?_
  have equal := Kernel.physAddr_inj mapped (pushed.page (by omega) high)
    (pushed.page (by omega) (by omega)) same
  omega

end

end Pushed

/-- The record of a fault stays off what lives on the exception stack, unless the
stack pointer is at the lower end of it. -/
theorem Fault.contained_iff {f : Fault npages} (handled : f.Handled) :
    f.Contained ↔ ¬ f.AtLowerEnd := by
  have bottom : uxstackTop - pgSize = 4018139136 := rfl
  have top : uxstackTop = 4018143232 := rfl
  have size : utrapframeSize = 160 := rfl
  rcases pageFault_cases handled with ⟨ended, same, ⟨m, freed⟩, reason⟩ | ⟨user, utf, pushed⟩
  · have other : f.exit ≠ .toUser := by
      rw [ended]
      decide
    have dead : ¬ f.after.Live f.env := by
      rw [Kernel.Live, (envFree_envs freed).2.2, update_self, not_not]
    refine iff_of_true ⟨fun user => absurd user other, fun _ user => absurd user other,
      fun _ _ => ended, fun _ => ⟨ended, same, dead⟩⟩ ?_
    rintro ⟨upcalls, lowest⟩
    have inside := (reason upcalls).1.2
    omega
  · have spot : f.utf = utf := pushed.rspOf
    obtain ⟨low, high⟩ := pushed.bounds
    constructor
    · rintro contained ⟨-, lowest⟩
      have overflow := contained.overflow ⟨by omega, by omega⟩ (by omega)
      rw [user] at overflow
      cases overflow
    · intro apart
      have nested (handling : f.Handling) : Nested (f.before.rspOf f.env) := by
        refine ⟨handling.2, ?_⟩
        have differs : f.before.rspOf f.env ≠ uxstackTop - pgSize := fun lowest =>
          apart ⟨pushed.upcalls, lowest⟩
        have least := handling.1
        omega
      refine ⟨fun _ => ⟨by omega, by omega, fun p outside => ?_⟩, fun handling _ => ⟨?_, ?_⟩,
        fun handling tight => ?_, fun other => absurd user other⟩
      · rw [spot] at outside
        exact pushed.other outside
      · have here := (pushed.nested (nested handling)).1
        omega
      · intro va from_ before
        have here := (pushed.nested (nested handling)).1
        exact pushed.above (by omega) before
      · have here := pushed.nested (nested handling)
        omega

/-- In every run, the records of page faults stay off what lives on the exception
stacks, unless a fault comes with the stack pointer at the lower end. -/
theorem frames_contained_iff {s : Faulting npages} (reached : FaultsReached platform s) :
    (∀ f ∈ s.faults, f.Contained) ↔ ∀ f ∈ s.faults, ¬ f.AtLowerEnd :=
  forall₂_congr fun f member => f.contained_iff (reached.handled f member)

def Kernel.HasStack (k : Kernel npages) (c : EnvIdx) : Prop :=
  ∀ va, uxstackTop - pgSize ≤ va → va < uxstackTop → ∃ found,
    k.pmap.translateIn (k.envs c).envPml4e va = some found ∧
      found.user = true ∧ found.writable = true

section
variable {managed : Set (Fin npages)} {g : Ledger npages} {page : Fin npages}

theorem Sound.stack_passes (sound : Sound managed k g) (live : k.Live c)
    (leaf : leafOf k g c (uxstackTop - pgSize) = ⟨page.val, permUser.setWidth 12 ||| pteP⟩) :
    Jos.userMemAssert k c (uxstackTop - pgSize) pgSize (pteW ||| pteU ||| pteP) =
      some (true, k) := by
  obtain ⟨root, rooted⟩ := live.root
  have present : (leafOf k g c (uxstackTop - pgSize)).present = true := by
    rw [leaf]
    exact present_or
  obtain ⟨-, holder, here, lookup⟩ :=
    sound.valid.pageLookup_present (e := c) rooted (by decide) present
  have entry : k.pmap.entry (holder, ptx (uxstackTop - pgSize)) =
      ⟨page.val, permUser.setWidth 12 ||| pteP⟩ := by
    rw [← leaf, leafOf, leafEntry_some here]
    rfl
  have number : (k.pmap.mem holder (ptx (uxstackTop - pgSize))).ppn = page.val :=
    congrArg Pte.ppn entry
  rw [number, pa2page_val] at lookup
  have start : roundDown (uxstackTop - pgSize) = uxstackTop - pgSize := by decide
  have rounds : (roundUp ((uxstackTop - pgSize + pgSize) % 2 ^ 64) - (uxstackTop - pgSize)) /
      pgSize = 1 := by decide
  have low : ¬ uxstackTop - pgSize ≥ ulim := by decide
  have allowed : (permUser.setWidth 12 ||| pteP) &&& (pteW ||| pteU ||| pteP ||| pteU) ≠ 0 := by
    decide
  have checked : userMemCheck k.pmap (some root) (uxstackTop - pgSize) pgSize
      (pteW ||| pteU ||| pteP ||| pteU) = some (true, k.pmap) := by
    unfold userMemCheck
    simp only [start, rounds, Jos.userMemCheckLoop, if_neg low, lookup, Option.map_some,
      Option.bind_eq_bind, Option.bind_some, entry, if_neg allowed]
  simp only [Jos.userMemAssert, rooted, checked, Option.bind_eq_bind, Option.bind_some, if_true,
    Kernel.setPmap_self]
  rfl

theorem Sound.hasStack (sound : Sound managed k g) (live : k.Live c)
    (leaf : leafOf k g c (uxstackTop - pgSize) = ⟨page.val, permUser.setWidth 12 ||| pteP⟩) :
    k.HasStack c := by
  intro va low high
  have bottom : uxstackTop - pgSize = 4018139136 := rfl
  have top : uxstackTop = 4018143232 := rfl
  have same : va / pgSize = (uxstackTop - pgSize) / pgSize := by
    change va / 4096 = (uxstackTop - pgSize) / 4096
    omega
  have present : (leafOf k g c (uxstackTop - pgSize)).present = true := by
    rw [leaf]
    exact present_or
  refine ⟨⟨page.val, tablePerm, tablePerm, tablePerm, permUser.setWidth 12 ||| pteP⟩, ?_, ?_, ?_⟩
  · rw [Pmap.translateIn_page same, sound.translateIn live (by decide), leafTranslation,
      if_pos present, leaf]
  · change (tablePerm.getLsbD 2 && tablePerm.getLsbD 2 && tablePerm.getLsbD 2 &&
      (permUser.setWidth 12 ||| pteP).getLsbD 2) = true
    decide
  · change (tablePerm.getLsbD 1 && tablePerm.getLsbD 1 && tablePerm.getLsbD 1 &&
      (permUser.setWidth 12 ||| pteP).getLsbD 1) = true
    decide

theorem Sound.pageFault_some (sound : Sound managed k g) (live : k.Live c)
    (handler : (k.envs c).envPgfaultUpcall ≠ 0)
    (leaf : leafOf k g c (uxstackTop - pgSize) = ⟨page.val, permUser.setWidth 12 ||| pteP⟩)
    (fits : Nested (k.rspOf c) → uxstackTop - pgSize + utrapframeSize + 8 ≤ k.rspOf c) :
    ∃ k' ram', pageFault k ram c faultVa = some (.toUser, k', ram') ∧ k'.HasStack c := by
  have stack := sound.hasStack live leaf
  have bottom : uxstackTop - pgSize = 4018139136 := rfl
  have top : uxstackTop = 4018143232 := rfl
  have size : utrapframeSize = 160 := rfl
  have room : ¬ (((k.envs c).envTf.tfRsp.toNat < uxstackTop ∧
      (k.envs c).envTf.tfRsp.toNat > uxstackTop - pgSize) ∧
      (k.envs c).envTf.tfRsp.toNat - utrapframeSize - 8 < uxstackTop - pgSize) := by
    rintro ⟨nested, low⟩
    have enough : _ ≤ (k.envs c).envTf.tfRsp.toNat := fits nested
    omega
  have spot : ∃ utf, (if (k.envs c).envTf.tfRsp.toNat < uxstackTop ∧
      (k.envs c).envTf.tfRsp.toNat > uxstackTop - pgSize then
        (k.envs c).envTf.tfRsp.toNat - utrapframeSize - 8 else uxstackTop - utrapframeSize) = utf ∧
      uxstackTop - pgSize ≤ utf ∧ utf < uxstackTop := by
    refine ⟨_, rfl, ?_⟩
    split
    · rename_i nested
      have enough : _ ≤ (k.envs c).envTf.tfRsp.toNat := fits nested
      omega
    · omega
  obtain ⟨utf, spot, low, high⟩ := spot
  obtain ⟨found, mapped, -, writable⟩ := stack utf low high
  unfold pageFault
  rw [if_neg handler, sound.stack_passes live leaf]
  simp only [Option.bind_eq_bind, Option.bind_some, not_true_eq_false, if_false, if_neg room, spot,
    mapped, writable, if_true]
  refine ⟨_, _, rfl, fun va low high => ?_⟩
  simp only [Kernel.setEnv, update_self]
  exact stack va low high

end

theorem Reached.faulting {guard : Kernel npages → KernelEvent → Prop}
    (reached : Reached platform guard k) (quiet : ∀ k c, ¬ guard k (.fault c)) (ram : Ram) :
    FaultsReached platform ⟨k, ram, []⟩ := by
  obtain ⟨start, events, booted, along⟩ := reached
  refine ⟨⟨start, ram, []⟩, events.map .kernel, ⟨booted, rfl⟩, ?_⟩
  induction along with
  | nil => exact .nil
  | @snoc events middle final event _ admitted stepped ih =>
    rw [List.map_append]
    refine ih.snoc trivial ?_
    cases event with
    | fault c => exact absurd admitted (quiet _ c)
    | _ => simp only [faultStep, stepped, Option.map_some]

/-- A page fault of an environment that has asked for a handler, with the stack
pointer anywhere the record fits. -/
theorem sample_fault (rsp : BitVec 64)
    (fits : Nested rsp.toNat → uxstackTop - pgSize + utrapframeSize + 8 ≤ rsp.toNat) :
    ∃ (s : Faulting 4096) (f : Fault 4096), FaultsReached sample s ∧ s.faults = [f] ∧
      f.exit = .toUser ∧ f.before.rspOf f.env = rsp.toNat ∧ f.after.HasStack f.env := by
  obtain ⟨k, g, e, ⟨start, events, booted, along⟩, fresh, live, -⟩ :=
    sample_bare (fun _ event => ∀ c, event ≠ .fault c) fun _ => by simp
  have aligned : (uxstackTop - pgSize) % pgSize = 0 := by decide
  obtain ⟨k₁, page, g₁, ran, -, mapped, leaf, -⟩ :=
    fresh.pageAlloc (by decide) live aligned (by decide)
  have live₁ : k₁.Live e := by
    rw [Kernel.Live, mapped.envs]
    exact live
  obtain ⟨k₂, after₂⟩ : ∃ k₂, k₂ = k₁.setEnv e { k₁.envs e with envPgfaultUpcall := 1 } := ⟨_, rfl⟩
  have env₂ : k₂.envs e = { k₁.envs e with envPgfaultUpcall := 1 } := by
    rw [after₂]
    exact update_self ..
  have sound₂ : Sound sample.managed k₂ g₁ := by
    rw [after₂]
    exact mapped.sound.setEnv ⟨rfl, rfl, rfl, rfl, fun _ => rfl⟩
  obtain ⟨k₃, after₃⟩ : ∃ k₃, k₃ = k₂.setEnv e { k₂.envs e with
    envTf := { (k₂.envs e).envTf with tfRsp := rsp } } := ⟨_, rfl⟩
  have env₃ : k₃.envs e = { k₂.envs e with
      envTf := { (k₂.envs e).envTf with tfRsp := rsp } } := by
    rw [after₃]
    exact update_self ..
  have sound₃ : Sound sample.managed k₃ g₁ := by
    rw [after₃]
    exact sound₂.setEnv ⟨rfl, rfl, rfl, rfl, fun _ => rfl⟩
  have live₃ : k₃.Live e := by
    rw [Kernel.Live, env₃, env₂]
    exact live₁
  have alloc : kernelStep k (.call e ⟨none, 0, none⟩ (.pageAlloc 0 (uxstackTop - pgSize) permUser)) =
      some k₁ := by
    simp only [kernelStep, if_pos live, syscall, ran, returning, Option.map_some]
  have upcall : kernelStep k₁ (.call e ⟨none, 0, none⟩ (.envSetPgfaultUpcall 0 1)) = some k₂ := by
    rw [after₂, kernelStep, if_pos live₁]
    rfl
  have frame : kernelStep k₂ (.frame e { (k₂.envs e).envTf with tfRsp := rsp }) = some k₃ := by
    rw [after₃, kernelStep]
  have quiet {call : Syscall} (c : EnvIdx) : KernelEvent.call e ⟨none, 0, none⟩ call ≠ .fault c :=
    (by simp)
  have still {tf : Trapframe} (c : EnvIdx) : KernelEvent.frame e tf ≠ .fault c := by simp
  have reached : Reached sample (fun _ event => ∀ c, event ≠ .fault c) k₃ :=
    ⟨start, _, booted, ((along.snoc quiet alloc).snoc quiet upcall).snoc still frame⟩
  have leaf₃ : leafOf k₃ g₁ e (uxstackTop - pgSize) =
      ⟨page.val, permUser.setWidth 12 ||| pteP⟩ := by
    rw [after₃, after₂]
    exact leaf
  have handler : (k₃.envs e).envPgfaultUpcall ≠ 0 := by
    rw [env₃, env₂]
    exact (by decide : (1 : BitVec 64) ≠ 0)
  have pointer : k₃.rspOf e = rsp.toNat := by rw [Kernel.rspOf, env₃]
  obtain ⟨k₄, ram, faulted, stack⟩ : ∃ k₄ ram,
      pageFault k₃ (fun _ => 0) e 0 = some (.toUser, k₄, ram) ∧ k₄.HasStack e :=
    sound₃.pageFault_some live₃ handler leaf₃ (pointer ▸ fits)
  obtain ⟨start', events', begun, along'⟩ :=
    reached.faulting (fun _ c other => other c rfl) fun _ => 0
  have stepped : faultStep ⟨k₃, fun _ => 0, []⟩ (.fault e 0) =
      some ⟨k₄, ram, [⟨e, 0, k₃, fun _ => 0, .toUser, k₄, ram⟩]⟩ := by
    simp only [faultStep, if_pos live₃, faulted, Option.map_some]
  exact ⟨_, _, ⟨start', _, begun, along'.snoc trivial stepped⟩, rfl, rfl, pointer, stack⟩

/-- A fault within the exception stack. -/
theorem sample_frames_contained : ∃ s : Faulting 4096, FaultsReached sample s ∧ s.faults ≠ [] ∧
    ((∀ f ∈ s.faults, f.Contained) ↔ ∀ f ∈ s.faults, ¬ f.AtLowerEnd) := by
  obtain ⟨s, f, reached, faults, -⟩ := sample_fault 0xef7fff00#64 (by decide)
  exact ⟨s, reached, by simp [faults], frames_contained_iff reached⟩

/-- With the exception stack used up to its last byte, the record of the next fault
is written over the records of the faults that are being handled. -/
theorem full_stack_overwritten : ∃ s : Faulting 4096, FaultsReached sample s ∧
    ∃ f ∈ s.faults, f.before.rspOf f.env = uxstackTop - pgSize ∧ ¬ f.Contained := by
  obtain ⟨s, f, reached, faults, user, pointer, -⟩ := sample_fault 0xef7ff000#64 (by decide)
  have lowest : f.before.rspOf f.env = uxstackTop - pgSize := pointer.trans (by decide)
  refine ⟨s, reached, f, by simp [faults], lowest, fun contained => ?_⟩
  have overflow := contained.overflow ⟨lowest.ge, by rw [lowest]; decide⟩ (by rw [lowest]; decide)
  rw [user] at overflow
  cases overflow

end Jos
