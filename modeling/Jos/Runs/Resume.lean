import Jos.Lib.Pfentry
import Jos.Runs.Upcall

/-! A page fault that has been handled leaves no trace in the code that faulted. -/

set_option autoImplicit false

namespace Jos

open Foundation

variable {npages : Nat} {k : Kernel npages} {c : EnvIdx} {s : UserCpu} {utf rsp : BitVec 64}
  {i n : Nat}

theorem Kernel.place_after {va : BitVec 64} :
    k.place c (va + BitVec.ofNat 64 n) = after (k.place c va) n := by
  funext i
  rw [Kernel.place, after, Kernel.place, BitVec.ofNat_add, BitVec.add_assoc]

theorem Kernel.place_inj {va : BitVec 64} {j : Nat} (mapped : k.writable c (va + BitVec.ofNat 64 i))
    (mapped' : k.writable c (va + BitVec.ofNat 64 j)) (small : i < pgSize) (small' : j < pgSize)
    (same : k.place c va i = k.place c va j) : i = j := by
  obtain ⟨found, here, -⟩ := (Option.any_eq_true _ _).mp mapped
  obtain ⟨found', here', -⟩ := (Option.any_eq_true _ _).mp mapped'
  rw [Kernel.place, Kernel.place, Kernel.physAddr, Kernel.physAddr, here, here'] at same
  have size : pgSize = 4096 := rfl
  simp only [size, BitVec.toNat_add, BitVec.toNat_ofNat] at same small small'
  omega

theorem UserCpu.load_eq {va : BitVec 64}
    (mapped : ∀ i < 8, k.writable c (va + BitVec.ofNat 64 i)) :
    s.load k c va = some (loadWord s.ram (k.place c va)) := by
  refine if_pos (List.all_eq_true.mpr fun i member => ?_)
  obtain ⟨found, here, both⟩ :=
    (Option.any_eq_true _ _).mp (mapped i (List.mem_range.mp member))
  exact (Option.any_eq_true _ _).mpr ⟨found, here, (Bool.and_eq_true_iff.mp both).1⟩

theorem UserCpu.store_eq {va value : BitVec 64}
    (mapped : ∀ i < 8, k.writable c (va + BitVec.ofNat 64 i)) :
    s.store k c va value = some { s with ram := storeWord s.ram (k.place c va) value } :=
  if_pos (List.all_eq_true.mpr fun i member => mapped i (List.mem_range.mp member))

def movFroms : Nat → List Reg → List Instr
  | _, [] => []
  | n, dst :: rest => .movFrom (BitVec.ofNat 64 (8 * n)) dst :: movFroms (n + 1) rest

def PushRegs.setAll : PushRegs → List Reg → List (BitVec 64) → PushRegs
  | regs, dst :: rest, value :: values => (regs.set value dst).setAll rest values
  | regs, _, _ => regs

theorem execute_movFroms {dsts : List Reg} {values : List (BitVec 64)} {rest : List Instr}
    (same : dsts.length = values.length)
    (loads : ∀ i value, values[i]? = some value →
      s.load k c (s.rsp + BitVec.ofNat 64 (8 * (n + i))) = some value) :
    execute k c (movFroms n dsts ++ rest) s =
      execute k c rest { s with regs := s.regs.setAll dsts values } := by
  induction dsts generalizing n values s with
  | nil => rfl
  | cons dst dsts ih =>
    cases values with
    | nil => cases same
    | cons value values =>
      have first := loads 0 value rfl
      rw [Nat.add_zero] at first
      simp only [movFroms, List.cons_append, execute, Instr.exec, first, Option.bind_eq_bind,
        Option.bind_some, Option.pure_def]
      refine ih (Nat.succ.inj same) fun i value found => ?_
      have next : n + 1 + i = n + (i + 1) := by omega
      rw [next]
      exact loads (i + 1) value found

/-- In the order of `POPA_`. -/
def popaRegs : List Reg :=
  [.r15, .r14, .r13, .r12, .r11, .r10, .r9, .r8, .rsi, .rdi, .rbp, .rdx, .rcx, .rbx, .rax]

theorem popa_eq : popa = movFroms 0 popaRegs ++ [.addqRsp 120] := by decide

theorem PushRegs.get_set {regs : PushRegs} {value : BitVec 64} {dst src : Reg} :
    (regs.set value dst).get src = if src = dst then value else regs.get src := by
  cases dst <;> cases src <;> rfl

theorem PushRegs.eq_of_get {regs regs' : PushRegs} (same : ∀ src, regs.get src = regs'.get src) :
    regs = regs' := by
  obtain ⟨⟩ := regs
  obtain ⟨⟩ := regs'
  rw [PushRegs.mk.injEq]
  exact ⟨same .r15, same .r14, same .r13, same .r12, same .r11, same .r10, same .r9, same .r8,
    same .rsi, same .rdi, same .rbp, same .rdx, same .rcx, same .rbx, same .rax⟩

theorem PushRegs.setAll_words {regs regs' : PushRegs} :
    regs'.setAll popaRegs regs.words = regs := by
  refine PushRegs.eq_of_get fun src => ?_
  simp only [popaRegs, PushRegs.words, PushRegs.setAll, PushRegs.get_set]
  cases src <;> rfl

/-- The flags that `popfq` does not load are those of `b`. -/
def SameProtected (a b : BitVec 64) : Prop := a &&& ~~~ popfFlags b = b &&& ~~~ popfFlags b

theorem flStatus_popf {eflags : BitVec 64} : flStatus &&& popfFlags eflags = flStatus := by
  unfold popfFlags
  split <;> decide

theorem iopl_popf {eflags : BitVec 64} :
    flIoplMask &&& ~~~ popfFlags eflags = flIoplMask := by
  unfold popfFlags
  split <;> decide

theorem statusFlags_status {carry adjust overflow : Bool} {result : BitVec 64} :
    statusFlags carry adjust overflow result &&& flStatus =
      statusFlags carry adjust overflow result := by
  unfold statusFlags
  generalize evenParity result = even
  generalize result.msb = sign
  by_cases zero : result = 0
  · simp only [zero, if_true]
    revert carry adjust overflow even sign
    decide
  · simp only [zero, if_false]
    revert carry adjust overflow even sign
    decide

theorem SameProtected.setStatus {b flags : BitVec 64} (same : SameProtected s.eflags b)
    (status : flags &&& flStatus = flags) : SameProtected (s.setStatus flags).eflags b := by
  refine Eq.trans (BitVec.eq_of_getLsbD_eq fun i below => ?_) same
  have loaded := congrArg (fun x => x.getLsbD i) (@flStatus_popf b)
  have within := congrArg (fun x => x.getLsbD i) status
  simp only [BitVec.getLsbD_and] at loaded within
  simp only [UserCpu.setStatus, BitVec.getLsbD_and, BitVec.getLsbD_or, BitVec.getLsbD_not, below,
    decide_true, Bool.true_and]
  revert loaded within
  cases flags.getLsbD i <;> cases flStatus.getLsbD i <;> cases (popfFlags b).getLsbD i <;> simp

theorem SameProtected.popf {a b : BitVec 64} (same : SameProtected a b) :
    b &&& popfFlags a ||| a &&& ~~~ popfFlags a = b := by
  have iopl : a &&& flIoplMask = b &&& flIoplMask := by
    rw [← @iopl_popf b, BitVec.and_comm flIoplMask, ← BitVec.and_assoc, ← BitVec.and_assoc, same]
  have mask : popfFlags a = popfFlags b := by
    unfold popfFlags
    rw [iopl]
  rw [mask, same, ← BitVec.and_or_distrib_left]
  rw [show popfFlags b ||| ~~~ popfFlags b = BitVec.allOnes 64 from ?_, BitVec.and_allOnes]
  refine BitVec.eq_of_getLsbD_eq fun i below => ?_
  simp [below]

theorem execute_cons {instr : Instr} {rest : List Instr} {s' : UserCpu}
    (ran : instr.exec k c s = some s') : execute k c (instr :: rest) s = execute k c rest s' := by
  rw [execute, ran, Option.bind_some]

/-- The record lies at the stack pointer, and there is room for the program counter
on the stack of the code that faulted. -/
structure Resumable (k : Kernel npages) (c : EnvIdx) (s : UserCpu) (tf : Trapframe)
    (faultVa : BitVec 64) : Prop where
  stack : ∀ i < utrapframeSize, k.writable c (s.rsp + BitVec.ofNat 64 i) = true
  words : ∀ n value, (tf.utrapframe faultVa).words[n]? = some value →
    loadWord s.ram (after (k.place c s.rsp) (8 * n)) = value
  word : ∀ i < 8, k.writable c (tf.tfRsp - 8 + BitVec.ofNat 64 i) = true
  apart : ∀ i < 8, ∀ j < utrapframeSize, k.place c (tf.tfRsp - 8) i ≠ k.place c s.rsp j
  flags : SameProtected s.eflags tf.tfEflags

/-- The memory with the program counter below the stack pointer `rsp`, and that
place in the record at `utf`. -/
def linked (k : Kernel npages) (c : EnvIdx) (ram : Ram) (utf rsp rip : BitVec 64) : Ram :=
  storeWord (storeWord ram (k.place c (rsp - 8)) rip) (k.place c (utf + 152)) (rsp - 8)

namespace Resumable

variable {tf : Trapframe} {faultVa : BitVec 64} {s' : UserCpu} {value : BitVec 64}

section

variable (ready : Resumable k c s tf faultVa)

include ready

theorem slot (below : n < 20) :
    ∀ i < 8, k.writable c (s.rsp + BitVec.ofNat 64 (8 * n) + BitVec.ofNat 64 i) = true := by
  intro i small
  have size : utrapframeSize = 160 := rfl
  rw [BitVec.add_assoc, ← BitVec.ofNat_add]
  exact ready.stack _ (by omega)

theorem load (found : (tf.utrapframe faultVa).words[n]? = some value)
    (kept : ∀ i < 8, s'.ram (k.place c s.rsp (8 * n + i)) = s.ram (k.place c s.rsp (8 * n + i))) :
    s'.load k c (s.rsp + BitVec.ofNat 64 (8 * n)) = some value := by
  have below : n < 20 := (List.getElem?_eq_some_iff.mp found).1
  rw [UserCpu.load_eq (ready.slot below), Kernel.place_after, ← ready.words n value found]
  exact congrArg some (loadWord_congr kept)

theorem linked_slot {rip : BitVec 64} (below : n < 19)
    (small : i < 8) : linked k c s.ram s.rsp tf.tfRsp rip (k.place c s.rsp (8 * n + i)) =
      s.ram (k.place c s.rsp (8 * n + i)) := by
  have size : utrapframeSize = 160 := rfl
  have page : pgSize = 4096 := rfl
  rw [linked, storeWord_other, storeWord_other]
  · exact fun j _ same => ready.apart j (by assumption) _ (by omega) same.symm
  · intro j small' same
    have last : k.place c (s.rsp + 152) j = k.place c s.rsp (152 + j) :=
      congrFun (Kernel.place_after (n := 152)) j
    rw [last] at same
    have equal := Kernel.place_inj (ready.stack _ (by omega)) (ready.stack _ (by omega))
      (by omega) (by omega) same
    omega

theorem linked_last {rip : BitVec 64} :
    loadWord (linked k c s.ram s.rsp tf.tfRsp rip) (k.place c (s.rsp + 152)) = tf.tfRsp - 8 := by
  have page : pgSize = 4096 := rfl
  exact loadWord_storeWord fun i small j small' same =>
    Kernel.place_inj (ready.slot (n := 19) (by decide) i small)
      (ready.slot (n := 19) (by decide) j small') (by omega) (by omega) same

theorem linked_word {rip : BitVec 64} :
    loadWord (linked k c s.ram s.rsp tf.tfRsp rip) (k.place c (tf.tfRsp - 8)) = rip := by
  have page : pgSize = 4096 := rfl
  have size : utrapframeSize = 160 := rfl
  refine loadWord_bytes fun i small => ?_
  rw [linked, storeWord_other, storeWord, storeBytes_here _ small]
  · exact fun i small j small' same => Kernel.place_inj (ready.word i small)
      (ready.word j small') (by omega) (by omega) same
  · intro j small' same
    have last : k.place c (s.rsp + 152) j = k.place c s.rsp (152 + j) :=
      congrFun (Kernel.place_after (n := 152)) j
    exact ready.apart i small (152 + j) (by omega) (same.trans last)

end

end Resumable

namespace Resumable

variable {tf : Trapframe} {faultVa : BitVec 64}

section

variable (ready : Resumable k c s tf faultVa)

include ready

theorem execute_link (rest : List Instr) :
    ∃ s', s'.rsp = s.rsp + 16 ∧ s'.ram = linked k c s.ram s.rsp tf.tfRsp tf.tfRip ∧
      SameProtected s'.eflags tf.tfEflags ∧
      execute k c (.movFrom 136 .rbx :: .movFrom 152 .rcx :: .subq 8 .rcx :: .movAt .rbx .rcx ::
        .movTo .rcx 152 :: .addqRsp 16 :: rest) s = execute k c rest s' := by
  let s₁ : UserCpu := { s with regs := s.regs.set tf.tfRip .rbx }
  have ran₁ : (Instr.movFrom 136 .rbx).exec k c s = some s₁ := by
    have loaded : s.load k c (s.rsp + 136) = some tf.tfRip :=
      ready.load (n := 17) rfl fun _ _ => rfl
    rw [Instr.exec, loaded]
    rfl
  let s₂ : UserCpu := { s₁ with regs := s₁.regs.set tf.tfRsp .rcx }
  have ran₂ : (Instr.movFrom 152 .rcx).exec k c s₁ = some s₂ := by
    have loaded : s₁.load k c (s.rsp + 152) = some tf.tfRsp :=
      ready.load (n := 19) rfl fun _ _ => rfl
    rw [Instr.exec, loaded]
    rfl
  let s₃ : UserCpu := { s₂ with regs := s₂.regs.set (tf.tfRsp - 8) .rcx }.setStatus
    (subFlags tf.tfRsp 8)
  have ran₃ : (Instr.subq 8 .rcx).exec k c s₂ = some s₃ := rfl
  let s₄ : UserCpu := { s₃ with ram := storeWord s.ram (k.place c (tf.tfRsp - 8)) tf.tfRip }
  have ran₄ : (Instr.movAt .rbx .rcx).exec k c s₃ = some s₄ := UserCpu.store_eq ready.word
  let s₅ : UserCpu := { s₄ with ram := linked k c s.ram s.rsp tf.tfRsp tf.tfRip }
  have ran₅ : (Instr.movTo .rcx 152).exec k c s₄ = some s₅ :=
    UserCpu.store_eq (ready.slot (n := 19) (by decide))
  let s₆ : UserCpu := { s₅ with rsp := s.rsp + 16 }.setStatus (addFlags s.rsp 16)
  have ran₆ : (Instr.addqRsp 16).exec k c s₅ = some s₆ := rfl
  have flags₃ : SameProtected s₃.eflags tf.tfEflags :=
    SameProtected.setStatus (s := s₂) ready.flags statusFlags_status
  have flags₆ : SameProtected s₆.eflags tf.tfEflags :=
    SameProtected.setStatus (s := s₅) flags₃ statusFlags_status
  refine ⟨s₆, rfl, rfl, flags₆, ?_⟩
  rw [execute_cons ran₁, execute_cons ran₂, execute_cons ran₃, execute_cons ran₄,
    execute_cons ran₅, execute_cons ran₆]

/-- `POPA_` -/
theorem execute_popa {s' : UserCpu} (rest : List Instr) (pointer : s'.rsp = s.rsp + 16)
    (ram : s'.ram = linked k c s.ram s.rsp tf.tfRsp tf.tfRip)
    (flags : SameProtected s'.eflags tf.tfEflags) :
    ∃ s'', s''.regs = tf.tfRegs ∧ s''.rsp = s.rsp + 136 ∧
      s''.ram = linked k c s.ram s.rsp tf.tfRsp tf.tfRip ∧
      SameProtected s''.eflags tf.tfEflags ∧
      execute k c (popa ++ rest) s' = execute k c rest s'' := by
  let s₁ : UserCpu := { s' with regs := tf.tfRegs }
  have ran₁ : execute k c (movFroms 0 popaRegs ++ (.addqRsp 120 :: rest)) s' =
      execute k c (.addqRsp 120 :: rest) s₁ := by
    have loads : ∀ i value, tf.tfRegs.words[i]? = some value →
        s'.load k c (s'.rsp + BitVec.ofNat 64 (8 * (0 + i))) = some value := by
      intro i value found
      have small : i < 15 := (List.getElem?_eq_some_iff.mp found).1
      have inside : (tf.utrapframe faultVa).words[i + 2]? = some value := by
        rw [UTrapframe.words, List.getElem?_cons_succ, List.getElem?_cons_succ,
          List.getElem?_append_left small]
        exact found
      have place : s'.rsp + BitVec.ofNat 64 (8 * (0 + i)) =
          s.rsp + BitVec.ofNat 64 (8 * (i + 2)) := by
        rw [pointer, BitVec.add_assoc, show (16 : BitVec 64) = BitVec.ofNat 64 16 from rfl,
          ← BitVec.ofNat_add]
        congr 2
        omega
      rw [place]
      refine ready.load inside fun j below => ?_
      rw [ram]
      exact ready.linked_slot (by omega) below
    rw [execute_movFroms rfl loads, PushRegs.setAll_words]
  let s₂ : UserCpu := { s₁ with rsp := s'.rsp + 120 }.setStatus (addFlags s'.rsp 120)
  have ran₂ : (Instr.addqRsp 120).exec k c s₁ = some s₂ := rfl
  have flags₂ : SameProtected s₂.eflags tf.tfEflags :=
    SameProtected.setStatus (s := s₁) flags statusFlags_status
  have pointer₂ : s₂.rsp = s.rsp + 136 := by
    change s'.rsp + 120 = s.rsp + 136
    rw [pointer, BitVec.add_assoc]
    rfl
  refine ⟨s₂, rfl, pointer₂, ram, flags₂, ?_⟩
  rw [popa_eq, List.append_assoc]
  exact ran₁.trans (execute_cons ran₂)

theorem execute_return {s' : UserCpu} (pointer : s'.rsp = s.rsp + 136)
    (ram : s'.ram = linked k c s.ram s.rsp tf.tfRsp tf.tfRip)
    (flags : SameProtected s'.eflags tf.tfEflags) :
    execute k c [.addqRsp 8, .popfq, .popqRsp, .ret] s' = some { s' with
      rsp := tf.tfRsp
      rip := tf.tfRip
      eflags := tf.tfEflags } := by
  let s₁ : UserCpu := { s' with rsp := s'.rsp + 8 }.setStatus (addFlags s'.rsp 8)
  have ran₁ : (Instr.addqRsp 8).exec k c s' = some s₁ := rfl
  have flags₁ : SameProtected s₁.eflags tf.tfEflags :=
    SameProtected.setStatus (s := { s' with rsp := s'.rsp + 8 }) flags statusFlags_status
  have pointer₁ : s₁.rsp = s.rsp + 144 := by
    change s'.rsp + 8 = s.rsp + 144
    rw [pointer, BitVec.add_assoc]
    rfl
  let s₂ : UserCpu := { s₁ with rsp := s.rsp + 152, eflags := tf.tfEflags }
  have ran₂ : Instr.popfq.exec k c s₁ = some s₂ := by
    have loaded : s₁.load k c (s.rsp + 144) = some tf.tfEflags := by
      refine ready.load (n := 18) rfl fun j below => ?_
      change s'.ram _ = _
      rw [ram]
      exact ready.linked_slot (by decide) below
    have next : s.rsp + 144 + 8 = s.rsp + 152 := by
      rw [BitVec.add_assoc]
      rfl
    rw [Instr.exec, pointer₁, loaded]
    simp only [Option.bind_eq_bind, Option.bind_some, flags₁.popf, next]
    rfl
  let s₃ : UserCpu := { s₂ with rsp := tf.tfRsp - 8 }
  have ran₃ : Instr.popqRsp.exec k c s₂ = some s₃ := by
    have loaded : s₂.load k c (s.rsp + 152) = some (tf.tfRsp - 8) := by
      refine (UserCpu.load_eq (ready.slot (n := 19) (by decide))).trans ?_
      change some (loadWord s'.ram (k.place c (s.rsp + 152))) = _
      rw [ram]
      exact congrArg some ready.linked_last
    rw [Instr.exec]
    change (s₂.load k c (s.rsp + 152) >>= _) = _
    rw [loaded]
    rfl
  have ran₄ : Instr.ret.exec k c s₃ = some { s' with
      rsp := tf.tfRsp
      rip := tf.tfRip
      eflags := tf.tfEflags } := by
    have loaded : s₃.load k c (tf.tfRsp - 8) = some tf.tfRip := by
      rw [UserCpu.load_eq ready.word]
      change some (loadWord s'.ram _) = _
      rw [ram, ready.linked_word]
    have back : tf.tfRsp - 8 + 8 = tf.tfRsp := BitVec.sub_add_cancel ..
    rw [Instr.exec]
    change (s₃.load k c (tf.tfRsp - 8) >>= _) = _
    rw [loaded]
    change some { s₃ with rsp := tf.tfRsp - 8 + 8, rip := tf.tfRip } = _
    rw [back]
    rfl
  rw [execute_cons ran₁, execute_cons ran₂, execute_cons ran₃, execute_cons ran₄, execute]

theorem execute_all :
    ∃ s', execute k c pgfaultUpcall s = some s' ∧ s'.regs = tf.tfRegs ∧ s'.rip = tf.tfRip ∧
      s'.eflags = tf.tfEflags ∧ s'.rsp = tf.tfRsp ∧
      s'.ram = linked k c s.ram s.rsp tf.tfRsp tf.tfRip := by
  obtain ⟨s₁, pointer₁, ram₁, flags₁, ran₁⟩ :=
    ready.execute_link (popa ++ [.addqRsp 8, .popfq, .popqRsp, .ret])
  obtain ⟨s₂, regs₂, pointer₂, ram₂, flags₂, ran₂⟩ :=
    ready.execute_popa [.addqRsp 8, .popfq, .popqRsp, .ret] pointer₁ ram₁ flags₁
  exact ⟨_, ran₁.trans (ran₂.trans (ready.execute_return pointer₂ ram₂ flags₂)), regs₂, rfl, rfl,
    rfl, ram₂⟩

end

end Resumable

def Kernel.OnStack (k : Kernel npages) (c : EnvIdx) (p : Nat) : Prop :=
  ∃ va, uxstackTop - pgSize ≤ va ∧ va < uxstackTop ∧ p = k.physAddr c va

/-- The C handler returns: the record lies where it was, with its contents, and the
stack pointer points to it. The flags that user code cannot change are those of the
fault. The kernel data may be others, since the handler makes system calls. -/
structure HandlerReturns (k₁ : Kernel npages) (ram₁ : Ram) (c : EnvIdx) (tf : Trapframe)
    (k₂ : Kernel npages) (s : UserCpu) : Prop where
  rsp : s.rsp = (k₁.envs c).envTf.tfRsp
  place : ∀ i < utrapframeSize, k₂.place c s.rsp i = k₁.place c s.rsp i
  kept : ∀ i < utrapframeSize, s.ram (k₁.place c s.rsp i) = ram₁ (k₁.place c s.rsp i)
  stack : ∀ i < utrapframeSize, k₂.writable c (s.rsp + BitVec.ofNat 64 i) = true
  flags : SameProtected s.eflags tf.tfEflags

section
variable {k₁ k₂ : Kernel npages} {ram ram₁ : Ram} {faultVa : BitVec 64}

theorem Pushed.tfRsp {u : Nat} (pushed : Pushed k ram c faultVa k₁ ram₁ u) :
    (k₁.envs c).envTf.tfRsp = BitVec.ofNat 64 u := by
  obtain ⟨m, after⟩ := pushed.after
  simp only [after, Kernel.setEnv, Function.update_self]

theorem Pushed.words {u : Nat} (pushed : Pushed k ram c faultVa k₁ ram₁ u) {value : BitVec 64}
    (found : ((k.envs c).envTf.utrapframe faultVa).words[n]? = some value) :
    loadWord ram₁ (Foundation.after (k₁.place c (BitVec.ofNat 64 u)) (8 * n)) = value := by
  have size : utrapframeSize = 160 := rfl
  obtain ⟨found', mapped, -⟩ := pushed.mapped
  obtain ⟨low, high⟩ := pushed.bounds
  rw [pushed.stored]
  refine loadWord_storeWords (fun i below j below' same => ?_) found
  rw [UTrapframe.length_words] at below below'
  rw [pushed.place below, pushed.place below'] at same
  have equal := Kernel.physAddr_inj mapped (pushed.page (by omega) (by omega))
    (pushed.page (by omega) (by omega)) same
  omega

theorem Pushed.onStack {u : Nat} (pushed : Pushed k ram c faultVa k₁ ram₁ u)
    (below : i < utrapframeSize) : k₁.OnStack c (k₁.place c (BitVec.ofNat 64 u) i) := by
  obtain ⟨low, high⟩ := pushed.bounds
  exact ⟨u + i, by omega, by omega, pushed.place below⟩

theorem Pushed.resumable {u : Nat} (pushed : Pushed k ram c faultVa k₁ ram₁ u)
    (returns : HandlerReturns k₁ ram₁ c (k.envs c).envTf k₂ s)
    (word : ∀ i < 8, k₂.writable c ((k.envs c).envTf.tfRsp - 8 + BitVec.ofNat 64 i) = true)
    (apart : ∀ i < 8, ∀ j < utrapframeSize,
      k₂.place c ((k.envs c).envTf.tfRsp - 8) i ≠ k₂.place c s.rsp j) :
    Resumable k₂ c s (k.envs c).envTf faultVa where
  stack := returns.stack
  word := word
  apart := apart
  flags := returns.flags
  words n value found := by
    have size : utrapframeSize = 160 := rfl
    have below : n < 20 := (List.getElem?_eq_some_iff.mp found).1
    rw [← pushed.words found, ← pushed.tfRsp, ← returns.rsp]
    refine loadWord_congr fun i small => ?_
    have inside : 8 * n + i < utrapframeSize := by omega
    rw [Foundation.after, returns.place _ inside]
    exact returns.kept _ inside

/-- A page fault that the handler of the environment has seen to is invisible: the
code that faulted goes on with its registers, and outside the exception stack only
the word below its stack pointer has changed. -/
theorem fault_invisible (handled : pageFault k ram c faultVa = some (.toUser, k₁, ram₁))
    (returns : HandlerReturns k₁ ram₁ c (k.envs c).envTf k₂ s)
    (word : ∀ i < 8, k₂.writable c ((k.envs c).envTf.tfRsp - 8 + BitVec.ofNat 64 i) = true)
    (apart : ∀ i < 8, ∀ j < utrapframeSize,
      k₂.place c ((k.envs c).envTf.tfRsp - 8) i ≠ k₂.place c s.rsp j) :
    (∀ p, ¬ k₁.OnStack c p → ram₁ p = ram p) ∧
    ∃ s', execute k₂ c pgfaultUpcall s = some s' ∧
      s'.regs = (k.envs c).envTf.tfRegs ∧ s'.rip = (k.envs c).envTf.tfRip ∧
      s'.eflags = (k.envs c).envTf.tfEflags ∧ s'.rsp = (k.envs c).envTf.tfRsp ∧
      ∀ p, ¬ k₁.OnStack c p → (∀ i < 8, p ≠ k₂.place c ((k.envs c).envTf.tfRsp - 8) i) →
        s'.ram p = s.ram p := by
  rcases pageFault_cases handled with ⟨ended, -⟩ | ⟨-, u, pushed⟩
  · cases ended
  have size : utrapframeSize = 160 := rfl
  obtain ⟨low, high⟩ := pushed.bounds
  constructor
  · intro p outside
    refine pushed.other fun i below same => outside ?_
    exact ⟨u + i, by omega, by omega, same⟩
  · obtain ⟨s', ran, regs, rip, eflags, rsp, ram'⟩ :=
      (pushed.resumable returns word apart).execute_all
    refine ⟨s', ran, regs, rip, eflags, rsp, fun p outside beside => ?_⟩
    rw [ram', linked, storeWord_other, storeWord_other beside]
    intro i small same
    have slot : k₂.place c (s.rsp + 152) i = k₁.place c s.rsp (152 + i) :=
      (congrFun (Kernel.place_after (n := 152)) i).trans (returns.place _ (by omega))
    rw [slot, returns.rsp, pushed.tfRsp] at same
    exact outside (same ▸ pushed.onStack (by omega))

end

/-- A fault within the exception stack, whose handler returns at once. -/
theorem sample_invisible : ∃ (f : Fault 4096) (s : UserCpu), f.exit = .toUser ∧
    Nested (f.before.rspOf f.env) ∧ ∃ s', execute f.after f.env pgfaultUpcall s = some s' ∧
      s'.regs = (f.before.envs f.env).envTf.tfRegs := by
  obtain ⟨s, f, reached, faults, user, pointer, stack⟩ := sample_fault 0xef7fff00#64 (by decide)
  have handled := reached.handled f (by simp [faults])
  rcases pageFault_cases handled with ⟨ended, -⟩ | ⟨-, u, pushed⟩
  · rw [user] at ended
    cases ended
  have bottom : uxstackTop - pgSize = 4018139136 := rfl
  have top : uxstackTop = 4018143232 := rfl
  have size : utrapframeSize = 160 := rfl
  have value : f.before.rspOf f.env = 4018142976 := pointer
  have nested : Nested (f.before.rspOf f.env) := ⟨by omega, by omega⟩
  have spot := (pushed.nested nested).1
  have writable {va : BitVec 64} (low : uxstackTop - pgSize ≤ va.toNat)
      (high : va.toNat < uxstackTop) : f.after.writable f.env va = true := by
    obtain ⟨found, mapped, both⟩ := stack va.toNat low high
    exact (Option.any_eq_true _ _).mpr ⟨found, mapped, Bool.and_eq_true_iff.mpr both⟩
  have entry : (f.after.envs f.env).envTf.tfRsp.toNat = u := pushed.rspOf
  have slot {i : Nat} (below : i < utrapframeSize) :
      ((f.after.envs f.env).envTf.tfRsp + BitVec.ofNat 64 i).toNat = u + i := by
    rw [BitVec.toNat_add, BitVec.toNat_ofNat, entry]
    omega
  have word {i : Nat} (below : i < 8) :
      ((f.before.envs f.env).envTf.tfRsp - 8 + BitVec.ofNat 64 i).toNat =
        f.before.rspOf f.env - 8 + i := by
    have start : (f.before.envs f.env).envTf.tfRsp.toNat = f.before.rspOf f.env := rfl
    have eight : (8 : BitVec 64).toNat = 8 := rfl
    rw [BitVec.toNat_add, BitVec.toNat_sub, BitVec.toNat_ofNat, start, eight]
    omega
  have returns : HandlerReturns f.after f.ramAfter f.env (f.before.envs f.env).envTf f.after
      ⟨default, (f.after.envs f.env).envTf.tfRsp, 0, (f.before.envs f.env).envTf.tfEflags,
        f.ramAfter⟩ := by
    refine ⟨rfl, fun _ _ => rfl, fun _ _ => rfl, fun i below => ?_, rfl⟩
    exact writable (by rw [slot below]; omega) (by rw [slot below]; omega)
  have ran : pageFault f.before f.ram f.env f.faultVa = some (.toUser, f.after, f.ramAfter) :=
    user ▸ handled
  have apart : ∀ i < 8, ∀ j < utrapframeSize,
      f.after.place f.env ((f.before.envs f.env).envTf.tfRsp - 8) i ≠
        f.after.place f.env (f.after.envs f.env).envTf.tfRsp j := by
    intro i below j below' same
    obtain ⟨found, mapped, -⟩ := pushed.mapped
    rw [Kernel.place, Kernel.place, word below, slot below'] at same
    have equal := Kernel.physAddr_inj mapped (pushed.page (by omega) (by omega))
      (pushed.page (by omega) (by omega)) same
    omega
  obtain ⟨-, s', done, regs, -⟩ := fault_invisible ran returns
    (fun i below => writable (by rw [word below]; omega) (by rw [word below]; omega)) apart
  exact ⟨f, _, user, nested, s', done, regs⟩

end Jos
