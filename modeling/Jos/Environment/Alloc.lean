import Jos.Environment.Sound

/-! `env_alloc` and `env_destroy` on a sound kernel state. -/

set_option autoImplicit false

namespace Jos

open Foundation Function

private theorem generation_spec {generation : BitVec 32} (positive : 0 < generation.toInt)
    (masked : generation &&& 1023#32 = 0#32) :
    0 < generation.toNat ∧ generation.toNat < 2 ^ 31 ∧ generation.toNat % 1024 = 0 := by
  have bits := congrArg BitVec.toNat masked
  rw [BitVec.toNat_and] at bits
  have low : generation.toNat % 2 ^ 10 = 0 := by
    rw [← Nat.and_two_pow_sub_one_eq_mod]
    exact bits
  rw [BitVec.toInt_eq_toNat_cond] at positive
  have bound := generation.isLt
  refine ⟨?_, ?_, low⟩ <;> split at positive <;> omega

theorem nextEnvId_spec (old : EnvId) (e : EnvIdx) :
    0 < (nextEnvId old e).toInt ∧ envx (nextEnvId old e) = e := by
  have slot : e.val < 1024 := e.isLt
  have step {generation : BitVec 32} (positive : 0 < generation.toInt)
      (masked : generation &&& 1023#32 = 0#32) :
      0 < (generation ||| BitVec.ofNat 32 e.val).toInt ∧
        envx (generation ||| BitVec.ofNat 32 e.val) = e := by
    obtain ⟨more, less, low⟩ := generation_spec positive masked
    have small : (BitVec.ofNat 32 e.val).toNat = e.val := by
      simp only [BitVec.toNat_ofNat]
      omega
    have sum : (generation ||| BitVec.ofNat 32 e.val).toNat = generation.toNat + e.val := by
      have shifted : generation.toNat = (generation.toNat / 1024) <<< 10 := by
        rw [Nat.shiftLeft_eq]
        omega
      rw [BitVec.toNat_or, small, shifted, ← Nat.shiftLeft_add_eq_or_of_lt slot]
    constructor
    · rw [BitVec.toInt_eq_toNat_cond, sum]
      split <;> omega
    · refine Fin.ext ?_
      change (generation ||| BitVec.ofNat 32 e.val).toNat % 1024 = e.val
      omega
  have masked : ((old + 1#32 <<< envGenShift) &&& ~~~(BitVec.ofNat 32 (nenv - 1))) &&& 1023#32 =
      0#32 := by
    rw [BitVec.and_assoc]
    have mask : ~~~(BitVec.ofNat 32 (nenv - 1)) &&& 1023#32 = 0#32 := by decide
    rw [mask, BitVec.and_zero]
  unfold nextEnvId
  simp only
  split
  · exact step (by decide) (by decide)
  · exact step (by omega) masked
variable {npages : Nat} {managed : Set (Fin npages)} {g g' : Ledger npages}
  {k k' : Kernel npages}

/-- The record that `env_alloc` leaves in a slot. -/
def allocatedEnv (old : Env npages) (e : EnvIdx) (parentId : EnvId) (root : Fin npages) :
    Env npages :=
  { old with
    envPml4e := some root
    envCr3 := root.val
    envId := nextEnvId old.envId e
    envParentId := parentId
    envType := .user
    envStatus := .runnable
    envRuns := 0
    envTf := newTrapframe
    envPgfaultUpcall := 0
    envIpcRecving := false }

/-- The memory after `env_setup_vm`. -/
def Pmap.setupVm (m : Pmap npages) (root : Fin npages) : Pmap npages :=
  let m := (m.take root true).incRef root
  let m := m.setEntry (root, 1) (m.entry (m.bootPml4e, 1))
  m.setEntry (root, pml4 uvpt) ⟨root, tablePerm⟩

theorem Valid.setupVm {roots : EnvIdx → Option (Fin npages)} {m : Pmap npages}
    (valid : Valid managed roots m g) {e : EnvIdx} {root : Fin npages} {rest : List (Fin npages)}
    (rootless : roots e = none) (shared : ∃ page, g.table ⟨none, [1]⟩ = some page)
    (listed : g.free = root :: rest) :
    Valid managed (update roots e (some root)) (m.setupVm root)
        ⟨update g.table (.root (some e)) (some root), g.spare, rest⟩ ∧
      (∀ page, page ≠ root → (m.setupVm root).mem page = m.mem page) := by
  have member : root ∈ g.free := by simp [listed]
  have unused := valid.free_unused member
  obtain ⟨inside, zeroRef⟩ := valid.pool.member root member
  have distinct := valid.pool.chain.nodup
  rw [listed] at distinct
  have counted := (valid.take listed true).incRef (List.nodup_cons.mp distinct).1 fun _ => by
    rw [Pmap.take_ref, zeroRef]
    decide
  have same (page : Fin npages) (differs : page ≠ root) :
      (m.setupVm root).mem page = m.mem page := by
    have first : (m.setupVm root).mem page = ((m.take root true).incRef root).mem page := by
      refine (Memory.write_page differs).trans ?_
      exact Memory.write_page differs
    rw [first, Pmap.incRef_mem, Pmap.take_mem_ne differs]
  have notRoot {page : Fin npages} (placed : Placed g.table page) : page ≠ root := by
    rintro rfl
    exact unused.unplaced placed
  have scratched : Valid managed roots (m.setupVm root) ((g.setFree rest).give root) :=
    counted.scratch rfl rfl rfl fun page placed => by
      rw [same page (notRoot placed), Pmap.incRef_mem, Pmap.take_mem_ne (notRoot placed)]
  have bootEntry : m.mem m.bootPml4e 1 = tableEntry (g.table ⟨none, [1]⟩) := by
    have linked := valid.tree.link valid.tree.bootRoot (by simp) 1
    rwa [Place.root, Place.child_none] at linked
  have bootRoot : m.bootPml4e ≠ root := notRoot ⟨_, valid.tree.bootRoot⟩
  have contents (i : Index) : (m.setupVm root).mem root i =
      if i = 1 then tableEntry (g.table ⟨none, [1]⟩)
      else if i = pml4 uvpt then ⟨root.val, tablePerm⟩ else 0 := by
    have distinct : (1 : Index) ≠ pml4 uvpt := by decide
    by_cases self : i = pml4 uvpt
    · subst self
      rw [if_neg (Ne.symm distinct), if_pos rfl]
      exact Memory.write_same
    · rw [if_neg self]
      refine (Memory.write_other fun slots => self (Prod.mk.inj slots).2).trans ?_
      by_cases one : i = 1
      · subst one
        rw [if_pos rfl]
        refine Memory.write_same.trans ?_
        simp only [Pmap.entry, Pmap.incRef_mem, Pmap.incRef_boot, Pmap.take_boot]
        rw [Pmap.take_mem_ne bootRoot, bootEntry]
      · rw [if_neg one]
        refine (Memory.write_other fun slots => one (Prod.mk.inj slots).2).trans ?_
        rw [Pmap.incRef_mem, Pmap.take_mem_same]
  have planted := scratched.plant rootless shared inside
    ⟨unused.unplaced, fun {a holder t} there mappable => by
      rw [same holder (notRoot ⟨a, there⟩)]
      exact unused.unmapped there mappable⟩ contents (by simp [Ledger.give])
  rw [Ledger.spend_give] at planted
  exact ⟨planted, same⟩

theorem envSetupVm_eq {e : EnvIdx} (valid : Valid managed k.roots k.pmap g) :
    envSetupVm k e = match g.free with
      | [] => none
      | root :: _ => some ((k.setPmap (k.pmap.setupVm root)).setEnv e
          { k.envs e with envPml4e := some root, envCr3 := root.val }) := by
  cases listed : g.free with
  | nil => simp [envSetupVm, valid.pageAlloc_empty listed]
  | cons root rest =>
    have perm : pteP ||| pteW ||| pteU = tablePerm := by decide
    simp only [envSetupVm, valid.pageAlloc_eq listed, perm]
    rfl

theorem envAlloc_eq (parentId : EnvId) (valid : Valid managed k.roots k.pmap g) :
    envAlloc k parentId = match k.envFreeList, g.free with
      | none, _ => .error (-eNoFreeEnv)
      | some _, [] => .error (-eNoMem)
      | some e, root :: _ => .ok (e,
          { pmap := k.pmap.setupVm root
            envs := update k.envs e (allocatedEnv (k.envs e) e parentId root)
            envFreeList := (k.envs e).envLink }) := by
  cases head : k.envFreeList with
  | none => simp [envAlloc, head]
  | some e =>
    cases listed : g.free with
    | nil => simp [envAlloc, head, envSetupVm_eq valid, listed]
    | cons root rest =>
      simp only [envAlloc, head, envSetupVm_eq valid, listed]
      simp [Kernel.setEnv, Kernel.setPmap, allocatedEnv]

/-- What a successful `env_alloc` does. -/
structure Allocated (managed : Set (Fin npages)) (k : Kernel npages) (g : Ledger npages)
    (k' : Kernel npages) (g' : Ledger npages) (e : EnvIdx) (parentId : EnvId) : Prop where
  fresh : (k.envs e).envPml4e = none
  head : k.envFreeList = some e
  envs : ∃ root, k'.envs = update k.envs e (allocatedEnv (k.envs e) e parentId root) ∧
    ∃ rest, g.free = root :: rest ∧ g'.free = rest ∧
      g'.table = update g.table (.root (some e)) (some root)
  keeps : Keeps managed k.pmap g k'.pmap g' (.space e)
  tight : g'.spare = g.spare

theorem Sound.envAlloc (sound : Sound managed k g) {e : EnvIdx} {parentId : EnvId}
    (ran : envAlloc k parentId = .ok (e, k')) :
    ∃ g', Sound managed k' g' ∧ Allocated managed k g k' g' e parentId := by
  rw [envAlloc_eq parentId sound.valid] at ran
  obtain ⟨slots, chain, member⟩ := sound.slots
  cases head : k.envFreeList with
  | none => simp [head] at ran
  | some first =>
    cases listed : g.free with
    | nil => simp [head, listed] at ran
    | cons root rest =>
      simp only [head, listed, Except.ok.injEq, Prod.mk.injEq] at ran
      obtain ⟨rfl, rfl⟩ := ran
      rw [head] at chain
      obtain ⟨others, rfl, tail, notAgain⟩ := chain.pop
      have rootless : (k.envs first).envPml4e = none := (member first).mp List.mem_cons_self
      obtain ⟨planted, same⟩ := sound.valid.setupVm (e := first) rootless sound.shared listed
      have available : root ∈ g.free := by simp [listed]
      have unplaced := (sound.valid.free_unused available).unplaced
      have updated : update k.roots first (some root) = Kernel.roots
          { pmap := k.pmap.setupVm root
            envs := update k.envs first
              (allocatedEnv (k.envs first) first parentId root)
            envFreeList := (k.envs first).envLink } := by
        funext e'
        by_cases here : e' = first
        · subst here
          simp [Kernel.roots, allocatedEnv]
        · simp [Kernel.roots, here]
      refine ⟨⟨update g.table (.root (some first)) (some root), g.spare, rest⟩,
        ⟨updated ▸ planted, ?_, ?_, ⟨others, ?_, ?_⟩, ?_, ?_, sound.reserved⟩,
        ⟨rootless, head, ⟨root, rfl, rest, listed, rfl, rfl⟩,
          ⟨?_, fun {a page} there => ?_, rfl, ?_, fun _ _ => le_rfl⟩, rfl⟩⟩
      · obtain ⟨shared, there⟩ := sound.shared
        exact ⟨shared, by simp [update, Place.root, there]⟩
      · intro e' root' there
        by_cases here : e' = first
        · subst here
          simp only [update_self, allocatedEnv, Option.some.injEq] at there ⊢
          rw [there]
        · simp only [update_of_ne here] at there ⊢
          exact sound.cr3 there
      · refine tail.congr fun e' listed' => ?_
        have other : e' ≠ first := fun here => notAgain (here ▸ listed')
        simp [other]
      · intro e'
        by_cases here : e' = first
        · subst here
          simp [allocatedEnv, notAgain]
        · have before := member e'
          simp only [List.mem_cons, here, false_or] at before
          simpa [here] using before
      · intro e' missing
        by_cases here : e' = first
        · subst here
          simp [allocatedEnv] at missing
        · simp only [update_of_ne here] at missing ⊢
          exact sound.idle missing
      · intro e' there
        by_cases here : e' = first
        · subst here
          simpa [allocatedEnv] using nextEnvId_spec _ e'
        · simp only [update_of_ne here] at there ⊢
          exact sound.ids there
      · intro a deep t _
        have other : a ≠ .root (some first) := by
          rintro rfl
          simp at deep
        have kept : update g.table (.root (some first)) (some root) a = g.table a :=
          update_of_ne other ..
        unfold leafEntry
        simp only [kept]
        cases there : g.table a with
        | none => rfl
        | some page =>
          exact congrFun (same page (by rintro rfl; exact unplaced ⟨a, there⟩)) t
      · by_cases new : a = .root (some first)
        · exact .inr (new ▸ rfl)
        · exact .inl ((update_of_ne new ..).symm.trans there)
      · intro page outside _
        refine same page ?_
        rintro rfl
        exact outside (sound.valid.pool.member page (by simp [listed])).1

end Jos
