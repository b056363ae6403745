import Jos.Calls.Environment

/-! `sys_ipc_try_send` on a sound kernel state, with every way in which it ends. -/

set_option autoImplicit false

namespace Jos

open Foundation

variable {npages : Nat} {managed : Set (Fin npages)} {g g' : Ledger npages}
  {k k' : Kernel npages} {c dst : EnvIdx}

/-- The nested `sys_page_map` gets past its checks. -/
def Deliverable (k : Kernel npages) (c dst : EnvIdx) (perm : BitVec 32) : Prop :=
  permValid perm = true ∧ (k.envs c).envStatus ≠ .free ∧
    (k.envs dst).envIpcDstva % pgSize = 0

instance (k : Kernel npages) (c dst : EnvIdx) (perm : BitVec 32) :
    Decidable (Deliverable k c dst perm) :=
  inferInstanceAs (Decidable (_ ∧ _ ∧ _))

theorem Sound.envid2env_self (sound : Sound managed k g) {e : EnvIdx} (live : k.Live e)
    (checkperm : Bool) (allowed : checkperm = true → e = c) :
    envid2env k c (k.envs e).envId checkperm =
      if (k.envs e).envStatus = .free then none else some e := by
  obtain ⟨positive, slot⟩ := sound.ids live
  have nonzero : (k.envs e).envId ≠ 0 := by
    intro zero
    rw [zero] at positive
    exact absurd positive (by decide)
  unfold envid2env
  rw [if_neg nonzero]
  simp only [slot]
  by_cases free : (k.envs e).envStatus = .free
  · simp [free]
  · rw [if_neg (by simpa using free), if_neg free, if_neg]
    rintro ⟨checked, other, -⟩
    exact other (allowed checked)

/-- How `sys_ipc_try_send` ends. `perm` is the permission that is stored. -/
inductive SendEnd (managed : Set (Fin npages)) (k : Kernel npages) (g : Ledger npages)
    (k' : Kernel npages) (c : EnvIdx) (envid : EnvId) (value : BitVec 32) (srcva : Nat)
    (perm : BitVec 32) : Int → Prop where
  | rejected {result : Int} : result < 0 → k' = k →
      SendEnd managed k g k' c envid value srcva perm result
  | notMapped {dst : EnvIdx} {m' : Pmap npages} {g' : Ledger npages} :
      envid2env k c envid false = some dst → (k.envs dst).envIpcRecving = true → srcva < utop →
      (leafOf k g c srcva).present = false → k' = k.setPmap m' →
      Looked managed k.roots k.pmap g m' g' (.root (some c)) srcva →
      SendEnd managed k g k' c envid value srcva perm (-eInval)
  | plain {dst : EnvIdx} {m' : Pmap npages} {g' : Ledger npages} :
      envid2env k c envid false = some dst → (k.envs dst).envIpcRecving = true →
      ¬ SendsPage k dst srcva →
      k' = (k.setPmap m').setEnv dst (deliveredEnv (k.envs dst) (k.envs c).envId value none) →
      Looked managed k.roots k.pmap g m' g' (.root (some c)) srcva →
      SendEnd managed k g k' c envid value srcva perm 0
  | refused {dst : EnvIdx} : envid2env k c envid false = some dst →
      (k.envs dst).envIpcRecving = true → SendsPage k dst srcva → ¬ Deliverable k c dst perm →
      k' = k.setEnv dst (deliveredEnv (k.envs dst) (k.envs c).envId value (some perm)) →
      SendEnd managed k g k' c envid value srcva perm 0
  | noTable {dst : EnvIdx} {m' : Pmap npages} {g' : Ledger npages} :
      envid2env k c envid false = some dst → (k.envs dst).envIpcRecving = true →
      SendsPage k dst srcva → Deliverable k c dst perm →
      g.free.length < g.wanted (.root (some dst)) (k.envs dst).envIpcDstva →
      k' = (k.setPmap m').setEnv dst
        (deliveredEnv (k.envs dst) (k.envs c).envId value (some perm)) →
      Looked managed k.roots k.pmap g m' g' (.root (some dst)) (k.envs dst).envIpcDstva →
      SendEnd managed k g k' c envid value srcva perm 0
  | done {dst : EnvIdx} {m' : Pmap npages} {g' : Ledger npages} {page : Fin npages} :
      envid2env k c envid false = some dst → (k.envs dst).envIpcRecving = true →
      SendsPage k dst srcva → Deliverable k c dst perm → srcva % pgSize = 0 →
      g.wanted (.root (some dst)) (k.envs dst).envIpcDstva ≤ g.free.length →
      (leafOf k g c srcva).Refers page →
      k' = (k.setPmap m').setEnv dst
        (deliveredEnv (k.envs dst) (k.envs c).envId value (some perm)) →
      MemoryCall managed k g (k.setPmap m') g'
        (.slot (.root (some dst)) (k.envs dst).envIpcDstva) →
      leafOf k' g' dst (k.envs dst).envIpcDstva = ⟨page.val, perm.setWidth 12 ||| pteP⟩ →
      g'.spare = g.spare → SendEnd managed k g k' c envid value srcva perm 0

theorem sameSpace_received {env : Env npages} {sender : EnvId} {value perm : BitVec 32} :
    SameSpace env (receivedEnv env sender value perm) :=
  ⟨rfl, rfl, rfl, rfl, fun _ => rfl⟩

theorem sameSpace_delivered {env : Env npages} (live : env.envPml4e ≠ none) {sender : EnvId}
    {value : BitVec 32} {perm : Option (BitVec 32)} :
    SameSpace env (deliveredEnv env sender value perm) :=
  ⟨rfl, rfl, rfl, rfl, fun rootless => absurd rootless live⟩

theorem Sound.ipcDeliver_page (sound : Sound managed k g) (live : k.Live c) {envid : EnvId}
    {value : BitVec 32} {srcva : Nat} {perm : BitVec 32} {result : Int}
    (found : envid2env k c envid false = some dst) (waiting : (k.envs dst).envIpcRecving = true)
    (page : SendsPage k dst srcva) (aligned : srcva % pgSize = 0)
    (mapped : (leafOf k g c srcva).present = true)
    (allowed : (leafOf k g c srcva).writable = false → perm &&& pteW.setWidth 32 = 0)
    (room : RoomToMap k c srcva dst (k.envs dst).envIpcDstva)
    (ran : ipcDeliver k c dst value srcva perm = some (result, k')) :
    SendEnd managed k g k' c envid value srcva perm result := by
  have target := sound.envid2env_root live found
  obtain ⟨rfl, m, code, nested, after⟩ := Jos.ipcDeliver_page page ran
  generalize record : receivedEnv (k.envs dst) (k.envs c).envId value perm = env at nested
  have same : SameSpace (k.envs dst) env := record ▸ sameSpace_received
  have status : env.envStatus = (k.envs dst).envStatus := by
    subst record
    rfl
  have ready : Sound managed (k.setEnv dst env) g := sound.setEnv same
  have fields (e : EnvIdx) : ((k.setEnv dst env).envs e).envId = (k.envs e).envId ∧
      ((k.setEnv dst env).envs e).envPml4e = (k.envs e).envPml4e ∧
      ((k.setEnv dst env).envs e).envStatus = (k.envs e).envStatus := by
    by_cases here : e = dst
    · subst here
      simp [Kernel.setEnv, same.id, same.pml4e, status]
    · simp [Kernel.setEnv, here]
  have live' : (k.setEnv dst env).Live c := fun rootless => live ((fields c).2.1 ▸ rootless)
  have target' : (k.setEnv dst env).Live dst := fun rootless =>
    target ((fields dst).2.1 ▸ rootless)
  have source := ready.envid2env_self (c := c) live' true fun _ => rfl
  have destination := ready.envid2env_self (c := c) target' false (by simp)
  rw [(fields c).1, (fields c).2.2] at source
  rw [(fields dst).1, (fields dst).2.2] at destination
  have dstStatus : (k.envs c).envStatus ≠ .free → (k.envs dst).envStatus ≠ .free := by
    intro busy
    unfold envid2env at found
    split at found
    · rwa [← Option.some.inj found]
    · simp only at found
      split at found
      · cases found
      · rename_i known
        split at found
        · cases found
        · rw [← Option.some.inj found]
          exact fun free => known (.inl free)
  have checks : (∃ src dst', PageMapChecks (k.setEnv dst env) c (k.envs c).envId srcva
      (k.envs dst).envId (k.envs dst).envIpcDstva perm src dst') ↔ Deliverable k c dst perm := by
    constructor
    · rintro ⟨src, dst', checks⟩
      refine ⟨checks.perm, fun free => ?_, checks.dstRange.1⟩
      rw [if_pos free] at source
      cases source.symm.trans checks.src
    · rintro ⟨valid, busy, dstAligned⟩
      refine ⟨c, dst, ⟨by rw [source, if_neg busy], ?_, valid, ⟨dstAligned, page.2.le⟩, aligned,
        page.1.le⟩⟩
      rw [destination, if_neg (dstStatus busy)]
  have space : ∀ src dst', PageMapChecks (k.setEnv dst env) c (k.envs c).envId srcva
      (k.envs dst).envId (k.envs dst).envIpcDstva perm src dst' →
      src = c ∧ dst' = dst := by
    intro src dst' checks
    have busy : (k.envs c).envStatus ≠ .free := fun free => by
      rw [if_pos free] at source
      cases source.symm.trans checks.src
    rw [if_neg busy] at source
    rw [if_neg (dstStatus busy)] at destination
    exact ⟨Option.some.inj (checks.src.symm.trans source),
      Option.some.inj (checks.dst.symm.trans destination)⟩
  have room' : ∀ src dst', PageMapChecks (k.setEnv dst env) c (k.envs c).envId srcva
      (k.envs dst).envId (k.envs dst).envIpcDstva perm src dst' →
      RoomToMap (k.setEnv dst env) src srcva dst' (k.envs dst).envIpcDstva := by
    intro src dst' checks
    obtain ⟨rfl, rfl⟩ := space src dst' checks
    intro translated physical
    rw [(fields src).2.1, (fields dst').2.1]
    exact room translated physical
  rcases ready.sysPageMap live' room' nested with
    ⟨negative, same', unchecked⟩ | ⟨src, dst', checked, ending⟩
  · refine .refused found waiting page (fun deliverable => unchecked (checks.mpr deliverable)) ?_
    have memory : m = k.pmap := congrArg Kernel.pmap same'
    rw [after, memory, Kernel.setPmap_self]
  · have deliverable := checks.mp ⟨src, dst', checked⟩
    obtain ⟨rfl, rfl⟩ := space src dst' checked
    have roots : (k.setEnv dst' env).roots = k.roots := Kernel.roots_setEnv same.pml4e
    have leaf {e : EnvIdx} {va : Nat} : leafOf (k.setEnv dst' env) g e va = leafOf k g e va := rfl
    cases ending with
    | notMapped absent _ _ =>
      rw [leaf, mapped] at absent
      cases absent
    | readOnly _ readOnly writes _ => exact absurd (allowed readOnly) writes
    | @noTable m' g' _ _ grown lacking looked =>
      have memory : m = m' := congrArg Kernel.pmap grown
      subst memory
      exact .noTable found waiting page deliverable lacking after (roots ▸ looked)
    | @done page' g' refers enough call stored spare =>
      refine .done found waiting page deliverable aligned enough refers after
        ⟨?_, call.keeps, rfl, rfl⟩ (by rw [after]; exact stored) spare
      have back : ((k.setEnv dst' env).setPmap m).setEnv dst' (k.envs dst') = k.setPmap m := by
        simp [Kernel.setEnv, Kernel.setPmap]
      rw [← back]
      refine call.sound.setEnv ?_
      simp only [Kernel.setPmap, Kernel.setEnv, Function.update_self]
      exact ⟨same.pml4e.symm, same.cr3.symm, same.link.symm, same.id.symm,
        fun _ => status.symm⟩

theorem Sound.sysIpcTrySend (sound : Sound managed k g) (live : k.Live c) {envid : EnvId}
    {value : BitVec 32} {srcva : Nat} {perm : BitVec 32} {ambient : Ambient} {result : Int}
    (room : ∀ dst, envid2env k c envid false = some dst → SendsPage k dst srcva →
      RoomToMap k c srcva dst (k.envs dst).envIpcDstva)
    (ran : sysIpcTrySend k c envid value srcva perm ambient = some (result, k')) :
    SendEnd managed k g k' c envid value srcva (perm ||| pteP.setWidth 32) result := by
  unfold Jos.sysIpcTrySend at ran
  simp only at ran
  have rejected {code : Int} (negative : code < 0) (same : some (code, k) = some (result, k')) :
      SendEnd managed k g k' c envid value srcva (perm ||| pteP.setWidth 32) result := by
    cases same
    exact .rejected negative rfl
  cases found : envid2env k c envid false with
  | none =>
    rw [found] at ran
    exact rejected (by decide) ran
  | some dst =>
    rw [found] at ran
    simp only at ran
    split at ran
    · exact rejected (by decide) ran
    · rename_i waiting
      have waiting : (k.envs dst).envIpcRecving = true := by simpa using waiting
      obtain ⟨root, rooted⟩ := live.root
      rw [rooted] at ran
      obtain ⟨⟨looked, m⟩, lookup, ran⟩ := Option.bind_eq_some_iff.mp ran
      simp only at ran
      by_cases low : srcva < utop
      · rcases lookup_mapped sound rooted low.le lookup with
          ⟨rfl, absent, g', spec⟩ | ⟨page, holder, rfl, rfl, zero, here, leaf, maps⟩
        · rw [if_pos ⟨rfl, low⟩] at ran
          cases ran
          exact .notMapped found waiting low absent rfl spec
        · rw [if_neg (by simp)] at ran
          simp only [Option.bind_eq_bind, Option.bind_some] at ran
          have mapped : (leafOf k g c srcva).present = true := by
            rw [leaf]
            exact maps.present
          split at ran
          · exact rejected (by decide) ran
          · rename_i aligned
            split at ran
            · exact rejected (by decide) ran
            · rename_i writes
              split at ran
              · cases ran
              · by_cases page : SendsPage k dst srcva
                · refine sound.ipcDeliver_page live found waiting page
                    (by_contra fun odd => aligned ⟨low, .inl odd⟩) mapped ?_
                    (room dst found page) ran
                  intro readOnly
                  by_contra set
                  refine writes ⟨low, set, ?_⟩
                  rw [leaf] at readOnly
                  have bit : pteW = BitVec.twoPow 12 1 := by decide
                  have kept : pteSyscall &&& pteW = pteW := by decide
                  rw [BitVec.and_assoc, kept, bit, BitVec.and_twoPow]
                  exact if_neg (Bool.not_eq_true _ ▸ readOnly)
                · obtain ⟨rfl, after⟩ := ipcDeliver_plain page ran
                  exact .plain found waiting page after (.refl sound.valid zero)
      · have here := sound.valid.top rooted
        obtain ⟨g', spec⟩ := sound.valid.pageLookup_looked here rfl (.inl (by simp)) lookup
        have plain : ¬ SendsPage k dst srcva := fun page => low page.1
        rw [if_neg fun both => low both.2] at ran
        obtain ⟨pte, -, ran⟩ := Option.bind_eq_some_iff.mp ran
        rw [if_neg fun both => low both.1, if_neg fun both => low both.1] at ran
        split at ran
        · cases ran
        · obtain ⟨rfl, after⟩ := ipcDeliver_plain (k := k.setPmap m) plain ran
          exact .plain found waiting plain after spec

end Jos
