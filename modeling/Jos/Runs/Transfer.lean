import Jos.Processors.Mail
import Jos.Runs.Isolation
import Jos.Runs.Table

/-! The page that goes with a message, in runs from the boot. The kernel does not
record whether the last receive asked for a page, nor that a message came
without one. -/

set_option autoImplicit false

namespace Jos

open Foundation Function

variable {npages : Nat} {platform : Platform npages} {managed : Set (Fin npages)}
  {k k' : Kernel npages} {g g' : Ledger npages} {c e dst : EnvIdx} {ambient : Ambient}
  {call : Syscall} {outcome : Outcome} {event : KernelEvent}

/-- The kernel data, and the address that each environment gave to its last
receive. -/
structure Tracked (npages : Nat) where
  kernel : Kernel npages
  asked : EnvIdx → Nat

def askedAfter (asked : EnvIdx → Nat) : KernelEvent → EnvIdx → Nat
  | .call c _ (.ipcRecv dstva) =>
    if dstva < utop ∧ dstva % pgSize ≠ 0 then asked else update asked c dstva
  | _ => asked

def trackedStep (s : Tracked npages) (event : KernelEvent) : Option (Tracked npages) :=
  (kernelStep s.kernel event).map fun k => ⟨k, askedAfter s.asked event⟩

/-- The states that orderly runs from the boot reach, with what was asked. -/
def TrackedReached (platform : Platform npages) : Tracked npages → Prop :=
  Reachable (fun s => boot platform = some s.kernel) trackedStep
    fun s event => Orderly s.kernel event

/-- After `k'` the address of the receiver maps the page that the address of the
sender maps before, with the permission. -/
def Kernel.Delivered (k k' : Kernel npages) (c : EnvIdx) (srcva : Nat) (dst : EnvIdx)
    (dstva : Nat) (sent : BitVec 32) : Prop :=
  ∃ source target, k.view c srcva = some source ∧ k'.view dst dstva = some target ∧
    target.ppn = source.ppn ∧ target.ptePerm = sent.setWidth 12 ||| pteP

/-- What a send that returns 0 is to leave, when the receiver asked for a page at
`asked`. -/
def Kernel.Transfers (k k' : Kernel npages) (c : EnvIdx) (srcva : Nat) (dst : EnvIdx)
    (asked : Nat) (sent : BitVec 32) : Prop :=
  if srcva < utop ∧ asked < utop then
    k.Delivered k' c srcva dst asked sent ∧ (k'.envs dst).envIpcPerm = sent
  else
    (k'.envs dst).envIpcPerm = 0 ∧ ∀ e va, va < utop → k'.view e va = k.view e va

def Kernel.RoomFor (k : Kernel npages) (e : EnvIdx) (va : Nat) : Prop :=
  ∃ root free, (k.envs e).envPml4e = some root ∧ k.pmap.FreeList free ∧
    k.pmap.missing root va ≤ free.length

/-- When both have given an address, the page can be inserted, or is there already;
otherwise the receiver has no address from an earlier receive that the send would
use, and no permission from an earlier send. -/
def Kernel.Transferable (k : Kernel npages) (c : EnvIdx) (srcva : Nat) (dst : EnvIdx)
    (asked : Nat) (sent : BitVec 32) : Prop :=
  if srcva < utop ∧ asked < utop then
    Deliverable k c dst sent ∧ k.RoomFor dst asked ∨ k.Delivered k c srcva dst asked sent
  else ¬ SendsPage k dst srcva ∧ (k.envs dst).envIpcPerm = 0

/-- An environment that waits, and asked for a page, has its address in its slot. -/
def Tracked.Asks (s : Tracked npages) : Prop :=
  ∀ e, (s.kernel.envs e).envIpcRecving = true → s.asked e < utop →
    (s.kernel.envs e).envIpcDstva = s.asked e

/-- No environment begins to wait, and the addresses of those that wait are kept. -/
def KeepsAsked (k k' : Kernel npages) (e : EnvIdx) : Prop :=
  (k'.envs e).envIpcRecving = true →
    (k.envs e).envIpcRecving = true ∧ (k'.envs e).envIpcDstva = (k.envs e).envIpcDstva

theorem KeepsAsked.refl : KeepsAsked k k e := fun waiting => ⟨waiting, rfl⟩

theorem KeepsAsked.trans {k'' : Kernel npages} (first : KeepsAsked k k' e)
    (second : KeepsAsked k' k'' e) : KeepsAsked k k'' e := fun waiting => by
  obtain ⟨middle, same⟩ := second waiting
  obtain ⟨start, same'⟩ := first middle
  exact ⟨start, same.trans same'⟩

theorem KeepsAsked.setEnv {slot : EnvIdx} {env : Env npages}
    (kept : env.envIpcRecving = true → (k.envs slot).envIpcRecving = true ∧
      env.envIpcDstva = (k.envs slot).envIpcDstva) : KeepsAsked k (k.setEnv slot env) e := by
  intro waiting
  rw [setEnv_apply] at waiting ⊢
  split at waiting
  · rename_i same
    rw [if_pos same, same]
    exact kept waiting
  · rename_i differs
    rw [if_neg differs]
    exact ⟨waiting, rfl⟩

theorem KeepsAsked.free {slot : EnvIdx} (ran : envFree k slot = some k') : KeepsAsked k k' e := by
  intro waiting
  rw [(envFree_envs ran).2.2, update_apply] at waiting ⊢
  split at waiting
  · rename_i same
    rw [if_pos same, same]
    exact ⟨waiting, rfl⟩
  · rename_i differs
    rw [if_neg differs]
    exact ⟨waiting, rfl⟩

theorem KeepsAsked.alloc {slot : EnvIdx} {parentId : EnvId}
    (ran : envAlloc k parentId = .ok (slot, k')) : KeepsAsked k k' e := by
  obtain ⟨-, -, root, envs⟩ := envAlloc_envs ran
  intro waiting
  rw [envs, update_apply] at waiting ⊢
  split at waiting
  · cases waiting
  · rename_i differs
    rw [if_neg differs]
    exact ⟨waiting, rfl⟩

theorem KeepsAsked.run {curenv : Option EnvIdx} {number : Nat} {slot : EnvIdx} :
    KeepsAsked k (envSwitch k curenv number slot) e := by
  have mark {k₁ : Kernel npages} {x : EnvIdx} {status : EnvStatus} :
      KeepsAsked k₁ (k₁.setStatus x status) e := .setEnv fun waiting => ⟨waiting, rfl⟩
  have pop {k₁ : Kernel npages} : KeepsAsked k₁ (popTf k₁ number slot) e :=
    .setEnv fun waiting => ⟨waiting, rfl⟩
  unfold envSwitch
  split
  · exact pop
  · refine .trans (.trans ?_ mark) pop
    cases curenv with
    | none => exact .refl
    | some old =>
      simp only
      split
      · exact mark
      · exact .refl

theorem Effect.keepsAsked (effect : Effect k c k' call outcome)
    (other : ∀ dstva, call = .ipcRecv dstva → outcome ≠ .yields) : KeepsAsked k k' e := by
  cases effect with
  | memory same => exact same ▸ .refl
  | yield same => exact same ▸ .refl
  | recv => exact absurd rfl (other _ rfl)
  | send _ _ _ same =>
    subst same
    exact KeepsAsked.setEnv (k := k.setPmap _) nofun
  | exofork allocated same =>
    subst same
    exact (KeepsAsked.alloc allocated).trans (.setEnv fun waiting => ⟨waiting, rfl⟩)
  | setStatus _ _ _ same =>
    subst same
    exact .setEnv fun waiting => ⟨waiting, rfl⟩
  | setTrapframe _ same =>
    subst same
    exact .setEnv fun waiting => ⟨waiting, rfl⟩
  | setUpcall _ same =>
    subst same
    exact .setEnv fun waiting => ⟨waiting, rfl⟩
  | dying _ _ _ same =>
    subst same
    exact .setEnv fun waiting => ⟨waiting, rfl⟩
  | destroy _ _ freed => exact .free freed
  | @denied call m _ freed => exact KeepsAsked.free (k := k.setPmap m) freed

theorem kernelStep_keepsAsked (ran : kernelStep k event = some k')
    (other : ∀ c ambient dstva, event = .call c ambient (.ipcRecv dstva) →
      dstva < utop ∧ dstva % pgSize ≠ 0) : KeepsAsked k k' e := by
  cases event with
  | create binary type =>
    obtain ⟨slot, k₁, m, tf, allocated, rfl⟩ := envCreate_cases ran
    exact (KeepsAsked.alloc allocated).trans
      (KeepsAsked.setEnv (k := k₁.setPmap m) fun waiting => ⟨waiting, rfl⟩)
  | alloc parentId =>
    rcases kernelStep_alloc ran with rfl | ⟨e, allocated⟩
    · exact .refl
    · exact .alloc allocated
  | free slot => exact .free ran
  | call c ambient call =>
    obtain ⟨-, outcome, called⟩ := kernelStep_call ran
    refine (syscall_effect called).keepsAsked ?_
    rintro dstva rfl rfl
    simp [syscall, sysIpcRecv, other c ambient dstva rfl] at called
  | fault c =>
    obtain ⟨-, exit, handled⟩ := kernelStep_fault ran
    obtain ⟨m, ⟨-, freed⟩ | ⟨-, tf, rfl⟩⟩ := pageFaultHandler_cases handled
    · exact KeepsAsked.free (k := k.setPmap m) freed
    · exact KeepsAsked.setEnv (k := k.setPmap m) fun waiting => ⟨waiting, rfl⟩
  | frame slot tf =>
    cases ran
    exact .setEnv fun waiting => ⟨waiting, rfl⟩
  | run curenv cpu slot =>
    obtain ⟨-, rfl⟩ := kernelStep_run ran
    exact .run

theorem Tracked.Asks.step {s s' : Tracked npages} (asks : s.Asks)
    (ran : trackedStep s event = some s') : s'.Asks := by
  obtain ⟨k', stepped, rfl⟩ := Option.map_eq_some_iff.mp ran
  have kept (same : askedAfter s.asked event = s.asked)
      (keeps : ∀ e, KeepsAsked s.kernel k' e) :
      Tracked.Asks ⟨k', askedAfter s.asked event⟩ := by
    intro e waiting low
    rw [same] at low ⊢
    obtain ⟨before, address⟩ := keeps e waiting
    exact address.trans (asks e before low)
  by_cases recv : ∃ c ambient dstva, event = .call c ambient (.ipcRecv dstva) ∧
      ¬ (dstva < utop ∧ dstva % pgSize ≠ 0)
  · obtain ⟨c, ambient, dstva, rfl, aligned⟩ := recv
    simp only [kernelStep, syscall, sysIpcRecv, if_neg aligned] at stepped
    split at stepped
    · obtain rfl := Option.some.inj stepped
      intro e waiting low
      simp only [askedAfter, if_neg aligned, update_apply] at low ⊢
      rw [setEnv_apply] at waiting ⊢
      by_cases self : e = c
      · subst self
        simp only [if_true] at waiting low ⊢
        rw [if_pos low]
      · rw [if_neg self] at waiting low ⊢
        rw [if_neg self]
        exact asks e waiting low
    · cases stepped
  · have refused : ∀ c ambient dstva, event = .call c ambient (.ipcRecv dstva) →
        dstva < utop ∧ dstva % pgSize ≠ 0 := by
      intro c ambient dstva same
      by_contra aligned
      exact recv ⟨c, ambient, dstva, same, aligned⟩
    refine kept ?_ fun e => kernelStep_keepsAsked stepped refused
    unfold askedAfter
    split
    · exact if_pos (refused _ _ _ rfl)
    · rfl

theorem TrackedReached.sound {s : Tracked npages} (reached : TrackedReached platform s) :
    (∃ g, Sound platform.managed s.kernel g) ∧ s.Asks := by
  refine Reachable.invariant reached
    (fun s => (∃ g, Sound platform.managed s.kernel g) ∧ s.Asks) (fun start booted => ?_)
    fun before event after invariant orderly ran => ?_
  · obtain ⟨g, booted⟩ := boot_booted booted
    refine ⟨⟨g, booted.sound⟩, fun e waiting => ?_⟩
    obtain ⟨link, zeroed⟩ := booted.envs e
    rw [zeroed] at waiting
    cases waiting
  · obtain ⟨⟨g, sound⟩, asks⟩ := invariant
    obtain ⟨k', stepped, rfl⟩ := Option.map_eq_some_iff.mp ran
    obtain ⟨g', change, -⟩ := sound.step orderly stepped
    exact ⟨⟨g', change.sound⟩, asks.step ran⟩

section
variable {envid : EnvId} {value sent : BitVec 32} {srcva asked : Nat}

theorem Looked.view {m' : Pmap npages} {x : EnvIdx} {target va : Nat} (sound : Sound managed k g)
    (looked : Looked managed k.roots k.pmap g m' g' (.root (some x)) target) (low : va < utop) :
    (k.setPmap m').view e va = k.view e va := by
  have change := (looked.memoryCall sound).change
  by_cases live : k.Live e
  · exact Change.translateIn sound change live live low id
  · unfold Kernel.view
    rw [not_not.mp live, show ((k.setPmap m').envs e).envPml4e = none from not_not.mp live]
    rfl

theorem sent_ne_zero {perm : BitVec 32} : perm ||| pteP.setWidth 32 ≠ 0 := by
  intro zero
  have bit := congrArg (fun x : BitVec 32 => x.getLsbD 0) zero
  have low : pteP[0] = true := by decide
  simp [low] at bit

theorem Sound.roomFor_iff (sound : Sound managed k g) (live : k.Live e) {va : Nat} :
    k.RoomFor e va ↔ g.wanted (.root (some e)) va ≤ g.free.length := by
  obtain ⟨root, rooted⟩ := live.root
  have here := sound.valid.top rooted
  rw [← sound.valid.missing_eq here rfl]
  constructor
  · rintro ⟨root', free, rooted', listed, enough⟩
    cases rooted.symm.trans rooted'
    obtain rfl := listed.functional sound.valid.pool.chain
    exact enough
  · exact fun enough => ⟨root, g.free, rooted, sound.valid.pool.chain, enough⟩

/-- A send that returns 0 keeps the contract if and only if the state is one in
which it can. -/
theorem SendEnd.transfers_iff_able (ended : SendEnd managed k g k' c envid value srcva sent 0)
    (sound : Sound managed k g) (live : k.Live c) (found : envid2env k c envid false = some dst)
    (nonzero : sent ≠ 0) (asks : asked < utop → (k.envs dst).envIpcDstva = asked) :
    k.Transfers k' c srcva dst asked sent ↔ k.Transferable c srcva dst asked sent := by
  have only {other : EnvIdx} (found' : envid2env k c envid false = some other) : other = dst :=
    Option.some.inj (found'.symm.trans found)
  have listed : k.Listed := ⟨sound.slots, sound.idle⟩
  have dstLive : k.Live dst := listed.envid2env_live live found
  have sends (both : srcva < utop ∧ asked < utop) : SendsPage k dst srcva :=
    ⟨both.1, by rw [asks both.2]; exact both.2⟩
  have delivered {k₁ : Kernel npages} (same : asked < utop → k₁.view dst asked = k.view dst asked) :
      asked < utop → (k.Delivered k₁ c srcva dst asked sent ↔
        k.Delivered k c srcva dst asked sent) := by
    intro low
    unfold Kernel.Delivered
    rw [same low]
  have stored {m : Pmap npages} {perm : Option (BitVec 32)} :
      (((k.setPmap m).setEnv dst (deliveredEnv (k.envs dst) (k.envs c).envId value perm)).envs
        dst).envIpcPerm = perm.getD (k.envs dst).envIpcPerm := by
    rw [setEnv_apply, if_pos rfl]
    rfl
  have view {m : Pmap npages} {perm : Option (BitVec 32)} {e : EnvIdx} {va : Nat} :
      ((k.setPmap m).setEnv dst (deliveredEnv (k.envs dst) (k.envs c).envId value perm)).view e va =
        (k.setPmap m).view e va := Kernel.view_setEnv rfl
  generalize zero : (0 : Int) = result at ended
  cases ended with
  | rejected negative => exact absurd negative (by omega)
  | notMapped => cases zero
  | @plain other m' g' found' _ apart same looked =>
    obtain rfl := only found'
    subst same
    have outside : ¬ (srcva < utop ∧ asked < utop) := fun both => apart (sends both)
    rw [Kernel.Transfers, Kernel.Transferable, if_neg outside, if_neg outside, stored]
    constructor
    · exact fun transfers => ⟨apart, transfers.1⟩
    · exact fun able => ⟨able.2, fun e va low => view.trans (looked.view sound low)⟩
  | @refused other found' _ page refused same =>
    obtain rfl := only found'
    subst same
    have stored := @stored k.pmap (some sent)
    have view {e : EnvIdx} {va : Nat} := @view k.pmap (some sent) e va
    rw [Kernel.setPmap_self] at stored view
    unfold Kernel.Transfers Kernel.Transferable
    split
    · rename_i both
      rw [delivered (fun _ => view) both.2]
      constructor
      · exact fun transfers => .inr transfers.1
      · exact fun able => ⟨able.resolve_left fun both => refused both.1, stored⟩
    · exact iff_of_false (fun transfers => nonzero (stored.symm.trans transfers.1))
        fun able => able.1 page
  | @noTable other m' g' found' _ page deliverable lacking same looked =>
    obtain rfl := only found'
    subst same
    unfold Kernel.Transfers Kernel.Transferable
    split
    · rename_i both
      rw [asks both.2] at lacking
      rw [delivered (fun low => view.trans (looked.view sound low)) both.2]
      constructor
      · exact fun transfers => .inr transfers.1
      · refine fun able => ⟨able.resolve_left fun both => ?_, stored⟩
        exact absurd ((sound.roomFor_iff dstLive).mp both.2) (not_le.mpr lacking)
    · exact iff_of_false (fun transfers => nonzero (stored.symm.trans transfers.1))
        fun able => able.1 page
  | @done other m' g' frame found' _ page deliverable aligned enough refers same call leaf =>
    obtain rfl := only found'
    subst same
    unfold Kernel.Transfers Kernel.Transferable
    split
    · rename_i both
      rw [asks both.2] at enough leaf
      refine iff_of_true ⟨?_, stored⟩ (.inl ⟨deliverable, (sound.roomFor_iff dstLive).mpr enough⟩)
      have source : k.view c srcva = leafTranslation (leafOf k g c srcva) :=
        sound.translateIn live (Place.user_of_low both.1)
      have target : (k.setPmap m').view other asked =
          leafTranslation (leafOf (k.setPmap m') g' other asked) :=
        call.sound.translateIn dstLive (Place.user_of_low both.2)
      have entry : leafOf (k.setPmap m') g' other asked = ⟨frame.val, sent.setWidth 12 ||| pteP⟩ :=
        leaf
      rw [entry] at target
      refine ⟨_, _, source.trans (if_pos refers.1), view.trans (target.trans (if_pos ?_)),
        refers.2.symm, rfl⟩
      exact present_or
    · exact iff_of_false (fun transfers => nonzero (stored.symm.trans transfers.1))
        fun able => able.1 page

end

theorem transfers_iff {s : Tracked npages} {envid : EnvId} {value perm : BitVec 32} {srcva : Nat}
    (reached : TrackedReached platform s) (live : s.kernel.Live c)
    (orderly : OrderlyCall s.kernel c (.ipcTrySend envid value srcva perm))
    (found : envid2env s.kernel c envid false = some dst)
    (ran : syscall s.kernel c ambient (.ipcTrySend envid value srcva perm) =
      some (.returns 0, k')) :
    s.kernel.Transfers k' c srcva dst (s.asked dst) (perm ||| pteP.setWidth 32) ↔
      s.kernel.Transferable c srcva dst (s.asked dst) (perm ||| pteP.setWidth 32) := by
  obtain ⟨⟨g, sound⟩, asks⟩ := reached.sound
  obtain ⟨⟨result, after⟩, sends, equal⟩ := Option.map_eq_some_iff.mp ran
  obtain ⟨zero, rfl⟩ := Prod.mk.inj equal
  obtain rfl := Outcome.returns.inj zero
  have waiting : (s.kernel.envs dst).envIpcRecving = true := by
    by_contra idle
    simp [sysIpcTrySend, found, idle, eIpcNotRecv] at sends
  exact (sound.sysIpcTrySend live orderly sends).transfers_iff_able sound live found sent_ne_zero
    (asks dst waiting)

theorem Reached.tracked (reached : Reached platform Orderly k) :
    ∃ asked, TrackedReached platform ⟨k, asked⟩ := by
  obtain ⟨start, events, booted, along⟩ := reached
  suffices ∃ asked, Along trackedStep (fun s event => Orderly s.kernel event)
      ⟨start, fun _ => utop⟩ events ⟨k, asked⟩ by
    obtain ⟨asked, along⟩ := this
    exact ⟨asked, _, events, booted, along⟩
  induction along with
  | nil => exact ⟨_, .nil⟩
  | @snoc events middle final event _ orderly stepped ih =>
    obtain ⟨asked, along⟩ := ih
    have tracked : trackedStep ⟨middle, asked⟩ event = some ⟨final, askedAfter asked event⟩ := by
      simp only [trackedStep, stepped, Option.map_some]
    exact ⟨_, along.snoc orderly tracked⟩

theorem sample_silent : ∃ (k : Kernel 4096) (g : Ledger 4096) (c e : EnvIdx),
    Reached sample Orderly k ∧ Fresh sample k g 998 ∧ k.Live c ∧ k.Live e ∧ c ≠ e ∧
    ∀ x, (k.envs x).envIpcDstva = 0 ∧ (k.envs x).envIpcPerm = 0 := by
  obtain ⟨k, g, c, e, reached, fresh, live, live', differs, -⟩ :=
    sample_envs (fun _ event => event = .alloc 0) fun _ => rfl
  refine ⟨k, g, c, e, reached.weaken ?_, fresh, live, live', differs, ?_⟩
  · rintro k event rfl
    trivial
  · refine Reachable.invariant reached
      (fun k => ∀ x, (k.envs x).envIpcDstva = 0 ∧ (k.envs x).envIpcPerm = 0)
      (fun start booted x => ?_) fun before event after quiet alloc ran x => ?_
    · obtain ⟨g, booted⟩ := boot_booted booted
      obtain ⟨link, zeroed⟩ := booted.envs x
      rw [zeroed]
      exact ⟨rfl, rfl⟩
    · subst alloc
      rcases kernelStep_alloc ran with rfl | ⟨e, allocated⟩
      · exact quiet x
      · obtain ⟨-, -, root, envs⟩ := envAlloc_envs allocated
        rw [envs, update_apply]
        split
        · exact quiet e
        · exact quiet x

theorem sameSpace_waiting {env : Env npages} (live : env.envPml4e ≠ none) (dstva : Nat) :
    SameSpace env (waitingEnv env dstva) :=
  ⟨rfl, rfl, rfl, rfl, fun absent => absurd absent live⟩

theorem TrackedReached.recv {asked : EnvIdx → Nat} (reached : TrackedReached platform ⟨k, asked⟩)
    (live : k.Live e) :
    TrackedReached platform
      ⟨k.setEnv e (waitingEnv (k.envs e) utop), update asked e utop⟩ := by
  obtain ⟨start, events, booted, along⟩ := reached
  have orderly : Orderly k (.call e ⟨none, 0, none⟩ (.ipcRecv utop)) := trivial
  refine ⟨start, _, booted, along.snoc orderly ?_⟩
  simp [trackedStep, kernelStep, live, syscall, sysIpcRecv, askedAfter, waitingEnv]

theorem Sound.waiting_found (sound : Sound managed k g) (live : k.Live e) (dstva : Nat) :
    envid2env (k.setEnv e (waitingEnv (k.envs e) dstva)) c (k.envs e).envId false = some e := by
  have after := sound.setEnv (sameSpace_waiting live dstva)
  have here : (k.setEnv e (waitingEnv (k.envs e) dstva)).envs e = waitingEnv (k.envs e) dstva := by
    rw [setEnv_apply, if_pos rfl]
  have live' : (k.setEnv e (waitingEnv (k.envs e) dstva)).Live e := by
    rw [Kernel.Live, here]
    exact live
  have found := after.envid2env_self (c := c) live' false (by simp)
  rw [here] at found
  exact found

theorem Sound.ids_ne (sound : Sound managed k g) (live : k.Live c) (live' : k.Live e)
    (differs : c ≠ e) : (k.envs e).envId ≠ (k.envs c).envId := by
  intro same
  have slot := (sound.ids live').2
  rw [same, (sound.ids live).2] at slot
  exact differs slot

theorem Sound.sysIpcTrySend_plain (sound : Sound managed k g) (live : k.Live c) {envid : EnvId}
    (found : envid2env k c envid false = some dst) (waiting : (k.envs dst).envIpcRecving = true)
    (another : envid ≠ (k.envs c).envId) (value perm : BitVec 32) (pte : Pte) :
    ∃ k', Jos.sysIpcTrySend k c envid value utop perm ⟨some pte, 0, none⟩ = some (0, k') := by
  obtain ⟨root, rooted⟩ := live.root
  have user : pml4 utop ≠ pml4 uvpt := by decide
  have high : ¬ utop < utop := lt_irrefl utop
  have looked : ∃ lookup m, pageLookup k.pmap (some root) utop = some (lookup, m) := by
    rcases sound.valid.leaf_cases (Place.mappable_of_le (e := c) le_rfl) with
      empty | ⟨page, target, -, leaf, maps⟩
    · obtain ⟨m, -, ran, -⟩ := sound.valid.pageLookup_absent (e := c) rooted user (by rw [empty]; rfl)
      exact ⟨_, m, ran⟩
    · obtain ⟨-, page', here, ran⟩ := sound.valid.pageLookup_present (e := c) rooted user
        (by rw [leaf]; exact maps.present)
      rw [leafEntry_some here] at leaf
      rw [leaf, maps.ppn, pa2page_val] at ran
      exact ⟨_, _, ran⟩
  obtain ⟨lookup, m, ran⟩ := looked
  have another : ∀ m, envid ≠ ((k.setPmap m).envs c).envId := fun _ => another
  unfold Jos.sysIpcTrySend
  cases lookup with
  | none => simp [found, waiting, rooted, ran, another, ipcDeliver]
  | some pair => simp [found, waiting, rooted, ran, another, ipcDeliver]

theorem sysPageMap_refused {srcenvid dstenvid : EnvId} {srcva dstva : Nat} {perm : BitVec 32}
    (refused : permValid perm = false) :
    ∃ code ≤ 0, sysPageMap k c srcenvid srcva dstenvid dstva perm = some (code, k) := by
  unfold sysPageMap
  cases envid2env k c srcenvid true with
  | none => exact ⟨_, by decide, rfl⟩
  | some src =>
    cases envid2env k c dstenvid false with
    | none => exact ⟨_, by decide, rfl⟩
    | some dst =>
      simp only [refused]
      exact ⟨_, by decide, rfl⟩

theorem Sound.sysIpcTrySend_refused (sound : Sound managed k g) (live : k.Live c) {envid : EnvId}
    {page : Fin npages} (found : envid2env k c envid false = some dst)
    (waiting : (k.envs dst).envIpcRecving = true) (another : envid ≠ (k.envs c).envId)
    (leaf : leafOf k g c 0 = ⟨page.val, permUser.setWidth 12 ||| pteP⟩) (value : BitVec 32) :
    ∃ k', Jos.sysIpcTrySend k c envid value 0 15 ⟨none, 0, none⟩ = some (0, k') := by
  obtain ⟨root, rooted⟩ := live.root
  have present : (leafOf k g c 0).present = true := by
    rw [leaf]
    exact present_or
  obtain ⟨-, holder, here, ran⟩ := sound.valid.pageLookup_present (e := c) rooted (by decide) present
  rw [leafOf, leafEntry_some here] at leaf
  rw [leaf, pa2page_val] at ran
  have entry : k.pmap.entry (holder, ptx 0) = ⟨page.val, permUser.setWidth 12 ||| pteP⟩ := leaf
  have another : ∀ m, envid ≠ ((k.setPmap m).envs c).envId := fun _ => another
  have deliver {k₁ : Kernel npages} :
      ∃ k', ipcDeliver k₁ c dst value 0 (15 ||| pteP.setWidth 32) = some (0, k') := by
    unfold ipcDeliver
    simp only
    split
    · have refused : permValid (15 ||| pteP.setWidth 32) = false := by decide
      obtain ⟨code, low, ran⟩ := sysPageMap_refused (c := c)
        (k := (k₁.setEnv dst { k₁.envs dst with
          envIpcRecving := false
          envIpcFrom := (k₁.envs c).envId
          envIpcValue := value }).setEnv dst
            { (k₁.setEnv dst { k₁.envs dst with
              envIpcRecving := false
              envIpcFrom := (k₁.envs c).envId
              envIpcValue := value }).envs dst with
              envIpcPerm := 15 ||| pteP.setWidth 32 })
        refused
      rw [ran]
      simp only [Option.bind_eq_bind, Option.bind_some, if_neg (not_lt.mpr low)]
      exact ⟨_, rfl⟩
    · exact ⟨_, rfl⟩
  obtain ⟨k', delivered⟩ := @deliver (k.setPmap k.pmap)
  have bits : (permUser.setWidth 12 ||| pteP) &&& pteSyscall &&& (pteU ||| pteP) = pteU ||| pteP ∧
      (permUser.setWidth 12 ||| pteP) &&& pteSyscall &&& pteW ≠ 0 := by decide
  refine ⟨k', ?_⟩
  unfold Jos.sysIpcTrySend
  simp only [found, waiting, rooted, ran, not_true_eq_false, if_false, Option.map_some,
    Option.bind_eq_bind, Option.bind_some, Option.isNone_some, Bool.false_eq_true, false_and, entry,
    bits.1, bits.2, ne_eq, Nat.zero_mod, or_self, and_false, if_neg (another _)]
  exact delivered

theorem sample_plain : ∃ (s : Tracked 4096) (k' : Kernel 4096) (c e : EnvIdx),
    TrackedReached sample s ∧ s.kernel.Live c ∧
    envid2env s.kernel c (s.kernel.envs e).envId false = some e ∧
    OrderlyCall s.kernel c (.ipcTrySend (s.kernel.envs e).envId 0 utop 0) ∧
    syscall s.kernel c ⟨some 0, 0, none⟩ (.ipcTrySend (s.kernel.envs e).envId 0 utop 0) =
      some (.returns 0, k') := by
  obtain ⟨k, g, c, e, reached, fresh, live, live', differs, -⟩ := sample_silent
  obtain ⟨asked, tracked⟩ := reached.tracked
  have waiting := tracked.recv live'
  have sound := fresh.sound.setEnv (sameSpace_waiting live' utop)
  have found := fresh.sound.waiting_found (c := c) live' utop
  set s := k.setEnv e (waitingEnv (k.envs e) utop) with after
  have self : s.envs e = waitingEnv (k.envs e) utop := by rw [after, setEnv_apply, if_pos rfl]
  have caller : s.envs c = k.envs c := by rw [after, setEnv_apply, if_neg differs]
  have id : (s.envs e).envId = (k.envs e).envId := by rw [self]; rfl
  have alive : s.Live c := by rw [Kernel.Live, caller]; exact live
  rw [← id] at found
  have another : (s.envs e).envId ≠ (s.envs c).envId := by
    rw [id, caller]
    exact fresh.sound.ids_ne live live' differs
  obtain ⟨k', ran⟩ :=
    sound.sysIpcTrySend_plain alive found (by rw [self]; rfl) another 0 0 0
  have called : syscall s c ⟨some 0, 0, none⟩ (.ipcTrySend (s.envs e).envId 0 utop 0) =
      some (.returns 0, k') := by
    simp only [syscall, returning, ran, Option.map_some]
  have orderly : OrderlyCall s c (.ipcTrySend (s.envs e).envId 0 utop 0) :=
    fun _ _ page => absurd page.1 (lt_irrefl utop)
  exact ⟨_, k', c, e, waiting, alive, found, orderly, called⟩

theorem sample_transfers_iff : ∃ (s : Tracked 4096) (k' : Kernel 4096) (c e : EnvIdx),
    TrackedReached sample s ∧ s.kernel.Live c ∧
    syscall s.kernel c ⟨some 0, 0, none⟩ (.ipcTrySend (s.kernel.envs e).envId 0 utop 0) =
      some (.returns 0, k') ∧
    (s.kernel.Transfers k' c utop e (s.asked e) (0 ||| pteP.setWidth 32) ↔
      s.kernel.Transferable c utop e (s.asked e) (0 ||| pteP.setWidth 32)) := by
  obtain ⟨s, k', c, e, reached, live, found, orderly, called⟩ := sample_plain
  exact ⟨s, k', c, e, reached, live, called, transfers_iff reached live orderly found called⟩

/-- The address 0 that every slot has before its first receive is taken for one
that the receiver has given. The nested `sys_page_map` refuses the permission,
and the send returns 0. -/
theorem stale_not_transfers : ∃ (s : Tracked 4096) (k' : Kernel 4096) (c e : EnvIdx),
    TrackedReached sample s ∧ s.kernel.Live c ∧ s.asked e = utop ∧
    syscall s.kernel c ⟨none, 0, none⟩ (.ipcTrySend (s.kernel.envs e).envId 0 0 15) =
      some (.returns 0, k') ∧
    ¬ s.kernel.Transfers k' c 0 e (s.asked e) (15 ||| pteP.setWidth 32) := by
  obtain ⟨k, g, c, e, ⟨start, events, booted, along⟩, fresh, live, live', differs, quiet⟩ :=
    sample_silent
  obtain ⟨k₁, page, g₁, ran, -, mapped, leaf, -⟩ :=
    fresh.pageAlloc (by decide) live rfl (Nat.zero_le _)
  have orderly : Orderly k (.call c ⟨none, 0, none⟩ (.pageAlloc 0 0 permUser)) := trivial
  have stepped : kernelStep k (.call c ⟨none, 0, none⟩ (.pageAlloc 0 0 permUser)) = some k₁ := by
    simp only [kernelStep, if_pos live, syscall, ran, returning, Option.map_some]
  have reached : Reached sample Orderly k₁ := ⟨start, _, booted, along.snoc orderly stepped⟩
  obtain ⟨asked, tracked⟩ := reached.tracked
  have live₁ : k₁.Live e := by rw [Kernel.Live, mapped.envs]; exact live'
  have waiting := tracked.recv live₁
  have sound := mapped.sound.setEnv (sameSpace_waiting live₁ utop)
  have found := mapped.sound.waiting_found (c := c) live₁ utop
  set s := k₁.setEnv e (waitingEnv (k₁.envs e) utop) with after
  have self : s.envs e = waitingEnv (k₁.envs e) utop := by rw [after, setEnv_apply, if_pos rfl]
  have caller : s.envs c = k₁.envs c := by rw [after, setEnv_apply, if_neg differs]
  have id : (s.envs e).envId = (k₁.envs e).envId := by rw [self]; rfl
  have alive : s.Live c := by rw [Kernel.Live, caller, mapped.envs]; exact live
  rw [← id] at found
  have another : (s.envs e).envId ≠ (s.envs c).envId := by
    rw [id, caller, mapped.envs]
    exact fresh.sound.ids_ne live live' differs
  have there : leafOf s g₁ c 0 = ⟨page.val, permUser.setWidth 12 ||| pteP⟩ := leaf
  obtain ⟨k', ran⟩ :=
    sound.sysIpcTrySend_refused alive found (by rw [self]; rfl) another there 0
  have called : syscall s c ⟨none, 0, none⟩ (.ipcTrySend (s.envs e).envId 0 0 15) =
      some (.returns 0, k') := by
    simp only [syscall, returning, ran, Option.map_some]
  refine ⟨_, k', c, e, waiting, alive, update_self .., called, fun transfers => ?_⟩
  have outside : ¬ (0 < utop ∧ update asked e utop e < utop) := by
    rw [update_self]
    exact fun both => lt_irrefl utop both.2
  have perm := (Eq.mp (if_neg outside) transfers).1
  have stale : SendsPage s e 0 := by
    refine ⟨by decide, ?_⟩
    have address : (s.envs e).envIpcDstva = (k₁.envs e).envIpcDstva := by
      rw [self]
      simp [waitingEnv]
    rw [address, mapped.envs, (quiet e).1]
    decide
  have effect := syscall_effect called
  generalize returned : Outcome.returns 0 = outcome at effect
  cases effect with
  | memory _ negative =>
    obtain rfl := Outcome.returns.inj returned
    exact absurd (negative rfl) (lt_irrefl 0)
  | send found' _ _ same =>
    cases found.symm.trans found'
    rw [if_pos stale] at same
    rw [same, setEnv_apply, if_pos rfl] at perm
    exact sent_ne_zero perm
  | denied => cases returned

end Jos
