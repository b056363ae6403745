import Jos.Calls.Creation
import Jos.Calls.Ipc

/-! Every event of the kernel on a sound kernel state. Two defects break the
bookkeeping of pages for good, and the steps that meet them are set apart here:
a reference count that wraps, and physical page 0 taken for a page table. -/

set_option autoImplicit false

namespace Jos

open Foundation

variable {npages : Nat} {managed : Set (Fin npages)} {g g' : Ledger npages}
  {k k' : Kernel npages} {c e : EnvIdx}

namespace Footprint

def among (which : EnvIdx → Prop) (footprint : EnvIdx → Footprint) : Footprint :=
  ⟨fun a t => ∃ e, which e ∧ (footprint e).stores a t, fun o => ∃ e, which e ∧ (footprint e).grows o⟩

def join (first second : Footprint) : Footprint :=
  ⟨fun a t => first.stores a t ∨ second.stores a t, fun o => first.grows o ∨ second.grows o⟩

variable {which : EnvIdx → Prop} {footprint : EnvIdx → Footprint} {first second third : Footprint}

theorem le_refl : first ≤ first := ⟨fun _ _ => id, fun _ => id⟩

theorem le_trans (before : first ≤ second) (after : second ≤ third) : first ≤ third :=
  ⟨fun a t here => after.1 a t (before.1 a t here), fun o here => after.2 o (before.2 o here)⟩

theorem le_among (footprint : EnvIdx → Footprint) (there : which e) :
    footprint e ≤ among which footprint :=
  ⟨fun _ _ here => ⟨e, there, here⟩, fun _ here => ⟨e, there, here⟩⟩

theorem le_join_left : first ≤ join first second := ⟨fun _ _ => .inl, fun _ => .inl⟩

theorem le_join_right : second ≤ join first second := ⟨fun _ _ => .inr, fun _ => .inr⟩

end Footprint

/-- The system calls after which the bookkeeping of pages is in order: no count
wraps, and `env_free` does not take physical page 0 for a page table. -/
def OrderlyCall (k : Kernel npages) (c : EnvIdx) : Syscall → Prop
  | .cputs .. | .netTx .. | .netRx .. => k.Clean c
  | .envDestroy envid => ∀ e, envid2env k c envid true = some e →
      ¬ ((k.envs e).envStatus = .running ∧ c ≠ e) → k.Clean e
  | .pageMap srcenvid srcva dstenvid dstva perm => ∀ src dst,
      PageMapChecks k c srcenvid srcva dstenvid dstva perm src dst → RoomToMap k src srcva dst dstva
  | .ipcTrySend envid _ srcva _ => ∀ dst, envid2env k c envid false = some dst →
      SendsPage k dst srcva → RoomToMap k c srcva dst (k.envs dst).envIpcDstva
  | _ => True

def Orderly (k : Kernel npages) : KernelEvent → Prop
  | .create binary _ => binary.Low
  | .free e => k.Clean e
  | .call c _ call => OrderlyCall k c call
  | .fault c => k.Clean c
  | _ => True

/-- The leaf entries that a call may store to, when it leads to `k'`. -/
def callFootprint (k k' : Kernel npages) (c : EnvIdx) : Syscall → Footprint
  | .cputs .. | .netTx .. | .netRx .. => .ending k' c
  | .envDestroy envid =>
    .among (fun e => envid2env k c envid true = some e ∧ ¬ k'.Live e) .space
  | .pageAlloc envid va perm =>
    .among (pageAllocChecks k c envid va perm) fun e => .slot (.root (some e)) va
  | .pageMap srcenvid srcva dstenvid dstva perm =>
    .join
      (.among (fun src => ∃ dst, PageMapChecks k c srcenvid srcva dstenvid dstva perm src dst)
        fun src => .walk (.root (some src)) srcva)
      (.among (fun dst => ∃ src, PageMapChecks k c srcenvid srcva dstenvid dstva perm src dst)
        fun dst => .slot (.root (some dst)) dstva)
  | .pageUnmap envid va =>
    .among (fun e => envid2env k c envid true = some e ∧ va < utop)
      fun e => .slot (.root (some e)) va
  | .exofork => .among (fun e => ¬ k.Live e) .space
  | .ipcTrySend envid _ srcva _ =>
    .join (.walk (.root (some c)) srcva)
      (.among (fun dst => envid2env k c envid false = some dst ∧
          (k.envs dst).envIpcRecving = true ∧ SendsPage k dst srcva)
        fun dst => .slot (.root (some dst)) (k.envs dst).envIpcDstva)
  | _ => .nowhere

/-- The leaf entries that an event may store to, when it leads to `k'`. -/
def eventFootprint (k k' : Kernel npages) : KernelEvent → Footprint
  | .create _ _ | .alloc _ => .among (fun e => ¬ k.Live e) .space
  | .free e => .space e
  | .call c _ call => callFootprint k k' c call
  | .fault c => .ending k' c
  | .frame .. | .run .. => .nowhere

def Kernel.Strands (k : Kernel npages) (e : EnvIdx) (va pages : Nat) : Prop :=
  ∃ root free, (k.envs e).envPml4e = some root ∧ k.pmap.missing root va = 3 ∧
    k.pmap.FreeList free ∧ free.length = pages

/-- The loops of `env_free` reach everything in the page table of an environment. -/
def Kernel.InBounds (k : Kernel npages) (e : EnvIdx) : Prop :=
  ∀ root, (k.envs e).envPml4e = some root →
    (∀ i, i ≠ 0 → i ≠ 1 → i ≠ pml4 uvpt → k.pmap.mem root i = 0) ∧
    ∀ pdpt, k.pmap.next root 0 = some pdpt →
      (∀ i : Index, 3 < i.val → k.pmap.mem pdpt i = 0) ∧
      ∀ i pgdir, k.pmap.next pdpt i = some pgdir →
        (∀ j : Index, pdenoLimit i ≤ j.val → k.pmap.mem pgdir j = 0) ∧
        ∀ j pt, k.pmap.next pgdir j = some pt → k.pmap.mem pt 511 = 0

/-- The calls after which no page has a reference too many: no walk strands a
page directory, and `env_free` forgets nothing. The checks of user buffers are
not looked at. -/
def SettledCall (k : Kernel npages) (c : EnvIdx) : Syscall → Prop
  | .cputs .. | .netTx .. | .netRx .. => False
  | .envDestroy envid => ∀ e, envid2env k c envid true = some e →
      ¬ ((k.envs e).envStatus = .running ∧ c ≠ e) → k.InBounds e
  | .pageAlloc envid va perm => ∀ e, pageAllocChecks k c envid va perm e → ¬ k.Strands e va 3
  | .pageMap srcenvid srcva dstenvid dstva perm => ∀ src dst,
      PageMapChecks k c srcenvid srcva dstenvid dstva perm src dst → ¬ k.Strands src srcva 2 ∧
        (k.pmap.translateIn (k.envs src).envPml4e srcva ≠ none → ¬ k.Strands dst dstva 2)
  | .pageUnmap envid va => ∀ e, envid2env k c envid true = some e → va < utop → ¬ k.Strands e va 2
  | .ipcTrySend envid _ srcva perm => ∀ dst, envid2env k c envid false = some dst →
      (k.envs dst).envIpcRecving = true → ¬ k.Strands c srcva 2 ∧
        (SendsPage k dst srcva → Deliverable k c dst (perm ||| pteP.setWidth 32) →
          ¬ k.Strands dst (k.envs dst).envIpcDstva 2)
  | _ => True

theorem Sound.strands (sound : Sound managed k g) (live : k.Live e) {va pages : Nat}
    (safe : ¬ k.Strands e va pages) :
    ¬ (g.wanted (.root (some e)) va = 3 ∧ g.free.length = pages) := by
  rintro ⟨three, few⟩
  obtain ⟨root, rooted⟩ := live.root
  have here := sound.valid.top rooted
  exact safe ⟨root, g.free, rooted, (sound.valid.missing_eq here rfl).trans three,
    sound.valid.freeList_iff.mpr rfl, few⟩

theorem Sound.covered (sound : Sound managed k g) (live : k.Live e) (bounds : k.InBounds e) :
    Covered k.pmap.mem g.table e := by
  obtain ⟨root, rooted⟩ := live.root
  have valid := sound.valid
  have here := valid.top rooted
  obtain ⟨others, below⟩ := bounds root rooted
  have absent {a : Place} {page : Fin npages} {i : Index} (there : g.table a = some page)
      (short : a.path.length < 3) (empty : k.pmap.mem page i = 0) : g.table (a.child i) = none := by
    have linked := valid.tree.link there short i
    rw [empty] at linked
    cases found : g.table (a.child i) with
    | none => rfl
    | some page' =>
      rw [found] at linked
      exact absurd linked.symm table_ne_zero
  have plain {i : Index} (one : i ≠ 1) (self : i ≠ pml4 uvpt) :
      (Place.root (some e)).child i = ⟨some e, [i]⟩ :=
    Place.child_plain fun special => special.2.2.elim one self
  have zero : (Place.root (some e)).child 0 = ⟨some e, [0]⟩ := plain (by decide) (by decide)
  refine ⟨fun i nonzero => ?_, fun i high => ?_, fun i j low high => ?_, fun i j => ?_⟩
  · by_cases special : i = 1 ∨ i = pml4 uvpt
    · by_contra present
      obtain ⟨page, there⟩ := Option.ne_none_iff_exists'.mp present
      obtain ⟨one, self⟩ := valid.tree.plain there
      exact special.elim one self
    · rw [not_or] at special
      rw [← plain special.1 special.2]
      exact absent here (by simp) (others i nonzero special.1 special.2)
  · cases first : g.table ⟨some e, [0]⟩ with
    | none => exact valid.tree.absent_child first i
    | some pdpt =>
      have next := (valid.next_eq here (by simp) (i := 0)).1
      rw [zero, first] at next
      rw [← Place.child_cons]
      exact absent first (by simp) ((below pdpt next).1 i high)
  · cases first : g.table ⟨some e, [0]⟩ with
    | none => exact valid.tree.absent_child (valid.tree.absent_child first i) j
    | some pdpt =>
      have next := (valid.next_eq here (by simp) (i := 0)).1
      rw [zero, first] at next
      cases second : g.table ⟨some e, [i, 0]⟩ with
      | none => exact valid.tree.absent_child second j
      | some pgdir =>
        have next' := (valid.next_eq first (by simp) (i := i)).1
        rw [Place.child_cons, second] at next'
        rw [← Place.child_cons]
        exact absent second (by simp) (((below pdpt next).2 i pgdir next').1 j high)
  · cases third : g.table ⟨some e, [j, i, 0]⟩ with
    | none => exact leafEntry_none third
    | some pt =>
      obtain ⟨pgdir, second⟩ := valid.tree.parent third
      obtain ⟨pdpt, first⟩ := valid.tree.parent second
      have next := (valid.next_eq here (by simp) (i := 0)).1
      rw [zero, first] at next
      have next' := (valid.next_eq first (by simp) (i := i)).1
      rw [Place.child_cons, second] at next'
      have next'' := (valid.next_eq second (by simp) (i := j)).1
      rw [Place.child_cons, third] at next''
      rw [leafEntry_some third]
      exact ((below pdpt next).2 i pgdir next').2 j pt next''

def Settled (k : Kernel npages) : KernelEvent → Prop
  | .create .. | .fault _ => False
  | .free e => k.InBounds e
  | .call c _ call => SettledCall k c call
  | _ => True

def Sound.Reaches (managed : Set (Fin npages)) (k : Kernel npages) (g : Ledger npages)
    (k' : Kernel npages) (footprint : Footprint) (settled : Prop) : Prop :=
  ∃ g', Change managed k g k' g' footprint ∧ (settled → g'.spare = g.spare)

theorem Change.reaches {footprint : Footprint} {settled : Prop}
    (change : Change managed k g k' g' footprint) (spare : settled → g'.spare = g.spare) :
    Sound.Reaches managed k g k' footprint settled :=
  ⟨g', change, spare⟩

section
variable {footprint : Footprint} {settled : Prop}

theorem Sound.reaches_self (sound : Sound managed k g) :
    Sound.Reaches managed k g k footprint settled :=
  (Change.refl sound).reaches fun _ => rfl

theorem Sound.reaches_setEnv (sound : Sound managed k g) {env : Env npages}
    (same : SameSpace (k.envs e) env) :
    Sound.Reaches managed k g (k.setEnv e env) footprint settled :=
  (sound.setEnv_change same).reaches fun _ => rfl

theorem Looked.reaches {m' : Pmap npages} {va pages : Nat} (sound : Sound managed k g)
    (live : k.Live e) (looked : Looked managed k.roots k.pmap g m' g' (.root (some e)) va)
    (below : Footprint.walk (.root (some e)) va ≤ footprint) (few : pages = 2)
    (safe : settled → ¬ k.Strands e va pages) :
    Sound.Reaches managed k g (k.setPmap m') footprint settled :=
  ((looked.memoryCall sound).change.mono below).reaches fun settled =>
    looked.kept (few ▸ sound.strands live (safe settled))

end

section

variable (sound : Sound managed k g)

include sound

theorem Sound.sysPageAlloc_reaches (live : k.Live c) {envid : EnvId}
    {va : Nat} {perm : BitVec 32} {result : Int}
    (ran : Jos.sysPageAlloc k c envid va perm = some (result, k')) :
    Sound.Reaches managed k g k' (callFootprint k k' c (.pageAlloc envid va perm))
      (SettledCall k c (.pageAlloc envid va perm)) := by
  rcases sound.sysPageAlloc live ran with ⟨-, rfl, -⟩ | ⟨e, checks, ending⟩
  · exact sound.reaches_self
  · have target := sound.envid2env_root live checks.1
    have below : Footprint.slot (.root (some e)) va ≤
        callFootprint k k' c (.pageAlloc envid va perm) :=
      Footprint.le_among (fun e => .slot (.root (some e)) va) checks
    cases ending with
    | noPage _ same =>
      subst same
      exact sound.reaches_self
    | noTable listed _ call _ kept =>
      refine ((call.change.mono Footprint.walk_le_slot).mono below).reaches fun settled =>
        kept fun stranded => ?_
      refine sound.strands target (settled e checks) ⟨stranded.1, ?_⟩
      rw [listed, List.length_cons, stranded.2]
    | done _ _ call _ spare => exact (call.change.mono below).reaches fun _ => spare

theorem Sound.sysPageMap_reaches (live : k.Live c)
    {srcenvid dstenvid : EnvId} {srcva dstva : Nat} {perm : BitVec 32} {result : Int}
    (orderly : OrderlyCall k c (.pageMap srcenvid srcva dstenvid dstva perm))
    (ran : Jos.sysPageMap k c srcenvid srcva dstenvid dstva perm = some (result, k')) :
    Sound.Reaches managed k g k' (callFootprint k k' c (.pageMap srcenvid srcva dstenvid dstva perm))
      (SettledCall k c (.pageMap srcenvid srcva dstenvid dstva perm)) := by
  rcases sound.sysPageMap live orderly ran with ⟨-, rfl, -⟩ | ⟨src, dst, checks, ending⟩
  · exact sound.reaches_self
  · have source := sound.envid2env_root live checks.src
    have target := sound.envid2env_root live checks.dst
    have belowSrc : Footprint.walk (.root (some src)) srcva ≤
        callFootprint k k' c (.pageMap srcenvid srcva dstenvid dstva perm) :=
      Footprint.le_trans (Footprint.le_among (fun src => .walk (.root (some src)) srcva)
        ⟨dst, checks⟩) Footprint.le_join_left
    have belowDst : Footprint.slot (.root (some dst)) dstva ≤
        callFootprint k k' c (.pageMap srcenvid srcva dstenvid dstva perm) :=
      Footprint.le_trans (Footprint.le_among (fun dst => .slot (.root (some dst)) dstva)
        ⟨src, checks⟩) Footprint.le_join_right
    have mapped (present : (leafOf k g src srcva).present = true) :
        k.pmap.translateIn (k.envs src).envPml4e srcva ≠ none := by
      have user := Place.mappable_user (Place.mappable_of_le (e := src) checks.srcRange.2)
      rw [sound.translateIn source user, leafTranslation, if_pos present]
      exact by simp
    cases ending with
    | notMapped _ same looked =>
      subst same
      exact looked.reaches sound source belowSrc rfl fun settled => (settled src dst checks).1
    | readOnly _ _ _ same =>
      subst same
      exact sound.reaches_self
    | noTable present _ same _ looked =>
      subst same
      exact looked.reaches sound target (Footprint.le_trans Footprint.walk_le_slot belowDst) rfl
        fun settled => (settled src dst checks).2 (mapped present)
    | done _ _ call _ spare => exact (call.change.mono belowDst).reaches fun _ => spare

theorem Sound.sysPageUnmap_reaches (live : k.Live c) {envid : EnvId}
    {va : Nat} {result : Int} (ran : Jos.sysPageUnmap k c envid va = some (result, k')) :
    Sound.Reaches managed k g k' (callFootprint k k' c (.pageUnmap envid va))
      (SettledCall k c (.pageUnmap envid va)) := by
  rcases sound.sysPageUnmap live ran with ⟨-, rfl⟩ | ⟨-, e, found, low, ending⟩
  · exact sound.reaches_self
  · have target := sound.envid2env_root live found
    have below : Footprint.slot (.root (some e)) va ≤ callFootprint k k' c (.pageUnmap envid va) :=
      Footprint.le_among (fun e => .slot (.root (some e)) va) ⟨found, low⟩
    cases ending with
    | notMapped _ same looked =>
      subst same
      exact looked.reaches sound target (Footprint.le_trans Footprint.walk_le_slot below) rfl
        fun settled => settled e found low
    | done call _ spare => exact (call.change.mono below).reaches fun _ => spare

theorem Sound.sysIpcTrySend_reaches (live : k.Live c) {envid : EnvId}
    {value : BitVec 32} {srcva : Nat} {perm : BitVec 32} {ambient : Ambient} {result : Int}
    (orderly : OrderlyCall k c (.ipcTrySend envid value srcva perm))
    (ran : Jos.sysIpcTrySend k c envid value srcva perm ambient = some (result, k')) :
    Sound.Reaches managed k g k' (callFootprint k k' c (.ipcTrySend envid value srcva perm))
      (SettledCall k c (.ipcTrySend envid value srcva perm)) := by
  have belowSrc : Footprint.walk (.root (some c)) srcva ≤
      callFootprint k k' c (.ipcTrySend envid value srcva perm) := Footprint.le_join_left
  have belowDst {dst : EnvIdx} (found : envid2env k c envid false = some dst)
      (waiting : (k.envs dst).envIpcRecving = true) (page : SendsPage k dst srcva) :
      Footprint.slot (.root (some dst)) (k.envs dst).envIpcDstva ≤
        callFootprint k k' c (.ipcTrySend envid value srcva perm) :=
    Footprint.le_trans (Footprint.le_among
      (fun dst => .slot (.root (some dst)) (k.envs dst).envIpcDstva)
      ⟨found, waiting, page⟩) Footprint.le_join_right
  have delivered {dst : EnvIdx} {m : Pmap npages} {sent : Option (BitVec 32)} {g₁ : Ledger npages}
      {footprint : Footprint} (found : envid2env k c envid false = some dst)
      (sound' : Sound managed (k.setPmap m) g₁) : Change managed (k.setPmap m) g₁
        ((k.setPmap m).setEnv dst (deliveredEnv (k.envs dst) (k.envs c).envId value sent)) g₁
        footprint :=
    sound'.setEnv_change (sameSpace_delivered (sound.envid2env_root live found))
  cases sound.sysIpcTrySend live orderly ran with
  | rejected _ same =>
    subst same
    exact sound.reaches_self
  | notMapped found waiting _ _ same looked =>
    subst same
    exact looked.reaches sound live belowSrc rfl fun settled => (settled _ found waiting).1
  | plain found waiting _ same looked =>
    subst same
    obtain ⟨g', change, spare⟩ := looked.reaches sound live belowSrc rfl
      fun settled : SettledCall k c (.ipcTrySend envid value srcva perm) =>
        (settled _ found waiting).1
    exact (change.trans (delivered found change.sound)).reaches spare
  | refused found _ _ _ same =>
    subst same
    exact sound.reaches_setEnv (sameSpace_delivered (sound.envid2env_root live found))
  | noTable found waiting page deliverable _ same looked =>
    subst same
    obtain ⟨g', change, spare⟩ := looked.reaches sound (sound.envid2env_root live found)
      (Footprint.le_trans Footprint.walk_le_slot (belowDst found waiting page)) rfl
      fun settled : SettledCall k c (.ipcTrySend envid value srcva perm) =>
        (settled _ found waiting).2 page deliverable
    exact (change.trans (delivered found change.sound)).reaches spare
  | done found waiting page _ _ _ _ same call _ spare =>
    subst same
    have change := call.change.mono (belowDst found waiting page)
    exact (change.trans (delivered found change.sound)).reaches fun _ => spare

theorem Sound.envFree_reaches (clean : k.Clean e)
    (ran : Jos.envFree k e = some k') {footprint : Footprint} {settled : Prop}
    (below : Footprint.space e ≤ footprint) (covered : settled → k.InBounds e) :
    Sound.Reaches managed k g k' footprint settled := by
  obtain ⟨g', change, vacated⟩ := sound.envFree_change clean ran
  have live : k.Live e := fun rootless => by
    unfold Jos.envFree at ran
    simp [rootless] at ran
  exact (change.mono below).reaches fun settled =>
    vacated.tight (sound.covered live (covered settled))

theorem Sound.syscall (live : k.Live c) {ambient : Ambient}
    {call : Syscall} {outcome : Outcome} (orderly : OrderlyCall k c call)
    (ran : Jos.syscall k c ambient call = some (outcome, k')) :
    Sound.Reaches managed k g k' (callFootprint k k' c call) (SettledCall k c call) := by
  have returned {result : Option (Int × Kernel npages)}
      (ran : returning result = some (outcome, k')) : ∃ value, result = some (value, k') := by
    obtain ⟨⟨value, k₁⟩, here, same⟩ := Option.map_eq_some_iff.mp ran
    cases same
    exact ⟨value, here⟩
  cases walks : call.walks with
  | true =>
    cases call with
    | cputs s len =>
      obtain ⟨g', change⟩ := sound.checkedCall live orderly ran
      exact change.reaches False.elim
    | netTx buf size =>
      obtain ⟨g', change⟩ := sound.checkedCall live orderly ran
      exact change.reaches False.elim
    | netRx buf =>
      obtain ⟨g', change⟩ := sound.checkedCall live orderly ran
      exact change.reaches False.elim
    | pageAlloc envid va perm =>
      obtain ⟨value, result⟩ := returned ran
      exact sound.sysPageAlloc_reaches live result
    | pageMap srcenvid srcva dstenvid dstva perm =>
      obtain ⟨value, result⟩ := returned ran
      exact sound.sysPageMap_reaches live orderly result
    | pageUnmap envid va =>
      obtain ⟨value, result⟩ := returned ran
      exact sound.sysPageUnmap_reaches live result
    | ipcTrySend envid value srcva perm =>
      obtain ⟨code, result⟩ := returned ran
      exact sound.sysIpcTrySend_reaches live orderly result
    | _ => cases walks
  | false =>
    have same {e : EnvIdx} {checkperm : Bool} {envid : EnvId}
        (found : envid2env k c envid checkperm = some e) : (k.envs e).envPml4e ≠ none :=
      sound.envid2env_root live found
    cases syscall_effect ran with
    | memory same _ still =>
      rw [still walks, Kernel.setPmap_self] at same
      subst same
      exact sound.reaches_self
    | yield same =>
      subst same
      exact sound.reaches_self
    | recv _ after =>
      subst after
      exact sound.reaches_setEnv ⟨rfl, rfl, rfl, rfl, fun rootless => absurd rootless live⟩
    | send _ _ _ _ => cases walks
    | exofork allocated after =>
      subst after
      obtain ⟨g', change, spec⟩ := sound.sysExofork allocated
      refine (change.mono (Footprint.le_among .space ?_)).reaches
        fun _ => spec.tight
      exact fun rooted => rooted spec.fresh
    | setStatus found _ _ after =>
      subst after
      exact sound.reaches_setEnv
        ⟨rfl, rfl, rfl, rfl, fun rootless => absurd rootless (same found)⟩
    | setTrapframe found after =>
      subst after
      exact sound.reaches_setEnv ⟨rfl, rfl, rfl, rfl, fun _ => rfl⟩
    | setUpcall found after =>
      subst after
      exact sound.reaches_setEnv ⟨rfl, rfl, rfl, rfl, fun _ => rfl⟩
    | dying found _ _ after =>
      subst after
      exact sound.reaches_setEnv
        ⟨rfl, rfl, rfl, rfl, fun rootless => absurd rootless (same found)⟩
    | destroy found idle freed =>
      obtain ⟨_, _, vacated⟩ := sound.envFree_change (orderly _ found idle) freed
      exact sound.envFree_reaches (orderly _ found idle) freed
        (Footprint.le_among .space ⟨found, vacated.dead⟩) fun settled => settled _ found idle
    | denied checks _ => cases call <;> simp_all [Syscall.checks, Syscall.walks]

end

theorem sameSpace_popTf {env : Env npages} {runs : BitVec 32} {cpu : Nat} :
    SameSpace env { env with envRuns := runs, envCpunum := cpu } :=
  ⟨rfl, rfl, rfl, rfl, fun _ => rfl⟩

theorem Sound.envSwitch (sound : Sound managed k g) {curenv : Option EnvIdx} {cpu : Nat}
    (ready : curenv = some e ∨ (k.envs e).envStatus = .runnable) :
    Sound managed (Jos.envSwitch k curenv cpu e) g := by
  unfold Jos.envSwitch
  split
  · exact sound.setEnv sameSpace_popTf
  · rename_i other
    have runnable := ready.resolve_left other
    have live {k : Kernel npages} (sound : Sound managed k g) {e : EnvIdx}
        (busy : (k.envs e).envStatus ≠ .free) : (k.envs e).envPml4e ≠ none :=
      fun rootless => busy (sound.idle rootless)
    have setStatus {k : Kernel npages} (sound : Sound managed k g) {e : EnvIdx}
        (busy : (k.envs e).envStatus ≠ .free) (status : EnvStatus) :
        Sound managed (k.setStatus e status) g :=
      sound.setEnv ⟨rfl, rfl, rfl, rfl, fun rootless => absurd rootless (live sound busy)⟩
    have switched (k₁ : Kernel npages) (sound₁ : Sound managed k₁ g)
        (same : (k₁.envs e).envStatus = .runnable) :
        Sound managed (popTf (k₁.setStatus e .running) cpu e) g :=
      (setStatus sound₁ (by rw [same]; decide) _).setEnv sameSpace_popTf
    cases curenv with
    | none => exact switched k sound runnable
    | some old =>
      simp only
      split
      · rename_i running
        refine switched _ (setStatus sound (by rw [running]; decide) _) ?_
        have different : e ≠ old := by
          rintro rfl
          rw [runnable] at running
          cases running
        simpa [Kernel.setStatus, Kernel.setEnv, different] using runnable
      · exact switched k sound runnable

theorem envSwitch_pmap {curenv : Option EnvIdx} {cpu : Nat} :
    (envSwitch k curenv cpu e).pmap = k.pmap := by
  unfold envSwitch
  split
  · rfl
  · cases curenv with
    | none => rfl
    | some old =>
      simp only
      split <;> rfl

/-- Every event keeps the kernel state sound and stores only within its
footprint. -/
theorem Sound.step (sound : Sound managed k g) {event : KernelEvent} (orderly : Orderly k event)
    (ran : kernelStep k event = some k') :
    Sound.Reaches managed k g k' (eventFootprint k k' event) (Settled k event) := by
  cases event with
  | create binary type =>
    obtain ⟨e, g', change, -, rootless, -⟩ := sound.envCreate orderly ran
    exact (change.mono (Footprint.le_among .space fun live => live rootless)).reaches
      False.elim
  | alloc parentId =>
    rcases kernelStep_alloc ran with rfl | ⟨e, allocated⟩
    · exact sound.reaches_self
    · obtain ⟨g', change, spec⟩ := sound.envAlloc_change allocated
      exact (change.mono (Footprint.le_among .space
        fun live => live spec.fresh)).reaches fun _ => spec.tight
  | free e => exact sound.envFree_reaches orderly ran Footprint.le_refl id
  | call c ambient call =>
    obtain ⟨live, outcome, called⟩ := kernelStep_call ran
    exact sound.syscall live orderly called
  | fault c =>
    obtain ⟨live, exit, handled⟩ := kernelStep_fault ran
    obtain ⟨g', change⟩ := sound.pageFaultHandler live orderly handled
    exact change.reaches False.elim
  | frame e tf =>
    cases ran
    exact sound.reaches_setEnv ⟨rfl, rfl, rfl, rfl, fun _ => rfl⟩
  | run curenv cpu e =>
    obtain ⟨ready, rfl⟩ := kernelStep_run ran
    refine ⟨g, ⟨sound.envSwitch ready, ?_⟩, fun _ => rfl⟩
    rw [envSwitch_pmap]
    exact .refl _ _

end Jos
