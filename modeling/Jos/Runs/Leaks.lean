import Jos.Calls.Alike
import Jos.Runs.Sound

/-! Two runs from kernels that differ in what destroyed environments have left behind,
in free pages and in free slots: while that is cleared, no environment can tell one from
the other. -/

set_option autoImplicit false

namespace Jos

open Foundation Function

variable {npages : Nat} {platform platform' : Platform npages} {managed managed' : Set (Fin npages)}
  {g g' : Ledger npages} {k k' k₁ k₁' : Kernel npages} {c e : EnvIdx} {va : Nat}

/-- The events after which nothing that a destroyed environment has left is in use. -/
def Unspoilt (k : Kernel npages) (event : KernelEvent) : Prop :=
  Orderly k event ∧
    match event with
    | .call _ _ call => Clears k call
    | .create .. | .alloc _ => False
    | _ => True

section

variable (alike : k.Alike k')

include alike

theorem Kernel.Alike.symm : k'.Alike k where
  pmap := alike.pmap.symm
  list := alike.list.symm
  live e live := (alike.live e (alike.live_iff.mp live)).symm
  dead e _ :=
    have leftover := alike.leftover e
    ⟨leftover.pml4e.symm, leftover.id.symm, leftover.link.symm, leftover.status.symm⟩

theorem Kernel.Alike.popTf (cpu : Nat) (e : EnvIdx) :
    (Jos.popTf k cpu e).Alike (Jos.popTf k' cpu e) := by
  have leftover := alike.leftover e
  refine alike.update e ⟨leftover.pml4e, leftover.id, leftover.link, leftover.status⟩ fun live => ?_
  rw [alike.live e live]

theorem Kernel.Alike.envSwitch (curenv : Option EnvIdx) (cpu : Nat)
    (e : EnvIdx) : (Jos.envSwitch k curenv cpu e).Alike (Jos.envSwitch k' curenv cpu e) := by
  unfold Jos.envSwitch
  split
  · exact alike.popTf cpu e
  · refine Kernel.Alike.popTf (Kernel.Alike.setStatus ?_ e .running) cpu e
    cases curenv with
    | none => exact alike
    | some old =>
      simp only [(alike.leftover old).status]
      split
      · exact alike.setStatus old .runnable
      · exact alike

section

variable (sound : Sound managed k g)

include sound

theorem Kernel.Alike.step {event : KernelEvent}
    (unspoilt : Unspoilt k event) (unspoilt' : Unspoilt k' event)
    (ran : kernelStep k event = some k₁) :
    ∃ k₁', kernelStep k' event = some k₁' ∧ k₁.Alike k₁' := by
  obtain ⟨orderly, clears⟩ := unspoilt
  cases event with
  | create _ _ => exact clears.elim
  | alloc _ => exact clears.elim
  | free e =>
    have live : (k.envs e).envPml4e ≠ none := by
      intro dead
      simp [kernelStep, Jos.envFree, dead] at ran
    obtain ⟨root, rooted⟩ := Option.ne_none_iff_exists'.mp live
    exact alike.envFree sound rooted (orderly root rooted) ran
  | call c ambient call =>
    simp only [kernelStep] at ran ⊢
    split at ran
    · rename_i live
      rw [if_pos (alike.live_iff.mpr live)]
      obtain ⟨⟨outcome, k₂⟩, called, rfl⟩ := Option.map_eq_some_iff.mp ran
      obtain ⟨k₂', called', alike₂⟩ := alike.syscall sound live orderly clears unspoilt'.2 called
      exact ⟨k₂', by rw [called']; rfl, alike₂⟩
    · cases ran
  | fault c =>
    simp only [kernelStep] at ran ⊢
    split at ran
    · rename_i live
      rw [if_pos (alike.live_iff.mpr live)]
      obtain ⟨⟨exit, k₂⟩, handled, rfl⟩ := Option.map_eq_some_iff.mp ran
      obtain ⟨k₂', handled', alike₂⟩ := alike.pageFaultHandler sound live orderly handled
      exact ⟨k₂', by rw [handled']; rfl, alike₂⟩
    · cases ran
  | frame e tf =>
    cases ran
    have leftover := alike.leftover e
    refine ⟨_, rfl, alike.update e ⟨leftover.pml4e, leftover.id, leftover.link, leftover.status⟩
      fun live => ?_⟩
    rw [alike.live e live]
  | run curenv cpu e =>
    simp only [kernelStep] at ran ⊢
    rw [(alike.leftover e).status]
    split at ran
    · rename_i ready
      cases ran
      exact ⟨_, if_pos ready, alike.envSwitch curenv cpu e⟩
    · cases ran

theorem Kernel.Alike.runs
    {events : List KernelEvent} (along : Along kernelStep Unspoilt k events k₁)
    (along' : Along kernelStep Unspoilt k' events k₁') :
    k₁.Alike k₁' ∧ ∃ g₁, Sound managed k₁ g₁ := by
  induction along generalizing k₁' with
  | nil =>
    obtain rfl := Option.some.inj along'.run_eq
    exact ⟨alike, g, sound⟩
  | snoc _ unspoilt stepped ih =>
    obtain ⟨middle', before', unspoilt', stepped'⟩ := along'.of_snoc
    obtain ⟨same, g₁, sound₁⟩ := ih before'
    obtain ⟨final', ran', alike₁⟩ := same.step sound₁ unspoilt unspoilt' stepped
    cases ran'.symm.trans stepped'
    obtain ⟨g₂, change, -⟩ := sound₁.step unspoilt.1 stepped
    exact ⟨alike₁, g₂, change.sound⟩

theorem Kernel.Alike.returns
    (sound' : Sound managed' k' g') (live : k.Live c) {ambient : Ambient} {call : Syscall}
    (unspoilt : Unspoilt k (.call c ambient call)) (unspoilt' : Unspoilt k' (.call c ambient call)) :
    (Jos.syscall k' c ambient call).map Prod.fst = (Jos.syscall k c ambient call).map Prod.fst := by
  cases ran : Jos.syscall k c ambient call with
  | some pair =>
    obtain ⟨outcome, k₁⟩ := pair
    obtain ⟨k₁', ran', -⟩ := alike.syscall sound live unspoilt.1 unspoilt.2 unspoilt'.2 ran
    rw [ran']
    rfl
  | none =>
    cases ran' : Jos.syscall k' c ambient call with
    | none => rfl
    | some pair =>
      obtain ⟨outcome, k₁'⟩ := pair
      obtain ⟨k₁, answered, -⟩ := alike.symm.syscall sound' (alike.live_iff.mpr live) unspoilt'.1
        unspoilt'.2 unspoilt.2 ran'
      rw [ran] at answered
      cases answered

theorem Kernel.Alike.reads (live : k.Live e)
    (bound : va ≤ utop) {found : Translation} (mapped : k.view e va = some found)
    {page : Fin npages} (here : page.val = found.ppn) : k'.pmap.mem page = k.pmap.mem page := by
  have mappable := Place.mappable_of_le (e := e) bound
  rw [Kernel.view, sound.translateIn live (Place.mappable_user mappable)] at mapped
  rcases sound.valid.leaf_cases mappable with empty | ⟨holder, target, there, leaf, maps⟩
  · rw [leafOf, empty] at mapped
    cases mapped
  · rw [leafOf, leaf] at mapped
    have ppn : found.ppn = target.val := by
      unfold leafTranslation at mapped
      rw [if_pos maps.present] at mapped
      rw [← Option.some.inj mapped]
      exact maps.ppn
    obtain rfl : page = target := Fin.ext (here.trans ppn)
    refine alike.pmap.at_of sound.valid fun listed => ?_
    exact (sound.valid.free_unused listed).unmapped there mappable maps.present maps.ppn

end

end

theorem Sound.sysPageAlloc_clear (sound : Sound managed k g) (live : k.Live c) {envid : EnvId}
    {perm : BitVec 32}
    (clear : ∀ page, k.pmap.pageFreeList = some page → k.pmap.mem page = fun _ => 0)
    (ran : Jos.sysPageAlloc k c envid va perm = some (0, k₁)) :
    ∃ e found page, envid2env k c envid true = some e ∧ k₁.view e va = some found ∧
      page.val = found.ppn ∧ k₁.pmap.mem page = fun _ => 0 := by
  rcases sound.sysPageAlloc live ran with ⟨failed, -⟩ | ⟨e, checks, ending⟩
  · exact absurd failed (by decide)
  · obtain ⟨found, allowed, aligned, bound⟩ := checks
    obtain ⟨root, rooted⟩ := sound.envid2env_live live found
    have mappable := Place.mappable_of_le (e := e) bound
    generalize success : (0 : Int) = result at ending
    cases ending with
    | noPage _ _ => cases success
    | noTable _ _ _ _ _ => cases success
    | @done page rest g₁ listed _ call leaf _ =>
      have rooted₁ : (k₁.envs e).envPml4e ≠ none := by
        obtain ⟨m, rfl⟩ := sysPageAlloc_memory ran
        change (k.envs e).envPml4e ≠ none
        rw [rooted]
        exact Option.some_ne_none root
      have present : (⟨page.val, perm.setWidth 12 ||| pteP⟩ : Pte).present = true := by
        simp [Pte.present, pteP]
      have mapped : k₁.view e va = some
          ⟨page.val, tablePerm, tablePerm, tablePerm, perm.setWidth 12 ||| pteP⟩ := by
        rw [Kernel.view, call.sound.translateIn rooted₁ (Place.mappable_user mappable), leaf]
        exact if_pos present
      refine ⟨e, _, page, found, mapped, rfl, ?_⟩
      have member : page ∈ g.free := by simp [listed]
      have chain := sound.valid.pool.chain
      have distinct := chain.nodup
      rw [listed] at chain distinct
      unfold Jos.sysPageAlloc at ran
      rw [found, sound.valid.pageAlloc_eq listed] at ran
      simp only [if_neg (not_not.mpr allowed),
        if_neg (not_or.mpr ⟨not_not.mpr aligned, Nat.not_lt.mpr bound⟩), rooted] at ran
      obtain ⟨⟨code, m₁⟩, inserted, ended⟩ := Option.bind_eq_some_iff.mp ran
      cases ended
      have kept := (sound.valid.take listed false).pageInsert_contents rooted mappable
        (List.nodup_cons.mp distinct).1 (sound.valid.free_unused member).unplaced inserted
      exact kept.trans (clear page chain.1)

/-- Two kernels that differ in what destroyed environments have left behind, and that
agree on every environment. -/
structure Indistinct (k k' : Kernel npages) : Prop where
  envs : ∀ e, k.Live e → k'.envs e = k.envs e
  views : ∀ e va, k.Live e → va ≤ utop → k'.view e va = k.view e va
  reads : ∀ e va found, k.Live e → va ≤ utop → k.view e va = some found →
    ∀ page : Fin npages, page.val = found.ppn → k'.pmap.mem page = k.pmap.mem page
  calls : ∀ c ambient call, k.Live c → Unspoilt k (.call c ambient call) →
    Unspoilt k' (.call c ambient call) →
      (syscall k' c ambient call).map Prod.fst = (syscall k c ambient call).map Prod.fst

/-- `env_free` of an environment without page tables. It takes physical page 0 for the
missing table. -/
theorem envFree_bare {root zero : Fin npages} (rooted : (k.envs e).envPml4e = some root)
    (cr3 : (k.envs e).envCr3 = root.val) (empty : k.pmap.mem root 0 = 0) (first : zero.val = 0)
    (clear : ∀ i ∈ ([0, 1, 2, 3] : List Index), (k.pmap.mem zero i).present = false)
    (unused : (k.pmap.pages zero).ppRef = 0) (unlinked : (k.pmap.pages root).ppLink = none) :
    envFree k e = some
      { pmap := ((k.pmap.setRef zero 65535).setEntry (root, 0) 0).dropRef root
        envs := update k.envs e
          { k.envs e with
            envPml4e := none
            envCr3 := 0
            envStatus := .free
            envLink := k.envFreeList }
        envFreeList := some e } := by
  have ppn : (k.pmap.mem root 0).ppn = zero.val := by
    rw [empty, first]
    rfl
  have wrapped : pageDecref k.pmap zero = some (k.pmap.setRef zero 65535) := by
    unfold pageDecref
    rw [unused]
    exact if_neg (by rw [Pmap.setRef_ref, if_pos rfl]; decide)
  have freed : pageDecref ((k.pmap.setRef zero 65535).setEntry (root, 0) 0) root =
      some (((k.pmap.setRef zero 65535).setEntry (root, 0) 0).dropRef root) :=
    Pmap.pageDecref_eq (Pmap.setRef_link.trans unlinked)
  simp only [envFree, rooted, Option.bind_eq_bind, Option.bind_some, ppn, kaddr_val,
    freeNothing clear, pa2page_val, wrapped, cr3, freed]
  rfl

theorem Pmap.dropRef_list {m : Pmap npages} {page : Fin npages} (listed : m.pageFreeList ≠ none) :
    (m.dropRef page).pageFreeList ≠ none := by
  unfold dropRef
  split
  · rw [insertAtBegining_list]
    exact Option.some_ne_none page
  · exact listed

/-- `sys_exofork` leaves the IPC fields of the slot as the last environment had
them. -/
theorem Sound.sysExofork_leaves (sound : Sound managed k g) (head : k.envFreeList = some e)
    (listed : k.pmap.pageFreeList ≠ none) :
    ((Jos.sysExofork k c).2).Live e ∧
      ((Jos.sysExofork k c).2.envs e).envIpcDstva = (k.envs e).envIpcDstva := by
  have chain := sound.valid.pool.chain
  cases free : g.free with
  | nil =>
    rw [free] at chain
    exact absurd chain listed
  | cons root rest =>
    have allocated := envAlloc_eq (k.envs c).envId sound.valid
    rw [head, free] at allocated
    simp only [Jos.sysExofork, allocated, Kernel.Live, Kernel.setEnv, update_self]
    exact ⟨Option.some_ne_none root, rfl⟩

/-- An environment whose last `sys_ipc_recv` was for `dstva` has been destroyed. -/
theorem sample_leftover : ∃ (c e : EnvIdx) (k : Nat → Kernel 4096), (k 0).Alike (k pgSize) ∧
    ∀ dstva, dstva < utop → dstva % pgSize = 0 →
      Reached sample Orderly (k dstva) ∧ (k dstva).Live c ∧ (k dstva).envFreeList = some e ∧
        (k dstva).pmap.pageFreeList ≠ none ∧ ((k dstva).envs e).envIpcDstva = dstva := by
  obtain ⟨k₀, g₀, e, ⟨start, events, booted, along⟩, fresh₀, live₀, only, bare⟩ :=
    sample_bare Orderly fun _ => trivial
  obtain ⟨other, differs⟩ := exists_ne e
  obtain ⟨c, k, g, allocated, fresh, spec⟩ :=
    fresh₀.alloc ⟨other, fun live => differs (only other live)⟩ 0
  have stepped : kernelStep k₀ (.alloc 0) = some k := by simp only [kernelStep, allocated]
  have distinct : e ≠ c := by
    rintro rfl
    exact live₀ spec.fresh
  obtain ⟨page, envs, -, -, -, tables⟩ := spec.envs
  have live : k.Live e := by
    rw [Kernel.Live, envs, update_of_ne distinct]
    exact live₀
  have liveC : k.Live c := by
    rw [Kernel.Live, envs, update_self]
    exact Option.some_ne_none page
  obtain ⟨root, rooted⟩ := live.root
  have sound := fresh.sound
  have valid := sound.valid
  have here := valid.top rooted
  have inside : root ∈ sample.managed := valid.tree.tableManaged here (by simp [Place.root])
  have empty : k.pmap.mem root 0 = 0 := by
    have plain : (Place.root (some e)).child 0 = ⟨some e, [0]⟩ := Place.child_plain fun special => by
      have := special.2.2
      revert this
      decide
    rw [valid.tree.link here (by simp) 0, plain, tables, update_of_ne (by simp [Place.root]),
      bare]
    rfl
  have first := sound.reserved 0 rfl
  have clear (i : Index) : k.pmap.mem 0 i = 0 := congrFun (fresh.idle 0 first.1 first.2) i
  have unlinked := valid.pool.unlinked root inside (valid.not_free_of_placed ⟨_, here⟩)
  have stocked : k.pmap.pageFreeList ≠ none := by
    intro none
    have chain := valid.pool.chain
    have room := fresh.room
    rw [none] at chain
    cases free : g.free with
    | nil => simp [free] at room
    | cons page rest =>
      rw [free] at chain
      cases chain.1
  -- the slot after the call, and after the environment has been destroyed
  let received (dstva : Nat) : Env 4096 :=
    { k.envs e with
      envIpcDstva := dstva
      envIpcRecving := true
      envStatus := .notRunnable
      envTf :=
        { (k.envs e).envTf with tfRegs := { (k.envs e).envTf.tfRegs with regRax := 0 } } }
  let left (dstva : Nat) : Kernel 4096 :=
    { pmap := ((k.pmap.setRef 0 65535).setEntry (root, 0) 0).dropRef root
      envs := update (k.setEnv e (received dstva)).envs e
        { received dstva with
          envPml4e := none
          envCr3 := 0
          envStatus := .free
          envLink := k.envFreeList }
      envFreeList := some e }
  have slot (dstva : Nat) : (k.setEnv e (received dstva)).envs e = received dstva :=
    update_self ..
  have freed (dstva : Nat) : envFree (k.setEnv e (received dstva)) e = some (left dstva) := by
    have rooted' : ((k.setEnv e (received dstva)).envs e).envPml4e = some root := by
      rw [slot]
      exact rooted
    have cr3 : ((k.setEnv e (received dstva)).envs e).envCr3 = root.val := by
      rw [slot]
      exact sound.cr3 rooted
    have absent (i : Index) (_ : i ∈ ([0, 1, 2, 3] : List Index)) :
        ((k.setEnv e (received dstva)).pmap.mem 0 i).present = false := by
      change (k.pmap.mem 0 i).present = false
      rw [clear i]
      rfl
    rw [envFree_bare rooted' cr3 empty rfl absent (fresh.refs 0 first.1) unlinked, slot]
    rfl
  have gone (dstva : Nat) : ((left dstva).envs e).envPml4e = none ∧
      ((left dstva).envs e).envIpcDstva = dstva := by
    simp only [left, update_self]
    exact ⟨trivial, rfl⟩
  have others (dstva : Nat) {x : EnvIdx} (differs : x ≠ e) : (left dstva).envs x = k.envs x :=
    (update_of_ne differs ..).trans (update_of_ne differs ..)
  refine ⟨c, e, left, ⟨.refl _, rfl, fun x live => ?_, fun x dead => ?_⟩, fun dstva low aligned =>
    ⟨?_, ?_, rfl, Pmap.dropRef_list stocked, (gone dstva).2⟩⟩
  · have differs : x ≠ e := by
      rintro rfl
      exact live (gone 0).1
    rw [others 0 differs, others pgSize differs]
  · by_cases same : x = e
    · subst same
      simp only [left, update_self]
      exact ⟨rfl, rfl, rfl, rfl⟩
    · rw [others 0 same, others pgSize same]
      exact ⟨rfl, rfl, rfl, rfl⟩
  · have called : kernelStep k (.call e ⟨none, 0, none⟩ (.ipcRecv dstva)) =
        some (k.setEnv e (received dstva)) := by
      simp only [kernelStep, if_pos live, syscall, sysIpcRecv, aligned, low, not_true_eq_false,
        and_false, if_true, if_false, ne_eq, Option.map_some]
      rfl
    have clean : Orderly (k.setEnv e (received dstva)) (.free e) := by
      intro root' _ _ zero isZero i _
      obtain rfl : zero = 0 := Fin.ext isZero
      change (k.pmap.mem 0 i).present = false
      rw [clear i]
      rfl
    have second : Along kernelStep Orderly start (events ++ [.alloc 0]) k :=
      along.snoc trivial stepped
    have third : Along kernelStep Orderly start
        (events ++ [.alloc 0] ++ [.call e ⟨none, 0, none⟩ (.ipcRecv dstva)])
        (k.setEnv e (received dstva)) := second.snoc trivial called
    exact ⟨start, _, booted, third.snoc clean (freed dstva)⟩
  · rw [Kernel.Live, others dstva distinct.symm]
    exact liveC

end Jos
