import Jos.Lib.Malloc

/-! The heaps of the environments that `fork` makes stay apart. -/

set_option autoImplicit false

namespace Jos

open Foundation Function

/-- The environment `e` changes its own pages only. -/
def Kept (live : Nat → Prop) (e : Nat) (w w' : World) : Prop :=
  ∀ image, Family.Follows ⟨w, image, live⟩ →
    ∃ image', Family.Follows ⟨w', image', live⟩ ∧ ∀ other, other ≠ e → image' other = image other

section

variable {live : Nat → Prop} {answers : ForkCall → Int} {e : Nat} {w w' w'' : World}

theorem Kept.refl : Kept live e w w := fun image follows => ⟨image, follows, fun _ _ => rfl⟩

theorem Kept.trans (first : Kept live e w w') (second : Kept live e w' w'') :
    Kept live e w w'' := by
  intro image follows
  obtain ⟨image', follows', same⟩ := first image follows
  obtain ⟨image'', follows'', same'⟩ := second image' follows'
  exact ⟨image'', follows'', fun other differ => (same' other differ).trans (same other differ)⟩

theorem image_other {image : Nat → Image} {value : Image} {other : Nat} (differ : other ≠ e) :
    update image e value other = image other :=
  update_of_ne differ ..

theorem Kept.pageAlloc {pn : Nat} {perm : BitVec 12} (unshared : (perm ||| pteP) &&& pteShare = 0) :
    Kept live e w (w.pageAlloc e pn perm) := by
  intro image follows
  refine ⟨_, @Family.Follows.replace ⟨w, image, live⟩ e pn _ (some ⟨w.next, perm ||| pteP⟩) follows
    (fun _ _ => rfl) (fun other q _ => World.pageAlloc_uvpt) (fun other q entry there => ?_)
    fun entry new => ?_, fun other differ => image_other differ⟩
  · rw [World.pageAlloc_uvpt] at there
    split at there
    · rename_i here
      exact .inl ⟨here.1, here.2, there⟩
    · exact .inr there
  · obtain rfl := Option.some.inj new
    exact ⟨le_rfl, unshared⟩

theorem Kept.remove {pn : Nat} : Kept live e w (w.remove e pn) := by
  intro image follows
  refine ⟨_, @Family.Follows.replace ⟨w, image, live⟩ e pn _ none follows (fun _ _ => rfl)
    (fun other q _ => World.remove_uvpt) (fun other q entry there => ?_)
    (fun entry new => by cases new), fun other differ => image_other differ⟩
  rw [World.remove_uvpt] at there
  split at there
  · cases there
  · exact .inr there

theorem Kept.unmap {pn : Nat} : Kept live e w (w.unmap answers e pn) := by
  unfold World.unmap
  split
  · exact .refl
  · exact .remove

theorem Kept.writeByte {va : Nat} {byte : BitVec 8} (inherited : Inherited (vpn va))
    (wrote : w.writeByte answers e va byte = some w') : Kept live e w w' := by
  intro image follows
  cases found : (w.space e).uvpt (vpn va) with
  | none =>
    rw [writeByte_absent inherited.apart found] at wrote
    cases wrote
  | some entry =>
    obtain ⟨after, ran, follows'⟩ := @Family.Follows.write ⟨w, image, live⟩ e va entry answers byte
      follows inherited (fun fixed => writeByte_handles wrote found fixed) found
    cases wrote.symm.trans ran
    exact ⟨_, follows', fun other differ => image_other differ⟩

theorem Kept.writeWord {va : Nat} {word : BitVec 32}
    (inherited : ∀ i, i < 4 → Inherited (vpn (va + i)))
    (wrote : w.writeWord answers e va word = some w') : Kept live e w w' := by
  unfold World.writeWord at wrote
  obtain ⟨w₁, first, wrote⟩ := Option.bind_eq_some_iff.mp wrote
  obtain ⟨w₂, second, wrote⟩ := Option.bind_eq_some_iff.mp wrote
  obtain ⟨w₃, third, last⟩ := Option.bind_eq_some_iff.mp wrote
  have start : Kept live e w w₁ := .writeByte (inherited 0 (by decide)) first
  have middle : Kept live e w₁ w₂ := .writeByte (inherited 1 (by decide)) second
  have late : Kept live e w₂ w₃ := .writeByte (inherited 2 (by decide)) third
  exact start.trans (middle.trans (late.trans (.writeByte (inherited 3 (by decide)) last)))

theorem inherited_ref {pn : Nat} (low : vpn mbegin ≤ pn) (high : pn < vpn mend) :
    ∀ i, i < 4 → Inherited (vpn (pn * pgSize + pgSize - 4 + i)) := by
  intro i small
  have page : vpn (pn * pgSize + pgSize - 4 + i) = pn := by
    unfold vpn pgSize
    omega
  have bottom : vpn mbegin = 32768 := rfl
  have top : vpn mend = 65536 := rfl
  have text : vpn utext = 2048 := rfl
  have stack : vpn ustackTop = 980990 := rfl
  rw [page]
  exact ⟨by omega, by omega⟩

theorem freeRun_spec {left pn last : Nat} (ran : freeRun answers e left pn w = some (last, w')) :
    Kept live e w w' ∧ pn ≤ last ∧ last < pn + left := by
  induction left generalizing pn w with
  | zero => cases ran
  | succ left ih =>
    unfold freeRun at ran
    split at ran
    · obtain ⟨kept, low, high⟩ := ih ran
      exact ⟨Kept.unmap.trans kept, by omega, by omega⟩
    · obtain ⟨rfl, rfl⟩ := Prod.mk.inj (Option.some.inj ran)
      exact ⟨.refl, le_rfl, by omega⟩

theorem Kept.free {v : Nat} (ran : free answers e v w = some w') : Kept live e w w' := by
  unfold Jos.free at ran
  split at ran
  · obtain rfl := Option.some.inj ran
    exact .refl
  split at ran
  · cases ran
  rename_i inside
  obtain ⟨⟨last, middle⟩, walked, ran⟩ := Option.bind_eq_some_iff.mp ran
  obtain ⟨count, -, ran⟩ := Option.bind_eq_some_iff.mp ran
  obtain ⟨counted, wrote, rfl⟩ := Option.map_eq_some_iff.mp ran
  obtain ⟨kept, low, high⟩ := @freeRun_spec live _ _ _ _ _ _ _ walked
  have bottom : mbegin = 134217728 := rfl
  have top : mend = 268435456 := rfl
  have start : vpn mbegin ≤ vpn v ∧ vpn v < vpn mend := by
    unfold vpn pgSize
    omega
  have written : Kept live e middle counted :=
    .writeWord (inherited_ref (by omega) (by omega)) wrote
  refine kept.trans (written.trans ?_)
  split
  · exact .unmap
  · exact .refl

theorem seek_spec {s : Space} {n left nwrap start found : Nat} (aligned : start % pgSize = 0)
    (low : mbegin ≤ start) (ran : seek s n left nwrap start = some (some found)) :
    found % pgSize = 0 ∧ mbegin ≤ found ∧ isfree s found (n + 4) = true := by
  induction left generalizing nwrap start with
  | zero => cases ran
  | succ left ih =>
    unfold seek at ran
    split at ran
    · rename_i free
      cases Option.some.inj ran
      exact ⟨aligned, low, free⟩
    split at ran
    · split at ran
      · cases ran
      · exact ih rfl le_rfl ran
    · exact ih (by simp only [pgSize] at *; omega) (by omega) ran

theorem isfree_below {s : Space} {va n : Nat} (positive : 0 < n) (free : isfree s va n = true) :
    va < mend := by
  unfold isfree at free
  have first := List.all_eq_true.mp free 0 (List.mem_range.mpr (by unfold pgSize; omega))
  simp only [Nat.zero_mul, Nat.add_zero, Bool.and_eq_true, decide_eq_true_eq] at first
  exact first.1

/-- Where `mptr` of an environment may stand. -/
def Seated (mptr : Nat) : Prop := mptr = 0 ∨ mbegin ≤ mptr ∧ mptr ≤ mend

def FitsPage (n : Nat) : Prop := mallocSize n + 4 ≤ pgSize

variable {p p' : Process} {n result mptr : Nat}

theorem mallocPages_one {base : Nat} (fits : n + 4 ≤ pgSize) :
    mallocPages answers e base n 1 0 w =
      if answers (.pageAlloc e (vpn base) (permPrivate ||| 0)) < 0 then
        (false, w.unmap answers e (vpn base))
      else (true, w.pageAlloc e (vpn base) (permPrivate ||| 0)) := by
  have last : ¬ (0 + 1) * pgSize < n + 4 := by omega
  have start : base + 0 * pgSize = base := by omega
  unfold mallocPages mallocPages unwind unwind
  rw [if_neg last, start]

theorem mallocAt_spec (fits : n + 4 ≤ pgSize) (level : mptr % pgSize = 0)
    (above : mbegin ≤ mptr) (below : mptr < mend)
    (ran : mallocAt answers e n mptr p w = some (result, p')) :
    Kept live e w p'.world ∧ ∃ at', Seated at' ∧ p'.mptr = update p.mptr e at' := by
  have bottom : mbegin = 134217728 := rfl
  have top : mend = 268435456 := rfl
  have one : blockPages n = 1 := by
    unfold blockPages
    have page : pgSize = 4096 := rfl
    rw [page] at fits ⊢
    omega
  have ref : mptr + 1 * pgSize - 4 = vpn mptr * pgSize + pgSize - 4 := by
    simp only [vpn, pgSize] at level ⊢
    omega
  have start : vpn mbegin ≤ vpn mptr ∧ vpn mptr < vpn mend := by
    simp only [vpn, pgSize]
    omega
  unfold mallocAt at ran
  rw [one, mallocPages_one fits, ref] at ran
  by_cases refused : answers (.pageAlloc e (vpn mptr) (permPrivate ||| 0)) < 0
  · simp only [refused, if_true, Bool.false_eq_true, if_false, Option.some.injEq,
      Prod.mk.injEq] at ran
    obtain ⟨-, rfl⟩ := ran
    exact ⟨.unmap, _, .inr ⟨above, below.le⟩, rfl⟩
  · simp only [refused, if_false, if_true, Option.map_eq_some_iff, Prod.mk.injEq] at ran
    obtain ⟨written, wrote, -, rfl⟩ := ran
    have filled : Kept live e (w.pageAlloc e (vpn mptr) (permPrivate ||| 0)) written :=
      .writeWord (inherited_ref start.1 start.2) wrote
    refine ⟨Kept.trans (.pageAlloc (by decide)) filled, _, .inr ⟨?_, ?_⟩, rfl⟩
    · omega
    · simp only [pgSize] at fits level
      omega

theorem mallocFresh_spec (fits : n + 4 ≤ pgSize) (aligned : mptr % pgSize = 0)
    (low : mbegin ≤ mptr) (ran : mallocFresh answers e n mptr p w = some (result, p')) :
    Kept live e w p'.world ∧ ∃ at', Seated at' ∧ p'.mptr = update p.mptr e at' := by
  have bottom : mbegin = 134217728 := rfl
  have top : mend = 268435456 := rfl
  unfold mallocFresh at ran
  obtain ⟨sought, seeking, ran⟩ := Option.bind_eq_some_iff.mp ran
  cases sought with
  | none =>
    cases ran
    exact ⟨.refl, _, .inr ⟨le_rfl, by omega⟩, rfl⟩
  | some found =>
    obtain ⟨level, above, free⟩ := seek_spec aligned low seeking
    exact mallocAt_spec fits level above (isfree_below (by omega) free) ran

theorem malloc_spec (fits : FitsPage n) (seated : Seated (p.mptr e))
    (ran : malloc answers e n p = some (result, p')) :
    Kept live e p.world p'.world ∧
      ∃ at', Seated at' ∧ p'.mptr = update p.mptr e at' := by
  have bottom : mbegin = 134217728 := rfl
  have top : mend = 268435456 := rfl
  unfold FitsPage at fits
  unfold malloc at ran
  generalize start : (if p.mptr e = 0 then mbegin else p.mptr e) = mptr at ran
  have inside : mbegin ≤ mptr ∧ mptr ≤ mend := by
    unfold Seated at seated
    split at start <;> omega
  generalize mallocSize n = n at ran fits
  dsimp only at ran
  split at ran
  · rename_i huge
    simp only [pgSize] at fits
    unfold maxMalloc at huge
    omega
  split at ran
  · rename_i aligned
    exact mallocFresh_spec fits aligned inside.1 ran
  rename_i misaligned
  split at ran
  · rename_i room
    obtain ⟨count, -, ran⟩ := Option.bind_eq_some_iff.mp ran
    obtain ⟨written, wrote, same⟩ := Option.map_eq_some_iff.mp ran
    obtain ⟨-, rfl⟩ := Prod.mk.inj same
    have ref : roundUp mptr - 4 = vpn mptr * pgSize + pgSize - 4 := by
      simp only [roundUp, roundDown, vpn, pgSize] at misaligned ⊢
      omega
    have heap : vpn mbegin ≤ vpn mptr ∧ vpn mptr < vpn mend := by
      simp only [vpn, pgSize] at misaligned ⊢
      omega
    rw [ref] at wrote
    refine ⟨.writeWord (inherited_ref heap.1 heap.2) wrote, _, .inr ⟨?_, ?_⟩, rfl⟩
    · omega
    · simp only [pgSize] at misaligned room
      omega
  · obtain ⟨freed, dropped, ran⟩ := Option.bind_eq_some_iff.mp ran
    have next : roundDown (mptr + pgSize) % pgSize = 0 ∧ mbegin ≤ roundDown (mptr + pgSize) := by
      simp only [roundDown, pgSize]
      omega
    obtain ⟨kept, seat⟩ := @mallocFresh_spec live answers e freed p p' n result _ fits next.1 next.2 ran
    exact ⟨(Kept.free dropped).trans kept, seat⟩

end

end Jos
