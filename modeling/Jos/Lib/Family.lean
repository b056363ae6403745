import Jos.Lib.Access
import Jos.Foundation.Run

/-! A tree of environments made by `fork`, next to the same tree made by copying
every page at once. -/

set_option autoImplicit false

namespace Jos

open Foundation Function

/-- An address space by pages: whether each may be written, and its contents. -/
abbrev Image := Nat → Option (Bool × Page)

inductive Access where
  | read (e va : Nat)
  | write (answers : ForkCall → Int) (e va : Nat) (byte : BitVec 8)
  | fork (answers : ForkCall → Int) (first : Bool) (e : Nat)

inductive Result where
  | byte (b : BitVec 8)
  | done
  | child (e : Nat)
  | fault
deriving DecidableEq, Repr

/-- An access as the code carries it out. An environment that faults goes no
further; what its handler did until then concerns nobody else. -/
def World.access (w : World) : Access → Result × World
  | .read e va =>
    match w.readByte e va with
    | some b => (.byte b, w)
    | none => (.fault, w)
  | .write answers e va byte =>
    match w.writeByte answers e va byte with
    | some w => (.done, w)
    | none => (.fault, w)
  | .fork answers first e =>
    match fork answers first e w with
    | some (envid, r) => (.child envid.toNat, r.world)
    | none => (.fault, w)

def eagerAccess (image : Nat → Image) : Access → Result × (Nat → Image)
  | .read e va =>
    match image e (vpn va) with
    | some (_, page) => (.byte (page (pgOff va)), image)
    | none => (.fault, image)
  | .write _ e va byte =>
    match image e (vpn va) with
    | some (true, page) =>
      (.done, update image e (update (image e) (vpn va)
        (some (true, update page (pgOff va) byte))))
    | _ => (.fault, image)
  | .fork answers _ e =>
    (.child (answers .exofork).toNat,
      update image (answers .exofork).toNat (image e))

structure Family where
  world : World
  image : Nat → Image
  live : Nat → Prop

def Family.step (f : Family) (a : Access) : Option Family :=
  some
    { world := (f.world.access a).2
      image := (eagerAccess f.image a).2
      live := match a with
        | .fork answers _ _ => fun e => f.live e ∨ e = (answers .exofork).toNat
        | _ => f.live }

/-- The pages that `fork` copies. -/
def Inherited (pn : Nat) : Prop := vpn utext ≤ pn ∧ pn < vpn ustackTop

theorem Inherited.apart {pn : Nat} (inherited : Inherited pn) : pn ≠ vpn pftemp := by
  rintro rfl
  exact absurd inherited.1 (by decide)

theorem Inherited.xstack {pn : Nat} (inherited : Inherited pn) : pn ≠ uxstackPage := by
  rintro rfl
  exact absurd inherited.2 (by decide)

def Pte.owned (entry : Pte) : Bool := entry.writable || entry.cow

/-- The image of an environment is what its address space shows, and a frame that
somebody can write is mapped nowhere else in the tree. -/
structure Family.Follows (f : Family) : Prop where
  pages : ∀ e pn, f.live e → Inherited pn → f.image e pn =
    ((f.world.space e).uvpt pn).map fun entry => (entry.owned, f.world.mem entry.ppn)
  alone : ∀ e pn entry other q copy, (f.world.space e).uvpt pn = some entry →
    entry.writable = true → f.live other → Inherited q →
    (f.world.space other).uvpt q = some copy → copy.ppn = entry.ppn → other = e ∧ q = pn
  unshared : ∀ e pn entry, f.live e → Inherited pn →
    (f.world.space e).uvpt pn = some entry → entry.perm &&& pteShare = 0

/-- Accesses to the copied pages, writes that hit no read-only page, and forks that
return and give the child every page. -/
def Family.Admits (f : Family) : Access → Prop
  | .read e va => f.live e ∧ Inherited (vpn va)
  | .write answers e va _ => f.live e ∧ Inherited (vpn va) ∧ Succeeds answers ∧
      ∀ entry, (f.world.space e).uvpt (vpn va) = some entry → entry.owned = true
  | .fork answers first e => f.live e ∧
      ∃ envid r, fork answers first e f.world = some (envid, r) ∧ 0 < envid ∧
        ¬ f.live envid.toNat ∧ Forkable answers first e envid.toNat f.world ∧
        ∀ entry, (f.world.space e).uvpt ustackPage = some entry → entry.owned = true

namespace Family

variable {f f' : Family} {e va pn : Nat} {entry : Pte} {answers : ForkCall → Int}

theorem masks_bit {perm mask : BitVec 12} {i : Nat} (one : mask = BitVec.twoPow 12 i)
    (there : mask ≠ 0) : perm &&& mask ≠ 0 ↔ perm.getLsbD i = true := by
  rw [one, BitVec.and_twoPow]
  rw [one] at there
  cases perm.getLsbD i with
  | true => simpa using there
  | false => simp

theorem unshared_iff {perm : BitVec 12} : perm &&& pteShare = 0 ↔ perm.getLsbD 10 = false := by
  have bit := @masks_bit perm pteShare 10 rfl (by decide)
  rw [← Bool.not_eq_true, ← bit, not_not]

theorem remarked_iff {perm : BitVec 12} (unshared : perm.getLsbD 10 = false) :
    Remarked perm ↔ (perm.getLsbD 1 || perm.getLsbD 11) = true := by
  have writable := @masks_bit (perm &&& pteSyscall) pteW 1 rfl (by decide)
  have copied := @masks_bit (perm &&& pteSyscall) pteCow 11 rfl (by decide)
  have kept : ∀ i, i = 1 ∨ i = 11 → pteSyscall.getLsbD i = true := by
    rintro i (rfl | rfl) <;> decide
  rw [Remarked, unshared_iff, writable, copied]
  simp only [BitVec.getLsbD_and, unshared, kept, Bool.and_true, true_or, or_true, Bool.false_and,
    true_and, Bool.or_eq_true]

theorem dupPerm_eq {perm : BitVec 12} (unshared : perm.getLsbD 10 = false) :
    (Remarked perm → dupPerm perm = (perm &&& pteSyscall ||| pteCow) &&& ~~~pteW) ∧
      (¬ Remarked perm → dupPerm perm = perm &&& pteSyscall) := by
  have apart : perm &&& pteSyscall &&& pteShare = 0 := by
    rw [unshared_iff, BitVec.getLsbD_and, unshared, Bool.false_and]
  unfold dupPerm
  dsimp only
  rw [if_neg (not_not.mpr apart)]
  exact ⟨fun remarked => if_pos remarked.2, fun plain => if_neg fun marked => plain ⟨apart, marked⟩⟩

theorem dupPerm_bits (perm : BitVec 12) (unshared : perm &&& pteShare = 0) :
    (dupPerm perm ||| pteP).getLsbD 1 = false ∧
      (dupPerm perm ||| pteP).getLsbD 11 = (perm.getLsbD 1 || perm.getLsbD 11) ∧
      (dupPerm perm ||| pteP) &&& pteShare = 0 := by
  rw [unshared_iff] at unshared ⊢
  obtain ⟨marked, kept⟩ := dupPerm_eq unshared
  have bits := remarked_iff unshared
  have shared : perm[10] = false := unshared
  by_cases remarked : Remarked perm
  · rw [marked remarked, bits.mp remarked]
    simp [shared, pteCow, pteW, pteP]
  · have neither := bits.not.mp remarked
    rw [Bool.not_eq_true, Bool.or_eq_false_iff] at neither
    have readOnly : perm[1] = false := neither.1
    have uncopied : perm[11] = false := neither.2
    rw [kept remarked]
    simp [shared, readOnly, uncopied, pteP]

theorem markedPerm_bits (perm : BitVec 12) (unshared : perm &&& pteShare = 0) :
    (markedPerm perm).getLsbD 1 = false ∧
      (markedPerm perm).getLsbD 11 = (perm.getLsbD 1 || perm.getLsbD 11) ∧
      markedPerm perm &&& pteShare = 0 := by
  unfold markedPerm
  by_cases remarked : Remarked perm
  · rw [if_pos remarked]
    exact dupPerm_bits perm unshared
  · have neither := (remarked_iff (unshared_iff.mp unshared)).not.mp remarked
    rw [Bool.not_eq_true, Bool.or_eq_false_iff] at neither
    rw [if_neg remarked, neither.1, neither.2]
    exact ⟨rfl, rfl, unshared⟩

theorem private_owned {ppn : Nat} : (⟨ppn, permPrivate ||| pteP⟩ : Pte).owned = true := by
  unfold Pte.owned
  rw [private_writable, Bool.true_or]

theorem private_unshared : (permPrivate ||| pteP) &&& pteShare = 0 := by
  decide

theorem image_write {image : Nat → Image} {value : Option (Bool × Page)} {other q : Nat} :
    update image e (update (image e) pn value) other q =
      if other = e ∧ q = pn then value else image other q := by
  simp only [update_apply]
  split
  · rename_i same
    subst same
    simp only [update_apply, true_and]
  · rename_i differ
    rw [if_neg fun both => differ both.1]

/-- One page of one environment is replaced, if at all, by one in a new frame. -/
theorem Follows.replace {w' : World} {value : Option Pte} (follows : f.Follows)
    (mem : ∀ ppn, ppn < f.world.next → w'.mem ppn = f.world.mem ppn)
    (uvpt : ∀ other q, Inherited q → (w'.space other).uvpt q =
      if other = e ∧ q = pn then value else (f.world.space other).uvpt q)
    (entries : ∀ other q entry, (w'.space other).uvpt q = some entry →
      other = e ∧ q = pn ∧ value = some entry ∨ (f.world.space other).uvpt q = some entry)
    (fresh : ∀ entry, value = some entry →
      f.world.next ≤ entry.ppn ∧ entry.perm &&& pteShare = 0) :
    Family.Follows ⟨w', update f.image e (update (f.image e) pn
      (value.map fun entry => (entry.owned, w'.mem entry.ppn))), f.live⟩ := by
  refine ⟨fun other q alive shown => ?_,
    fun e₀ pn₀ entry₀ other q copy there written alive shown copied same => ?_,
    fun other q copy alive shown there => ?_⟩
  · dsimp only
    rw [image_write, uvpt other q shown]
    split
    · rfl
    · rw [follows.pages other q alive shown]
      refine Option.map_congr fun copy there => ?_
      rw [mem copy.ppn (f.world.mapped other q copy there)]
  · obtain ⟨rfl, rfl, new⟩ | old := entries e₀ pn₀ entry₀ there
    · obtain ⟨rfl, rfl, -⟩ | before := entries other q copy copied
      · exact ⟨rfl, rfl⟩
      · have bounded := f.world.mapped other q copy before
        have fresh := (fresh entry₀ new).1
        omega
    · have bounded := f.world.mapped e₀ pn₀ entry₀ old
      obtain ⟨-, -, new⟩ | before := entries other q copy copied
      · have fresh := (fresh copy new).1
        omega
      · exact follows.alone e₀ pn₀ entry₀ other q copy old written alive shown before same
  · obtain ⟨-, -, new⟩ | before := entries other q copy there
    · exact (fresh copy new).2
    · exact follows.unshared other q copy alive shown before

theorem Follows.write {byte : BitVec 8} (follows : f.Follows) (inherited : Inherited (vpn va))
    (answered : entry.writable = false → Handles answers e (vpn va))
    (found : (f.world.space e).uvpt (vpn va) = some entry) :
    ∃ w', f.world.writeByte answers e va byte = some w' ∧
      Family.Follows ⟨w', update f.image e (update (f.image e) (vpn va)
        (some (true, update (f.world.mem entry.ppn) (pgOff va) byte))), f.live⟩ := by
  cases writable : entry.writable with
  | true =>
    refine ⟨_, writeByte_writable found writable, ?_, follows.alone, follows.unshared⟩
    intro other q alive shown
    simp only [image_write, World.poke, World.store]
    by_cases here : other = e ∧ q = vpn va
    · obtain ⟨rfl, rfl⟩ := here
      simp [found, Pte.owned, writable]
    · rw [if_neg here, follows.pages other q alive shown]
      cases there : (f.world.space other).uvpt q with
      | none => rfl
      | some copy =>
        -- Another page has another frame.
        have differ : copy.ppn ≠ entry.ppn := fun same =>
          here (follows.alone e _ entry other q copy found writable alive shown there same)
        simp only [Option.map_some, update_of_ne differ]
  | false =>
    obtain ⟨w', wrote, after⟩ :=
      @writeByte_unshared answers f.world e va byte entry (answered writable) inherited.apart found writable
    refine ⟨w', wrote, ?_⟩
    have replaced := @Follows.replace f e (vpn va) w' (some ⟨f.world.next, permPrivate ||| pteP⟩)
      follows (fun ppn small => ?_) (fun other q shown => ?_) (fun other q copy there => ?_)
      fun copy new => ?_
    · rw [Option.map_some, private_owned, after.mem, update_self] at replaced
      exact replaced
    · rw [after.mem, update_of_ne small.ne]
    · rw [after.uvpt, if_neg fun both => shown.apart both.2]
    · rw [after.uvpt] at there
      split at there
      · cases there
      split at there
      · rename_i here
        exact .inl ⟨here.1, here.2, there⟩
      · exact .inr there
    · obtain rfl := Option.some.inj new
      exact ⟨le_rfl, private_unshared⟩

/-- What `fork` leaves behind, when it covers all pages. -/
structure Spread (w : World) (e child : Nat) (r : Forking) : Prop where
  kept : ∀ q, Inherited q → (r.world.space e).uvpt q =
    ((w.space e).uvpt q).map fun entry => ⟨entry.ppn, markedPerm entry.perm⟩
  given : ∀ q, Inherited q → q ≠ ustackPage → (r.world.space child).uvpt q =
    ((w.space e).uvpt q).map fun entry => ⟨entry.ppn, dupPerm entry.perm ||| pteP⟩
  nothing : ∀ q entry, ¬ Inherited q → q ≠ uxstackPage →
    (r.world.space child).uvpt q ≠ some entry

theorem spread {first : Bool} {w : World} {child frame : Nat}
    {r : Forking} {source : Pte} (forkable : Forkable answers first e child w)
    (born : Born answers w e child r source frame) : Spread w e child r where
  kept q inherited := by
    cases found : (w.space e).uvpt q with
    | none =>
      cases there : (r.world.space e).uvpt q with
      | none => rfl
      | some entry =>
        obtain old | ⟨xstack, -⟩ := born.unmarked q entry (fun _ => found) there
        · rw [found] at old
          cases old
        · exact absurd xstack inherited.xstack
    | some entry =>
      have visits := forkable.covered q entry inherited.1 inherited.2 found
      refine born.marked q entry visits found fun remarked => ?_
      refine forkable.copied q entry visits found _ ?_
      rw [dupCalls, if_pos remarked]
      simp
  given q inherited stackless := by
    cases found : (w.space e).uvpt q with
    | none => exact born.passed q stackless inherited.xstack fun _ => found
    | some entry =>
      have visits := forkable.covered q entry inherited.1 inherited.2 found
      exact born.copied q entry stackless inherited.xstack visits found
        (forkable.copied q entry visits found _ (List.mem_cons_self ..))
  nothing q entry outside xstackless there := by
    have passed : ¬ Visits (w.space e).toTables ustackPage q := fun visits =>
      outside ⟨visits.low, Nat.lt_succ_of_le visits.le⟩
    have stackless : q ≠ ustackPage := by
      rintro rfl
      exact outside ⟨by decide, by decide⟩
    rw [born.passed q stackless xstackless fun visits => absurd visits passed] at there
    cases there

theorem Follows.fork {first : Bool} {envid : Int} {r : Forking}
    (follows : f.Follows) (live : f.live e)
    (ran : Jos.fork answers first e f.world = some (envid, r)) (positive : 0 < envid)
    (fresh : ¬ f.live envid.toNat) (forkable : Forkable answers first e envid.toNat f.world)
    (stack : ∀ entry, (f.world.space e).uvpt ustackPage = some entry → entry.owned = true) :
    Family.Follows ⟨r.world, update f.image envid.toNat (f.image e),
      fun other => f.live other ∨ other = envid.toNat⟩ := by
  have differ : envid.toNat ≠ e := fun same => fresh (same ▸ live)
  obtain ⟨source, frame, born⟩ := fork_born differ ran positive fun call listed =>
    forkable.answered call (List.mem_append_right _ listed)
  have spread := spread forkable born
  have below := born.fresh
  have bounded := f.world.mapped
  have mem : ∀ ppn, ppn < f.world.next → r.world.mem ppn = f.world.mem ppn := by
    intro ppn small
    rw [born.mem, update_of_ne (by omega)]
  -- Every inherited page but the child's stack was there before the fork.
  have origin : ∀ other q copy, f.live other ∨ other = envid.toNat → Inherited q →
      (r.world.space other).uvpt q = some copy →
      other = envid.toNat ∧ q = ustackPage ∧ copy = ⟨frame + 1, permPrivate ||| pteP⟩ ∨
      ∃ from' old, f.live from' ∧ (f.world.space from').uvpt q = some old ∧ old.ppn = copy.ppn ∧
        copy.owned = old.owned ∧ copy.perm &&& pteShare = 0 ∧
        (from' = e ∧ copy.writable = false ∨ from' = other ∧ other ≠ e ∧ other ≠ envid.toNat) := by
    intro other q copy alive inherited there
    by_cases given : other = envid.toNat
    · subst given
      by_cases moved : q = ustackPage
      · subst moved
        exact .inl ⟨rfl, rfl, Option.some.inj (there.symm.trans born.moved)⟩
      · rw [spread.given q inherited moved] at there
        obtain ⟨old, found, rfl⟩ := Option.map_eq_some_iff.mp there
        have bits := dupPerm_bits old.perm (follows.unshared e q old live inherited found)
        refine .inr ⟨e, old, live, found, rfl, ?_, bits.2.2, .inl ⟨rfl, bits.1⟩⟩
        unfold Pte.owned Pte.writable Pte.cow
        rw [bits.1, bits.2.1, Bool.false_or]
    · by_cases own : other = e
      · subst own
        rw [spread.kept q inherited] at there
        obtain ⟨old, found, rfl⟩ := Option.map_eq_some_iff.mp there
        have bits := markedPerm_bits old.perm (follows.unshared other q old live inherited found)
        refine .inr ⟨other, old, live, found, rfl, ?_, bits.2.2, .inl ⟨rfl, bits.1⟩⟩
        unfold Pte.owned Pte.writable Pte.cow
        rw [bits.1, bits.2.1, Bool.false_or]
      · have alive := alive.resolve_right given
        rw [born.others other q given own] at there
        exact .inr ⟨other, copy, alive, there, rfl, rfl,
          follows.unshared other q copy alive inherited there, .inr ⟨rfl, own, given⟩⟩
  -- What may be written after the fork is new, or is no page that was copied.
  have written : ∀ e₀ pn₀ entry₀, (r.world.space e₀).uvpt pn₀ = some entry₀ →
      entry₀.writable = true →
      e₀ = envid.toNat ∧ pn₀ = ustackPage ∧ entry₀.ppn = frame + 1 ∨
      f.world.next ≤ entry₀.ppn ∧ entry₀.ppn ≤ frame ∨
      (f.world.space e₀).uvpt pn₀ = some entry₀ ∧ e₀ ≠ envid.toNat ∧
        (e₀ = e → ¬ Inherited pn₀) := by
    intro e₀ pn₀ entry₀ there writable
    by_cases given : e₀ = envid.toNat
    · subst given
      by_cases moved : pn₀ = ustackPage
      · subst moved
        cases there.symm.trans born.moved
        exact .inl ⟨rfl, rfl, rfl⟩
      by_cases xstack : pn₀ = uxstackPage
      · subst xstack
        cases there.symm.trans born.xstack
        exact .inr (.inl ⟨below, le_rfl⟩)
      by_cases inherited : Inherited pn₀
      · rw [spread.given pn₀ inherited moved] at there
        obtain ⟨old, found, rfl⟩ := Option.map_eq_some_iff.mp there
        have bits := dupPerm_bits old.perm (follows.unshared e pn₀ old live inherited found)
        exact absurd (bits.1.symm.trans writable) (by decide)
      · exact absurd there (spread.nothing pn₀ entry₀ inherited xstack)
    · by_cases own : e₀ = e
      · subst own
        by_cases inherited : Inherited pn₀
        · rw [spread.kept pn₀ inherited] at there
          obtain ⟨old, found, rfl⟩ := Option.map_eq_some_iff.mp there
          have bits := markedPerm_bits old.perm (follows.unshared e₀ pn₀ old live inherited found)
          exact absurd (bits.1.symm.trans writable) (by decide)
        · have passed : ¬ Visits (f.world.space e₀).toTables ustackPage pn₀ := fun visits =>
            inherited ⟨visits.low, Nat.lt_succ_of_le visits.le⟩
          obtain old | ⟨-, low, high⟩ :=
            born.unmarked pn₀ entry₀ (fun visits => absurd visits passed) there
          · exact .inr (.inr ⟨old, given, fun _ => inherited⟩)
          · exact .inr (.inl ⟨low, high.le⟩)
      · rw [born.others e₀ pn₀ given own] at there
        exact .inr (.inr ⟨there, given, fun same => absurd same own⟩)
  refine ⟨fun other q alive inherited => ?_,
    fun e₀ pn₀ entry₀ other q copy there writable alive inherited copied same => ?_,
    fun other q copy alive inherited there => ?_⟩
  · dsimp only at alive
    simp only [update_apply]
    split
    · rename_i given
      subst given
      rw [follows.pages e q live inherited]
      by_cases moved : q = ustackPage
      · subst moved
        rw [born.stack, born.moved]
        simp only [Option.map_some, private_owned, stack source born.stack, born.mem,
          update_self]
      · rw [spread.given q inherited moved, Option.map_map]
        refine Option.map_congr fun entry found => ?_
        have bits := dupPerm_bits entry.perm (follows.unshared e q entry live inherited found)
        simp only [comp, mem entry.ppn (bounded e q entry found), Pte.owned, Pte.writable,
          Pte.cow, bits, Bool.false_or]
    · rename_i given
      have alive := alive.resolve_right given
      rw [follows.pages other q alive inherited]
      by_cases own : other = e
      · subst own
        rw [spread.kept q inherited, Option.map_map]
        refine Option.map_congr fun entry found => ?_
        have bits := markedPerm_bits entry.perm
          (follows.unshared other q entry live inherited found)
        simp only [comp, mem entry.ppn (bounded other q entry found), Pte.owned,
          Pte.writable, Pte.cow, bits, Bool.false_or]
      · rw [born.others other q given own]
        refine Option.map_congr fun entry found => ?_
        rw [mem entry.ppn (bounded other q entry found)]
  · dsimp only at there alive copied
    obtain ⟨rfl, rfl, rfl⟩ | ⟨from', old, alive', found, frames, -, -, which⟩ :=
      origin other q copy alive inherited copied
    · obtain ⟨rfl, rfl, -⟩ | ⟨low, high⟩ | ⟨old, -⟩ := written e₀ pn₀ entry₀ there writable
      · exact ⟨rfl, rfl⟩
      · have same : frame + 1 = entry₀.ppn := same
        omega
      · have small := bounded e₀ pn₀ entry₀ old
        have same : frame + 1 = entry₀.ppn := same
        omega
    · have small := bounded from' q old found
      obtain ⟨-, -, high⟩ | ⟨low, high⟩ | ⟨before, given, outside⟩ :=
        written e₀ pn₀ entry₀ there writable
      · omega
      · omega
      · obtain ⟨rfl, rfl⟩ := follows.alone e₀ pn₀ entry₀ from' q old before writable alive'
          inherited found (frames.trans same)
        obtain ⟨own, -⟩ | ⟨rfl, -⟩ := which
        · exact absurd inherited (outside own)
        · exact ⟨rfl, rfl⟩
  · obtain ⟨-, -, rfl⟩ | ⟨_, _, _, _, _, _, unshared, _⟩ := origin other q copy alive inherited there
    · exact private_unshared
    · exact unshared

/-- Every admitted access has the outcome that it has on eager copies, and the two
stay together. -/
theorem Follows.access {a : Access} (follows : f.Follows) (admitted : f.Admits a) :
    (f.world.access a).1 = (eagerAccess f.image a).1 ∧
      ∀ f', f.step a = some f' → f'.Follows := by
  cases a with
  | read e va =>
    obtain ⟨live, inherited⟩ := admitted
    have pages := follows.pages e (vpn va) live inherited
    refine ⟨?_, fun f' stepped => ?_⟩
    · unfold World.access eagerAccess World.readByte
      simp only [pages]
      cases (f.world.space e).uvpt (vpn va) with
      | none => rfl
      | some entry => rfl
    · obtain rfl := Option.some.inj stepped
      unfold World.access eagerAccess World.readByte
      simp only [pages]
      cases (f.world.space e).uvpt (vpn va) with
      | none => exact follows
      | some entry => exact follows
  | write answers e va byte =>
    obtain ⟨live, inherited, answered, owned⟩ := admitted
    have pages := follows.pages e (vpn va) live inherited
    cases found : (f.world.space e).uvpt (vpn va) with
    | none =>
      have refused := @writeByte_absent answers f.world e va byte inherited.apart found
      rw [found, Option.map_none] at pages
      refine ⟨?_, fun f' stepped => ?_⟩
      · unfold World.access eagerAccess
        simp only [refused, pages]
      · obtain rfl := Option.some.inj stepped
        unfold World.access eagerAccess
        simp only [refused, pages]
        exact follows
    | some entry =>
      have owned := owned entry found
      obtain ⟨w', wrote, after⟩ :=
        @Follows.write f e va entry answers byte follows inherited
          (fun _ => answered.handles) found
      rw [found, Option.map_some, owned] at pages
      refine ⟨?_, fun f' stepped => ?_⟩
      · unfold World.access eagerAccess
        simp only [wrote, pages]
      · obtain rfl := Option.some.inj stepped
        unfold World.access eagerAccess
        simp only [wrote, pages]
        exact after
  | fork answers first e =>
    obtain ⟨live, envid, r, ran, positive, fresh, forkable, stack⟩ := admitted
    obtain ⟨_, _, _, created, _⟩ := fork_positive ran positive
    refine ⟨?_, fun f' stepped => ?_⟩
    · unfold World.access eagerAccess
      simp only [ran, created]
    · obtain rfl := Option.some.inj stepped
      unfold World.access eagerAccess
      simp only [ran, created]
      exact follows.fork live ran positive fresh forkable stack

/-- A tree of one environment, none of whose copied pages is shared with another. -/
def Started (f : Family) : Prop := (∃ e, ∀ other, f.live other ↔ other = e) ∧ f.Follows

theorem reached_follows (reached : Reachable Started Family.step Family.Admits f) : f.Follows := by
  obtain ⟨start, accesses, ⟨-, follows⟩, along⟩ := reached
  exact along.preserves Family.Follows follows fun before a after holds admitted stepped =>
    (holds.access admitted).2 after stepped

end Family

/-- In every tree of forks whose accesses write no read-only page, each access has
the outcome that it has when every fork copies all pages at once. -/
theorem copiesEagerly {f : Family} {a : Access}
    (reached : Reachable Family.Started Family.step Family.Admits f) (admitted : f.Admits a) :
    (f.world.access a).1 = (eagerAccess f.image a).1 :=
  ((Family.reached_follows reached).access admitted).1

/-- The environment 1 alone, with its stack and one other page. -/
def sampleFamily (perm : BitVec 12) : Family where
  world := sampleWorld true perm
  image e pn := (((sampleWorld true perm).space e).uvpt pn).map fun entry =>
    (entry.owned, (sampleWorld true perm).mem entry.ppn)
  live e := e = 1

theorem sample_entry {perm : BitVec 12} {e pn : Nat} {entry : Pte}
    (there : ((sampleWorld true perm).space e).uvpt pn = some entry) :
    e = 1 ∧ (pn = ustackPage ∧ entry = ⟨0, permPrivate⟩ ∨ pn = lowPage ∧ entry = ⟨1, perm⟩) := by
  simp only [sampleWorld] at there
  split at there
  · rename_i same
    simp only [sampleSpace] at there
    split at there
    · rename_i stack
      exact ⟨same, .inl ⟨stack, (Option.some.inj there).symm⟩⟩
    · split at there
      · rename_i low
        exact ⟨same, .inr ⟨low, (Option.some.inj there).symm⟩⟩
      · cases there
  · cases there

theorem sampleFamily_started {perm : BitVec 12} (unshared : perm &&& pteShare = 0) :
    (sampleFamily perm).Started := by
  refine ⟨⟨1, fun _ => Iff.rfl⟩, fun _ _ _ _ => rfl,
    fun e pn entry other q copy there _ _ _ copied same => ?_, fun e pn entry _ _ there => ?_⟩
  · obtain ⟨rfl, ⟨rfl, rfl⟩ | ⟨rfl, rfl⟩⟩ := sample_entry there
    · obtain ⟨rfl, ⟨rfl, rfl⟩ | ⟨rfl, rfl⟩⟩ := sample_entry copied
      · exact ⟨rfl, rfl⟩
      · cases same
    · obtain ⟨rfl, ⟨rfl, rfl⟩ | ⟨rfl, rfl⟩⟩ := sample_entry copied
      · cases same
      · exact ⟨rfl, rfl⟩
  · obtain ⟨-, ⟨-, rfl⟩ | ⟨-, rfl⟩⟩ := sample_entry there
    · decide
    · exact unshared

theorem sample_admits (perm : BitVec 12) :
    (sampleFamily perm).Admits (.fork sampleAnswers false 1) := by
  obtain ⟨r, ran⟩ := sample_fork true perm
  refine ⟨rfl, 2, r, ran, by decide, by change ¬ (2 : Int).toNat = 1; decide,
    sample_forkable perm, fun entry there => ?_⟩
  obtain ⟨-, ⟨-, rfl⟩ | ⟨low, -⟩⟩ := sample_entry there
  · decide
  · exact absurd low (by decide)

theorem sample_copiesEagerly : ∃ f : Family, ∃ a : Access,
    (f.world.access a).1 = (eagerAccess f.image a).1 ∧ f.Admits a :=
  ⟨sampleFamily permPrivate, .fork sampleAnswers false 1,
    copiesEagerly ⟨_, [], sampleFamily_started (by decide), .nil⟩ (sample_admits permPrivate),
    sample_admits permPrivate⟩

def permReadOnly : BitVec 12 := pteP ||| pteU

/-- After a fork, the child writes to a page that it has for reading only: the page
fault handler gives it a copy that it may write. -/
theorem readOnly_not_copiesEagerly : ∃ f : Family, ∃ a : Access,
    Reachable Family.Started Family.step Family.Admits f ∧
      a = .write sampleAnswers 2 (lowPage * pgSize) 1#8 ∧
      (f.world.access a).1 = .done ∧ (eagerAccess f.image a).1 = .fault := by
  have admitted := sample_admits permReadOnly
  obtain ⟨f, stepped⟩ : ∃ f, (sampleFamily permReadOnly).step (.fork sampleAnswers false 1) = some f :=
    ⟨_, rfl⟩
  have reached : Reachable Family.Started Family.step Family.Admits f :=
    ⟨_, [.fork sampleAnswers false 1], sampleFamily_started (by decide),
      @Along.snoc _ _ _ _ _ [] _ _ _ .nil admitted stepped⟩
  have follows := Family.reached_follows reached
  have image : f.image 2 lowPage = some (false, fun _ => 0) := by
    cases stepped
    rfl
  have live : f.live 2 := by
    cases stepped
    exact .inr rfl
  have inherited : Inherited lowPage := ⟨by decide, by decide⟩
  have page : vpn (lowPage * pgSize) = lowPage := by decide
  have pages := follows.pages 2 lowPage live inherited
  rw [image] at pages
  obtain ⟨entry, found, same⟩ := Option.map_eq_some_iff.mp pages.symm
  have fixed : entry.writable = false := by
    have owned : entry.owned = false := (Prod.mk.inj same).1
    unfold Pte.owned at owned
    exact (Bool.or_eq_false_iff.mp owned).1
  have answered : Succeeds sampleAnswers := by
    intro call differ
    cases call with
    | exofork => exact absurd rfl differ
    | _ => rfl
  obtain ⟨w', wrote, -⟩ := @writeByte_unshared sampleAnswers f.world 2 (lowPage * pgSize) 1#8 entry
    answered.handles (page ▸ inherited.apart) (page.symm ▸ found) fixed
  refine ⟨f, _, reached, rfl, ?_, ?_⟩
  · simp only [World.access, wrote]
  · simp only [eagerAccess, page, image]

end Jos
