import Jos.Lib.Fd

/-! The descriptor table refines a finite map from numbers to objects, as long as
`dup` names another number of the table. -/

set_option autoImplicit false

namespace Jos

open Foundation Function

namespace Fds

/-- What a descriptor denotes: its page, and its data page when it is an end of a
pipe. -/
structure Object where
  fd : Nat
  data : Option Nat
deriving DecidableEq, Repr

abbrev Table := Fin maxFd → Option Object

def number (i : Fin maxFd) : BitVec 32 := BitVec.ofNat 32 i.val

def Table.Closed (t : Table) (n : BitVec 32) : Prop := ∀ i, n = number i → t i = none

def Table.Smallest (t : Table) (i : Fin maxFd) : Prop := t i = none ∧ ∀ j < i, t j ≠ none

def Table.Unused (t : Table) (page : Nat) : Prop := ∀ i o, t i = some o → o.fd ≠ page

inductive Meets (f f' : Files) (t : Table) : Call → Answer → Table → Prop where
  | opened {device : Device} {i : Fin maxFd} {page : Nat} : t.Smallest i → t.Unused page →
      Meets f f' t (.open device) ⟨i.val, none⟩ (update t i (some ⟨page, none⟩))
  | openFull {device : Device} {r : Int} : (∀ i, t i ≠ none) → r < 0 →
      Meets f f' t (.open device) ⟨r, none⟩ t
  | piped {room : Files.Room} {i j : Fin maxFd} {p q data : Nat} : t.Smallest i →
      Table.Smallest (update t i (some ⟨p, some data⟩)) j → t.Unused p → t.Unused q → p ≠ q →
      Meets f f' t (.pipe room) ⟨0, some (i.val, j.val)⟩
        (update (update t i (some ⟨p, some data⟩)) j (some ⟨q, some data⟩))
  | pipeFailed {room : Files.Room} {r : Int} : r < 0 → Meets f f' t (.pipe room) ⟨r, none⟩ t
  | dup {i j : Fin maxFd} {o : Object} {answer : Int} {roomData roomFd : Bool} : t i = some o →
      Meets f f' t (.dup (number i) (number j) answer roomData roomFd) ⟨j.val, none⟩
        (update t j (some o))
  /-- Nothing is mapped or unmapped. -/
  | dupOutside {old new : BitVec 32} {r answer : Int} {roomData roomFd : Bool} :
      ¬ t.Closed old → (∀ j, new ≠ number j) → r < 0 → f' = f →
      Meets f f' t (.dup old new answer roomData roomFd) ⟨r, none⟩ t
  | dupClosed {old new : BitVec 32} {r answer : Int} {roomData roomFd : Bool} : t.Closed old →
      r < 0 → Meets f f' t (.dup old new answer roomData roomFd) ⟨r, none⟩ t
  | close {i : Fin maxFd} {r answer : Int} : t i ≠ none →
      Meets f f' t (.close (number i) answer) ⟨r, none⟩ (update t i none)
  | closeClosed {n : BitVec 32} {r answer : Int} : t.Closed n → r < 0 →
      Meets f f' t (.close n answer) ⟨r, none⟩ t
  | closeAll {answers : Nat → Int} :
      Meets f f' t (.closeAll answers) ⟨0, none⟩ fun _ => none

def fdPage (i : Fin maxFd) : Nat := 0xD0000 + i.val
def dataPage (i : Fin maxFd) : Nat := 0xD0020 + i.val

def Sharable (perm : BitVec 12) : Prop := permValid ((perm &&& pteSyscall).setWidth 32) = true

def Files.Shows (f : Files) (pn : Nat) : Option Nat → Prop
  | none => f.space.uvpt pn = none
  | some page => ∃ perm, f.space.uvpt pn = some ⟨page, perm⟩ ∧ Sharable perm

/-- The two pages of a number are mapped as the object that it denotes has them. -/
structure Files.Binds (f : Files) (i : Fin maxFd) (object : Option Object) : Prop where
  fd : f.Shows (fdPage i) (object.map Object.fd)
  data : f.Shows (dataPage i) (object.bind Object.data)
  kind : ∀ o, object = some o → (f.devId o.fd = devpipeId ↔ o.data.isSome = true)
  fresh : ∀ o, object = some o → o.fd < f.next

def Files.Represents (f : Files) (t : Table) : Prop := ∀ i, f.Binds i (t i)

/-- A `dup` of an open descriptor goes to another number of the table, or so far
beyond it that the kernel refuses both pages. -/
def Files.Safe (f : Files) : Call → Prop
  | .dup old new _ _ _ => f.fdLookup old = none ∨ new.toNat < maxFd ∧ new ≠ old ∨
      utop < (index2Fd new).toNat ∧ utop < (fd2data (index2Fd new)).toNat
  | _ => True

/-- The table region: the addresses of the descriptor pages and the data pages. -/
structure Addressed (va : Va) (pn : Nat) : Prop where
  aligned : va.toNat % pgSize = 0
  low : va.toNat < utop
  nonzero : va.toNat ≠ 0
  page : vpn va.toNat = pn
  table : pn / 512 = 0x680

theorem addressed_fd (i : Fin maxFd) : Addressed (index2Fd (number i)) (fdPage i) := by
  have all : ∀ i : Fin maxFd, (index2Fd (number i)).toNat = 0xD0000000 + i.val * 4096 := by decide
  have bound : i.val < 32 := i.isLt
  have top : utop = 0x8000800000 := by decide
  refine ⟨?_, ?_, ?_, ?_, ?_⟩ <;> simp only [all, fdPage, vpn, pgSize, top] <;> omega

theorem addressed_data (i : Fin maxFd) :
    Addressed (fd2data (index2Fd (number i))) (dataPage i) := by
  have all : ∀ i : Fin maxFd,
      (fd2data (index2Fd (number i))).toNat = 0xD0020000 + i.val * 4096 := by decide
  have bound : i.val < 32 := i.isLt
  have top : utop = 0x8000800000 := by decide
  refine ⟨?_, ?_, ?_, ?_, ?_⟩ <;> simp only [all, dataPage, vpn, pgSize, top] <;> omega

theorem fd2num_index2Fd : ∀ i : Fin maxFd, (fd2num (index2Fd (number i))).toNat = i.val := by
  decide

theorem index2Fd_injective : ∀ i : Fin maxFd, (fd2num (index2Fd (number i))).setWidth 32 =
    number i := by
  decide

theorem number_of_lt {n : BitVec 32} (small : n.toNat < maxFd) : n = number ⟨n.toNat, small⟩ := by
  simp [number]

theorem Sharable.present {perm : BitVec 12} (sharable : Sharable perm) :
    perm &&& pteSyscall ||| pteP = perm &&& pteSyscall := by
  unfold Sharable permValid at sharable
  simp only [Bool.decide_and, Bool.and_eq_true, decide_eq_true_eq] at sharable
  have bit : pteP.setWidth 32 = BitVec.twoPow 32 0 := by decide
  have present : (perm &&& pteSyscall).getLsbD 0 = true := by
    by_contra clear
    refine sharable.2.1 ?_
    rw [bit, BitVec.and_twoPow]
    refine if_neg ?_
    simpa only [BitVec.getLsbD_setWidth, Nat.zero_lt_succ, decide_true, Bool.true_and] using clear
  have single : pteP = BitVec.twoPow 12 0 := by decide
  ext j bound
  rw [BitVec.getElem_or, single, BitVec.getElem_twoPow]
  by_cases zero : j = 0
  · subst zero
    simpa using present
  · simp [zero]

theorem Sharable.kept {perm : BitVec 12} (sharable : Sharable perm) :
    Sharable (perm &&& pteSyscall ||| pteP) := by
  rw [sharable.present, Sharable, BitVec.and_assoc, BitVec.and_self]
  exact sharable

theorem writable_syscall {perm : BitVec 12} (writes : perm &&& pteSyscall &&& pteW ≠ 0) :
    perm.getLsbD 1 = true := by
  have bit : pteW = BitVec.twoPow 12 1 := by decide
  have kept : pteSyscall &&& pteW = pteW := by decide
  rw [BitVec.and_assoc, kept, bit, BitVec.and_twoPow] at writes
  by_contra clear
  exact writes (if_neg clear)

variable {f f' : Files} {t t' : Table} {o : Object} {va src dst : Va} {pn p q : Nat} {i j : Fin maxFd}
  {n : BitVec 32} {room : Bool}

namespace Files

theorem pte_eq (here : Addressed va pn) : f.pte va = f.space.uvpt pn := by
  have table : va.toNat / ptSize = pn / 512 := by
    rw [← here.page, vpn, Nat.div_div_eq_div_mul]
    rfl
  unfold pte
  rw [here.page, table]
  split
  · rfl
  · rename_i absent
    cases there : f.space.uvpt pn with
    | none => rfl
    | some entry => exact absurd (f.space.tabled pn entry there).2.2 absent

theorem sysPageUnmap_eq (here : Addressed va pn) :
    f.sysPageUnmap va = (0, { f with space := f.space.remove pn }) := by
  have inside : ¬ (va.toNat = 0 ∨ va.toNat ≥ utop ∨ va.toNat % pgSize ≠ 0) := by
    have aligned := here.aligned
    have low := here.low
    have nonzero := here.nonzero
    omega
  rw [sysPageUnmap, if_neg inside, here.page]

theorem sysPageAlloc_eq (here : Addressed va pn) (enough : room = true) :
    f.sysPageAlloc room va permShare = (0, { f with
      space := f.space.insert pn ⟨f.next, permShare⟩
      next := f.next + 1 }) := by
  have inside : ¬ (va.toNat % pgSize ≠ 0 ∨ va.toNat > utop) := by
    have aligned := here.aligned
    have low := here.low
    omega
  have present : permShare ||| pteP = permShare := by decide
  rw [sysPageAlloc, if_neg (by decide), if_neg inside, here.page, present, enough]
  rfl

theorem sysPageAlloc_full (here : Addressed va pn) (full : room = false) :
    f.sysPageAlloc room va permShare = (-eNoMem, f) := by
  have inside : ¬ (va.toNat % pgSize ≠ 0 ∨ va.toNat > utop) := by
    have aligned := here.aligned
    have low := here.low
    omega
  rw [sysPageAlloc, if_neg (by decide), if_neg inside, full]
  rfl

/-- The descriptor pages and the data pages share a page table, so that a mapping
between them needs no memory. -/
theorem sysPageMap_eq (from_ : Addressed src p) (to_ : Addressed dst q) {entry : Pte}
    {perm : BitVec 12} (there : f.space.uvpt p = some entry)
    (valid : permValid (perm.setWidth 32) = true)
    (writes : perm &&& pteW ≠ 0 → entry.writable = true) :
    f.sysPageMap room src dst perm =
      (0, { f with space := f.space.insert q ⟨entry.ppn, perm ||| pteP⟩ }) := by
  have inside : ¬ ((dst.toNat % pgSize ≠ 0 ∨ dst.toNat > utop) ∨
      (src.toNat % pgSize ≠ 0 ∨ src.toNat > utop)) := by
    have first := from_.aligned
    have second := to_.aligned
    have low := from_.low
    have low' := to_.low
    omega
  have reach : f.space.Reach q := by
    have reach := f.space.tabled p entry there
    unfold Tables.Reach at reach ⊢
    rw [from_.table] at reach
    rw [to_.table]
    exact reach
  rw [sysPageMap, if_neg (by simpa using valid), if_neg inside, from_.page, there]
  simp only
  rw [if_neg fun denied => denied.1 (writes denied.2), to_.page, if_neg fun denied => denied.2 reach]

theorem fdLookup_number (i : Fin maxFd) : f.fdLookup (number i) =
    if (f.space.uvpt (fdPage i)).isNone then none else some (index2Fd (number i)) := by
  have range : ∀ i : Fin maxFd, ¬ ((number i).toInt < 0 ∨ (maxFd : Int) ≤ (number i).toInt) := by
    decide
  rw [fdLookup, if_neg (range i), pte_eq (addressed_fd i)]

theorem fdLookup_outside (outside : ∀ i, n ≠ number i) : f.fdLookup n = none := by
  rw [fdLookup, if_pos]
  by_contra range
  have small : n.toNat < maxFd := by
    have bound : maxFd = 32 := rfl
    rw [BitVec.toInt_eq_toNat_cond] at range
    split at range <;> omega
  exact outside _ (number_of_lt small)

end Files

@[simp] theorem remove_uvpt {s : Space} : (s.remove pn).uvpt q = if q = pn then none else s.uvpt q :=
  Function.update_apply _ _ _ _

@[simp] theorem insert_uvpt {s : Space} {entry : Pte} :
    (s.insert pn entry).uvpt q = if q = pn then some entry else s.uvpt q :=
  Function.update_apply _ _ _ _

theorem number_injective (same : number i = number j) : i = j := by
  have all : ∀ i : Fin maxFd, (number i).toNat = i.val := by decide
  exact Fin.ext (by rw [← all i, ← all j, same])

theorem fdPage_inj : fdPage i = fdPage j ↔ i = j := by
  unfold fdPage
  rw [Fin.ext_iff]
  omega

theorem dataPage_inj : dataPage i = dataPage j ↔ i = j := by
  unfold dataPage
  rw [Fin.ext_iff]
  omega

theorem fdPage_ne_dataPage : fdPage i ≠ dataPage j := by
  have bound : i.val < 32 := i.isLt
  unfold fdPage dataPage
  omega

theorem dataPage_ne_fdPage : dataPage i ≠ fdPage j := fdPage_ne_dataPage.symm

namespace Files

variable {object : Option Object}

theorem Shows.none_iff {page : Option Nat} (shows : f.Shows pn page) :
    f.space.uvpt pn = none ↔ page = none := by
  cases page with
  | none => exact ⟨fun _ => rfl, fun _ => shows⟩
  | some page =>
    obtain ⟨perm, there, -⟩ := shows
    simp [there]

theorem Binds.closed_iff (binds : f.Binds i object) :
    f.space.uvpt (fdPage i) = none ↔ object = none := by
  rw [binds.fd.none_iff, Option.map_eq_none_iff]

theorem Shows.of_uvpt {page : Option Nat} (shows : f.Shows pn page)
    (same : f'.space.uvpt pn = f.space.uvpt pn) : f'.Shows pn page := by
  cases page with
  | none => exact same.trans shows
  | some page =>
    obtain ⟨perm, there, sharable⟩ := shows
    exact ⟨perm, same.trans there, sharable⟩

theorem Represents.change (rep : f.Represents t)
    (devs : ∀ page < f.next, f'.devId page = f.devId page) (next : f.next ≤ f'.next)
    (slots : ∀ j, t' j = t j ∧ f'.space.uvpt (fdPage j) = f.space.uvpt (fdPage j) ∧
        f'.space.uvpt (dataPage j) = f.space.uvpt (dataPage j) ∨ f'.Binds j (t' j)) :
    f'.Represents t' := by
  intro j
  rcases slots j with ⟨same, fd, data⟩ | binds
  · have before := rep j
    rw [same]
    refine ⟨before.fd.of_uvpt fd, before.data.of_uvpt data, fun o here => ?_,
      fun o here => (before.fresh o here).trans_le next⟩
    rw [devs _ (before.fresh o here)]
    exact before.kind o here
  · exact binds

/-- The number `i` has been closed. -/
structure Cleared (f f' : Files) (i : Fin maxFd) : Prop where
  uvpt : ∀ q, f'.space.uvpt q =
    if q = fdPage i ∨ q = dataPage i then none else f.space.uvpt q
  devId : f'.devId = f.devId
  next : f'.next = f.next

theorem Cleared.represents (cleared : Cleared f f' i) (rep : f.Represents t) :
    f'.Represents (update t i none) := by
  refine rep.change (fun page _ => by rw [cleared.devId]) cleared.next.ge fun j => ?_
  by_cases same : j = i
  · subst same
    right
    rw [update_self]
    exact ⟨(cleared.uvpt _).trans (if_pos (.inl rfl)), (cleared.uvpt _).trans (if_pos (.inr rfl)),
      nofun, nofun⟩
  · left
    rw [update_of_ne same, cleared.uvpt, cleared.uvpt]
    simp [fdPage_inj, dataPage_inj, fdPage_ne_dataPage, dataPage_ne_fdPage, same]

theorem cleared_self (rep : f.Represents t) (closed : t i = none) : Cleared f f i where
  uvpt q := by
    have binds := rep i
    rw [closed] at binds
    split
    · rename_i here
      rcases here with rfl | rfl
      · exact binds.fd
      · exact binds.data
    · rfl
  devId := rfl
  next := rfl

theorem close_open (rep : f.Represents t) (found : t i ≠ none) (answer : Int) :
    ∃ r f', f.close (number i) answer = (r, f') ∧ Cleared f f' i := by
  obtain ⟨o, here⟩ := Option.ne_none_iff_exists'.mp found
  have binds := rep i
  rw [here] at binds
  obtain ⟨perm, mapped, -⟩ := binds.fd
  have lookup : f.fdLookup (number i) = some (index2Fd (number i)) := by
    rw [fdLookup_number, mapped]
    rfl
  have fd := addressed_fd i
  have data := addressed_data i
  have device : f.devId ((f.pte (index2Fd (number i))).elim 0 Pte.ppn) = f.devId o.fd := by
    rw [pte_eq fd, mapped]
    rfl
  have shut : f.close (number i) answer =
      ((f.devClose (index2Fd (number i)) answer).1,
        ((f.devClose (index2Fd (number i)) answer).2.sysPageUnmap (index2Fd (number i))).2) := by
    simp only [close, lookup, fdClose, index2Fd_injective, ne_eq, not_true_eq_false, if_false]
  rw [shut, devClose, device]
  by_cases isPipe : f.devId o.fd = devpipeId
  · rw [if_pos isPipe]
    simp only [devpipeClose, sysPageUnmap_eq fd, sysPageUnmap_eq data]
    refine ⟨_, _, rfl, fun q => ?_, rfl, rfl⟩
    simp only [remove_uvpt]
    grind
  · rw [if_neg isPipe]
    have empty : f.space.uvpt (dataPage i) = none := by
      rw [binds.data.none_iff]
      simpa using fun some => isPipe ((binds.kind o rfl).mpr some)
    have cleared : Cleared f { f with space := f.space.remove (fdPage i) } i := by
      refine ⟨fun q => ?_, rfl, rfl⟩
      simp only [remove_uvpt]
      grind
    by_cases known : f.devId o.fd = devfileId ∨ f.devId o.fd = devsockId ∨ f.devId o.fd = devconsId
    · simp only [if_pos known, sysPageUnmap_eq fd]
      exact ⟨_, _, rfl, cleared⟩
    · simp only [if_neg known, sysPageUnmap_eq fd]
      exact ⟨_, _, rfl, cleared⟩

end Files

namespace Files

/-- `sys_page_map` of a page of the table onto another one, with the permission that
it has there. -/
theorem sysPageMap_kept (from_ : Addressed src p) (to_ : Addressed dst q)
    {page : Nat} {perm : BitVec 12} (there : f.space.uvpt p = some ⟨page, perm⟩)
    (sharable : Sharable perm) :
    f.sysPageMap room src dst (f.pteSyscallOf src) =
      (0, { f with space := f.space.insert q ⟨page, perm &&& pteSyscall ||| pteP⟩ }) := by
  have read : f.pteSyscallOf src = perm &&& pteSyscall := by
    rw [pteSyscallOf, from_.page, there]
    rfl
  rw [read, sysPageMap_eq from_ to_ there sharable writable_syscall]

/-- The first mapping of `dup`, that of the data page. -/
theorem dup_data (binds : f.Binds i (some o)) (empty : f.space.uvpt (dataPage j) = none)
    {old : BitVec 32} {f₀ : Files} {answer : Int} {roomData roomFd : Bool}
    (lookup : f₀.fdLookup old = some (index2Fd (number i)))
    (shut : (f₀.close (number j) answer).2 = f) :
    ∃ f' : Files, f₀.dup old (number j) answer roomData roomFd =
        f'.dupFd (index2Fd (number i)) (index2Fd (number j)) (fd2data (index2Fd (number j)))
          (number j) roomFd ∧
      f'.Shows (dataPage j) o.data ∧ (∀ q, q ≠ dataPage j → f'.space.uvpt q = f.space.uvpt q) ∧
      f'.devId = f.devId ∧ f'.next = f.next := by
  have dataI := addressed_data i
  have dataJ := addressed_data j
  have shows := binds.data
  cases data : o.data with
  | none =>
    have absent : f.pte (fd2data (index2Fd (number i))) = none := by
      rw [pte_eq dataI, shows.none_iff]
      exact data
    refine ⟨f, ?_, empty, fun _ _ => rfl, rfl, rfl⟩
    simp only [dup, lookup, shut, absent, Option.isSome_none, Bool.false_eq_true, if_false]
  | some page =>
    change f.Shows _ o.data at shows
    rw [data] at shows
    obtain ⟨perm, there, sharable⟩ := shows
    have present : f.pte (fd2data (index2Fd (number i))) = some ⟨page, perm⟩ := by
      rw [pte_eq dataI, there]
    refine ⟨{ f with space := f.space.insert (dataPage j) ⟨page, perm &&& pteSyscall ||| pteP⟩ },
      ?_, ⟨_, by simp, sharable.kept⟩, fun q other => by simp [other], rfl, rfl⟩
    simp only [dup, lookup, shut, present, Option.isSome_some, if_true,
      sysPageMap_kept dataI dataJ there sharable, lt_irrefl, if_false]

/-- What `dup` leaves, for two different numbers. -/
theorem dup_open (rep : f.Represents t) (found : t i = some o) (differs : j ≠ i) (answer : Int)
    (roomData roomFd : Bool) : ∃ f' : Files,
      f.dup (number i) (number j) answer roomData roomFd = ((j.val : Int), f') ∧
      f'.Represents (update t j (some o)) := by
  have binds := rep i
  rw [found] at binds
  obtain ⟨perm, mapped, sharable⟩ := binds.fd
  have lookup : f.fdLookup (number i) = some (index2Fd (number i)) := by
    rw [fdLookup_number, mapped]
    rfl
  obtain ⟨f₁, shut, cleared⟩ : ∃ f₁, (f.close (number j) answer).2 = f₁ ∧ Cleared f f₁ j := by
    by_cases closed : t j = none
    · have absent : f.fdLookup (number j) = none := by
        rw [fdLookup_number, (rep j).closed_iff.mpr closed]
        rfl
      exact ⟨f, by simp only [close, absent], cleared_self rep closed⟩
    · obtain ⟨r, f₁, ran, cleared⟩ := close_open rep closed answer
      exact ⟨f₁, by rw [ran], cleared⟩
  have rep₁ := cleared.represents rep
  have binds₁ := rep₁ i
  rw [update_of_ne differs.symm, found] at binds₁
  obtain ⟨f₂, ran, data, other, devId, next⟩ := dup_data binds₁
    ((cleared.uvpt _).trans (if_pos (.inr rfl))) lookup shut
  have source : f₂.space.uvpt (fdPage i) = some ⟨o.fd, perm⟩ := by
    rw [other _ fdPage_ne_dataPage, cleared.uvpt,
      if_neg (by simp [fdPage_inj, fdPage_ne_dataPage, differs.symm]), mapped]
  have returns : ∀ j : Fin maxFd, (number j).toInt = (j.val : Int) := by decide
  let f₃ : Files :=
    { f₂ with space := f₂.space.insert (fdPage j) ⟨o.fd, perm &&& pteSyscall ||| pteP⟩ }
  refine ⟨f₃, ?_, rep₁.change (fun page _ => congrFun devId page) next.ge fun x => ?_⟩
  · rw [ran, dupFd, sysPageMap_kept (addressed_fd i) (addressed_fd j) source sharable]
    simp only [lt_irrefl, if_false, returns]
    rfl
  · by_cases here : x = j
    · subst here
      right
      rw [update_self]
      refine ⟨⟨_, insert_uvpt.trans (if_pos rfl), sharable.kept⟩, ?_, fun o' same => ?_,
        fun o' same => ?_⟩
      · exact data.of_uvpt (insert_uvpt.trans (if_neg dataPage_ne_fdPage))
      · exact (congrArg (· = devpipeId) (congrFun devId _)).to_iff.trans (binds₁.kind o' same)
      · exact (binds₁.fresh o' same).trans_eq next.symm
    · left
      rw [update_of_ne here, update_of_ne here]
      refine ⟨rfl, ?_, ?_⟩
      · rw [insert_uvpt, if_neg (by simpa [fdPage_inj] using here), other _ fdPage_ne_dataPage]
      · rw [insert_uvpt, if_neg dataPage_ne_fdPage, other _ (by simpa [dataPage_inj] using here)]

end Files

namespace Files

theorem sysPageMap_high (high : utop < dst.toNat) {perm : BitVec 12} :
    f.sysPageMap room src dst perm = (-eInval, f) := by
  unfold sysPageMap
  split
  · rfl
  · rw [if_pos (.inl (.inr high))]

theorem sysPageUnmap_high (high : utop < va.toNat) : f.sysPageUnmap va = (-eInval, f) := by
  rw [sysPageUnmap, if_pos (.inr (.inl high.le))]

/-- Beyond the user's addresses `dup` fails, and maps and unmaps nothing. -/
theorem dup_high {old new : BitVec 32} {oldfd : Va} (lookup : f.fdLookup old = some oldfd)
    (outside : ∀ j, new ≠ number j) (fd : utop < (index2Fd new).toNat)
    (data : utop < (fd2data (index2Fd new)).toNat) (answer : Int) (roomData roomFd : Bool) :
    f.dup old new answer roomData roomFd = (-eInval, f) := by
  have shut : (f.close new answer).2 = f := by simp only [close, fdLookup_outside outside]
  have negative : -eInval < 0 := by decide
  simp only [dup, lookup, shut, dupFd, sysPageMap_high fd, sysPageMap_high data, if_pos negative,
    dupErr, sysPageUnmap_high fd, sysPageUnmap_high data, ite_self]

theorem fdAlloc_spec (shown : ∀ i, f.space.uvpt (fdPage i) = none ↔ t i = none) :
    (∃ i, t.Smallest i ∧ f.fdAlloc = some (index2Fd (number i))) ∨
      (∀ i, t i ≠ none) ∧ f.fdAlloc = none := by
  have free (i : Fin maxFd) :
      (f.pte (index2Fd (BitVec.ofNat 32 i.val))).isNone = true ↔ t i = none := by
    rw [← shown, ← pte_eq (addressed_fd i), Option.isNone_iff_eq_none]
    rfl
  rw [fdAlloc]
  cases found : (List.range maxFd).find? fun i =>
      (f.pte (index2Fd (BitVec.ofNat 32 i))).isNone with
  | none =>
    refine .inr ⟨fun i closed => ?_, rfl⟩
    have taken := List.find?_eq_none.mp found i.val (List.mem_range.mpr i.isLt)
    exact taken ((free i).mpr closed)
  | some i =>
    obtain ⟨isFree, inside, before⟩ := List.find?_range_eq_some.mp found
    have bound : i < maxFd := List.mem_range.mp inside
    refine .inl ⟨⟨i, bound⟩, ⟨(free ⟨i, bound⟩).mp isFree, fun j less closed => ?_⟩, rfl⟩
    have taken := before j.val less
    rw [(free j).mpr closed] at taken
    cases taken

theorem Represents.shown (rep : f.Represents t) (i : Fin maxFd) :
    f.space.uvpt (fdPage i) = none ↔ t i = none :=
  (rep i).closed_iff

theorem setDevId_eq (here : Addressed va pn) {entry : Pte} (there : f.space.uvpt pn = some entry)
    (id : BitVec 32) : f.setDevId va id = { f with devId := update f.devId entry.ppn id } := by
  rw [setDevId, pte_eq here, there]

theorem sharable_share : Sharable permShare := by
  unfold Sharable
  decide

/-- What `open` leaves. -/
theorem opened_spec (rep : f.Represents t) (device : Device) :
    ∃ (a : Answer) (f' : Files) (t' : Table), f.exec (.open device) = (a, f') ∧
      Meets f f' t (.open device) a t' ∧ f'.Represents t' := by
  rcases fdAlloc_spec rep.shown with ⟨i, smallest, found⟩ | ⟨full, none⟩
  · have here := addressed_fd i
    let f₁ : Files :=
      { f with space := f.space.insert (fdPage i) ⟨f.next, permShare⟩, next := f.next + 1 }
    let f₂ : Files := { f₁ with devId := update f₁.devId f.next device.id }
    have there : f₁.space.uvpt (fdPage i) = some ⟨f.next, permShare⟩ :=
      insert_uvpt.trans (if_pos rfl)
    have stored : f₁.setDevId (index2Fd (number i)) device.id = f₂ := setDevId_eq here there _
    refine ⟨⟨i.val, Option.none⟩, f₂, update t i (some ⟨f.next, Option.none⟩), ?_,
      .opened smallest fun j o there => ((rep j).fresh o there).ne, ?_⟩
    · simp only [exec, opened, found, sysPageAlloc_eq here, lt_irrefl, if_false, fd2num_index2Fd]
      exact congrArg _ stored
    · refine rep.change (fun page old => update_of_ne old.ne _ _) (Nat.le_succ _) fun j => ?_
      by_cases same : j = i
      · subst same
        right
        rw [update_self]
        refine ⟨⟨_, insert_uvpt.trans (if_pos rfl), sharable_share⟩, ?_, fun o there => ?_,
          fun o there => ?_⟩
        · refine (insert_uvpt.trans (if_neg dataPage_ne_fdPage)).trans ?_
          have binds := rep j
          rw [smallest.1] at binds
          exact binds.data
        · obtain rfl := Option.some.inj there
          have kinds : device.id ≠ devpipeId := by cases device <;> decide
          simp [f₂, kinds]
        · obtain rfl := Option.some.inj there
          exact Nat.lt_succ_self _
      · left
        refine ⟨update_of_ne same _ _, insert_uvpt.trans (if_neg ?_),
          insert_uvpt.trans (if_neg dataPage_ne_fdPage)⟩
        simpa [fdPage_inj] using same
  · exact ⟨⟨-eMaxOpen, Option.none⟩, f, t, by simp only [exec, opened, none],
      .openFull full (by decide), rep⟩

end Files

namespace Files

theorem Represents.restored (rep : f.Represents t)
    (same : ∀ q, f'.space.uvpt q = f.space.uvpt q) (devId : f'.devId = f.devId)
    (next : f.next ≤ f'.next) : f'.Represents t :=
  rep.change (fun _ _ => by rw [devId]) next fun _ => .inl ⟨rfl, same _, same _⟩

theorem insert_then_remove {s : Space} {entry : Pte} (empty : s.uvpt pn = none) (q : Nat) :
    ((s.insert pn entry).remove pn).uvpt q = s.uvpt q := by
  rw [remove_uvpt, insert_uvpt]
  split
  · rename_i same
    rw [same, empty]
  · rfl

/-- The mappings of a new pipe with the pages `next`, `next + 1` and `next + 2`. -/
def piped (f : Files) (i j : Fin maxFd) : Files where
  space := (((f.space.insert (fdPage i) ⟨f.next, permShare⟩).insert (fdPage j)
    ⟨f.next + 1, permShare⟩).insert (dataPage i) ⟨f.next + 2, permShare⟩).insert (dataPage j)
    ⟨f.next + 2, permShare⟩
  devId := update (update f.devId f.next devpipeId) (f.next + 1) devpipeId
  next := f.next + 3

theorem piped_represents (rep : f.Represents t) (differs : i ≠ j) :
    (f.piped i j).Represents (update (update t i (some ⟨f.next, some (f.next + 2)⟩)) j
      (some ⟨f.next + 1, some (f.next + 2)⟩)) := by
  have entries (q : Nat) : (f.piped i j).space.uvpt q =
      if q = dataPage j then some ⟨f.next + 2, permShare⟩
      else if q = dataPage i then some ⟨f.next + 2, permShare⟩
      else if q = fdPage j then some ⟨f.next + 1, permShare⟩
      else if q = fdPage i then some ⟨f.next, permShare⟩ else f.space.uvpt q := by
    simp only [piped, insert_uvpt]
  refine rep.change (fun page old => ?_) (Nat.le_add_right _ 3) fun x => ?_
  · simp only [piped]
    rw [update_of_ne (by omega), update_of_ne old.ne]
  · by_cases second : x = j
    · subst second
      right
      rw [update_self]
      refine ⟨⟨permShare, ?_, sharable_share⟩, ⟨permShare, ?_, sharable_share⟩, fun o there => ?_,
        fun o there => ?_⟩
      · simp [entries, fdPage_ne_dataPage]
      · simp [entries]
      · obtain rfl := Option.some.inj there
        simp [piped]
      · obtain rfl := Option.some.inj there
        simp only [piped]
        omega
    · by_cases first : x = i
      · subst first
        right
        rw [update_of_ne second, update_self]
        refine ⟨⟨permShare, ?_, sharable_share⟩, ⟨permShare, ?_, sharable_share⟩, fun o there => ?_,
          fun o there => ?_⟩
        · simp [entries, fdPage_ne_dataPage, fdPage_inj, second]
        · simp [entries]
        · obtain rfl := Option.some.inj there
          simp [piped]
        · obtain rfl := Option.some.inj there
          simp only [piped]
          omega
      · left
        rw [update_of_ne second, update_of_ne first]
        simp [entries, fdPage_ne_dataPage, dataPage_ne_fdPage, fdPage_inj, dataPage_inj, first,
          second]

/-- The data page of a pipe whose descriptor pages are there, when there is a page. -/
theorem pipeData_done (differs : i ≠ j) (f₂ : Files) (space : f₂.space =
      (f.space.insert (fdPage i) ⟨f.next, permShare⟩).insert (fdPage j) ⟨f.next + 1, permShare⟩)
    (devId : f₂.devId = f.devId) (next : f₂.next = f.next + 2) {room : Room}
    (enough : room.page = true) :
    f₂.pipeData (index2Fd (number i)) (index2Fd (number j)) room =
      (0, some (i.val, j.val), f.piped i j) := by
  have fdI := addressed_fd i
  have fdJ := addressed_fd j
  have dataI := addressed_data i
  have dataJ := addressed_data j
  obtain ⟨space₂, devId₂, next₂⟩ := f₂
  simp only at space devId next
  subst space devId next
  have valid : permValid (permShare.setWidth 32) = true := by decide
  have writable : (⟨f.next + 2, permShare⟩ : Pte).writable = true := by
    change permShare.getLsbD 1 = true
    decide
  have there : (((f.space.insert (fdPage i) ⟨f.next, permShare⟩).insert (fdPage j)
      ⟨f.next + 1, permShare⟩).insert (dataPage i) ⟨f.next + 2, permShare⟩).uvpt (dataPage i) =
      some ⟨f.next + 2, permShare⟩ := insert_uvpt.trans (if_pos rfl)
  rw [pipeData, sysPageAlloc_eq dataI enough]
  simp only [lt_irrefl, if_false]
  rw [sysPageMap_eq dataI dataJ there valid fun _ => writable]
  simp only [lt_irrefl, if_false]
  rw [setDevId_eq fdI (by simp [fdPage_ne_dataPage, fdPage_inj, differs]; rfl)]
  rw [setDevId_eq fdJ (by simp [fdPage_ne_dataPage]; rfl)]
  simp only [fd2num_index2Fd]
  rfl

theorem pipeData_spec (rep : f.Represents t) (differs : i ≠ j) (first : t i = none)
    (second : t j = none) (f₂ : Files) (space : f₂.space =
      (f.space.insert (fdPage i) ⟨f.next, permShare⟩).insert (fdPage j) ⟨f.next + 1, permShare⟩)
    (devId : f₂.devId = f.devId) (next : f₂.next = f.next + 2) (room : Room) :
    f₂.pipeData (index2Fd (number i)) (index2Fd (number j)) room =
        (0, some (i.val, j.val), f.piped i j) ∨
      ∃ f' : Files, f₂.pipeData (index2Fd (number i)) (index2Fd (number j)) room =
        (-eNoMem, Option.none, f') ∧ f'.Represents t := by
  have fdI := addressed_fd i
  have fdJ := addressed_fd j
  have dataI := addressed_data i
  cases enough : room.page with
  | true => exact .inl (pipeData_done differs f₂ space devId next enough)
  | false =>
    right
    obtain ⟨space₂, devId₂, next₂⟩ := f₂
    simp only at space devId next
    subst space devId next
    have negative : -eNoMem < 0 := by decide
    rw [pipeData, sysPageAlloc_full dataI enough]
    simp only [negative, if_true, sysPageUnmap_eq fdI, sysPageUnmap_eq fdJ]
    refine ⟨_, rfl, rep.restored (fun q => ?_) rfl (Nat.le_add_right _ 2)⟩
    have emptyI := (rep.shown i).mpr first
    have emptyJ := (rep.shown j).mpr second
    simp only [remove_uvpt, insert_uvpt]
    grind

theorem smallest_unique {i' : Fin maxFd} (smallest : t.Smallest i) (other : t.Smallest i') :
    i = i' := by
  rcases Nat.lt_trichotomy i.val i'.val with less | same | less
  · exact absurd smallest.1 (other.2 i less)
  · exact Fin.ext same
  · exact absurd other.1 (smallest.2 i' less)

/-- `pipe` succeeds when two numbers are free and the kernel has the pages. -/
theorem pipe_done (rep : f.Represents t) {o : Object} (smallest : t.Smallest i)
    (smallest' : Table.Smallest (update t i (some o)) j) {room : Room} (fd0 : room.fd0 = true)
    (fd1 : room.fd1 = true) (page : room.page = true) :
    f.pipe room = (0, some (i.val, j.val), f.piped i j) := by
  have differs : i ≠ j := by
    rintro rfl
    simpa using smallest'.1
  have found : f.fdAlloc = some (index2Fd (number i)) := by
    rcases fdAlloc_spec rep.shown with ⟨i', smallest'', found⟩ | ⟨full, -⟩
    · rw [smallest_unique smallest smallest'']
      exact found
    · exact absurd smallest.1 (full i)
  have next := sysPageAlloc_eq (f := f) (addressed_fd i) fd0
  generalize begun : ({ f with
    space := f.space.insert (fdPage i) ⟨f.next, permShare⟩, next := f.next + 1 } : Files) = f₁ at next
  have space₁ : f₁.space = f.space.insert (fdPage i) ⟨f.next, permShare⟩ := by
    subst begun
    rfl
  have next₁ : f₁.next = f.next + 1 := by
    subst begun
    rfl
  have devId₁ : f₁.devId = f.devId := by
    subst begun
    rfl
  have shown (x : Fin maxFd) : f₁.space.uvpt (fdPage x) = none ↔ update t i (some o) x = none := by
    rw [space₁]
    by_cases same : x = i
    · subst same
      simp
    · simp [same, fdPage_inj, rep.shown]
  have found' : f₁.fdAlloc = some (index2Fd (number j)) := by
    rcases fdAlloc_spec shown with ⟨j', smallest'', found'⟩ | ⟨full, -⟩
    · rw [smallest_unique smallest' smallest'']
      exact found'
    · exact absurd smallest'.1 (full j)
  simp only [pipe, found, next, lt_irrefl, if_false, pipeFd, found',
    sysPageAlloc_eq (addressed_fd j) fd1]
  refine pipeData_done differs { f₁ with
    space := f₁.space.insert (fdPage j) ⟨f₁.next, permShare⟩, next := f₁.next + 1 } ?_ ?_ ?_ page
  · simp only [space₁, next₁]
  · exact devId₁
  · simp only [next₁]

/-- What `pipe` leaves. -/
theorem pipe_spec (rep : f.Represents t) (room : Room) :
    ∃ (a : Answer) (f' : Files) (t' : Table), f.exec (.pipe room) = (a, f') ∧
      Meets f f' t (.pipe room) a t' ∧ f'.Represents t' := by
  have negative : -eNoMem < 0 := by decide
  have failed {r : Int} {f' : Files} (ran : f.pipe room = (r, none, f')) (less : r < 0)
      (rep : f'.Represents t) : ∃ (a : Answer) (f' : Files) (t' : Table),
        f.exec (.pipe room) = (a, f') ∧ Meets f f' t (.pipe room) a t' ∧ f'.Represents t' :=
    ⟨⟨r, none⟩, f', t, by simp only [exec, ran], .pipeFailed less, rep⟩
  rcases fdAlloc_spec rep.shown with ⟨i, smallest, found⟩ | ⟨-, none⟩
  · have fdI := addressed_fd i
    cases room0 : room.fd0 with
    | false =>
      refine failed ?_ negative rep
      simp only [pipe, found, sysPageAlloc_full fdI room0, negative, if_true]
    | true =>
      let f₁ : Files :=
        { f with space := f.space.insert (fdPage i) ⟨f.next, permShare⟩, next := f.next + 1 }
      let t₁ := update t i (some ⟨f.next, some (f.next + 2)⟩)
      have begun : f.pipe room = f₁.pipeFd (index2Fd (number i)) room := by
        simp only [pipe, found, sysPageAlloc_eq fdI room0, lt_irrefl, if_false]
        rfl
      have empty : f.space.uvpt (fdPage i) = Option.none := (rep.shown i).mpr smallest.1
      have shown₁ (x : Fin maxFd) : f₁.space.uvpt (fdPage x) = Option.none ↔ t₁ x = Option.none := by
        by_cases same : x = i
        · subst same
          simp [f₁, t₁]
        · simp [f₁, t₁, same, fdPage_inj, rep.shown]
      have undone : Files.Represents { f₁ with space := f₁.space.remove (fdPage i) } t :=
        rep.restored (insert_then_remove empty) rfl (Nat.le_succ _)
      rw [begun] at failed
      rcases fdAlloc_spec shown₁ with ⟨j, smallest', found'⟩ | ⟨-, none⟩
      · have fdJ := addressed_fd j
        have differs : i ≠ j := by
          rintro rfl
          simpa [t₁] using smallest'.1
        cases room1 : room.fd1 with
        | false =>
          refine failed ?_ negative undone
          simp only [pipeFd, found', sysPageAlloc_full fdJ room1, negative, if_true,
            sysPageUnmap_eq fdI]
        | true =>
          have second : t j = Option.none := by
            simpa [t₁, differs.symm] using smallest'.1
          let f₂ : Files := { f₁ with
            space := f₁.space.insert (fdPage j) ⟨f.next + 1, permShare⟩
            next := f.next + 2 }
          have later : f₁.pipeFd (index2Fd (number i)) room =
              f₂.pipeData (index2Fd (number i)) (index2Fd (number j)) room := by
            simp only [pipeFd, found', sysPageAlloc_eq fdJ room1, lt_irrefl, if_false]
            rfl
          rw [later] at begun failed
          rcases pipeData_spec rep differs smallest.1 second f₂ rfl rfl rfl room with
            done | ⟨f', ran, rep'⟩
          · refine ⟨⟨0, some (i.val, j.val)⟩, f.piped i j, _, ?_, .piped smallest smallest'
              (fun x o there => ((rep x).fresh o there).ne)
              (fun x o there => (((rep x).fresh o there).trans (Nat.lt_succ_self _)).ne)
              (Nat.lt_succ_self _).ne, piped_represents rep differs⟩
            rw [exec, begun]
            exact congrArg (fun ran : Int × Option (Nat × Nat) × Files =>
              (Answer.mk ran.1 ran.2.1, ran.2.2)) done
          · exact failed ran negative rep'
      · refine failed (r := -eMaxOpen) ?_ (by decide) undone
        simp only [pipeFd, none, sysPageUnmap_eq fdI]
  · exact failed (r := -eMaxOpen) (by simp only [pipe, none]) (by decide) rep

end Files

namespace Files

variable {call : Call} {a : Answer}

theorem fdLookup_closed (rep : f.Represents t) (closed : t.Closed n) : f.fdLookup n = none := by
  by_cases outside : ∀ i, n ≠ number i
  · exact fdLookup_outside outside
  · simp only [not_forall, not_not] at outside
    obtain ⟨i, rfl⟩ := outside
    rw [fdLookup_number, (rep.shown i).mpr (closed i rfl)]
    rfl

theorem close_spec (rep : f.Represents t) (n : BitVec 32) (answer : Int) :
    ∃ t', Meets f (f.close n answer).2 t (.close n answer) ⟨(f.close n answer).1, none⟩ t' ∧
      (f.close n answer).2.Represents t' ∧
      ∀ i, t' i = if n = number i then none else t i := by
  by_cases closed : t.Closed n
  · have ran : f.close n answer = (-eInval, f) := by
      simp only [close, fdLookup_closed rep closed]
    rw [ran]
    have negative : -eInval < 0 := by decide
    refine ⟨t, .closeClosed closed negative, rep, fun i => ?_⟩
    split
    · rename_i same
      exact closed i same
    · rfl
  · simp only [Table.Closed, not_forall] at closed
    obtain ⟨i, rfl, found⟩ := closed
    obtain ⟨r, f', ran, cleared⟩ := close_open rep found answer
    rw [ran]
    refine ⟨_, .close found, cleared.represents rep, fun j => ?_⟩
    by_cases same : j = i
    · subst same
      simp
    · rw [update_of_ne same, if_neg fun equal => same (number_injective equal).symm]

/-- The rounds of `close_all`. -/
theorem closeAll_spec (rep : f.Represents t) (answers : Nat → Int) :
    (f.closeAll answers).Represents fun _ => none := by
  have loop : ∀ count ≤ maxFd, ((List.range count).foldl
      (fun f i => (f.close (BitVec.ofNat 32 i) (answers i)).2) f).Represents
        fun i => if i.val < count then none else t i := by
    intro count
    induction count with
    | zero =>
      intro _
      simpa using rep
    | succ count ih =>
      intro bound
      rw [List.range_succ, List.foldl_append]
      obtain ⟨t', -, after, entries⟩ := close_spec (ih (Nat.le_of_succ_le bound))
        (number ⟨count, bound⟩) (answers count)
      have same : t' = fun i => if i.val < count + 1 then none else t i := by
        funext i
        rw [entries]
        by_cases here : (⟨count, bound⟩ : Fin maxFd) = i
        · subst here
          simp
        · rw [if_neg fun equal => here (number_injective equal)]
          have differs : i.val ≠ count := fun equal => here (Fin.ext equal.symm)
          have order : i.val < count + 1 ↔ i.val < count := by omega
          simp only [order]
      rw [same] at after
      exact after
  have all := loop maxFd le_rfl
  simp only [Fin.is_lt, if_true] at all
  exact all

theorem exec_meets (rep : f.Represents t) (safe : f.Safe call) :
    ∃ t', Meets f (f.exec call).2 t call (f.exec call).1 t' ∧ (f.exec call).2.Represents t' := by
  cases call with
  | «open» device =>
    obtain ⟨a, f', t', ran, meets, rep'⟩ := opened_spec rep device
    rw [ran]
    exact ⟨t', meets, rep'⟩
  | pipe room =>
    obtain ⟨a, f', t', ran, meets, rep'⟩ := pipe_spec rep room
    rw [ran]
    exact ⟨t', meets, rep'⟩
  | dup old new answer roomData roomFd =>
    by_cases closed : t.Closed old
    · have ran : f.dup old new answer roomData roomFd = (-eInval, f) := by
        simp only [dup, fdLookup_closed rep closed]
      have negative : -eInval < 0 := by decide
      rw [exec, ran]
      exact ⟨t, .dupClosed closed negative, rep⟩
    · have opened := closed
      simp only [Table.Closed, not_forall] at closed
      obtain ⟨i, rfl, found⟩ := closed
      obtain ⟨o, there⟩ := Option.ne_none_iff_exists'.mp found
      have lookup : f.fdLookup (number i) = some (index2Fd (number i)) := by
        rw [fdLookup_number, if_neg]
        rw [Option.isNone_iff_eq_none, rep.shown]
        exact found
      rcases safe with absent | ⟨inside, differs⟩ | ⟨fd, data⟩
      · rw [lookup] at absent
        cases absent
      · obtain ⟨j, rfl⟩ : ∃ j, new = number j := ⟨_, number_of_lt inside⟩
        obtain ⟨f', ran, rep'⟩ := dup_open rep there
          (fun same => differs (congrArg number same)) answer roomData roomFd
        rw [exec, ran]
        exact ⟨_, .dup there, rep'⟩
      · have outside (j : Fin maxFd) : new ≠ number j := by
          rintro rfl
          exact absurd fd (addressed_fd j).low.le.not_gt
        have negative : -eInval < 0 := by decide
        rw [exec, dup_high lookup outside fd data]
        exact ⟨t, .dupOutside opened outside negative rfl, rep⟩
  | close n answer =>
    have ran : f.exec (.close n answer) =
        (⟨(f.close n answer).1, none⟩, (f.close n answer).2) := rfl
    obtain ⟨t', meets, rep', -⟩ := close_spec rep n answer
    rw [ran]
    exact ⟨t', meets, rep'⟩
  | closeAll answers =>
    have ran : f.exec (.closeAll answers) = (⟨0, none⟩, f.closeAll answers) := rfl
    have rep' := closeAll_spec rep answers
    rw [ran]
    refine ⟨fun _ => none, .closeAll, ?_⟩
    dsimp only
    exact rep'

end Files

def step (f : Files) (call : Call) : Option Files := some (f.exec call).2

/-- A run of the calls on the mappings together with a run on the map: every call
does what it is for, and every state represents the map. -/
inductive Follows (start : Files) (map : Table) : List Call → Files → Table → Prop where
  | nil : start.Represents map → Follows start map [] start map
  | snoc {calls : List Call} {call : Call} {f : Files} {t t' : Table} :
      Follows start map calls f t → Meets f (f.exec call).2 t call (f.exec call).1 t' →
      (f.exec call).2.Represents t' → Follows start map (calls ++ [call]) (f.exec call).2 t'

theorem Follows.represents {start : Files} {map : Table} {calls : List Call}
    (follows : Follows start map calls f t) : f.Represents t := by
  cases follows with
  | nil rep => exact rep
  | snoc _ _ rep => exact rep

/-- In every run in which no `dup` of an open descriptor names the descriptor itself
or a page outside the table, the mappings refine the map. -/
theorem descriptors_refined {start final : Files} {map : Table} {calls : List Call}
    (rep : start.Represents map) (along : Along step Files.Safe start calls final) :
    ∃ t, Follows start map calls final t := by
  induction along with
  | nil => exact ⟨map, .nil rep⟩
  | snoc _ safe stepped ih =>
    obtain ⟨t, follows⟩ := ih
    obtain ⟨t', meets, rep'⟩ := Files.exec_meets follows.represents safe
    cases stepped
    exact ⟨t', follows.snoc meets rep'⟩

def blank : Files := ⟨Space.empty, fun _ => 0, 0⟩

theorem blank_represents : blank.Represents fun _ => none :=
  fun _ => ⟨rfl, rfl, nofun, nofun⟩

theorem descriptors_refined_blank : ∃ f t,
    Follows blank (fun _ => none) [.pipe ⟨true, true, true, true⟩, .dup 1 5 0 true true,
      .dup 5 0 0 false false] f t := by
  let f := (blank.exec (.pipe ⟨true, true, true, true⟩)).2
  have first : Along step Files.Safe blank ([] ++ [.pipe ⟨true, true, true, true⟩]) f :=
    Along.nil.snoc trivial rfl
  have safe : f.Safe (.dup 1 5 0 true true) := Or.inr (Or.inl ⟨by decide, by decide⟩)
  have second := first.snoc safe rfl
  have safe' : (f.exec (.dup 1 5 0 true true)).2.Safe (.dup 5 0 0 false false) :=
    Or.inr (Or.inl ⟨by decide, by decide⟩)
  obtain ⟨t, follows⟩ := descriptors_refined blank_represents (second.snoc safe' rfl)
  exact ⟨_, t, follows⟩

theorem Meets.dup_returns {call : Call} {a : Answer} {answer : Int} {roomData roomFd : Bool}
    (meets : Meets f f' t call a t')
    (same : call = .dup (number i) (number j) answer roomData roomFd) (found : t i ≠ none) :
    a.result = j.val := by
  cases meets with
  | dup there =>
    injection same with old new
    rw [number_injective new]
  | dupOutside opened outside less kept =>
    injection same with old new
    exact absurd new (outside j)
  | dupClosed closed less =>
    injection same with old new
    exact absurd (closed i old) found
  | _ => cases same

/-- `dup` of a descriptor onto itself closes it. -/
theorem descriptors_not_refined : ¬ ∀ calls f t call, Follows blank (fun _ => none) calls f t →
    ∃ t', Meets f (f.exec call).2 t call (f.exec call).1 t' := by
  intro always
  have start := Follows.nil blank_represents
  have safe : blank.Safe (.open .file) := trivial
  obtain ⟨t, meets, rep⟩ := Files.exec_meets blank_represents safe
  obtain ⟨t', meets'⟩ := always _ _ _ (.dup 0 0 0 true true) (start.snoc meets rep)
  have found : t 0 ≠ none := fun closed => by
    have empty := (rep.shown 0).mpr closed
    revert empty
    decide
  have returns := meets'.dup_returns (i := 0) (j := 0) rfl found
  revert returns
  decide

end Fds

end Jos
