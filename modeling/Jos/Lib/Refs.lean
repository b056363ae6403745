import Jos.Lib.Heap

/-! What `free` and `malloc` do to the pages of one environment, call by call. -/

set_option autoImplicit false

namespace Jos.Malloc

/-- The last word of a page, where `malloc` keeps its references. -/
def refWord (page : Page) : BitVec 32 :=
  page (Fin.ofNat 4096 4095) ++ page (Fin.ofNat 4096 4094) ++ page (Fin.ofNat 4096 4093) ++
    page (Fin.ofNat 4096 4092)

def setRef (page : Page) (word : BitVec 32) : Page :=
  Function.update (Function.update (Function.update (Function.update page
    (Fin.ofNat 4096 4092) (word.extractLsb' 0 8)) (Fin.ofNat 4096 4093) (word.extractLsb' 8 8))
    (Fin.ofNat 4096 4094) (word.extractLsb' 16 8)) (Fin.ofNat 4096 4095) (word.extractLsb' 24 8)

def refAt (pn : Nat) : Nat := pn * pgSize + pgSize - 4

section Words

variable {page : Page} {word : BitVec 32}

theorem setRef_other {off : Fin 4096} (below : off.val < 4092) :
    setRef page word off = page off := by
  have differ : ∀ at' : Nat, 4092 ≤ at' → at' < 4096 → off ≠ Fin.ofNat 4096 at' := by
    rintro at' low high rfl
    simp only [Fin.ofNat] at below
    omega
  unfold setRef
  rw [Function.update_of_ne (differ 4095 (by omega) (by omega)),
    Function.update_of_ne (differ 4094 (by omega) (by omega)),
    Function.update_of_ne (differ 4093 (by omega) (by omega)),
    Function.update_of_ne (differ 4092 (by omega) (by omega))]

theorem bytes_append :
    word.extractLsb' 24 8 ++ word.extractLsb' 16 8 ++ word.extractLsb' 8 8 ++
      word.extractLsb' 0 8 = word := by
  have upper : word.extractLsb' 24 8 ++ word.extractLsb' 16 8 = word.extractLsb' 16 16 :=
    BitVec.extractLsb'_append_extractLsb'_eq_extractLsb' rfl
  have middle : word.extractLsb' 16 16 ++ word.extractLsb' 8 8 = word.extractLsb' 8 24 :=
    BitVec.extractLsb'_append_extractLsb'_eq_extractLsb' rfl
  rw [upper, middle]
  exact BitVec.extractLsb'_append_extractLsb'

theorem refWord_setRef : refWord (setRef page word) = word := by
  unfold refWord setRef
  rw [Function.update_self, Function.update_of_ne (by decide), Function.update_self,
    Function.update_of_ne (by decide), Function.update_of_ne (by decide), Function.update_self,
    Function.update_of_ne (by decide), Function.update_of_ne (by decide),
    Function.update_of_ne (by decide), Function.update_self]
  exact bytes_append

end Words

section Pages

variable {answers : ForkCall → Int} {e pn : Nat} {w w' : World} {entry : Pte} {word : BitVec 32}
  {pages : Nat → Option Pte}

theorem refAt_page {i : Nat} (small : i < 4) : vpn (refAt pn + i) = pn := by
  unfold refAt vpn pgSize
  omega

theorem refAt_off {i : Nat} : pgOff (refAt pn + i) = Fin.ofNat 4096 (4092 + i) := by
  apply Fin.ext
  simp only [pgOff, Fin.ofNat, refAt, pgSize]
  omega

theorem readWord_ref : w.readWord e (refAt pn) =
    ((w.space e).uvpt pn).map fun entry => refWord (w.mem entry.ppn) := by
  have read : ∀ i, i < 4 → w.readByte e (refAt pn + i) =
      ((w.space e).uvpt pn).map fun entry => w.mem entry.ppn (Fin.ofNat 4096 (4092 + i)) := by
    intro i small
    unfold World.readByte
    rw [refAt_page small, refAt_off]
  have first := read 0 (by omega)
  rw [Nat.add_zero] at first
  unfold World.readWord
  rw [first, read 1 (by omega), read 2 (by omega), read 3 (by omega)]
  cases (w.space e).uvpt pn with
  | none => rfl
  | some entry => rfl

theorem writeByte_ref {i : Nat} {byte : BitVec 8} (small : i < 4)
    (found : (w.space e).uvpt pn = some entry) (writable : entry.writable = true) :
    w.writeByte answers e (refAt pn + i) byte = some (w.store entry.ppn
      (Function.update (w.mem entry.ppn) (Fin.ofNat 4096 (4092 + i)) byte)) := by
  have here : (w.space e).uvpt (vpn (refAt pn + i)) = some entry := by rw [refAt_page small, found]
  rw [writeByte_writable here writable, World.poke, refAt_off]

theorem writeWord_ref (found : (w.space e).uvpt pn = some entry)
    (writable : entry.writable = true) : w.writeWord answers e (refAt pn) word =
      some (w.store entry.ppn (setRef (w.mem entry.ppn) word)) := by
  have wrote : ∀ (i : Nat) (byte : BitVec 8) (page : Page), i < 4 →
      (w.store entry.ppn page).writeByte answers e (refAt pn + i) byte = some (w.store entry.ppn
        (Function.update page (Fin.ofNat 4096 (4092 + i)) byte)) := by
    intro i byte page small
    have here : ((w.store entry.ppn page).space e).uvpt pn = some entry := found
    rw [writeByte_ref small here writable, World.store_mem, World.store_store]
  have first : w.writeByte answers e (refAt pn) (word.extractLsb' 0 8) = _ :=
    @writeByte_ref answers e pn w entry 0 _ (by omega) found writable
  unfold World.writeWord
  rw [first, Option.bind_some, wrote 1 _ _ (by omega), Option.bind_some, wrote 2 _ _ (by omega),
    Option.bind_some, wrote 3 _ _ (by omega)]
  rfl

def Unmaps (answers : ForkCall → Int) (e : Nat) : Prop := ∀ pn, 0 ≤ answers (.pageUnmap e pn)

theorem Unmaps.unmap (unmaps : Unmaps answers e) : w.unmap answers e pn = w.remove e pn := by
  unfold World.unmap
  rw [if_neg (Int.not_lt.mpr (unmaps pn))]

def Runs (pages : Nat → Option Pte) (pn : Nat) : Prop :=
  ∃ entry, pages pn = some entry ∧ entry.continued = true

def Ends (pages : Nat → Option Pte) (pn : Nat) (entry : Pte) : Prop :=
  pages pn = some entry ∧ entry.continued = false

theorem Runs.any (runs : Runs pages pn) : (pages pn).any Pte.continued = true := by
  obtain ⟨entry, found, continued⟩ := runs
  rw [found]
  exact continued

theorem Ends.any (ends : Ends pages pn entry) : (pages pn).any Pte.continued = false := by
  rw [ends.1]
  exact ends.2

theorem Runs.not_ends (runs : Runs pages pn) : ¬Ends pages pn entry := by
  intro ends
  have same := runs.any
  rw [ends.any] at same
  cases same

theorem Runs.transport {pages' : Nat → Option Pte} (runs : Runs pages pn)
    (same : pages' pn = pages pn) : Runs pages' pn := by
  obtain ⟨entry, found, continued⟩ := runs
  exact ⟨entry, same.trans found, continued⟩

/-- The pages from `first` to the one before `last` are gone. -/
structure Unrolled (e first last : Nat) (w w' : World) : Prop where
  uvpt : ∀ q, (w'.space e).uvpt q =
    if first ≤ q ∧ q < last then none else (w.space e).uvpt q
  mem : w'.mem = w.mem

theorem freeRun_unrolls {left first last : Nat} (unmaps : Unmaps answers e) (short : last < first + left)
    (order : first ≤ last) (runs : ∀ q, first ≤ q → q < last → Runs (w.space e).uvpt q)
    (ends : Ends (w.space e).uvpt last entry) :
    ∃ w', freeRun answers e left first w = some (last, w') ∧ Unrolled e first last w w' := by
  induction left generalizing first w with
  | zero => omega
  | succ left ih =>
    unfold freeRun
    rcases Nat.eq_or_lt_of_le order with rfl | before
    · rw [ends.any]
      refine ⟨w, rfl, fun q => ?_, rfl⟩
      rw [if_neg (by omega)]
    · rw [(runs first le_rfl before).any, unmaps.unmap]
      have kept : ∀ q, q ≠ first → ((w.remove e first).space e).uvpt q = (w.space e).uvpt q := by
        intro q other
        rw [World.remove_uvpt, if_neg (other ·.2)]
      have rest : ∀ q, first + 1 ≤ q → q < last → Runs ((w.remove e first).space e).uvpt q :=
        fun q low high => (runs q (by omega) high).transport (kept q (by omega))
      obtain ⟨w', ran, unrolled⟩ := ih (by omega) (by omega) rest
        ⟨by rw [kept last (by omega), ends.1], ends.2⟩
      refine ⟨w', ran, fun q => ?_, unrolled.mem⟩
      rw [unrolled.uvpt, World.remove_uvpt]
      grind

/-- One reference to the page `last` is dropped, after the pages of the block before it. -/
structure Dropped (first last : Nat) (entry : Pte) (pages : Nat → Option Pte) (mem : Nat → Page)
    (pages' : Nat → Option Pte) (mem' : Nat → Page) : Prop where
  uvpt : ∀ q, pages' q =
    if first ≤ q ∧ q < last ∨ q = last ∧ refWord (mem entry.ppn) = 1 then none else pages q
  mem : mem' = Function.update mem entry.ppn
    (setRef (mem entry.ppn) (refWord (mem entry.ppn) - 1))

theorem free_drops {v last : Nat} (unmaps : Unmaps answers e) (low : mbegin ≤ v)
    (order : vpn v ≤ last) (high : last < vpn mend) (runs : ∀ q, vpn v ≤ q → q < last → Runs (w.space e).uvpt q)
    (ends : Ends (w.space e).uvpt last entry) (writable : entry.writable = true) :
    ∃ w', free answers e v w = some w' ∧
      Dropped (vpn v) last entry (w.space e).uvpt w.mem (w'.space e).uvpt w'.mem := by
  have bottom : mbegin = 134217728 := rfl
  have top : vpn mend = 65536 := rfl
  have inside : ¬(v < mbegin ∨ mend ≤ v) := by
    have : mend = 268435456 := rfl
    unfold vpn pgSize at order
    omega
  obtain ⟨middle, ran, unrolled⟩ :=
    @freeRun_unrolls answers e w entry (vpn mend - vpn v) _ _ unmaps (by omega) order runs ends
  have there : (middle.space e).uvpt last = some entry := by
    rw [unrolled.uvpt, if_neg (by omega), ends.1]
  unfold free
  rw [if_neg (by omega), if_neg inside, ran, Option.bind_some]
  change ∃ w', ((middle.readWord e (refAt last)).bind fun count =>
    (middle.writeWord answers e (refAt last) (count - 1)).map fun w =>
      if count - 1 = 0 then w.unmap answers e last else w) = some w' ∧ _
  rw [readWord_ref, there, Option.map_some, Option.bind_some, writeWord_ref there writable,
    Option.map_some, unrolled.mem]
  have zero : refWord (w.mem entry.ppn) - 1 = 0 ↔ refWord (w.mem entry.ppn) = 1 := by
    generalize refWord (w.mem entry.ppn) = word
    constructor <;> intro same <;> bv_omega
  have stored : ∀ page, (middle.store entry.ppn page).mem =
      Function.update w.mem entry.ppn page := by
    intro page
    rw [← unrolled.mem]
    rfl
  refine ⟨_, rfl, fun q => ?_, ?_⟩
  · split
    · rename_i none
      rw [unmaps.unmap, World.remove_uvpt]
      change (if _ then _ else (middle.space e).uvpt q) = _
      rw [unrolled.uvpt]
      have one := zero.mp none
      grind
    · rename_i some
      change (middle.space e).uvpt q = _
      rw [unrolled.uvpt]
      have more := mt zero.mpr some
      grind
  · split
    · rw [unmaps.unmap]
      exact stored _
    · exact stored _

theorem page_of {base i : Nat} : vpn (base + i * pgSize) = vpn base + i := by
  simp only [vpn, pgSize]
  omega

theorem isfree_iff {v n : Nat} : isfree (w.space e) v n = true ↔
    ∀ i, i < (n + pgSize - 1) / pgSize →
      v + i * pgSize < mend ∧ (w.space e).uvpt (vpn v + i) = none := by
  have tabled : ∀ i entry, (w.space e).uvpt (vpn v + i) = some entry →
      (w.space e).uvpd ((v + i * pgSize) / ptSize) = true := by
    intro i entry found
    have table : (v + i * pgSize) / ptSize = vpn (v + i * pgSize) / 512 :=
      (Nat.div_div_eq_div_mul _ _ _).symm
    rw [table, page_of]
    exact ((w.space e).tabled _ _ found).2.2
  unfold isfree
  rw [List.all_eq_true]
  refine forall_congr' fun i => ?_
  rw [List.mem_range]
  refine imp_congr_right fun _ => ?_
  dsimp only
  rw [page_of, Bool.and_eq_true, decide_eq_true_iff]
  refine and_congr_right fun _ => ?_
  cases found : (w.space e).uvpt (vpn v + i) with
  | none => simp
  | some entry => simp [tabled i entry found]

/-- The permission of page `i` of a block of `n` bytes. -/
def blockPerm (n i : Nat) : BitVec 12 :=
  permPrivate ||| if (i + 1) * pgSize < n + 4 then pteContinued else 0

/-- The pages `i` to `i + left - 1` of a block of `n` bytes are new. -/
structure Granted (e base n i left : Nat) (w w' : World) : Prop where
  uvpt : ∀ q, (w'.space e).uvpt q =
    if vpn base + i ≤ q ∧ q < vpn base + i + left then
      some ⟨w.next + (q - (vpn base + i)), blockPerm n (q - vpn base) ||| pteP⟩
    else (w.space e).uvpt q
  mem : w'.mem = w.mem

structure Refused (e base i left : Nat) (w w' : World) : Prop where
  uvpt : ∃ k, i ≤ k ∧ k < i + left ∧ ∀ q, (w'.space e).uvpt q =
    if vpn base ≤ q ∧ q ≤ vpn base + k then none else (w.space e).uvpt q
  mem : w'.mem = w.mem

theorem unwind_spec {base i : Nat} (unmaps : Unmaps answers e) :
    (∀ q, ((unwind answers e base i w).space e).uvpt q =
      if vpn base ≤ q ∧ q < vpn base + i then none else (w.space e).uvpt q) ∧
    (unwind answers e base i w).mem = w.mem := by
  induction i generalizing w with
  | zero =>
    refine ⟨fun q => ?_, rfl⟩
    rw [if_neg (by omega)]
    rfl
  | succ i ih =>
    unfold unwind
    rw [unmaps.unmap, page_of]
    refine ⟨fun q => ?_, ih.2⟩
    rw [ih.1, World.remove_uvpt]
    grind

theorem mallocPages_succ {base n left i : Nat} :
    mallocPages answers e base n (left + 1) i w =
      if answers (.pageAlloc e (vpn base + i) (blockPerm n i)) < 0 then
        (false, unwind answers e base (i + 1) w)
      else mallocPages answers e base n left (i + 1)
        (w.pageAlloc e (vpn base + i) (blockPerm n i)) := by
  rw [← page_of]
  rfl

theorem mallocPages_spec {base n left i : Nat} (unmaps : Unmaps answers e) :
    (∃ w', mallocPages answers e base n left i w = (true, w') ∧ Granted e base n i left w w') ∨
    ∃ w', mallocPages answers e base n left i w = (false, w') ∧ Refused e base i left w w' := by
  induction left generalizing i w with
  | zero =>
    refine .inl ⟨w, rfl, fun q => ?_, rfl⟩
    rw [if_neg (by omega)]
  | succ left ih =>
    rw [mallocPages_succ]
    split
    · obtain ⟨uvpt, mem⟩ := @unwind_spec answers e w base (i + 1) unmaps
      refine .inr ⟨_, rfl, ⟨i, le_rfl, by omega, fun q => ?_⟩, mem⟩
      rw [uvpt]
      exact if_congr (by omega) rfl rfl
    · have next : (w.pageAlloc e (vpn base + i) (blockPerm n i)).next = w.next + 1 := rfl
      rcases @ih (w.pageAlloc e (vpn base + i) (blockPerm n i)) (i + 1) with
        ⟨w', ran, granted⟩ | ⟨w', ran, refused⟩
      · refine .inl ⟨w', ran, fun q => ?_, granted.mem⟩
        rw [granted.uvpt, World.pageAlloc_uvpt, next]
        rcases Nat.lt_trichotomy q (vpn base + i) with before | rfl | after
        · rw [if_neg (by omega), if_neg (by omega), if_neg (by omega)]
        · rw [if_neg (by omega), if_pos ⟨rfl, rfl⟩, if_pos (by omega), Nat.sub_self,
            Nat.add_sub_cancel_left]
          rfl
        · have frame : w.next + 1 + (q - (vpn base + (i + 1))) = w.next + (q - (vpn base + i)) := by
            omega
          have other : ¬(e = e ∧ q = vpn base + i) := fun both => by omega
          rw [if_neg other, frame]
          exact if_congr (by omega) rfl rfl
      · obtain ⟨⟨k, low, high, uvpt⟩, mem⟩ := refused
        refine .inr ⟨w', ran, ⟨k, by omega, by omega, fun q => ?_⟩, mem⟩
        rw [uvpt, World.pageAlloc_uvpt]
        split
        · rfl
        · rw [if_neg (by omega)]

end Pages

end Jos.Malloc
