import Jos.Lib.Refs

/-! How the blocks of `malloc` lie in the pages of the heap, and what the reference
words of the pages count. -/

set_option autoImplicit false

namespace Jos.Malloc

/-- A block that `malloc` returned for `asked` bytes. -/
structure Block where
  base : Nat
  asked : Nat
deriving DecidableEq

namespace Block

def size (b : Block) : Nat := mallocSize b.asked

def last (b : Block) : Nat := vpn (b.base + b.size + 3)

def Holds (b : Block) (va : Nat) : Prop := b.base ≤ va ∧ va < b.base + b.size

structure Apart (b c : Block) : Prop where
  bytes : b.base + b.size ≤ c.base ∨ c.base + c.size ≤ b.base
  pages : ∀ q, ¬((vpn b.base ≤ q ∧ q < b.last) ∧ vpn c.base ≤ q ∧ q < c.last)

theorem Apart.symm {b c : Block} (apart : b.Apart c) : c.Apart b :=
  ⟨apart.bytes.symm, fun q both => apart.pages q both.symm⟩

end Block

def InHeap (pn : Nat) : Prop := vpn mbegin ≤ pn ∧ pn < vpn mend

/-- An entry as `malloc` makes it. -/
def Malloced (entry : Pte) : Prop :=
  entry.perm = permPrivate ||| pteContinued ||| pteP ∨ entry.perm = permPrivate ||| 0 ||| pteP

/-- The block lies in pages of the heap, the last of which holds its reference. -/
structure Placed (pages : Nat → Option Pte) (b : Block) : Prop where
  small : b.size < maxMalloc
  level : b.base % 4 = 0
  low : mbegin ≤ b.base
  high : b.last < vpn mend
  runs : ∀ q, vpn b.base ≤ q → q < b.last → Runs pages q
  ends : ∃ entry, Ends pages b.last entry

/-- The place of the blocks in the pages of the heap, with `mptr` at `m`. -/
structure Layout (pages : Nat → Option Pte) (m : Nat) (live : List Block) : Prop where
  malloced : ∀ pn entry, InHeap pn → pages pn = some entry → Malloced entry
  alone : ∀ pn q entry other, InHeap pn → InHeap q → pages pn = some entry →
    pages q = some other → entry.ppn = other.ppn → pn = q
  level : m % 4 = 0
  opened : m % pgSize ≠ 0 → InHeap (vpn m) ∧ ∃ entry, Ends pages (vpn m) entry
  beneath : m % pgSize ≠ 0 → ∀ b ∈ live, b.last = vpn m → b.base + b.size ≤ m
  placed : ∀ b ∈ live, Placed pages b
  apart : live.Pairwise Block.Apart
  owned : ∀ pn, InHeap pn → Runs pages pn → ∃ b ∈ live, vpn b.base ≤ pn ∧ pn < b.last

def ending (live : List Block) (pn : Nat) : Nat := live.countP fun b => b.last = pn

/-- `mptr` is in the page, and not at its start. -/
def Inside (m pn : Nat) : Prop := m % pgSize ≠ 0 ∧ vpn m = pn

instance (m pn : Nat) : Decidable (Inside m pn) := inferInstanceAs (Decidable (_ ∧ _))

/-- The references to a page: those of blocks, that of `mptr` and those which nothing drops. -/
def refs (stale : Nat → Nat) (m : Nat) (live : List Block) (pn : Nat) : Nat :=
  ending live pn + (if Inside m pn then 1 else 0) + stale pn

abbrev Limit := {n : Nat // 2 ≤ n ∧ n ≤ 2 ^ 32}

/-- As many as a reference word can come back from: with 2^32 of them it is zero. -/
def full : Limit := ⟨2 ^ 32, by decide⟩

def exact : Limit := ⟨2 ^ 32 - 1, by decide⟩

structure Counting (limit : Limit) (word : BitVec 32) (k : Nat) : Prop where
  word : word = BitVec.ofNat 32 k
  used : 0 < k
  bound : k ≤ limit.val

structure Counts (limit : Limit) (pages : Nat → Option Pte) (mem : Nat → Page) (stale : Nat → Nat) (m : Nat)
    (live : List Block) : Prop where
  word : ∀ pn entry, InHeap pn → Ends pages pn entry →
    Counting limit (refWord (mem entry.ppn)) (refs stale m live pn)
  current : ∀ pn, Inside m pn → stale pn = 0

section

variable {pages pages' : Nat → Option Pte} {mem : Nat → Page} {stale stale' : Nat → Nat}
  {m m' n pn va : Nat} {live live' : List Block} {b c : Block} {entry : Pte}
  {limit : Limit} {word : BitVec 32} {k : Nat}

theorem Malloced.writable (malloced : Malloced entry) : entry.writable = true := by
  obtain ⟨ppn, perm⟩ := entry
  obtain rfl | rfl := malloced
  · rw [writable_or]
    decide
  · rw [writable_or]
    decide

theorem Placed.inHeap (placed : Placed pages b) {q : Nat} (low : vpn b.base ≤ q)
    (high : q ≤ b.last) : InHeap q := by
  have start := placed.low
  have stop := placed.high
  unfold InHeap
  simp only [vpn, mbegin, pgSize] at *
  omega

theorem Block.base_le_last : vpn b.base ≤ b.last := by
  unfold Block.last vpn
  exact Nat.div_le_div_right (by omega)

theorem Block.end_le : b.base + b.size + 4 ≤ (b.last + 1) * pgSize := by
  unfold Block.last vpn pgSize
  omega

theorem Placed.found (placed : Placed pages b) {q : Nat} (low : vpn b.base ≤ q)
    (high : q ≤ b.last) : ∃ entry, pages q = some entry := by
  rcases Nat.eq_or_lt_of_le high with rfl | before
  · obtain ⟨entry, found, -⟩ := placed.ends
    exact ⟨entry, found⟩
  · obtain ⟨entry, found, -⟩ := placed.runs q low before
    exact ⟨entry, found⟩

theorem Placed.last_of_ends (placed : Placed pages b) (ends : Ends pages pn entry)
    (low : vpn b.base ≤ pn) (high : pn ≤ b.last) : b.last = pn := by
  rcases Nat.eq_or_lt_of_le high with same | before
  · exact same.symm
  · exact absurd ends (placed.runs pn low before).not_ends

theorem Placed.transport (placed : Placed pages b)
    (same : ∀ q, vpn b.base ≤ q → q ≤ b.last → pages' q = pages q) : Placed pages' b := by
  obtain ⟨entry, found, fixed⟩ := placed.ends
  exact {
    small := placed.small
    level := placed.level
    low := placed.low
    high := placed.high
    runs := fun q low high => (placed.runs q low high).transport (same q low high.le)
    ends := ⟨entry, (same _ Block.base_le_last le_rfl).trans found, fixed⟩ }

/-- A block that ends in the page of `mptr` or elsewhere is apart from a block at `mptr`. -/
theorem Layout.apart_here (layout : Layout pages m live) (open' : m % pgSize ≠ 0)
    (fits : vpn (m + mallocSize n + 3) = vpn m) (member : b ∈ live) : Block.Apart ⟨m, n⟩ b := by
  obtain ⟨-, entry, ends⟩ := layout.opened open'
  have placed := layout.placed b member
  have stop : m + mallocSize n + 4 ≤ (vpn m + 1) * pgSize := by
    unfold vpn pgSize at fits ⊢
    omega
  refine ⟨?_, fun q both => ?_⟩
  · rcases Nat.lt_or_ge (vpn m) (vpn b.base) with above | above
    · left
      change m + mallocSize n ≤ b.base
      unfold vpn pgSize at *
      omega
    right
    change b.base + b.size ≤ m
    rcases Nat.lt_or_ge b.last (vpn m) with below | below
    · have finish := @Block.end_le b
      unfold vpn pgSize at *
      omega
    · exact layout.beneath open' b member (placed.last_of_ends ends above below)
  · have single : Block.last ⟨m, n⟩ = vpn m := fits
    have start : vpn (Block.base ⟨m, n⟩) = vpn m := rfl
    omega

/-- A block at `mptr`, in the page of `mptr`. -/
theorem Layout.extend (layout : Layout pages m live) (open' : m % pgSize ≠ 0)
    (fits : vpn (m + mallocSize n + 3) = vpn m) (small : mallocSize n < maxMalloc) :
    Layout pages (m + mallocSize n) (⟨m, n⟩ :: live) := by
  obtain ⟨heap, entry, ends⟩ := layout.opened open'
  have level := layout.level
  have size : mallocSize n % 4 = 0 := Nat.mul_mod_left ..
  have page : vpn (m + mallocSize n) = vpn m := by
    unfold vpn pgSize at *
    omega
  have single : Block.last ⟨m, n⟩ = vpn m := fits
  exact {
    malloced := layout.malloced
    alone := layout.alone
    level := by omega
    opened := fun _ => page ▸ ⟨heap, entry, ends⟩
    beneath := by
      intro _ b member same
      rcases List.mem_cons.mp member with rfl | member
      · exact le_rfl
      · exact (layout.beneath open' b member (same.trans page)).trans (Nat.le_add_right ..)
    placed := by
      intro b member
      rcases List.mem_cons.mp member with rfl | member
      · exact {
          small := small
          level := level
          low := by
            have low := heap.1
            change mbegin ≤ m
            unfold vpn pgSize mbegin at *
            omega
          high := single ▸ heap.2
          runs := fun q low high => absurd (Nat.lt_of_le_of_lt low (single ▸ high)) (lt_irrefl _)
          ends := ⟨entry, single ▸ ends⟩ }
      · exact layout.placed b member
    apart := List.pairwise_cons.mpr
      ⟨fun b member => layout.apart_here open' fits member, layout.apart⟩
    owned := by
      intro pn heap runs
      obtain ⟨b, member, range⟩ := layout.owned pn heap runs
      exact ⟨b, List.mem_cons_of_mem _ member, range⟩ }

theorem Layout.prune (layout : Layout pages m live)
    (sub : ∀ q entry, pages' q = some entry → pages q = some entry)
    (fewer : live'.Sublist live) (level : m' % 4 = 0)
    (kept : ∀ b ∈ live', ∀ q, vpn b.base ≤ q → q ≤ b.last → pages' q = pages q)
    (current : m' % pgSize ≠ 0 → m' = m ∧ pages' (vpn m) = pages (vpn m))
    (owned : ∀ b ∈ live, ∀ pn, Runs pages' pn → vpn b.base ≤ pn → pn < b.last → b ∈ live') :
    Layout pages' m' live' where
  malloced pn entry heap found := layout.malloced pn entry heap (sub pn entry found)
  alone pn q entry other heap heap' found found' :=
    layout.alone pn q entry other heap heap' (sub pn entry found) (sub q other found')
  level := level
  opened open' := by
    obtain ⟨rfl, same⟩ := current open'
    obtain ⟨heap, entry, found, fixed⟩ := layout.opened open'
    exact ⟨heap, entry, same.trans found, fixed⟩
  beneath open' b member same := by
    obtain ⟨rfl, -⟩ := current open'
    exact layout.beneath open' b (fewer.subset member) same
  placed b member := (layout.placed b (fewer.subset member)).transport (kept b member)
  apart := layout.apart.sublist fewer
  owned pn heap runs := by
    have before : Runs pages pn := by
      obtain ⟨entry, found, continued⟩ := runs
      exact ⟨entry, sub pn entry found, continued⟩
    obtain ⟨b, member, low, high⟩ := layout.owned pn heap before
    exact ⟨b, owned b member pn runs low high, low, high⟩

theorem continued_blockPerm {ppn size i : Nat} :
    (⟨ppn, blockPerm size i ||| pteP⟩ : Pte).continued = decide ((i + 1) * pgSize < size + 4) := by
  unfold Pte.continued blockPerm
  split
  · rename_i more
    rw [decide_eq_true more]
    change (permPrivate ||| pteContinued ||| pteP).getLsbD 10 = true
    decide
  · rename_i less
    rw [decide_eq_false less]
    change (permPrivate ||| 0 ||| pteP).getLsbD 10 = false
    decide

theorem malloced_blockPerm {ppn size i : Nat} : Malloced ⟨ppn, blockPerm size i ||| pteP⟩ := by
  unfold blockPerm
  split
  · exact .inl rfl
  · exact .inr rfl

/-- The pages of a new block at `base`, in the frames from `first` on. -/
structure Taken (base n first : Nat) (pages pages' : Nat → Option Pte) : Prop where
  aligned : base % pgSize = 0
  low : mbegin ≤ base
  small : mallocSize n < maxMalloc
  high : (Block.mk base n).last < vpn mend
  fresh : ∀ q, vpn base ≤ q → q ≤ (Block.mk base n).last → pages q = none
  frames : ∀ q entry, pages q = some entry → entry.ppn < first
  uvpt : ∀ q, pages' q = if vpn base ≤ q ∧ q ≤ (Block.mk base n).last then
      some ⟨first + (q - vpn base), blockPerm (mallocSize n) (q - vpn base) ||| pteP⟩
    else pages q

section Taking

variable {base first : Nat} (taken : Taken base n first pages pages')
include taken

theorem Taken.last : (Block.mk base n).last = vpn base + (mallocSize n + 3) / pgSize := by
  have aligned := taken.aligned
  unfold Block.last Block.size
  simp only [vpn, pgSize] at *
  omega

theorem Taken.runs {q : Nat} (low : vpn base ≤ q) (high : q < (Block.mk base n).last) :
    Runs pages' q := by
  refine ⟨_, (taken.uvpt q).trans (if_pos ⟨low, high.le⟩), ?_⟩
  rw [continued_blockPerm, decide_eq_true_iff]
  rw [taken.last] at high
  unfold pgSize at *
  omega

theorem Taken.ends : Ends pages' (Block.mk base n).last
    ⟨first + (mallocSize n + 3) / pgSize, blockPerm (mallocSize n) ((mallocSize n + 3) / pgSize) |||
      pteP⟩ := by
  have there := taken.uvpt (Block.mk base n).last
  rw [if_pos ⟨@Block.base_le_last ⟨base, n⟩, le_rfl⟩, taken.last, Nat.add_sub_cancel_left] at there
  refine ⟨taken.last ▸ there, ?_⟩
  rw [continued_blockPerm, decide_eq_false_iff_not]
  unfold pgSize
  omega

theorem Taken.old {q : Nat} (there : pages q = some entry) : pages' q = some entry := by
  rw [taken.uvpt, if_neg, there]
  rintro ⟨low, high⟩
  rw [taken.fresh q low high] at there
  cases there

theorem Taken.outside (placed : Placed pages b) {q : Nat} (low : vpn b.base ≤ q) (high : q ≤ b.last) :
    ¬(vpn base ≤ q ∧ q ≤ (Block.mk base n).last) := by
  rintro ⟨above, below⟩
  obtain ⟨entry, found⟩ := placed.found low high
  rw [taken.fresh q above below] at found
  cases found

theorem Taken.apart (placed : Placed pages b) : Block.Apart ⟨base, n⟩ b := by
  have order := @Block.base_le_last b
  have order' : vpn base ≤ (Block.mk base n).last := @Block.base_le_last ⟨base, n⟩
  refine ⟨?_, fun q both => taken.outside placed both.2.1 both.2.2.le ⟨both.1.1, both.1.2.le⟩⟩
  have finish := @Block.end_le b
  have finish' := @Block.end_le ⟨base, n⟩
  change base + (Block.mk base n).size + 4 ≤ _ at finish'
  change base + (Block.mk base n).size ≤ b.base ∨ b.base + b.size ≤ base
  rcases Nat.lt_or_ge (Block.mk base n).last (vpn b.base) with above | above
  · left
    unfold vpn pgSize at *
    omega
  rcases Nat.lt_or_ge b.last (vpn base) with below | below
  · right
    unfold vpn pgSize at *
    omega
  -- The later of the two first pages is in both blocks.
  exfalso
  rcases Nat.le_total (vpn base) (vpn b.base) with later | later
  · exact taken.outside placed le_rfl order ⟨later, above⟩
  · exact taken.outside placed later below ⟨le_rfl, order'⟩

/-- The page at the end of the block is that of `mptr`, unless `mptr` is at its start. -/
theorem Taken.page (open' : (base + mallocSize n) % pgSize ≠ 0) :
    vpn (base + mallocSize n) = (Block.mk base n).last := by
  have size : mallocSize n % 4 = 0 := Nat.mul_mod_left ..
  have aligned := taken.aligned
  have unlevel : ¬(base + mallocSize n) % 4096 = 0 := open'
  rw [taken.last]
  unfold pgSize at aligned
  unfold vpn pgSize
  omega

theorem Taken.inHeap {q : Nat} (low : vpn base ≤ q) (high : q ≤ (Block.mk base n).last) :
    InHeap q := by
  have start := taken.low
  have stop := taken.high
  unfold InHeap
  simp only [vpn, mbegin, pgSize] at *
  omega

theorem Layout.take (layout : Layout pages m live) :
    Layout pages' (base + mallocSize n) (⟨base, n⟩ :: live) := by
  have size : mallocSize n % 4 = 0 := Nat.mul_mod_left ..
  have aligned := taken.aligned
  have new : ∀ q entry, pages' q = some entry →
      (vpn base ≤ q ∧ q ≤ (Block.mk base n).last) ∧ entry =
        ⟨first + (q - vpn base), blockPerm (mallocSize n) (q - vpn base) ||| pteP⟩ ∨
      pages q = some entry := by
    intro q entry found
    rw [taken.uvpt] at found
    split at found
    · exact .inl ⟨‹_›, (Option.some.inj found).symm⟩
    · exact .inr found
  exact {
    malloced := by
      intro pn entry heap found
      obtain ⟨-, rfl⟩ | old := new pn entry found
      · exact malloced_blockPerm
      · exact layout.malloced pn entry heap old
    alone := by
      intro pn q entry other heap heap' found found' same
      obtain ⟨range, rfl⟩ | old := new pn entry found <;>
        obtain ⟨range', rfl⟩ | old' := new q other found'
      · dsimp only at same
        omega
      · have bound := taken.frames q other old'
        dsimp only at same
        omega
      · have bound := taken.frames pn entry old
        dsimp only at same
        omega
      · exact layout.alone pn q entry other heap heap' old old' same
    level := by
      unfold pgSize at aligned
      omega
    opened := by
      intro open'
      rw [taken.page open']
      exact ⟨taken.inHeap (@Block.base_le_last ⟨base, n⟩) le_rfl, _, taken.ends⟩
    beneath := by
      rintro open' b member same
      rcases List.mem_cons.mp member with rfl | member
      · exact le_rfl
      · rw [taken.page open'] at same
        exact absurd ⟨same ▸ @Block.base_le_last ⟨base, n⟩, same.le⟩
          (taken.outside (layout.placed b member) Block.base_le_last le_rfl)
    placed := by
      intro b member
      rcases List.mem_cons.mp member with rfl | member
      · exact {
          small := taken.small
          level := by
            change base % 4 = 0
            unfold pgSize at aligned
            omega
          low := taken.low
          high := taken.high
          runs := fun q low high => taken.runs low high
          ends := ⟨_, taken.ends⟩ }
      · have placed := layout.placed b member
        refine placed.transport fun q low high => ?_
        rw [taken.uvpt, if_neg (taken.outside placed low high)]
    apart := List.pairwise_cons.mpr
      ⟨fun b member => taken.apart (layout.placed b member), layout.apart⟩
    owned := by
      intro pn heap runs
      obtain ⟨entry, found, continued⟩ := runs
      obtain ⟨range, rfl⟩ | old := new pn entry found
      · refine ⟨_, List.mem_cons_self, range.1, ?_⟩
        rcases Nat.eq_or_lt_of_le range.2 with rfl | before
        · exact absurd taken.ends (Runs.not_ends ⟨_, found, continued⟩)
        · exact before
      · obtain ⟨b, member, place⟩ := layout.owned pn heap ⟨entry, old, continued⟩
        exact ⟨b, List.mem_cons_of_mem _ member, place⟩ }

end Taking

theorem Counts.set {pn₀ : Nat} (counts : Counts limit pages mem stale m live)
    (layout : Layout pages m live) (heap₀ : InHeap pn₀) (ends₀ : Ends pages pn₀ entry)
    (sub : ∀ q entry, pages' q = some entry → pages q = some entry)
    (other : ∀ pn, pn ≠ pn₀ → refs stale m' live' pn = refs stale m live pn)
    (here : pages' pn₀ = some entry → Counting limit word (refs stale m' live' pn₀))
    (current : ∀ pn, Inside m' pn → stale pn = 0) :
    Counts limit pages' (Function.update mem entry.ppn (setRef (mem entry.ppn) word)) stale m' live' where
  word pn entry' heap ends := by
    have before := sub pn entry' ends.1
    by_cases same : pn = pn₀
    · subst same
      cases before.symm.trans ends₀.1
      rw [Function.update_self, refWord_setRef]
      exact here ends.1
    · have apart : entry'.ppn ≠ entry.ppn := fun equal =>
        same (layout.alone pn pn₀ entry' entry heap heap₀ before ends₀.1 equal)
      rw [Function.update_of_ne apart, other pn same]
      exact counts.word pn entry' heap ⟨before, ends.2⟩
  current := current

theorem ending_cons {pn : Nat} :
    ending (b :: live) pn = ending live pn + if b.last = pn then 1 else 0 := by
  unfold ending
  rw [List.countP_cons]
  simp only [decide_eq_true_eq]

theorem ending_erase {pn : Nat} (member : b ∈ live) :
    ending live pn = ending (live.erase b) pn + if b.last = pn then 1 else 0 := by
  rw [← ending_cons]
  exact (List.perm_cons_erase member).countP_eq _

theorem ending_pos {pn : Nat} : 0 < ending live pn ↔ ∃ b ∈ live, b.last = pn := by
  unfold ending
  rw [List.countP_pos_iff]
  simp only [decide_eq_true_eq]

theorem Counts.take {base first : Nat} (counts : Counts limit pages mem stale m live)
    (layout : Layout pages m live) (aligned : m % pgSize = 0)
    (taken : Taken base n first pages pages') :
    Counts limit pages'
      (Function.update mem (first + (mallocSize n + 3) / pgSize)
        (setRef (mem (first + (mallocSize n + 3) / pgSize)) 2))
      (Function.update stale (Block.mk base n).last
        (if mallocSize n % pgSize = 0 then 1 else 0))
      (base + mallocSize n) (⟨base, n⟩ :: live) := by
  have order := @Block.base_le_last ⟨base, n⟩
  have fresh := taken.fresh _ order le_rfl
  have level := taken.aligned
  have none : ending live (Block.mk base n).last = 0 := by
    refine Nat.eq_zero_of_not_pos fun some => ?_
    obtain ⟨b, member, same⟩ := ending_pos.mp some
    obtain ⟨entry, found, -⟩ := (layout.placed b member).ends
    rw [same, fresh] at found
    cases found
  have size : (base + mallocSize n) % pgSize = 0 ↔ mallocSize n % pgSize = 0 := by
    unfold pgSize at *
    omega
  have inside : ∀ pn, Inside (base + mallocSize n) pn ↔
      mallocSize n % pgSize ≠ 0 ∧ pn = (Block.mk base n).last := by
    intro pn
    constructor
    · rintro ⟨open', rfl⟩
      exact ⟨mt size.mpr open', taken.page open'⟩
    · rintro ⟨open', rfl⟩
      exact ⟨mt size.mp open', taken.page (mt size.mp open')⟩
  have here : refs (Function.update stale (Block.mk base n).last
      (if mallocSize n % pgSize = 0 then 1 else 0)) (base + mallocSize n) (⟨base, n⟩ :: live)
      (Block.mk base n).last = 2 := by
    unfold refs
    rw [ending_cons, none, if_pos rfl, Function.update_self]
    by_cases level : mallocSize n % pgSize = 0
    · rw [if_pos level, if_neg fun within => ((inside _).mp within).1 level]
    · rw [if_neg level, if_pos ((inside _).mpr ⟨level, rfl⟩)]
  have other : ∀ pn, pn ≠ (Block.mk base n).last → refs (Function.update stale
      (Block.mk base n).last (if mallocSize n % pgSize = 0 then 1 else 0)) (base + mallocSize n)
      (⟨base, n⟩ :: live) pn = refs stale m live pn := by
    intro pn differ
    unfold refs
    rw [ending_cons, if_neg differ.symm, Function.update_of_ne differ,
      if_neg fun within => differ ((inside pn).mp within).2,
      if_neg fun within : Inside m pn => within.1 aligned]
  have old : ∀ pn entry, pn ≠ (Block.mk base n).last → Ends pages' pn entry →
      Ends pages pn entry := by
    intro pn entry differ ends
    by_cases range : vpn base ≤ pn ∧ pn ≤ (Block.mk base n).last
    · exact absurd ends (taken.runs range.1 (Nat.lt_of_le_of_ne range.2 differ)).not_ends
    · refine ⟨?_, ends.2⟩
      rw [← ends.1, taken.uvpt, if_neg range]
  refine ⟨fun pn entry heap ends => ?_, fun pn within => ?_⟩
  · by_cases same : pn = (Block.mk base n).last
    · subst same
      cases ends.1.symm.trans taken.ends.1
      rw [here, Function.update_self, refWord_setRef]
      exact ⟨rfl, by decide, limit.property.1⟩
    · have before := old pn entry same ends
      have apart : entry.ppn ≠ first + (mallocSize n + 3) / pgSize :=
        (Nat.lt_of_lt_of_le (taken.frames pn entry before.1) (Nat.le_add_right ..)).ne
      rw [other pn same, Function.update_of_ne apart]
      exact counts.word pn entry heap before
  · obtain ⟨open', rfl⟩ := (inside pn).mp within
    rw [Function.update_self, if_neg open']

/-- The state of the heap, with the references that `stale` says nothing drops. -/
structure Heaped (limit : Limit) (pages : Nat → Option Pte) (mem : Nat → Page) (stale : Nat → Nat) (m : Nat)
    (live : List Block) : Prop where
  layout : Layout pages m live
  counts : Counts limit pages mem stale m live

def Keeps (pages : Nat → Option Pte) (mem : Nat → Page) (pages' : Nat → Option Pte)
    (mem' : Nat → Page) (live : List Block) : Prop :=
  ∀ b ∈ live, ∀ va, b.Holds va → ∃ entry, pages (vpn va) = some entry ∧
    pages' (vpn va) = some entry ∧ mem' entry.ppn (pgOff va) = mem entry.ppn (pgOff va)

theorem Keeps.trans {pages'' : Nat → Option Pte} {mem' mem'' : Nat → Page}
    (first : Keeps pages mem pages' mem' live) (second : Keeps pages' mem' pages'' mem'' live) :
    Keeps pages mem pages'' mem'' live := by
  intro b member va holds
  obtain ⟨entry, before, between, same⟩ := first b member va holds
  obtain ⟨other, between', after, same'⟩ := second b member va holds
  cases between.symm.trans between'
  exact ⟨entry, before, after, same'.trans same⟩

theorem Block.Holds.page (holds : b.Holds va) :
    vpn b.base ≤ vpn va ∧ vpn va ≤ b.last := by
  obtain ⟨low, high⟩ := holds
  unfold Block.last vpn
  exact ⟨Nat.div_le_div_right low, Nat.div_le_div_right (by omega)⟩

theorem Placed.below_ref (placed : Placed pages b) (holds : b.Holds va)
    (ends : Ends pages (vpn va) entry) : (pgOff va).val < 4092 := by
  obtain ⟨low, high⟩ := holds.page
  have same := placed.last_of_ends ends low high
  have finish := @Block.end_le b
  have inside := holds.2
  rw [same] at finish
  simp only [pgOff, Fin.ofNat, vpn, pgSize] at *
  omega

/-- The blocks keep their bytes where their pages stay and one reference word is set. -/
theorem Keeps.set {pn₀ : Nat} {word : BitVec 32} (layout : Layout pages m live)
    (fewer : live'.Sublist live)
    (kept : ∀ b ∈ live', ∀ q, vpn b.base ≤ q → q ≤ b.last → pages' q = pages q)
    (heap₀ : InHeap pn₀) (ends₀ : Ends pages pn₀ entry) :
    Keeps pages mem pages' (Function.update mem entry.ppn (setRef (mem entry.ppn) word)) live' := by
  intro b member va holds
  have placed := layout.placed b (fewer.subset member)
  obtain ⟨low, high⟩ := holds.page
  obtain ⟨found, there⟩ := placed.found low high
  refine ⟨found, there, (kept b member _ low high).trans there, ?_⟩
  by_cases same : found.ppn = entry.ppn
  · have page := layout.alone _ pn₀ found entry (placed.inHeap low high) heap₀ there ends₀.1 same
    rw [same, Function.update_self, setRef_other (placed.below_ref holds (page ▸ ends₀))]
  · rw [Function.update_of_ne same]

theorem Keeps.take {base first : Nat} {page : Page} (layout : Layout pages m live)
    (taken : Taken base n first pages pages') {frame : Nat} (new : first ≤ frame) :
    Keeps pages mem pages' (Function.update mem frame page) live := by
  intro b member va holds
  have placed := layout.placed b member
  obtain ⟨low, high⟩ := holds.page
  obtain ⟨found, there⟩ := placed.found low high
  refine ⟨found, there, taken.old there, ?_⟩
  rw [Function.update_of_ne (Nat.lt_of_lt_of_le (taken.frames _ _ there) new).ne]

theorem Counting.succ (counting : Counting limit word k) (room : k + 1 ≤ limit.val) :
    Counting limit (word + 1) (k + 1) :=
  ⟨counting.word ▸ (BitVec.ofNat_add k 1).symm, Nat.succ_pos k, room⟩

theorem Counting.pred (counting : Counting limit word (k + 1)) (used : 0 < k) :
    Counting limit (word - 1) k := by
  refine ⟨?_, used, (Nat.le_succ k).trans counting.bound⟩
  rw [counting.word, BitVec.ofNat_add]
  exact BitVec.add_sub_cancel ..

theorem Counting.eq_one_iff (counting : Counting limit word k) : word = 1 ↔ k = 1 := by
  have bound := counting.bound.trans limit.property.2
  have used := counting.used
  rw [counting.word]
  constructor
  · intro one
    have same : k % 2 ^ 32 = 1 := congrArg BitVec.toNat one
    omega
  · intro one
    rw [one]
    rfl

theorem Counting.toNat (counting : Counting limit word k) (small : k < 2 ^ 32) :
    word.toNat = k := by
  rw [counting.word, BitVec.toNat_ofNat, Nat.mod_eq_of_lt small]

variable {mem' : Nat → Page}

section

variable (heaped : Heaped limit pages mem stale m live)

include heaped

/-- A block goes into the page of `mptr`. -/
theorem Heaped.extend (open' : m % pgSize ≠ 0)
    (fits : vpn (m + mallocSize n + 3) = vpn m) (small : mallocSize n < maxMalloc)
    (few : ending live (vpn m) + 2 ≤ limit.val) (ends : Ends pages (vpn m) entry) :
    Heaped limit pages (Function.update mem entry.ppn
      (setRef (mem entry.ppn) (refWord (mem entry.ppn) + 1))) stale (m + mallocSize n)
      (⟨m, n⟩ :: live) := by
  obtain ⟨heap, -⟩ := heaped.layout.opened open'
  have inside : ∀ pn, Inside (m + mallocSize n) pn ↔ Inside m pn := by
    intro pn
    unfold Inside vpn pgSize at *
    omega
  have single : Block.last ⟨m, n⟩ = vpn m := fits
  have total : refs stale m live (vpn m) = ending live (vpn m) + 1 := by
    unfold refs
    rw [if_pos ⟨open', rfl⟩, heaped.counts.current _ ⟨open', rfl⟩]
  have total' : refs stale (m + mallocSize n) (⟨m, n⟩ :: live) (vpn m) =
      refs stale m live (vpn m) + 1 := by
    unfold refs
    rw [ending_cons, if_pos single, if_congr (inside _) rfl rfl]
    omega
  refine ⟨heaped.layout.extend open' fits small, heaped.counts.set heaped.layout heap ends
    (fun _ _ found => found) (fun pn other => ?_) (fun _ => ?_)
    fun pn within => heaped.counts.current pn ((inside pn).mp within)⟩
  · unfold refs
    rw [ending_cons, if_neg (single ▸ other.symm), if_congr (inside _) rfl rfl, Nat.add_zero]
  · rw [total']
    exact (heaped.counts.word _ _ heap ends).succ (by omega)

/-- `mptr` leaves its page. -/
theorem Heaped.settle (open' : m % pgSize ≠ 0)
    (aligned : m' % pgSize = 0) (ends : Ends pages (vpn m) entry)
    (dropped : Dropped (vpn m) (vpn m) entry pages mem pages' mem') :
    Heaped limit pages' mem' stale m' live ∧ Keeps pages mem pages' mem' live := by
  obtain ⟨heap, -⟩ := heaped.layout.opened open'
  have word := heaped.counts.word _ _ heap ends
  have total : refs stale m live (vpn m) = ending live (vpn m) + 1 := by
    unfold refs
    rw [if_pos ⟨open', rfl⟩, heaped.counts.current _ ⟨open', rfl⟩]
  have total' : refs stale m' live (vpn m) = ending live (vpn m) := by
    unfold refs
    rw [if_neg fun within : Inside m' _ => within.1 aligned,
      heaped.counts.current _ ⟨open', rfl⟩]
    omega
  have uvpt : ∀ q, pages' q = if q = vpn m ∧ ending live (vpn m) = 0 then none else pages q := by
    intro q
    rw [dropped.uvpt]
    refine if_congr ?_ rfl rfl
    rw [word.eq_one_iff, total]
    omega
  have sub : ∀ q entry, pages' q = some entry → pages q = some entry := by
    intro q entry found
    rw [uvpt] at found
    split at found
    · cases found
    · exact found
  have kept : ∀ b ∈ live, ∀ q, vpn b.base ≤ q → q ≤ b.last → pages' q = pages q := by
    intro b member q low high
    rw [uvpt, if_neg]
    rintro ⟨rfl, none⟩
    have same := (heaped.layout.placed b member).last_of_ends ends low high
    exact absurd none (Nat.ne_of_gt (ending_pos.mpr ⟨b, member, same⟩))
  refine ⟨⟨heaped.layout.prune sub (.refl live) ?_ kept (absurd aligned ·)
    fun b member _ _ _ _ => member, ?_⟩, ?_⟩
  · unfold pgSize at aligned
    omega
  · rw [dropped.mem]
    refine heaped.counts.set heaped.layout heap ends sub (fun pn other => ?_) (fun stays => ?_)
      fun pn within => absurd aligned within.1
    · unfold refs
      rw [if_neg fun within : Inside m' _ => within.1 aligned,
        if_neg fun within : Inside m pn => other within.2.symm]
    · rw [uvpt] at stays
      rw [total] at word
      rw [total']
      split at stays
      · cases stays
      · exact word.pred (by omega)
  · rw [dropped.mem]
    exact Keeps.set heaped.layout (.refl live) kept heap ends

theorem Heaped.release (member : b ∈ live) (ends : Ends pages b.last entry)
    (dropped : Dropped (vpn b.base) b.last entry pages mem pages' mem') :
    Heaped limit pages' mem' stale m (live.erase b) ∧ Keeps pages mem pages' mem' (live.erase b) := by
  have placed := heaped.layout.placed b member
  have heap := placed.inHeap Block.base_le_last le_rfl
  have word := heaped.counts.word _ _ heap ends
  have total : ∀ pn, refs stale m live pn =
      refs stale m (live.erase b) pn + if b.last = pn then 1 else 0 := by
    intro pn
    unfold refs
    rw [ending_erase member]
    omega
  have total' := total b.last
  rw [if_pos rfl] at total'
  have uvpt : ∀ q, pages' q = if vpn b.base ≤ q ∧ q < b.last ∨
      q = b.last ∧ refs stale m (live.erase b) b.last = 0 then none else pages q := by
    intro q
    rw [dropped.uvpt]
    refine if_congr ?_ rfl rfl
    rw [word.eq_one_iff, total']
    omega
  have sub : ∀ q entry, pages' q = some entry → pages q = some entry := by
    intro q entry found
    rw [uvpt] at found
    split at found
    · cases found
    · exact found
  have apart : ∀ c ∈ live.erase b, b.Apart c := by
    have sorted := heaped.layout.apart.perm (List.perm_cons_erase member) Block.Apart.symm
    exact (List.pairwise_cons.mp sorted).1
  have kept : ∀ c ∈ live.erase b, ∀ q, vpn c.base ≤ q → q ≤ c.last → pages' q = pages q := by
    intro c other q low high
    have placed' := heaped.layout.placed c (List.mem_of_mem_erase other)
    rw [uvpt, if_neg]
    rintro (⟨above, below⟩ | ⟨rfl, none⟩)
    · rcases Nat.eq_or_lt_of_le high with rfl | before
      · obtain ⟨end', ends'⟩ := placed'.ends
        exact absurd ends' (placed.runs _ above below).not_ends
      · exact (apart c other).pages q ⟨⟨above, below⟩, low, before⟩
    · have same := placed'.last_of_ends ends low high
      have some := ending_pos.mpr ⟨c, other, same⟩
      unfold refs at none
      omega
  refine ⟨⟨heaped.layout.prune sub List.erase_sublist heaped.layout.level kept (fun open' => ?_)
    fun c there pn runs low high => ?_, ?_⟩, ?_⟩
  · refine ⟨rfl, ?_⟩
    obtain ⟨-, other, found, fixed⟩ := heaped.layout.opened open'
    rw [uvpt, if_neg]
    rintro (⟨above, below⟩ | ⟨same, none⟩)
    · exact absurd ⟨found, fixed⟩ (placed.runs _ above below).not_ends
    · unfold refs at none
      rw [if_pos ⟨open', same⟩] at none
      omega
  · rcases eq_or_ne c b with rfl | differ
    · obtain ⟨entry, found, -⟩ := runs
      rw [uvpt, if_pos (.inl ⟨low, high⟩)] at found
      cases found
    · exact (List.mem_erase_of_ne differ).mpr there
  · rw [dropped.mem]
    refine heaped.counts.set heaped.layout heap ends sub (fun pn other => ?_) (fun stays => ?_)
      heaped.counts.current
    · rw [total pn, if_neg other.symm, Nat.add_zero]
    · rw [uvpt] at stays
      rw [total'] at word
      split at stays
      · cases stays
      · exact word.pred (by omega)
  · rw [dropped.mem]
    exact Keeps.set heaped.layout List.erase_sublist kept heap ends

end

theorem Heaped.take {base first : Nat} (heaped : Heaped limit pages mem stale m live)
    (aligned : m % pgSize = 0) (taken : Taken base n first pages pages') :
    Heaped limit pages'
      (Function.update mem (first + (mallocSize n + 3) / pgSize)
        (setRef (mem (first + (mallocSize n + 3) / pgSize)) 2))
      (Function.update stale (Block.mk base n).last
        (if mallocSize n % pgSize = 0 then 1 else 0))
      (base + mallocSize n) (⟨base, n⟩ :: live) :=
  ⟨heaped.layout.take taken, heaped.counts.take heaped.layout aligned taken⟩

theorem Heaped.write {page : Page} (heaped : Heaped limit pages mem stale m live)
    (found : pages (vpn va) = some entry) (member : b ∈ live) (holds : b.Holds va)
    (same : ∀ off : Fin 4096, off ≠ pgOff va → page off = mem entry.ppn off) :
    Heaped limit pages (Function.update mem entry.ppn page) stale m live := by
  have placed := heaped.layout.placed b member
  obtain ⟨low, high⟩ := holds.page
  refine ⟨heaped.layout, fun pn other heap ends => ?_, heaped.counts.current⟩
  have before := heaped.counts.word pn other heap ends
  suffices kept : refWord (Function.update mem entry.ppn page other.ppn) =
      refWord (mem other.ppn) from kept ▸ before
  by_cases equal : other.ppn = entry.ppn
  · obtain rfl := heaped.layout.alone pn _ other entry heap (placed.inHeap low high) ends.1 found equal
    have below := placed.below_ref holds ends
    have apart : ∀ at' : Nat, 4092 ≤ at' → at' < 4096 → Fin.ofNat 4096 at' ≠ pgOff va := by
      intro at' above small same
      rw [← same] at below
      simp only [Fin.ofNat] at below
      omega
    unfold refWord
    rw [equal, Function.update_self, same _ (apart 4095 (by omega) (by omega)),
      same _ (apart 4094 (by omega) (by omega)), same _ (apart 4093 (by omega) (by omega)),
      same _ (apart 4092 (by omega) (by omega))]
  · rw [Function.update_of_ne equal]

end

end Jos.Malloc
